namespace Tween.Text

inductive Pattern where
  | one (p : Char → Bool)
  | many (p : Char → Bool)
  | seq (first second : Pattern)
  | alt (first second : Pattern)
  | maybe (inner : Pattern)

namespace Pattern

def many1 (p : Char → Bool) : Pattern :=
  .seq (.one p) (.many p)

def takeMany {β : Type} (p : Char → Bool) (next : List Char → Option β) :
    List Char → Option β
  | [] => next []
  | c :: rest =>
    if p c then
      match takeMany p next rest with
      | some b => some b
      | none => next (c :: rest)
    else next (c :: rest)

/-- Matches the pattern at the front of a text and hands what is left to `next`; the answer is
that of the first choice that `next` accepts. -/
def run {β : Type} : Pattern → (List Char → Option β) → List Char → Option β
  | .one p, next, c :: rest => if p c then next rest else none
  | .one _, _, [] => none
  | .many p, next, text => takeMany p next text
  | .seq first second, next, text => first.run (second.run next) text
  | .alt first second, next, text =>
    match first.run next text with
    | some b => some b
    | none => second.run next text
  | .maybe inner, next, text =>
    match inner.run next text with
    | some b => some b
    | none => next text

/-- The texts of a pattern. -/
inductive Matches : Pattern → List Char → Prop
  | one {p c} : p c = true → Matches (.one p) [c]
  | many {p text} : (∀ c ∈ text, p c = true) → Matches (.many p) text
  | seq {first second a b} : Matches first a → Matches second b → Matches (.seq first second) (a ++ b)
  | altLeft {first second a} : Matches first a → Matches (.alt first second) a
  | altRight {first second a} : Matches second a → Matches (.alt first second) a
  | taken {inner a} : Matches inner a → Matches (.maybe inner) a
  | skipped {inner} : Matches (.maybe inner) []

theorem takeMany_eq_some {β : Type} {p : Char → Bool} {next : List Char → Option β}
    {text : List Char} {b : β} (h : takeMany p next text = some b) :
    ∃ a rest, text = a ++ rest ∧ (∀ c ∈ a, p c = true) ∧ next rest = some b := by
  induction text with
  | nil => exact ⟨[], [], rfl, by simp, h⟩
  | cons c rest ih =>
    rw [takeMany] at h
    split at h
    next hc =>
      split at h
      next b' hb =>
        cases h
        obtain ⟨a, r, rfl, ha, hr⟩ := ih hb
        exact ⟨c :: a, r, rfl, by simpa [hc] using ha, hr⟩
      next => exact ⟨[], c :: rest, rfl, by simp, h⟩
    next => exact ⟨[], c :: rest, rfl, by simp, h⟩

theorem takeMany_isSome {β : Type} {p : Char → Bool} {next : List Char → Option β}
    {a rest : List Char} (ha : ∀ c ∈ a, p c = true) (hr : (next rest).isSome) :
    (takeMany p next (a ++ rest)).isSome := by
  induction a with
  | nil =>
    cases rest with
    | nil => exact hr
    | cons c rest =>
      rw [List.nil_append, takeMany]
      split
      · split
        · rfl
        · exact hr
      · exact hr
  | cons c a ih =>
    have hc := ha c List.mem_cons_self
    obtain ⟨b, hb⟩ := Option.isSome_iff_exists.mp (ih fun d hd => ha d (List.mem_cons_of_mem _ hd))
    simp [takeMany, hc, hb]

/-- An answer comes from a text of the pattern and what `next` says of the rest. -/
theorem run_eq_some {β : Type} {pattern : Pattern} {next : List Char → Option β}
    {text : List Char} {b : β} (h : pattern.run next text = some b) :
    ∃ a rest, text = a ++ rest ∧ pattern.Matches a ∧ next rest = some b := by
  induction pattern generalizing next text with
  | one p =>
    cases text with
    | nil => cases h
    | cons c rest =>
      rw [run] at h
      split at h
      next hc => exact ⟨[c], rest, rfl, .one hc, h⟩
      next => cases h
  | many p =>
    obtain ⟨a, rest, ht, ha, hr⟩ := takeMany_eq_some h
    exact ⟨a, rest, ht, .many ha, hr⟩
  | seq first second ih₁ ih₂ =>
    obtain ⟨a, r, rfl, ha, hr⟩ := ih₁ h
    obtain ⟨a', r', rfl, ha', hr'⟩ := ih₂ hr
    exact ⟨a ++ a', r', by simp, .seq ha ha', hr'⟩
  | alt first second ih₁ ih₂ =>
    rw [run] at h
    split at h
    next b' hb =>
      cases h
      obtain ⟨a, r, ht, ha, hr⟩ := ih₁ hb
      exact ⟨a, r, ht, .altLeft ha, hr⟩
    next =>
      obtain ⟨a, r, ht, ha, hr⟩ := ih₂ h
      exact ⟨a, r, ht, .altRight ha, hr⟩
  | maybe inner ih =>
    rw [run] at h
    split at h
    next b' hb =>
      cases h
      obtain ⟨a, r, ht, ha, hr⟩ := ih hb
      exact ⟨a, r, ht, .taken ha, hr⟩
    next => exact ⟨[], text, rfl, .skipped, h⟩

/-- Whatever text of the pattern comes first, there is an answer if `next` accepts the rest. -/
theorem run_isSome {β : Type} {pattern : Pattern} {next : List Char → Option β}
    {a rest : List Char} (ha : pattern.Matches a) (hr : (next rest).isSome) :
    (pattern.run next (a ++ rest)).isSome := by
  induction ha generalizing next rest with
  | one hc => simpa [run, hc] using hr
  | many ha => exact takeMany_isSome ha hr
  | seq _ _ ih₁ ih₂ =>
    rw [List.append_assoc]
    exact ih₁ (ih₂ hr)
  | altLeft _ ih =>
    obtain ⟨b, hb⟩ := Option.isSome_iff_exists.mp (ih hr)
    simp [run, hb]
  | altRight _ ih =>
    rw [run]
    split
    · rfl
    · exact ih hr
  | taken _ ih =>
    obtain ⟨b, hb⟩ := Option.isSome_iff_exists.mp (ih hr)
    simp [run, hb]
  | skipped =>
    rw [run]
    split
    · rfl
    · exact hr

def fits (pattern : Pattern) (text : List Char) : Bool :=
  (pattern.run (fun rest => if rest = [] then some () else none) text).isSome

theorem fits_iff {pattern : Pattern} {text : List Char} :
    pattern.fits text = true ↔ pattern.Matches text := by
  constructor
  · intro h
    obtain ⟨b, hb⟩ := Option.isSome_iff_exists.mp h
    obtain ⟨a, rest, rfl, ha, hr⟩ := run_eq_some hb
    split at hr
    next h => simpa [h] using ha
    next => cases hr
  · intro h
    have hr : (pattern.run (fun rest => if rest = [] then some () else none)
        (text ++ [])).isSome := run_isSome h rfl
    rwa [List.append_nil] at hr

end Pattern

end Tween.Text
