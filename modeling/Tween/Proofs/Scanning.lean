import Tween.Description.Reader

namespace Tween.Text

def Blanks (text : List Char) : Prop :=
  ∀ c ∈ text, isBlank c = true

instance (text : List Char) : Decidable (Blanks text) :=
  List.decidableBAll (isBlank · = true) text

theorem blanks_nil : Blanks [] :=
  fun _ hc => absurd hc List.not_mem_nil

/-- Whether a text is empty or begins with a character outside a class. -/
def Stops (p : Char → Bool) (text : List Char) : Prop :=
  ∀ c ∈ text.head?, p c = false

theorem stops_nil (p : Char → Bool) : Stops p [] :=
  fun _ hc => absurd hc (Option.not_mem_none _)

theorem stops_cons {p : Char → Bool} {c : Char} {rest : List Char} :
    Stops p (c :: rest) ↔ p c = false := by
  simp [Stops]

theorem Stops.mono {p q : Char → Bool} (h : ∀ c, p c = true → q c = true) {text : List Char}
    (hq : Stops q text) : Stops p text := by
  intro c hc
  have := hq c hc
  cases hp : p c with
  | false => rfl
  | true =>
    rw [h c hp] at this
    cases this

theorem Stops.append {p : Char → Bool} {a : List Char} (ha : Stops p a) (hne : a ≠ [])
    (rest : List Char) : Stops p (a ++ rest) := by
  obtain ⟨c, b, rfl⟩ := List.exists_cons_of_ne_nil hne
  exact stops_cons.mpr (stops_cons.mp ha)

theorem stops_of_forall {p : Char → Bool} {a : List Char} (ha : ∀ c ∈ a, p c = false) :
    Stops p a :=
  fun c hc => ha c (List.mem_of_mem_head? hc)

theorem stops_dropWhile (p : Char → Bool) (text : List Char) : Stops p (text.dropWhile p) := by
  intro c hc
  have := List.head?_dropWhile_not p text
  rw [Option.mem_def.mp hc] at this
  simpa using this

theorem dropWhile_append {p : Char → Bool} {a rest : List Char} (ha : ∀ c ∈ a, p c = true)
    (hrest : Stops p rest) : (a ++ rest).dropWhile p = rest := by
  rw [List.dropWhile_append_of_pos ha]
  cases rest with
  | nil => rfl
  | cons c rest => exact List.dropWhile_cons_of_neg (by rw [stops_cons.mp hrest]; simp)

namespace Pattern

variable {β : Type} {next : List Char → Option β}

/-- A repetition takes the longest run of its class, if what follows is accepted. -/
theorem takeMany_append {p : Char → Bool} {a rest : List Char} (ha : ∀ c ∈ a, p c = true)
    (hrest : Stops p rest) (hnext : (next rest).isSome) : takeMany p next (a ++ rest) = next rest := by
  induction a with
  | nil =>
    cases rest with
    | nil => rfl
    | cons c rest => simp [takeMany, stops_cons.mp hrest]
  | cons c a ih =>
    have hc := ha c List.mem_cons_self
    have hrun := ih fun d hd => ha d (List.mem_cons_of_mem _ hd)
    obtain ⟨b, hb⟩ := Option.isSome_iff_exists.mp hnext
    simp only [List.cons_append, takeMany, hc, if_true, hrun, hb]

/-- A repetition takes the longest run of its class, if everything is accepted afterwards. -/
theorem takeMany_of_isSome {p : Char → Bool} (hnext : ∀ rest, (next rest).isSome)
    (text : List Char) : takeMany p next text = next (text.dropWhile p) := by
  have htaken : ∀ c ∈ text.takeWhile p, p c = true := List.all_eq_true.mp List.all_takeWhile
  have := takeMany_append htaken (stops_dropWhile p text) (hnext _)
  rwa [List.takeWhile_append_dropWhile] at this

theorem run_one {p : Char → Bool} {c : Char} (hc : p c = true) (rest : List Char) :
    (one p).run next (c :: rest) = next rest := by
  simp [run, hc]

theorem run_one_of_stops {p : Char → Bool} {text : List Char} (h : Stops p text) :
    (one p).run next text = none := by
  cases text with
  | nil => rfl
  | cons c rest => simp [run, stops_cons.mp h]

theorem run_many1 {p : Char → Bool} {c : Char} {a rest : List Char} (hc : p c = true)
    (ha : ∀ d ∈ a, p d = true) (hrest : Stops p rest) (hnext : (next rest).isSome) :
    (many1 p).run next (c :: (a ++ rest)) = next rest := by
  rw [many1, run, run_one hc, run, takeMany_append ha hrest hnext]

/-- What at least one character leaves, if everything is accepted afterwards. -/
theorem append_of_run_many1 {p : Char → Bool} (hnext : ∀ rest, (next rest).isSome)
    {text : List Char} {b : β} (h : (many1 p).run next text = some b) :
    ∃ a rest, text = a ++ rest ∧ a ≠ [] ∧ (∀ c ∈ a, p c = true) ∧ Stops p rest ∧
      next rest = some b := by
  cases text with
  | nil => cases h
  | cons c text =>
    rw [many1, run, run] at h
    split at h
    next hc =>
      rw [run, takeMany_of_isSome hnext] at h
      refine ⟨c :: text.takeWhile p, text.dropWhile p, ?_, List.cons_ne_nil _ _, ?_,
        stops_dropWhile p text, h⟩
      · rw [List.cons_append, List.takeWhile_append_dropWhile]
      · exact List.forall_mem_cons.mpr ⟨hc, List.all_eq_true.mp List.all_takeWhile⟩
    next => cases h

theorem run_many1_of_stops {p : Char → Bool} {text : List Char} (h : Stops p text) :
    (many1 p).run next text = none := by
  rw [many1, run, run_one_of_stops h]

theorem run_maybe {inner : Pattern} {text rest : List Char}
    (h : inner.run next text = next rest) (hnext : (next rest).isSome) :
    (maybe inner).run next text = next rest := by
  obtain ⟨b, hb⟩ := Option.isSome_iff_exists.mp hnext
  rw [run, h, hb]

theorem run_maybe_of_none {inner : Pattern} {text : List Char} (h : inner.run next text = none) :
    (maybe inner).run next text = next text := by
  rw [run, h]

theorem matches_many1 {p : Char → Bool} {a : List Char} (h : (many1 p).Matches a) :
    ∃ c rest, a = c :: rest ∧ p c = true ∧ ∀ d ∈ rest, p d = true := by
  cases h with
  | seq hone hmany =>
    cases hone with
    | one hc =>
      cases hmany with
      | many hrest => exact ⟨_, _, rfl, hc, hrest⟩

theorem matches_many1_iff {p : Char → Bool} {a : List Char} :
    (many1 p).Matches a ↔ a ≠ [] ∧ ∀ c ∈ a, p c = true := by
  constructor
  · intro h
    obtain ⟨c, rest, rfl, hc, hrest⟩ := matches_many1 h
    exact ⟨List.cons_ne_nil _ _, by simpa [hc] using hrest⟩
  · rintro ⟨hne, hall⟩
    cases a with
    | nil => exact absurd rfl hne
    | cons c rest =>
      rw [List.forall_mem_cons] at hall
      exact .seq (.one hall.1) (.many hall.2)

end Pattern

namespace Numeral

open Pattern

variable {β : Type} {next : List Char → Option β}

def isNumeric (c : Char) : Bool :=
  c.isDigit || isSign c || isPoint c || isExponentMark c

theorem not_digit_of_isPoint {c : Char} (h : isPoint c = true) : c.isDigit = false := by
  rw [of_decide_eq_true h]
  decide

theorem not_digit_of_isSign {c : Char} (h : isSign c = true) : c.isDigit = false := by
  rcases Bool.or_eq_true_iff.mp h with h | h <;> rw [of_decide_eq_true h] <;> decide

theorem not_digit_of_isExponentMark {c : Char} (h : isExponentMark c = true) :
    c.isDigit = false ∧ isPoint c = false := by
  rcases Bool.or_eq_true_iff.mp h with h | h <;> rw [of_decide_eq_true h] <;> decide

theorem not_sign_of_isDigit {c : Char} (h : c.isDigit = true) : isSign c = false := by
  cases hs : isSign c with
  | false => rfl
  | true =>
    rw [not_digit_of_isSign hs] at h
    cases h

theorem not_sign_of_isPoint {c : Char} (h : isPoint c = true) : isSign c = false := by
  rw [of_decide_eq_true h]
  decide

/-- What a mantissa looks like: digits, a point with digits behind it or not, or a point with
digits behind it only. -/
theorem matches_mantissa {a : List Char} (h : mantissa.Matches a) :
    (∃ c d, a = c :: d ∧ c.isDigit = true ∧ ∀ x ∈ d, x.isDigit = true) ∨
    (∃ c d p f, a = c :: (d ++ p :: f) ∧ c.isDigit = true ∧ (∀ x ∈ d, x.isDigit = true) ∧
      isPoint p = true ∧ ∀ x ∈ f, x.isDigit = true) ∨
    ∃ p c f, a = p :: c :: f ∧ isPoint p = true ∧ c.isDigit = true ∧ ∀ x ∈ f, x.isDigit = true := by
  cases h with
  | altLeft h =>
    cases h with
    | seq hwhole h =>
      obtain ⟨c, d, rfl, hc, hd⟩ := matches_many1 hwhole
      cases h with
      | seq hpoint hmany =>
        cases hmany with
        | many hf =>
          cases hpoint with
          | skipped =>
            refine .inl ⟨c, _, rfl, hc, ?_⟩
            simpa using fun x hx => hx.elim (hd x) (hf x)
          | taken hpoint =>
            cases hpoint with
            | one hp => exact .inr (.inl ⟨c, d, _, _, rfl, hc, hd, hp, hf⟩)
  | altRight h =>
    cases h with
    | seq hpoint hdigits =>
      obtain ⟨c, f, rfl, hc, hf⟩ := matches_many1 hdigits
      cases hpoint with
      | one hp => exact .inr (.inr ⟨_, c, f, rfl, hp, hc, hf⟩)

theorem matches_exponent {a : List Char} (h : exponent.Matches a) :
    ∃ e s c d, a = e :: (s ++ c :: d) ∧ isExponentMark e = true ∧
      (s = [] ∨ ∃ x, s = [x] ∧ isSign x = true) ∧ c.isDigit = true ∧ ∀ x ∈ d, x.isDigit = true := by
  cases h with
  | seq hmark h =>
    cases hmark with
    | one he =>
      cases h with
      | seq hsign hdigits =>
        obtain ⟨c, d, rfl, hc, hd⟩ := matches_many1 hdigits
        refine ⟨_, _, c, d, rfl, he, ?_, hc, hd⟩
        cases hsign with
        | skipped => exact .inl rfl
        | taken hsign =>
          cases hsign with
          | one hx => exact .inr ⟨_, rfl, hx⟩

theorem run_mantissa {a rest : List Char} (ha : mantissa.Matches a)
    (hdigit : Stops Char.isDigit rest) (hpoint : Stops isPoint rest) (hnext : (next rest).isSome) :
    mantissa.run next (a ++ rest) = next rest := by
  obtain ⟨b, hb⟩ := Option.isSome_iff_exists.mp hnext
  rcases matches_mantissa ha with ⟨c, d, rfl, hc, hd⟩ | ⟨c, d, p, f, rfl, hc, hd, hp, hf⟩ |
    ⟨p, c, f, rfl, hp, hc, hf⟩
  · -- No point follows, so there are no digits behind one.
    have htail : (Pattern.seq (.maybe (.one isPoint)) (.many Char.isDigit)).run next rest =
        next rest := by
      rw [run, run_maybe_of_none (run_one_of_stops hpoint), run]
      exact takeMany_append (a := []) (fun c hc => absurd hc List.not_mem_nil) hdigit hnext
    have hwhole : (many1 Char.isDigit).run ((Pattern.seq (.maybe (.one isPoint))
        (.many Char.isDigit)).run next) (c :: (d ++ rest)) = _ :=
      run_many1 hc hd hdigit (by rw [htail]; exact hnext)
    rw [mantissa, run, run, List.cons_append, hwhole, htail, hb]
  · -- The digits end at the point, and those behind it at the rest.
    have htail : (Pattern.seq (.maybe (.one isPoint)) (.many Char.isDigit)).run next
        (p :: (f ++ rest)) = next rest := by
      have hmany : takeMany Char.isDigit next (f ++ rest) = next rest :=
        takeMany_append hf hdigit hnext
      rw [run, run_maybe (run_one hp (f ++ rest)), run, hmany]
      rw [run, hmany]
      exact hnext
    have hstop : Stops Char.isDigit (p :: (f ++ rest)) := stops_cons.mpr (not_digit_of_isPoint hp)
    have hwhole : (many1 Char.isDigit).run ((Pattern.seq (.maybe (.one isPoint))
        (.many Char.isDigit)).run next) (c :: (d ++ (p :: (f ++ rest)))) = _ :=
      run_many1 hc hd hstop (by rw [htail]; exact hnext)
    have hassoc : c :: (d ++ p :: f) ++ rest = c :: (d ++ (p :: (f ++ rest))) := by simp
    rw [mantissa, run, run, hassoc, hwhole, htail, hb]
  · -- Nothing stands before the point, so it is the other kind of mantissa.
    have hnone : (many1 Char.isDigit).run ((Pattern.seq (.maybe (.one isPoint))
        (.many Char.isDigit)).run next) (p :: c :: (f ++ rest)) = none :=
      run_many1_of_stops (stops_cons.mpr (not_digit_of_isPoint hp))
    rw [mantissa, run, run, List.cons_append, List.cons_append, hnone, run, run_one hp,
      run_many1 hc hf hdigit hnext]

theorem run_exponent {a rest : List Char} (ha : exponent.Matches a)
    (hdigit : Stops Char.isDigit rest) (hnext : (next rest).isSome) :
    exponent.run next (a ++ rest) = next rest := by
  obtain ⟨e, s, c, d, rfl, he, hs, hc, hd⟩ := matches_exponent ha
  have hdigits : (many1 Char.isDigit).run next (c :: (d ++ rest)) = next rest :=
    run_many1 hc hd hdigit hnext
  have hassoc : e :: (s ++ c :: d) ++ rest = e :: (s ++ c :: (d ++ rest)) := by simp
  rw [exponent, run, hassoc, run_one he, run]
  rcases hs with rfl | ⟨x, rfl, hx⟩
  · rw [List.nil_append, run_maybe_of_none, hdigits]
    exact run_one_of_stops (stops_cons.mpr (not_sign_of_isDigit hc))
  · rw [List.singleton_append, run_maybe (run_one hx (c :: (d ++ rest))), hdigits]
    rw [hdigits]
    exact hnext

theorem matches_pattern {a : List Char} (h : pattern.Matches a) :
    ∃ s m e, a = s ++ (m ++ e) ∧ (s = [] ∨ ∃ x, s = [x] ∧ isSign x = true) ∧
      mantissa.Matches m ∧ (e = [] ∨ exponent.Matches e) := by
  cases h with
  | seq hsign h =>
    cases h with
    | seq hmantissa hexponent =>
      refine ⟨_, _, _, rfl, ?_, hmantissa, ?_⟩
      · cases hsign with
        | skipped => exact .inl rfl
        | taken hsign =>
          cases hsign with
          | one hx => exact .inr ⟨_, rfl, hx⟩
      · cases hexponent with
        | skipped => exact .inl rfl
        | taken he => exact .inr he

theorem stops_sign_mantissa {m : List Char} (hm : mantissa.Matches m) (rest : List Char) :
    Stops isSign (m ++ rest) := by
  rcases matches_mantissa hm with ⟨c, d, rfl, hc, -⟩ | ⟨c, d, p, f, rfl, hc, -⟩ |
    ⟨p, c, f, rfl, hp, -⟩
  · exact stops_cons.mpr (not_sign_of_isDigit hc)
  · exact stops_cons.mpr (not_sign_of_isDigit hc)
  · exact stops_cons.mpr (not_sign_of_isPoint hp)

theorem run_numeral {a rest : List Char} (ha : pattern.Matches a) (hrest : Stops isNumeric rest)
    (hnext : (next rest).isSome) : pattern.run next (a ++ rest) = next rest := by
  have hdigit : Stops Char.isDigit rest := hrest.mono fun c hc => by simp [isNumeric, hc]
  have hpoint : Stops isPoint rest := hrest.mono fun c hc => by simp [isNumeric, hc]
  have hmark : Stops isExponentMark rest := hrest.mono fun c hc => by simp [isNumeric, hc]
  obtain ⟨s, m, e, rfl, hs, hm, he⟩ := matches_pattern ha
  -- Without an exponent, the rest must not begin with the mark of one.
  have htail : (Pattern.maybe exponent).run next (e ++ rest) = next rest ∧
      Stops Char.isDigit (e ++ rest) ∧ Stops isPoint (e ++ rest) := by
    rcases he with rfl | he
    · refine ⟨?_, hdigit, hpoint⟩
      rw [List.nil_append, run_maybe_of_none]
      rw [exponent, run, run_one_of_stops hmark]
    · obtain ⟨x, t, c, d, rfl, hx, -⟩ := matches_exponent he
      refine ⟨run_maybe (run_exponent he hdigit hnext) hnext, ?_, ?_⟩
      · exact stops_cons.mpr (not_digit_of_isExponentMark hx).1
      · exact stops_cons.mpr (not_digit_of_isExponentMark hx).2
  have hmantissa : (Pattern.seq mantissa (.maybe exponent)).run next (m ++ (e ++ rest)) =
      next rest := by
    rw [run, run_mantissa hm htail.2.1 htail.2.2 (by rw [htail.1]; exact hnext), htail.1]
  have hassoc : s ++ (m ++ e) ++ rest = s ++ (m ++ (e ++ rest)) := by simp
  rw [pattern, run, hassoc]
  rcases hs with rfl | ⟨x, rfl, hx⟩
  · rw [List.nil_append, run_maybe_of_none (run_one_of_stops (stops_sign_mantissa hm _)), hmantissa]
  · rw [List.singleton_append, run_maybe (run_one hx (m ++ (e ++ rest))), hmantissa]
    rw [hmantissa]
    exact hnext

theorem isNumeric_of_matches {a : List Char} (h : pattern.Matches a) :
    ∀ c ∈ a, isNumeric c = true := by
  have hdigit : ∀ c, c.isDigit = true → isNumeric c = true := fun c hc => by simp [isNumeric, hc]
  have hpoint : ∀ c, isPoint c = true → isNumeric c = true := fun c hc => by simp [isNumeric, hc]
  have hsign : ∀ c, isSign c = true → isNumeric c = true := fun c hc => by simp [isNumeric, hc]
  have hmark : ∀ c, isExponentMark c = true → isNumeric c = true := fun c hc => by
    simp [isNumeric, hc]
  have hdigits : ∀ d : List Char, (∀ c ∈ d, c.isDigit = true) → ∀ c ∈ d, isNumeric c = true :=
    fun d hd c hc => hdigit c (hd c hc)
  obtain ⟨s, m, e, rfl, hs, hm, he⟩ := matches_pattern h
  have hopt : ∀ s : List Char, (s = [] ∨ ∃ x, s = [x] ∧ isSign x = true) →
      ∀ c ∈ s, isNumeric c = true := by
    rintro s (rfl | ⟨x, rfl, hx⟩)
    · nofun
    · simpa using hsign x hx
  rw [List.forall_mem_append, List.forall_mem_append]
  refine ⟨hopt s hs, ?_, ?_⟩
  · rcases matches_mantissa hm with ⟨c, d, rfl, hc, hd⟩ | ⟨c, d, p, f, rfl, hc, hd, hp, hf⟩ |
      ⟨p, c, f, rfl, hp, hc, hf⟩
    · exact List.forall_mem_cons.mpr ⟨hdigit c hc, hdigits d hd⟩
    · simp only [List.forall_mem_cons, List.forall_mem_append]
      exact ⟨hdigit c hc, hdigits d hd, hpoint p hp, hdigits f hf⟩
    · simp only [List.forall_mem_cons]
      exact ⟨hpoint p hp, hdigit c hc, hdigits f hf⟩
  · rcases he with rfl | he
    · nofun
    · obtain ⟨x, t, c, d, rfl, hx, ht, hc, hd⟩ := matches_exponent he
      simp only [List.forall_mem_cons, List.forall_mem_append]
      exact ⟨hmark x hx, hopt t ht, hdigit c hc, hdigits d hd⟩

theorem ne_nil_of_matches {a : List Char} (h : pattern.Matches a) : a ≠ [] := by
  obtain ⟨s, m, e, rfl, -, hm, -⟩ := matches_pattern h
  rcases matches_mantissa hm with ⟨c, d, rfl, -⟩ | ⟨c, d, p, f, rfl, -⟩ | ⟨p, c, f, rfl, -⟩ <;> simp

theorem not_blank_of_isNumeric {c : Char} (h : isNumeric c = true) : isBlank c = false := by
  simp only [isNumeric, isSign, isPoint, isExponentMark, Bool.or_eq_true, decide_eq_true_eq,
    Char.isDigit, Bool.and_eq_true] at h
  rcases h with ((⟨h₀, h₉⟩ | rfl | rfl) | rfl) | rfl | rfl
  · have h₀ : 48 ≤ c.toNat := h₀
    have h₉ : c.toNat ≤ 57 := h₉
    simp only [isBlank, isSeparator, Bool.or_eq_false_iff, Bool.and_eq_false_iff,
      decide_eq_false_iff_not]
    omega
  all_goals decide

end Numeral

end Tween.Text

namespace Tween.Description

open Text

def TimeUnit.text : TimeUnit → List Char
  | .milliseconds => ['m', 's']
  | .seconds => ['s']

theorem TimeUnit.ofText?_eq_some_iff {text : List Char} {unit : TimeUnit} :
    TimeUnit.ofText? text = some unit ↔ text = unit.text := by
  unfold ofText?
  split
  · next h => subst h; cases unit <;> decide
  · split
    · next h => subst h; cases unit <;> decide
    · next hms hs => cases unit <;> simp [TimeUnit.text, hms, hs]

theorem before_append (a rest : List Char) : before (a ++ rest) rest = a := by
  simp [before]

theorem run_unit {β : Type} (f : List Char → List Char → β) {mid unit rest : List Char}
    (hmid : Blanks mid) (hunit : ∀ c ∈ unit, isBlank c = false) (hne : unit ≠ [])
    (hrest : Stops (!isBlank ·) rest) :
    (Pattern.many isBlank).run (fun text => (Pattern.many1 (!isBlank ·)).run
      (fun rest => some (f (before text rest) rest)) text) (mid ++ (unit ++ rest)) =
        some (f unit rest) := by
  have hblank : Stops isBlank (unit ++ rest) := (stops_of_forall hunit).append hne rest
  have hrun : (Pattern.many1 (!isBlank ·)).run
      (fun rest' => some (f (before (unit ++ rest) rest') rest')) (unit ++ rest) =
        some (f unit rest) := by
    obtain ⟨c, u, rfl⟩ := List.exists_cons_of_ne_nil hne
    have hu : ∀ d ∈ c :: u, (!isBlank d) = true := fun d hd => by rw [hunit d hd]; rfl
    rw [List.forall_mem_cons] at hu
    rw [List.cons_append, Pattern.run_many1 hu.1 hu.2 hrest rfl, ← List.cons_append, before_append]
  rw [Pattern.run, Pattern.takeMany_append hmid hblank, hrun]
  rw [hrun]
  rfl

/-- The head of a text, where no character of a numeral follows the numeral. -/
theorem head?_append {pre numeral mid unit rest : List Char} (hpre : Blanks pre)
    (hnumeral : Numeral.pattern.Matches numeral) (hmid : Blanks mid)
    (hunit : ∀ c ∈ unit, isBlank c = false) (hne : unit ≠ [])
    (hstop : Stops Numeral.isNumeric (mid ++ unit)) (hrest : Stops (!isBlank ·) rest) :
    head? (pre ++ (numeral ++ (mid ++ (unit ++ rest)))) = some ⟨numeral, unit, rest⟩ := by
  have hnumeric := Numeral.isNumeric_of_matches hnumeral
  have hfirst : Stops isBlank (numeral ++ (mid ++ (unit ++ rest))) :=
    (stops_of_forall fun c hc => Numeral.not_blank_of_isNumeric (hnumeric c hc)).append
      (Numeral.ne_nil_of_matches hnumeral) _
  have hafter : Stops Numeral.isNumeric (mid ++ (unit ++ rest)) := by
    rw [← List.append_assoc]
    exact hstop.append (by simp [hne]) rest
  have hend := run_unit (fun u r => (⟨before (numeral ++ (mid ++ (unit ++ rest)))
    (mid ++ (unit ++ rest)), u, r⟩ : Head)) hmid hunit hne hrest
  have hrun : Numeral.pattern.run (fun stop => (Pattern.many isBlank).run (fun text =>
      (Pattern.many1 (!isBlank ·)).run (fun r =>
        some (⟨before (numeral ++ (mid ++ (unit ++ rest))) stop, before text r, r⟩ : Head)) text)
        stop) (numeral ++ (mid ++ (unit ++ rest))) = _ :=
    Numeral.run_numeral hnumeral hafter (by rw [hend]; rfl)
  rw [hend, before_append] at hrun
  rw [head?, Pattern.run, Pattern.takeMany_append hpre hfirst, hrun]
  rw [hrun]
  rfl

/-- Every head comes from a split of the text, and its unit ends at a blank or at the end. -/
theorem append_of_head? {text : List Char} {head : Head} (h : head? text = some head) :
    ∃ pre mid, text = pre ++ (head.numeral ++ (mid ++ (head.unit ++ head.rest))) ∧ Blanks pre ∧
      Numeral.pattern.Matches head.numeral ∧ Blanks mid ∧ head.unit ≠ [] ∧
      (∀ c ∈ head.unit, isBlank c = false) ∧ Stops (!isBlank ·) head.rest := by
  obtain ⟨pre, start, rfl, hpre, h⟩ := Pattern.run_eq_some h
  obtain ⟨numeral, stop, rfl, hnumeral, h⟩ := Pattern.run_eq_some h
  obtain ⟨mid, text, rfl, hmid, h⟩ := Pattern.run_eq_some h
  -- Nothing is refused behind the unit, so it takes all it can.
  obtain ⟨unit, rest, rfl, hne, hunit, hrest, h⟩ := Pattern.append_of_run_many1 (fun _ => rfl) h
  obtain rfl := Option.some.inj h
  rw [before_append, before_append]
  cases hpre with
  | many hpre =>
    cases hmid with
    | many hmid =>
      refine ⟨pre, mid, rfl, hpre, hnumeral, hmid, hne, fun c hc => ?_, hrest⟩
      simpa using hunit c hc

end Tween.Description
