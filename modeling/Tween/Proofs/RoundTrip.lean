import Tween.Proofs.Grammar
import Tween.Proofs.Written

namespace Tween

open Text Text.Numeral
open Number (naturalDigits floatText floatDigits rounded rounding overflowBound IsDouble rational
  magnitude parts)

namespace Easing

/-- Equality of easings: one name, or curves whose coordinates are equal as numbers. -/
def agrees : Easing → Easing → Bool
  | .named c, .named d => c = d
  | .bezier c, .bezier d => c.agrees d
  | _, _ => false

def IsFinite : Easing → Prop
  | .bezier c => c.x1.isFinite = true ∧ c.y1.isFinite = true ∧ c.x2.isFinite = true ∧
      c.y2.isFinite = true
  | _ => True

end Easing

namespace Text

theorem words_cons_blank {c : Char} (h : isBlank c = true) (text : List Char) :
    words (c :: text) = words text := by
  rw [words, if_pos h]

theorem words_append_of_not_blank {w : List Char} (hne : w ≠ [])
    (hw : ∀ c ∈ w, isBlank c = false) {c : Char} (h : isBlank c = true) (text : List Char) :
    words (w ++ c :: text) = w :: words text := by
  rw [words_append_blank h, words_eq_singleton hne hw, List.singleton_append]

end Text

namespace Bezier

theorem words_name (c : Bezier) :
    words c.name.toList = [keyword.toList, floatDigits c.x1, floatDigits c.y1, floatDigits c.x2,
      floatDigits c.y2] := by
  have hblank : isBlank ' ' = true := by decide
  have hkeyword : ∀ d ∈ keyword.toList, isBlank d = false := by
    have hall : keyword.toList.all (!isBlank ·) = true := by decide
    simpa using hall
  simp only [name, floatText, String.toList_append, String.toList_ofList, List.append_assoc]
  rw [show (" " : String).toList = [' '] from rfl]
  simp only [List.singleton_append]
  rw [words_append_of_not_blank (by decide) hkeyword hblank,
    words_append_of_not_blank (floatDigits_ne_nil _) (not_blank_floatDigits _) hblank,
    words_append_of_not_blank (floatDigits_ne_nil _) (not_blank_floatDigits _) hblank,
    words_append_of_not_blank (floatDigits_ne_nil _) (not_blank_floatDigits _) hblank,
    words_eq_singleton (floatDigits_ne_nil _) (not_blank_floatDigits _)]

end Bezier

namespace Description

theorem NamesEasing.agrees_self {ws : List (List Char)} {name : String} {easing : Easing}
    (h : NamesEasing ws name easing) (hfin : easing.IsFinite) : easing.agrees easing = true := by
  cases h with
  | none => rfl
  | curve c => simp [Easing.agrees]
  | bezier =>
    obtain ⟨h1, h2, h3, h4⟩ := hfin
    simp [Easing.agrees, Bezier.agrees, Number.beq_self_of_isFinite, *]

theorem words_curve_name (c : Curve) : words c.name.toList = [c.name.toList] := by
  cases c <;> decide

/-- The name of an easing is read back as the easing, if the curve is finite. -/
theorem readEasing?_words_name {ws : List (List Char)} {name : String} {easing : Easing}
    (h : NamesEasing ws name easing) (hfin : easing.IsFinite) :
    readEasing? (words name.toList) = some (name, easing) := by
  rw [readEasing?_eq_some_iff]
  cases h with
  | none =>
    rw [show "circle" = Curve.circle.name from rfl, words_curve_name]
    exact .curve .circle
  | curve c =>
    rw [words_curve_name]
    exact .curve c
  | @bezier numerals hnumerals hlength =>
    rw [Bezier.words_name]
    obtain ⟨h1, h2, h3, h4⟩ := hfin
    generalize Bezier.complete (numerals.map Numeral.value) = c at h1 h2 h3 h4 ⊢
    have hread : Bezier.complete ([floatDigits c.x1, floatDigits c.y1, floatDigits c.x2,
        floatDigits c.y2].map Numeral.value) = c := by
      simp only [List.map_cons, List.map_nil, Numeral.value_floatDigits, h1, h2, h3, h4]
      rfl
    have hnumerals : ∀ n ∈ [floatDigits c.x1, floatDigits c.y1, floatDigits c.x2, floatDigits c.y2],
        Numeral.pattern.Matches n := by
      simp [matches_floatDigits, h1, h2, h3, h4]
    have h := NamesEasing.bezier hnumerals le_rfl
    rwa [hread] at h

theorem readEasing?_words_name_eq_none {ws : List (List Char)} {name : String} {easing : Easing}
    (h : NamesEasing ws name easing) (hfin : ¬easing.IsFinite) :
    readEasing? (words name.toList) = none := by
  cases h with
  | none => exact absurd trivial hfin
  | curve => exact absurd trivial hfin
  | @bezier numerals hnumerals hlength =>
    rw [Bezier.words_name, Option.eq_none_iff_forall_ne_some]
    generalize Bezier.complete (numerals.map Numeral.value) = c at hfin ⊢
    rintro ⟨name, easing⟩ hread
    rw [readEasing?_eq_some_iff] at hread
    generalize hws : [Bezier.keyword.toList, floatDigits c.x1, floatDigits c.y1, floatDigits c.x2,
      floatDigits c.y2] = ws at hread
    cases hread with
    | none => cases hws
    | curve => exact absurd (List.cons.inj hws).2 (List.cons_ne_nil _ _)
    | bezier hall =>
      rw [← (List.cons.inj hws).2] at hall
      have hfinite : ∀ x ∈ [c.x1, c.y1, c.x2, c.y2], x.isFinite = true := fun x hx =>
        Decidable.of_not_not fun hnot =>
          not_matches_floatDigits hnot (hall _ (List.mem_map_of_mem (f := floatDigits) hx))
      exact hfin ⟨hfinite _ (by simp), hfinite _ (by simp), hfinite _ (by simp), hfinite _ (by simp)⟩

theorem readLength?_naturalDigits {n r : ℕ} (hlt : (n : ℚ) < overflowBound)
    (hr : magnitude (rounding .positive n) = r) :
    readLength? (naturalDigits n) .milliseconds = some (r : ℤ) := by
  have hnonneg : (0 : ℚ) ≤ n := Nat.cast_nonneg n
  have hfinite := (Number.isFinite_rounded_iff .positive hnonneg).mpr hlt
  have hpositive := Number.not_rounded_lt_zero hnonneg
  rw [readLength?_eq_some_iff, measure, value_naturalDigits]
  refine ⟨hfinite, hpositive, ?_⟩
  rw [Number.truncate_of_not_lt_zero hfinite hpositive, Number.parts_rounded .positive hnonneg hlt,
    hr, Nat.floor_natCast]

theorem readLength?_naturalDigits_eq_none {n : ℕ} (h : overflowBound ≤ n) :
    readLength? (naturalDigits n) .milliseconds = none := by
  rw [Option.eq_none_iff_forall_ne_some]
  intro length hread
  rw [readLength?_eq_some_iff, measure, value_naturalDigits] at hread
  exact absurd ((Number.isFinite_rounded_iff .positive (Nat.cast_nonneg n)).mp hread.1) (not_lt.mpr h)

/-- What is read: a length that can be written, and an easing with its name. A whole number alone
has the default easing, and a length with a unit is a double. -/
theorem of_read? {text : String} {d : Description} (h : read? text = .ok (some d)) :
    ∃ (n : ℕ) (ws : List (List Char)), d.length = n ∧
      (naturalDigits n).length ≤ Number.digitLimit ∧ NamesEasing ws d.easingName d.easing ∧
      (Whole.unsignedPattern.Matches text.toList ∧ d.easing = .named .circle ∨ IsDouble n) := by
  have hspells := spells_of_read? h
  generalize htext : text.toList = chars at hspells
  cases hspells with
  | @whole pre digits post hpre hne hdigits hpost =>
    have hmatches := Whole.unsignedPattern_matches hpre hne hdigits hpost
    rw [← htext] at hmatches
    have hlength : digits.length ≤ Number.digitLimit := by
      rw [read?, if_pos (Pattern.fits_iff.mpr hmatches), htext] at h
      cases hvalue : Whole.value (pre ++ (digits ++ post)) with
      | error =>
        rw [hvalue] at h
        cases h
      | ok => exact (Whole.value_eq_of_ok hpre hne hdigits hpost hvalue).2
    have hwritten := length_naturalDigits_le (List.length_pos_of_ne_nil hne) (digitsValue_lt hdigits)
    exact ⟨_, _, rfl, hwritten.trans hlength, .none, .inl ⟨htext ▸ hmatches, rfl⟩⟩
  | @form pre numeral mid rest unit length name easing hpre hnumeral hmid hrest heasing hfinite
      hnonneg hlength =>
    rw [Number.truncate_of_not_lt_zero hfinite hnonneg] at hlength
    refine ⟨_, _, (Except.ok.inj hlength).symm, ?_, heasing, .inr (Number.isDouble_floor hfinite)⟩
    apply length_naturalDigits_le (by decide)
    -- Even the largest double has fewer digits than can be written.
    have hbound : (⌊magnitude (parts (measure numeral unit))⌋₊ : ℚ) <
        ((10 ^ Number.digitLimit : ℕ) : ℚ) := by
      refine lt_of_le_of_lt (Nat.floor_le (Number.magnitude_nonneg _)) ?_
      refine lt_of_lt_of_le (Number.magnitude_lt_overflowBound hfinite) ?_
      have hpow := Number.Decimal.overflowBound_le_of_lt Nat.one_pos (e := Number.digitLimit) (by decide)
      rw [Nat.cast_one, one_mul, zpow_natCast] at hpow
      exact_mod_cast hpow
    exact_mod_cast hbound

/-- What is read of a numeral, a unit right behind it and the rest of a text. -/
theorem read?_of_toList_eq {text : String} {numeral rest : List Char} (unit : TimeUnit)
    (htext : text.toList = numeral ++ (unit.text ++ rest)) (hnumeral : Numeral.pattern.Matches numeral)
    (hrest : Stops (!isBlank ·) rest) :
    read? text = .ok ((readEasing? (words rest)).bind fun (name, easing) =>
      (readLength? numeral unit).map fun length => ⟨length, name, easing⟩) := by
  have hform : readForm? ([] ++ (numeral ++ ([] ++ (unit.text ++ rest)))) = _ :=
    readForm?_append unit blanks_nil hnumeral blanks_nil hrest
  rw [List.nil_append, List.nil_append] at hform
  rw [read?_of_not_whole (htext ▸ not_matches_unsignedPattern unit), htext, hform]

theorem read?_written (n : ℕ) (name : String) :
    read? (String.ofList (naturalDigits n) ++ "ms " ++ name) =
      .ok ((readEasing? (words name.toList)).bind fun (name, easing) =>
        (readLength? (naturalDigits n) .milliseconds).map fun length => ⟨length, name, easing⟩) := by
  have htext : (String.ofList (naturalDigits n) ++ "ms " ++ name).toList =
      naturalDigits n ++ (TimeUnit.milliseconds.text ++ ' ' :: name.toList) := by
    simp [TimeUnit.text]
  rw [read?_of_toList_eq .milliseconds htext (matches_naturalDigits n) (stops_cons.mpr (by decide)),
    words_cons_blank (by decide)]

/-- Whether a text is read as a description like `d`, which is written as this text again. -/
def ReadsLike (s : String) (d : Description) : Prop :=
  ∃ d', read? s = .ok (some d') ∧ d'.length = d.length ∧ d'.easingName = d.easingName ∧
    d'.easing.agrees d.easing = true ∧ d'.text = .ok s

/-- Whether a text is read as a description like `d` but for its length, which is the double nearest
to that of `d`. -/
def ReadsRounded (s : String) (d : Description) : Prop :=
  ∃ d' x, read? s = .ok (some d') ∧ d'.easingName = d.easingName ∧
    d'.easing.agrees d.easing = true ∧ Number.ofInt d.length = .ok x ∧ rational x = d'.length ∧
    ∀ y : Float, y.isFinite = true → |rational x - d.length| ≤ |rational y - d.length|

theorem read?_written_of_not_isFinite {ws : List (List Char)} {name : String} {easing : Easing}
    (h : NamesEasing ws name easing) (hfin : ¬easing.IsFinite) (n : ℕ) :
    read? (String.ofList (naturalDigits n) ++ "ms " ++ name) = .ok none := by
  rw [read?_written, readEasing?_words_name_eq_none h hfin]
  rfl

theorem read?_written_of_le {n : ℕ} (h : overflowBound ≤ n) (name : String) :
    read? (String.ofList (naturalDigits n) ++ "ms " ++ name) = .ok none := by
  rw [read?_written, readLength?_naturalDigits_eq_none h]
  cases readEasing? (words name.toList) <;> rfl

/-- Whatever can be read of a written description is its easing and the rounded length. -/
theorem read?_written_of_lt {ws : List (List Char)} {name : String} {easing : Easing}
    (h : NamesEasing ws name easing) (hfin : easing.IsFinite) {n r : ℕ}
    (hlt : (n : ℚ) < overflowBound) (hr : magnitude (rounding .positive n) = r) :
    read? (String.ofList (naturalDigits n) ++ "ms " ++ name) = .ok (some ⟨r, name, easing⟩) := by
  rw [read?_written, readEasing?_words_name h hfin, readLength?_naturalDigits hlt hr]
  rfl

theorem text_eq_ok {d : Description} {n : ℕ} (hlength : d.length = n)
    (hdigits : (naturalDigits n).length ≤ Number.digitLimit) :
    d.text = .ok (String.ofList (naturalDigits n) ++ "ms " ++ d.easingName) := by
  have hwritten : Number.integerText d.length = .ok (String.ofList (naturalDigits n)) := by
    rw [hlength, Number.integerText, Int.natAbs_natCast, if_pos hdigits, if_neg (by omega)]
  rw [text, hwritten]
  rfl

/-- What was read is written and read again: the same comes back just when the length is a double
and the curve is finite. -/
theorem read?_text {text : String} {d : Description} (h : read? text = .ok (some d)) :
    ∃ s, d.text = .ok s ∧
      (ReadsLike s d ↔ IsDouble d.length ∧ d.easing.IsFinite) ∧
      (¬Whole.unsignedPattern.Matches text.toList → IsDouble d.length) ∧
      (¬d.easing.IsFinite ∨ overflowBound ≤ d.length → read? s = .ok none) ∧
      (¬IsDouble d.length → d.length < overflowBound → ReadsRounded s d) := by
  obtain ⟨n, ws, hlength, hdigits, heasing, hform⟩ := of_read? h
  obtain ⟨r, hr⟩ := Number.exists_magnitude_rounding_eq .positive n
  have htext := text_eq_ok hlength hdigits
  have hrefused : ¬d.easing.IsFinite ∨ overflowBound ≤ d.length →
      read? (String.ofList (naturalDigits n) ++ "ms " ++ d.easingName) = .ok none := by
    rintro (hfin | hle)
    · exact read?_written_of_not_isFinite heasing hfin n
    · rw [hlength] at hle
      exact read?_written_of_le (by exact_mod_cast hle) _
  refine ⟨_, htext, ⟨?_, ?_⟩, ?_, hrefused, ?_⟩
  · rintro ⟨d', hread, hlength', -⟩
    have hgood : d.easing.IsFinite ∧ (n : ℚ) < overflowBound := by
      by_contra hbad
      rw [not_and_or, not_lt] at hbad
      rw [hlength, Int.cast_natCast] at hrefused
      rw [hrefused hbad] at hread
      cases hread
    rw [read?_written_of_lt heasing hgood.1 hgood.2 hr] at hread
    obtain rfl := Option.some.inj (Except.ok.inj hread)
    rw [hlength] at hlength' ⊢
    obtain rfl := Int.natCast_inj.mp hlength'
    exact ⟨Number.isDouble_natCast_iff.mpr ⟨hgood.2, hr⟩, hgood.1⟩
  · rintro ⟨hdouble, hfin⟩
    rw [hlength, Number.isDouble_natCast_iff] at hdouble
    exact ⟨⟨n, d.easingName, d.easing⟩, read?_written_of_lt heasing hfin hdouble.1 hdouble.2,
      hlength.symm, rfl, heasing.agrees_self hfin, text_eq_ok rfl hdigits⟩
  · intro hnot
    rw [hlength]
    exact hform.resolve_left fun hwhole => hnot hwhole.1
  · intro hdouble hlt
    rw [hlength] at hdouble hlt
    rw [Int.cast_natCast] at hlt
    have hnonneg : (0 : ℚ) ≤ n := Nat.cast_nonneg n
    -- Only a whole number alone can have a length that is no double, and its easing is a name.
    have heq := (hform.resolve_right hdouble).2
    have hfin : d.easing.IsFinite := by
      rw [heq]
      trivial
    have hpos : (0 : ℚ) < n := by
      refine hnonneg.lt_of_ne fun hzero => hdouble (Number.isDouble_natCast_iff.mpr ⟨hlt, ?_⟩)
      rw [← hzero, Number.rounding_zero]
      rfl
    refine ⟨⟨r, d.easingName, d.easing⟩, rounded .positive n,
      read?_written_of_lt heasing hfin hlt hr, rfl, heasing.agrees_self hfin, ?_, ?_, ?_⟩
    · rw [hlength]
      exact Number.ofInt_natCast hlt
    · rw [Number.rational_rounded hnonneg hlt, hr]
      rfl
    · intro y hy
      rw [Number.rational_rounded hnonneg hlt, hlength, Int.cast_natCast]
      exact Number.abs_magnitude_rounding_sub_le .positive hpos hy

/-- A second and a half along a curve comes back as it was written. -/
theorem read?_text_of_curve :
    ∃ d s, read? ".0015e3s cubic-bezier .25" = .ok (some d) ∧ d.text = .ok s ∧ ReadsLike s d := by
  have hnot : ¬Whole.unsignedPattern.Matches ".0015e3s cubic-bezier .25".toList := by
    rw [← Pattern.fits_iff]
    decide
  have hread : readLength? ".0015e3".toList .seconds = some 1500 := by decide
  obtain ⟨hfinite, hnonneg, hlength⟩ := readLength?_eq_some_iff.mp hread
  have hnumeral : Numeral.pattern.Matches ".0015e3".toList := Pattern.fits_iff.mp (by decide)
  have hrest : Stops (!isBlank ·) " cubic-bezier .25".toList := stops_cons.mpr (by decide)
  have hnumerals : ∀ n ∈ [".25".toList], Numeral.pattern.Matches n := by
    simp only [← Pattern.fits_iff]
    decide
  have hwords : words " cubic-bezier .25".toList = ["cubic-bezier".toList, ".25".toList] := by decide
  have heasing := NamesEasing.bezier hnumerals (by decide)
  rw [← hwords] at heasing
  have hspells :=
    Spells.form blanks_nil hnumeral blanks_nil hrest heasing hfinite hnonneg hlength
  have hd : read? ".0015e3s cubic-bezier .25" = .ok (some _) :=
    read?_of_spells hspells fun hwhole => absurd hwhole hnot
  obtain ⟨s, htext, hiff, hunit, -⟩ := read?_text hd
  have hfin : Easing.IsFinite (.bezier (.complete ([".25".toList].map Numeral.value))) :=
    ⟨by decide, by decide, by decide, by decide⟩
  exact ⟨_, s, hd, htext, hiff.mpr ⟨hunit hnot, hfin⟩⟩

end Description

end Tween
