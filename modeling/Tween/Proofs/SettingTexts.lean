import Tween.Proofs.Calls
import Tween.Proofs.Grammar

namespace Tween

open Text

namespace Text.Whole

/-- Why a whole number is refused: a separator control stands beside it, or, if none does, its
digits are too many. -/
def Refuses (text : List Char) (fault : Fault) : Prop :=
  fault = .strayBlank ∧ text.any isSeparator = true ∨
    fault = .tooManyDigits ∧ text.any isSeparator = false ∧
      Number.digitLimit < text.countP Char.isDigit

/-- The parts of a text that is a whole number: digits behind a sign or none, between blanks. -/
structure Parts (text pre sign digits post : List Char) : Prop where
  text : text = pre ++ ((sign ++ digits) ++ post)
  pre : Blanks pre
  sign : sign = [] ∨ sign = ['+'] ∨ sign = ['-']
  digits_ne_nil : digits ≠ []
  digits : ∀ c ∈ digits, c.isDigit = true
  post : Blanks post

theorem exists_parts {text : List Char} (h : pattern.Matches text) :
    ∃ pre sign digits post, Parts text pre sign digits post := by
  cases h with
  | seq hpre h =>
    cases hpre with
    | many hpre =>
      cases h with
      | seq hsign h =>
        cases h with
        | @seq _ _ digits _ hdigits hpost =>
          cases hpost with
          | many hpost =>
            obtain ⟨hne, hall⟩ := Pattern.matches_many1_iff.mp hdigits
            cases hsign with
            | taken hsign =>
              cases hsign with
              | @one _ c hc =>
                refine ⟨_, [c], digits, _, by simp, hpre, .inr ?_, hne, hall, hpost⟩
                simpa [isSign] using hc
            | skipped => exact ⟨_, [], digits, _, rfl, hpre, .inl rfl, hne, hall, hpost⟩

theorem matches_of_unsigned {text : List Char} (h : unsignedPattern.Matches text) :
    pattern.Matches text := by
  obtain ⟨pre, digits, post, rfl, hpre, hne, hdigits, hpost⟩ := matches_unsignedPattern h
  exact .seq (.many hpre) (.seq (a := []) .skipped
    (.seq (Pattern.matches_many1_iff.mpr ⟨hne, hdigits⟩) (.many hpost)))

theorem not_digit_of_isBlank {c : Char} (h : isBlank c = true) : c.isDigit = false := by
  cases hd : c.isDigit with
  | false => rfl
  | true =>
    rw [Numeral.not_blank_of_isNumeric (by simp [Numeral.isNumeric, hd])] at h
    cases h

namespace Parts

variable {text pre sign digits post : List Char} (h : Parts text pre sign digits post)
include h

theorem isSign_of_mem_sign : ∀ c ∈ sign, isSign c = true := by
  intro c hc
  rcases h.sign with rfl | rfl | rfl
  · cases hc
  · rw [List.mem_singleton.mp hc]
    rfl
  · rw [List.mem_singleton.mp hc]
    rfl

theorem trim : Text.trim text = sign ++ digits := by
  rw [h.text]
  refine trim_append h.pre (by simp [h.digits_ne_nil]) (fun c hc => ?_) h.post
  apply Numeral.not_blank_of_isNumeric
  rcases List.mem_append.mp hc with hc | hc
  · simp [Numeral.isNumeric, h.isSign_of_mem_sign c hc]
  · simp [Numeral.isNumeric, h.digits c hc]

theorem splitSign : splitSign (sign ++ digits) = (decide (sign = ['-']), digits) := by
  rcases h.sign with rfl | rfl | rfl
  · obtain ⟨c, rest, rfl⟩ := List.exists_cons_of_ne_nil h.digits_ne_nil
    have hc := Numeral.not_sign_of_isDigit (h.digits c List.mem_cons_self)
    simp [Text.splitSign, hc]
  · rfl
  · rfl

theorem countP_isDigit : text.countP Char.isDigit = digits.length := by
  have hnone : ∀ {a : List Char}, (∀ c ∈ a, c.isDigit = false) → a.countP Char.isDigit = 0 := by
    intro a ha
    rw [List.countP_eq_zero]
    intro c hc
    rw [ha c hc]
    exact Bool.false_ne_true
  rw [h.text, List.countP_append, List.countP_append, List.countP_append,
    hnone fun c hc => not_digit_of_isBlank (h.pre c hc),
    hnone fun c hc => Numeral.not_digit_of_isSign (h.isSign_of_mem_sign c hc),
    hnone fun c hc => not_digit_of_isBlank (h.post c hc), List.countP_eq_length.mpr h.digits]
  omega

theorem value : value text =
    if text.any isSeparator then .error .strayBlank
    else if Number.digitLimit < text.countP Char.isDigit then .error .tooManyDigits
    else .ok (if sign = ['-'] then -(digitsValue digits : Int) else digitsValue digits) := by
  rw [Whole.value, h.trim, h.splitSign, h.countP_isDigit]
  split
  · rfl
  · dsimp only
    split
    · next hle => simp [Nat.not_lt.mpr hle]
    · next hlt => simp [Nat.not_le.mp hlt]

end Parts

theorem value_eq_error_iff {text : List Char} (h : pattern.Matches text) {fault : Fault} :
    value text = .error fault ↔ Refuses text fault := by
  obtain ⟨pre, sign, digits, post, hparts⟩ := exists_parts h
  rw [hparts.value, Refuses]
  cases text.any isSeparator with
  | true => simp [eq_comm]
  | false =>
    by_cases hlimit : Number.digitLimit < text.countP Char.isDigit
    · simp [hlimit, eq_comm]
    · simp [hlimit]

/-- Reading fails on the whole numbers that are refused, and on no other text. -/
theorem read?_eq_error_iff {text : String} {fault : Fault} :
    read? text = .error fault ↔ pattern.Matches text.toList ∧ Refuses text.toList fault := by
  rw [read?]
  split
  · next hfits =>
    have hmatches := Pattern.fits_iff.mp hfits
    rw [← value_eq_error_iff hmatches, iff_true_intro hmatches, true_and]
    cases value text.toList <;> simp
  · next hfits => simp [mt Pattern.fits_iff.mpr hfits]

end Text.Whole

namespace Description

theorem read?_eq_error_iff {text : String} {fault : Fault} :
    read? text = .error fault ↔
      Whole.unsignedPattern.Matches text.toList ∧ Whole.Refuses text.toList fault := by
  by_cases h : Whole.unsignedPattern.Matches text.toList
  · rw [← Whole.value_eq_error_iff (Whole.matches_of_unsigned h), iff_true_intro h, true_and, read?,
      if_pos (Pattern.fits_iff.mpr h)]
    cases Whole.value text.toList <;> simp
  · rw [read?_of_not_whole h]
    simp [h]

end Description

namespace World

variable {κ : Type}

/-- A text sets a setting to what it reads as, or is warned of and changes nothing; it is a fault
only if it is a whole number with a separator control beside its digits, or with too many of
them. -/
theorem setText_cases (w : World κ) (text : String) :
    (∀ fault, Whole.read? text = .error fault ↔
      Whole.pattern.Matches text.toList ∧ Whole.Refuses text.toList fault) ∧
    (∀ fault, Description.read? text = .error fault ↔
      Whole.unsignedPattern.Matches text.toList ∧ Whole.Refuses text.toList fault) ∧
    (∀ r, let s := w.lengths.get r
      w.step (.onLength r (.setText text)) = match Whole.read? text with
        | .ok (some n) => (.ok (.flag true), { w with lengths := w.lengths.set r { s with value := n } })
        | .ok none => (.ok (.flag false),
            { w with journal := w.journal ++ [.noted (.invalidValue text s.name)] })
        | .error fault => (.error fault, w)) ∧
    (∀ r, let s := w.descriptions.get r
      w.step (.onDescription r (.setText text)) = match Description.read? text with
        | .ok (some d) =>
          (.ok (.flag true), { w with descriptions := w.descriptions.set r { s with value := d } })
        | .ok none => (.ok (.flag false),
            { w with journal := w.journal ++ [.noted (.invalidValue text s.name)] })
        | .error fault => (.error fault, w)) ∧
    ∀ name, (Notice.invalidValue text name).level = .warning := by
  refine ⟨fun _ => Whole.read?_eq_error_iff, fun _ => Description.read?_eq_error_iff, fun r => ?_,
    fun r => ?_, fun _ => rfl⟩
  · change (Act.lengthOp r (.setText text)).perform w = _
    rw [Act.lengthOp, Act.perform_bind_pure, Act.perform_setLengthText]
    rcases Whole.read? text with _ | _ | n <;> rfl
  · change (Act.descriptionOp r (.setText text)).perform w = _
    rw [Act.descriptionOp, Act.perform_bind_pure, Act.perform_setDescriptionText]
    rcases Description.read? text with _ | _ | d <;> rfl

/-- A separator control in front of a digit, or one digit too many, is a fault. -/
theorem setText_fails :
    Whole.read? "\x1c5" = .error .strayBlank ∧ Description.read? "5\x1f" = .error .strayBlank ∧
      Whole.read? (String.ofList (List.replicate 4301 '1')) = .error .tooManyDigits ∧
      ¬∀ text, ((solo 100).step (.onLength ⟨0⟩ (.setText text))).1.isOk = true := by
  have hseparator : Whole.read? "\x1c5" = .error .strayBlank :=
    Whole.read?_eq_error_iff.mpr ⟨Pattern.fits_iff.mp (by decide), .inl ⟨rfl, by decide⟩⟩
  refine ⟨hseparator, ?_, ?_, fun h => ?_⟩
  · exact Description.read?_eq_error_iff.mpr
      ⟨Pattern.fits_iff.mp (by decide), .inl ⟨rfl, by decide⟩⟩
  · have hdigit : ∀ c ∈ List.replicate 4301 '1', c = '1' := fun c hc => List.eq_of_mem_replicate hc
    have hdigits : ∀ c ∈ List.replicate 4301 '1', c.isDigit = true := by
      intro c hc
      rw [hdigit c hc]
      decide
    have hne : List.replicate 4301 '1' ≠ [] := List.cons_ne_nil _ _
    have hmatches := Whole.matches_of_unsigned
      (Whole.unsignedPattern_matches blanks_nil hne hdigits blanks_nil)
    rw [List.nil_append, List.append_nil] at hmatches
    have hseparators : (List.replicate 4301 '1').any isSeparator = false := by
      rw [List.any_eq_false]
      intro c hc
      rw [hdigit c hc]
      decide
    have hcount : (List.replicate 4301 '1').countP Char.isDigit = 4301 := by
      rw [List.countP_eq_length.mpr hdigits, List.length_replicate]
    rw [Whole.read?_eq_error_iff, String.toList_ofList]
    exact ⟨hmatches, .inr ⟨rfl, hseparators, by rw [hcount]; decide⟩⟩
  · have hfails := h "\x1c5"
    change ((Act.lengthOp ⟨0⟩ (.setText "\x1c5")).perform (solo 100)).1.isOk = true at hfails
    rw [Act.lengthOp, Act.perform_bind_pure, Act.perform_setLengthText, hseparator] at hfails
    cases hfails

end World

end Tween
