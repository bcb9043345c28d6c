import Tween.Proofs.SettingTexts
import Tween.Proofs.Written

namespace Tween.Text

open Number (naturalDigits integerText digitLimit)

theorem naturalDigits_of_isDigit {c : Char} (hc : c.isDigit = true) :
    naturalDigits (digitsValue [c]) = [c] := by
  have hzero : '0'.toNat = 48 := rfl
  have hnine : '9'.toNat = 57 := rfl
  have hrange := Char.isDigit_iff_toNat.mp hc
  have hvalue : digitsValue [c] = c.toNat - '0'.toNat := Nat.zero_add _
  have hlt : digitsValue [c] < 10 := by omega
  rw [naturalDigits, Nat.toDigits_of_lt_base hlt, List.singleton_inj]
  apply Char.toNat_inj.mp
  rw [Nat.toNat_digitChar_of_lt_ten hlt]
  omega

theorem naturalDigits_concat {front : List Char} {c : Char} (hpos : 0 < digitsValue front)
    (hc : c.isDigit = true) :
    naturalDigits (digitsValue (front ++ [c])) = naturalDigits (digitsValue front) ++ [c] := by
  have hlt : digitsValue [c] < 10 :=
    digitsValue_lt fun d hd => (List.mem_singleton.mp hd).symm ▸ hc
  calc naturalDigits (digitsValue (front ++ [c]))
      = naturalDigits (10 * digitsValue front + digitsValue [c]) := by
        rw [digitsValue_append, List.length_singleton, pow_one]
    _ = naturalDigits (digitsValue front) ++ naturalDigits (digitsValue [c]) :=
        (Nat.toDigits_append_toDigits (by decide) hpos hlt).symm
    _ = naturalDigits (digitsValue front) ++ [c] := by rw [naturalDigits_of_isDigit hc]

/-- A run of digits is zeros and then the digits that its value is written with. -/
theorem exists_zeros {digits : List Char} (hne : digits ≠ [])
    (hdigits : ∀ c ∈ digits, c.isDigit = true) :
    ∃ zeros, digits = List.replicate zeros '0' ++ naturalDigits (digitsValue digits) := by
  -- The last digit is the remainder of the value by ten, so the digits are taken off the right end.
  induction digits using List.reverseRecOn with
  | nil => exact absurd rfl hne
  | append_singleton front c ih =>
    obtain ⟨hfront, hlast⟩ := List.forall_mem_append.mp hdigits
    have hc := hlast c (List.mem_singleton_self c)
    by_cases hnil : front = []
    · subst hnil
      exact ⟨0, (naturalDigits_of_isDigit hc).symm⟩
    · obtain ⟨zeros, hzeros⟩ := ih hnil hfront
      rcases Nat.eq_zero_or_pos (digitsValue front) with hzero | hpos
      · -- The zero that stands for the front is one of those before the last digit.
        have hvalue : digitsValue (front ++ [c]) = digitsValue [c] := by
          rw [digitsValue_append, hzero, Nat.mul_zero, Nat.zero_add]
        have hreplicate : front = List.replicate (zeros + 1) '0' := by
          rw [hzeros, hzero, List.replicate_succ']
          rfl
        refine ⟨zeros + 1, ?_⟩
        rw [hvalue, naturalDigits_of_isDigit hc, ← hreplicate]
      · refine ⟨zeros, ?_⟩
        rw [naturalDigits_concat hpos hc, ← List.append_assoc, ← hzeros]

namespace Whole

/-- What may stand beside a whole number: blanks that are no separator controls. -/
def Padding (text : List Char) : Prop :=
  Blanks text ∧ text.any isSeparator = false

instance (text : List Char) : Decidable (Padding text) :=
  inferInstanceAs (Decidable (_ ∧ _))

/-- What is free in writing a whole number: what stands around it, its sign, and how many zeros come
before its digits. -/
structure Writing where
  pre : List Char
  sign : List Char
  zeros : ℕ
  post : List Char

namespace Writing

def digits (w : Writing) (n : ℤ) : List Char :=
  List.replicate w.zeros '0' ++ naturalDigits n.natAbs

def text (w : Writing) (n : ℤ) : List Char :=
  w.pre ++ ((w.sign ++ w.digits n) ++ w.post)

def plain (n : ℤ) : Writing :=
  ⟨[], if n < 0 then ['-'] else [], 0, []⟩

/-- Whether a number is written so: below zero behind a minus, above zero behind a plus or nothing, zero
behind any of them, and not with more digits than are read. -/
structure Suits (w : Writing) (n : ℤ) : Prop where
  pre : Padding w.pre
  sign : w.sign = ['-'] ∧ n ≤ 0 ∨ (w.sign = [] ∨ w.sign = ['+']) ∧ 0 ≤ n
  digits : (w.digits n).length ≤ digitLimit
  post : Padding w.post

instance (w : Writing) (n : ℤ) : Decidable (w.Suits n) :=
  decidable_of_iff (Padding w.pre ∧ (w.sign = ['-'] ∧ n ≤ 0 ∨ (w.sign = [] ∨ w.sign = ['+']) ∧ 0 ≤ n) ∧
      (w.digits n).length ≤ digitLimit ∧ Padding w.post)
    ⟨fun ⟨hpre, hsign, hdigits, hpost⟩ => ⟨hpre, hsign, hdigits, hpost⟩,
      fun h => ⟨h.pre, h.sign, h.digits, h.post⟩⟩

variable {w : Writing} {n : ℤ}

theorem isDigit_of_mem_digits : ∀ c ∈ w.digits n, c.isDigit = true := by
  rw [digits, List.forall_mem_append]
  refine ⟨fun c hc => ?_, isDigit_of_mem_naturalDigits⟩
  rw [List.eq_of_mem_replicate hc]
  rfl

theorem digitsValue_digits : digitsValue (w.digits n) = n.natAbs := by
  rw [digits, digitsValue_append, digitsValue_replicate, digitsValue_naturalDigits, Nat.mul_zero,
    Nat.zero_add]

theorem Suits.parts (h : w.Suits n) : Parts (w.text n) w.pre w.sign (w.digits n) w.post where
  text := rfl
  pre := h.pre.1
  sign := by
    rcases h.sign with ⟨hminus, -⟩ | ⟨hnone | hplus, -⟩
    · exact .inr (.inr hminus)
    · exact .inl hnone
    · exact .inr (.inl hplus)
  digits_ne_nil := List.append_ne_nil_of_right_ne_nil _ (naturalDigits_ne_nil _)
  digits := isDigit_of_mem_digits
  post := h.post.1

theorem Suits.signed_eq (h : w.Suits n) :
    (if w.sign = ['-'] then -(n.natAbs : ℤ) else n.natAbs) = n := by
  rcases h.sign with ⟨hminus, hn⟩ | ⟨hnone | hplus, hn⟩
  · rw [if_pos hminus]
    omega
  · rw [hnone, if_neg (by decide)]
    omega
  · rw [hplus, if_neg (by decide)]
    omega

theorem suits_plain (h : (naturalDigits n.natAbs).length ≤ digitLimit) :
    (plain n).Suits n where
  pre := ⟨blanks_nil, rfl⟩
  sign := by
    rcases lt_or_ge n 0 with hn | hn
    · exact .inl ⟨if_pos hn, hn.le⟩
    · exact .inr ⟨.inl (if_neg (not_lt.mpr hn)), hn⟩
  digits := h
  post := ⟨blanks_nil, rfl⟩

end Writing

namespace Parts

variable {text pre sign digits post : List Char}

theorem matches_pattern (h : Parts text pre sign digits post) : pattern.Matches text := by
  have hsign : (Pattern.maybe (.one isSign)).Matches sign := by
    rcases h.sign with rfl | rfl | rfl
    · exact .skipped
    · exact .taken (.one rfl)
    · exact .taken (.one rfl)
  rw [h.text, List.append_assoc]
  exact .seq (.many h.pre) (.seq hsign
    (.seq (Pattern.matches_many1_iff.mpr ⟨h.digits_ne_nil, h.digits⟩) (.many h.post)))

theorem any_isSeparator (h : Parts text pre sign digits post) :
    text.any isSeparator = (pre.any isSeparator || post.any isSeparator) := by
  have hnone : (sign ++ digits).any isSeparator = false := by
    rw [List.any_eq_false]
    intro c hc hseparator
    have hnumeric : Numeral.isNumeric c = true := by
      rcases List.mem_append.mp hc with hc | hc
      · simp [Numeral.isNumeric, h.isSign_of_mem_sign c hc]
      · simp [Numeral.isNumeric, h.digits c hc]
    have hblank : isBlank c = true := by simp [isBlank, hseparator]
    rw [Numeral.not_blank_of_isNumeric hnumeric] at hblank
    cases hblank
  rw [h.text, List.any_append, List.any_append, hnone, Bool.false_or]

theorem sign_suits (h : Parts text pre sign digits post) {n : ℤ}
    (hn : (if sign = ['-'] then -(digitsValue digits : ℤ) else digitsValue digits) = n) :
    sign = ['-'] ∧ n ≤ 0 ∨ (sign = [] ∨ sign = ['+']) ∧ 0 ≤ n := by
  rcases h.sign with rfl | rfl | rfl
  · exact .inr ⟨.inl rfl, hn ▸ Int.natCast_nonneg _⟩
  · exact .inr ⟨.inr rfl, hn ▸ Int.natCast_nonneg _⟩
  · exact .inl ⟨rfl, hn ▸ neg_nonpos.mpr (Int.natCast_nonneg _)⟩

end Parts

theorem matches_iff_parts {text : List Char} :
    pattern.Matches text ↔ ∃ pre sign digits post, Parts text pre sign digits post :=
  ⟨exists_parts, fun ⟨_, _, _, _, h⟩ => h.matches_pattern⟩

theorem read?_of_parts {text : String} {pre sign digits post : List Char}
    (h : Parts text.toList pre sign digits post) :
    read? text =
      if pre.any isSeparator || post.any isSeparator then .error .strayBlank
      else if digitLimit < digits.length then .error .tooManyDigits
      else .ok (some (if sign = ['-'] then -(digitsValue digits : ℤ) else digitsValue digits)) := by
  rw [read?, if_pos (Pattern.fits_iff.mpr h.matches_pattern), h.value, h.any_isSeparator, h.countP_isDigit]
  split_ifs <;> rfl

theorem read?_of_suits {w : Writing} {n : ℤ} (h : w.Suits n) {text : String}
    (htext : text.toList = w.text n) : read? text = .ok (some n) := by
  have hparts := h.parts
  rw [← htext] at hparts
  have hdigits := h.digits
  rw [read?_of_parts hparts, h.pre.2, h.post.2, Writing.digitsValue_digits, h.signed_eq,
    if_neg (by decide), if_neg (by omega)]

theorem exists_writing {text : String} {n : ℤ} (h : read? text = .ok (some n)) :
    ∃ w : Writing, w.Suits n ∧ text.toList = w.text n := by
  have hmatches : pattern.Matches text.toList := by
    by_contra hnot
    rw [read?, if_neg (mt Pattern.fits_iff.mp hnot)] at h
    cases h
  obtain ⟨pre, sign, digits, post, hparts⟩ := exists_parts hmatches
  obtain ⟨zeros, hzeros⟩ := exists_zeros hparts.digits_ne_nil hparts.digits
  rw [read?_of_parts hparts] at h
  split at h
  · cases h
  next hseparator =>
    split at h
    · cases h
    next hlimit =>
      rw [Bool.not_eq_true, Bool.or_eq_false_iff] at hseparator
      -- Behind their zeros, the digits are those of the number without its sign.
      have hn := Option.some.inj (Except.ok.inj h)
      have habs : digitsValue digits = n.natAbs := by
        split at hn <;> omega
      have hdigits : Writing.digits ⟨pre, sign, zeros, post⟩ n = digits := by
        rw [hzeros, habs]
        rfl
      refine ⟨⟨pre, sign, zeros, post⟩,
        ⟨⟨hparts.pre, hseparator.1⟩, hparts.sign_suits hn, ?_, hparts.post, hseparator.2⟩, ?_⟩
      · rw [hdigits]
        exact not_lt.mp hlimit
      · rw [Writing.text, hdigits]
        exact hparts.text

theorem read?_eq_none_iff {text : String} :
    read? text = .ok none ↔ ¬pattern.Matches text.toList := by
  rw [read?]
  split
  · next hfits =>
    have hmatches := Pattern.fits_iff.mp hfits
    cases value text.toList <;> simp [hmatches]
  · next hfits => simp [mt Pattern.fits_iff.mpr hfits]

theorem bind_integerText (n : ℤ) :
    integerText n >>= read? =
      if (naturalDigits n.natAbs).length ≤ digitLimit then .ok (some n) else .error .tooManyDigits := by
  rw [integerText]
  split
  · next hlength =>
    refine read?_of_suits (Writing.suits_plain hlength) ?_
    rw [String.toList_ofList, Writing.text, Writing.plain, List.append_nil, List.nil_append]
    split <;> rfl
  · rfl

/-- A text reads as a number just when it is a writing of it, and as nothing just when it is not
digits behind a sign or none, between blanks. -/
theorem reads_signed_decimals :
    (∀ (text : String) (n : ℤ),
      read? text = .ok (some n) ↔ ∃ w : Writing, w.Suits n ∧ text.toList = w.text n) ∧
    (∀ n : ℤ, integerText n >>= read? =
      if (naturalDigits n.natAbs).length ≤ digitLimit then .ok (some n)
      else .error .tooManyDigits) ∧
    ∀ text : String, read? text = .ok none ↔
      ¬∃ pre sign digits post, Parts text.toList pre sign digits post := by
  refine ⟨fun text n => ⟨exists_writing, ?_⟩, bind_integerText, fun text => ?_⟩
  · rintro ⟨w, hsuits, htext⟩
    exact read?_of_suits hsuits htext
  · rw [read?_eq_none_iff, matches_iff_parts]

/-- A wide space, a minus, zeros and a line end make a writing of a number; digits in groups and digits
of other scripts make none. -/
theorem reads_signed_decimals_padded :
    Writing.Suits ⟨['\u2003'], ['-'], 2, ['\n']⟩ (-7) ∧ read? "\u2003-007\n" = .ok (some (-7)) ∧
      integerText (-7) >>= read? = .ok (some (-7)) ∧
      read? "1_000" = .ok none ∧ read? "\u0664\u0662" = .ok none := by
  obtain ⟨hnumber, hwritten, hnone⟩ := reads_signed_decimals
  have hsuits : Writing.Suits ⟨['\u2003'], ['-'], 2, ['\n']⟩ (-7) := by decide
  have hparts : ∀ text : String, pattern.fits text.toList = false →
      ¬∃ pre sign digits post, Parts text.toList pre sign digits post := by
    intro text hfits hsome
    rw [Pattern.fits_iff.mpr (matches_iff_parts.mpr hsome)] at hfits
    cases hfits
  refine ⟨hsuits, (hnumber _ _).mpr ⟨_, hsuits, by decide⟩, ?_, ?_, ?_⟩
  · rw [hwritten, if_pos (by decide)]
  · exact (hnone _).mpr (hparts _ (by decide))
  · exact (hnone _).mpr (hparts _ (by decide))

end Whole

end Tween.Text
