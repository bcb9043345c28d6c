import Tween.Proofs.Decimals
import Tween.Proofs.Scanning

namespace Tween

open Number (naturalDigits exponentText placed signed floatDigits Decimal rounded parts ofParts)
open Float.Model.UnpackedFloat (Sign)

namespace Text

theorem digitsValue_eq (digits : List Char) : digitsValue digits = Nat.ofDigitChars 10 digits 0 :=
  Nat.ofDigitChars_eq_foldl.symm

theorem digitsValue_naturalDigits (n : ℕ) : digitsValue (naturalDigits n) = n := by
  rw [digitsValue_eq, naturalDigits, Nat.ofDigitChars_ten_toDigits]

theorem isDigit_of_mem_naturalDigits {n : ℕ} : ∀ c ∈ naturalDigits n, c.isDigit = true :=
  fun _ hc => Nat.isDigit_of_mem_toDigits (by decide) (by decide) hc

theorem naturalDigits_ne_nil (n : ℕ) : naturalDigits n ≠ [] :=
  Nat.toDigits_ne_nil

theorem digitsValue_append (a b : List Char) :
    digitsValue (a ++ b) = 10 ^ b.length * digitsValue a + digitsValue b := by
  rw [digitsValue_eq, Nat.ofDigitChars_append, Nat.ofDigitChars_eq_ofDigitChars_zero, digitsValue_eq,
    digitsValue_eq]

theorem digitsValue_replicate (n : ℕ) : digitsValue (List.replicate n '0') = 0 := by
  rw [digitsValue_eq, Nat.ofDigitChars_replicate_zero, Nat.mul_zero]

theorem digitsValue_lt {digits : List Char} (h : ∀ c ∈ digits, c.isDigit = true) :
    digitsValue digits < 10 ^ digits.length := by
  induction digits using List.reverseRecOn with
  | nil => exact Nat.one_pos
  | append_singleton digits c ih =>
    rw [List.forall_mem_append] at h
    have hdigit : digitsValue [c] < 10 := by
      have hc := Char.isDigit_iff_toNat.mp (h.2 c (List.mem_singleton_self c))
      have hzero : '0'.toNat = 48 := rfl
      have hnine : '9'.toNat = 57 := rfl
      change 10 * 0 + (c.toNat - '0'.toNat) < 10
      omega
    have hrest := ih h.1
    rw [digitsValue_append, List.length_append, List.length_singleton, pow_succ]
    omega

theorem length_naturalDigits_le {n k : ℕ} (hk : 0 < k) (h : n < 10 ^ k) :
    (naturalDigits n).length ≤ k :=
  (Nat.length_toDigits_le_iff (by decide) hk).mpr h

theorem takeWhile_append {p : Char → Bool} {a rest : List Char} (ha : ∀ c ∈ a, p c = true)
    (hrest : Stops p rest) : (a ++ rest).takeWhile p = a := by
  have hdrop := dropWhile_append ha hrest
  have hsplit := List.takeWhile_append_dropWhile (p := p) (l := a ++ rest)
  rw [hdrop] at hsplit
  exact List.append_cancel_right hsplit

namespace Numeral

/-- The power of ten that the rest of a numeral after its mantissa gives. -/
def power (rest : List Char) : ℤ :=
  let (negative, digits) := splitSign (rest.drop 1)
  if negative then -(digitsValue digits : ℤ) else digitsValue digits

/-- The digits of an exponent, with a zero in front if there is only one. -/
def exponentDigits (e : ℤ) : List Char :=
  let digits := naturalDigits e.natAbs
  if digits.length < 2 then '0' :: digits else digits

theorem exponentText_eq (e : ℤ) :
    exponentText e = 'e' :: (if e < 0 then '-' else '+') :: exponentDigits e := rfl

theorem exponentDigits_ne_nil (e : ℤ) : exponentDigits e ≠ [] := by
  unfold exponentDigits
  dsimp only
  split
  · exact List.cons_ne_nil _ _
  · exact naturalDigits_ne_nil _

theorem isDigit_of_mem_exponentDigits {e : ℤ} : ∀ c ∈ exponentDigits e, c.isDigit = true := by
  unfold exponentDigits
  dsimp only
  split
  · exact List.forall_mem_cons.mpr ⟨rfl, isDigit_of_mem_naturalDigits⟩
  · exact isDigit_of_mem_naturalDigits

theorem digitsValue_exponentDigits (e : ℤ) : digitsValue (exponentDigits e) = e.natAbs := by
  unfold exponentDigits
  dsimp only
  split
  · refine (digitsValue_append ['0'] (naturalDigits e.natAbs)).trans ?_
    rw [digitsValue_naturalDigits]
    exact Nat.zero_add _
  · exact digitsValue_naturalDigits _

theorem power_exponentText (e : ℤ) : power (exponentText e) = e := by
  rw [exponentText_eq, power, List.drop_one, List.tail_cons]
  split_ifs with he
  · rw [show splitSign ('-' :: exponentDigits e) = (true, exponentDigits e) from rfl]
    dsimp only
    rw [digitsValue_exponentDigits, if_pos rfl]
    omega
  · rw [show splitSign ('+' :: exponentDigits e) = (false, exponentDigits e) from rfl]
    dsimp only
    rw [digitsValue_exponentDigits, if_neg Bool.false_ne_true]
    omega

theorem decimal_append {w x : List Char} (hw : ∀ c ∈ w, c.isDigit = true)
    (hdigit : Stops Char.isDigit x) (hpoint : Stops isPoint x) :
    decimal (w ++ x) = ⟨digitsValue w, power x⟩ := by
  unfold decimal power
  rw [takeWhile_append hw hdigit, dropWhile_append hw hdigit]
  cases x with
  | nil => simp
  | cons c rest =>
    simp only [stops_cons.mp hpoint, Bool.false_eq_true, if_false, List.append_nil,
      List.length_nil, Nat.cast_zero, sub_zero]

theorem decimal_append_point {w f x : List Char} (hw : ∀ c ∈ w, c.isDigit = true)
    (hf : ∀ c ∈ f, c.isDigit = true) (hx : Stops Char.isDigit x) :
    decimal (w ++ '.' :: (f ++ x)) = ⟨digitsValue (w ++ f), power x - f.length⟩ := by
  have hpoint : Stops Char.isDigit ('.' :: (f ++ x)) := stops_cons.mpr (by decide)
  unfold decimal
  rw [takeWhile_append hw hpoint, dropWhile_append hw hpoint]
  simp only [show isPoint '.' = true from rfl, if_true, takeWhile_append hf hx,
    dropWhile_append hf hx]
  rfl

/-- The shape of a positive number in writing: digits, perhaps a point with digits behind it, and
perhaps an exponent. -/
structure Shape where
  whole : List Char
  fraction : Option (List Char)
  top : Option ℤ

namespace Shape

def text (s : Shape) : List Char :=
  s.whole ++ ((s.fraction.elim [] ('.' :: ·)) ++ (s.top.elim [] exponentText))

theorem text_whole (w : List Char) : text ⟨w, none, none⟩ = w := by
  simp [text]

/-- Whether there are digits, and nothing but digits, where digits are to be. -/
structure Valid (s : Shape) : Prop where
  ne : s.whole ≠ []
  whole : ∀ c ∈ s.whole, c.isDigit = true
  fraction : ∀ f ∈ s.fraction, ∀ c ∈ f, c.isDigit = true

def decimal (s : Shape) : Decimal :=
  ⟨digitsValue (s.whole ++ s.fraction.getD []), s.top.getD 0 - (s.fraction.getD []).length⟩

theorem stops_exponent (e : Option ℤ) :
    Stops Char.isDigit (e.elim [] exponentText) ∧ Stops isPoint (e.elim [] exponentText) := by
  cases e with
  | none => exact ⟨stops_nil _, stops_nil _⟩
  | some e => exact ⟨stops_cons.mpr rfl, stops_cons.mpr rfl⟩

theorem Valid.decimal_text {s : Shape} (h : s.Valid) : Numeral.decimal s.text = s.decimal := by
  obtain ⟨w, f, e⟩ := s
  obtain ⟨hdigit, hpoint⟩ := stops_exponent e
  have hpower : power (e.elim [] exponentText) = e.getD 0 := by
    cases e with
    | none => rfl
    | some e => exact power_exponentText e
  cases f with
  | none =>
    have := decimal_append h.whole hdigit hpoint
    rw [hpower] at this
    simpa [text, decimal] using this
  | some f =>
    have := decimal_append_point h.whole (h.fraction f rfl) hdigit
    rw [hpower] at this
    simpa [text, decimal] using this

theorem Valid.matches_text {s : Shape} (h : s.Valid) :
    (Pattern.seq mantissa (.maybe exponent)).Matches s.text := by
  obtain ⟨w, f, e⟩ := s
  have hmantissa : mantissa.Matches (w ++ f.elim [] ('.' :: ·)) := by
    refine .altLeft (.seq (Pattern.matches_many1_iff.mpr ⟨h.ne, h.whole⟩) ?_)
    cases f with
    | none => exact .seq (a := []) .skipped (.many nofun)
    | some f => exact .seq (a := ['.']) (.taken (.one rfl)) (.many (h.fraction f rfl))
  have hexponent : (Pattern.maybe exponent).Matches (e.elim [] exponentText) := by
    cases e with
    | none => exact .skipped
    | some e =>
      have hsign : isSign (if e < 0 then '-' else '+') = true := by
        split <;> rfl
      have hdigits := Pattern.matches_many1_iff.mpr
        ⟨exponentDigits_ne_nil e, isDigit_of_mem_exponentDigits (e := e)⟩
      exact .taken (.seq (a := ['e']) (.one rfl) (.seq (a := [_]) (.taken (.one hsign)) hdigits))
  rw [text, ← List.append_assoc]
  exact .seq hmantissa hexponent

end Shape

def shapeOf (digits : List Char) (top : ℤ) : Shape :=
  if top < -4 ∨ 16 ≤ top then
    ⟨digits.take 1, if digits.length = 1 then none else some (digits.drop 1), some top⟩
  else if top < 0 then ⟨['0'], some (List.replicate (-top - 1).toNat '0' ++ digits), none⟩
  else
    let whole := top.toNat + 1
    if digits.length ≤ whole then
      ⟨digits ++ List.replicate (whole - digits.length) '0', some ['0'], none⟩
    else ⟨digits.take whole, some (digits.drop whole), none⟩

theorem placed_eq {digits : List Char} (hne : digits ≠ []) (top : ℤ) :
    placed digits top = (shapeOf digits top).text := by
  obtain ⟨d, rest, rfl⟩ := List.exists_cons_of_ne_nil hne
  unfold placed shapeOf
  dsimp only
  split
  · cases rest with
    | nil => rfl
    | cons c rest => simp [Shape.text]
  · split
    · simp [Shape.text]
    · split <;> simp [Shape.text]

theorem valid_shapeOf {digits : List Char} (hne : digits ≠ [])
    (hdigits : ∀ c ∈ digits, c.isDigit = true) (top : ℤ) : (shapeOf digits top).Valid := by
  have htake : ∀ n, ∀ c ∈ digits.take n, c.isDigit = true :=
    fun n c hc => hdigits c (List.mem_of_mem_take hc)
  have hdrop : ∀ n, ∀ c ∈ digits.drop n, c.isDigit = true :=
    fun n c hc => hdigits c (List.mem_of_mem_drop hc)
  have hzeros : ∀ n, ∀ c ∈ List.replicate n '0', c.isDigit = true := fun n c hc => by
    rw [List.eq_of_mem_replicate hc]
    rfl
  have hnonempty : ∀ n, digits.take (n + 1) ≠ [] := fun n h => by
    rcases List.take_eq_nil_iff.mp h with h | h
    · omega
    · exact hne h
  unfold shapeOf
  dsimp only
  split
  · refine ⟨hnonempty 0, htake 1, ?_⟩
    split
    · nofun
    · rintro f ⟨⟩
      exact hdrop 1
  · split
    · refine ⟨List.cons_ne_nil _ _, by simp, ?_⟩
      rintro f ⟨⟩
      exact List.forall_mem_append.mpr ⟨hzeros _, hdigits⟩
    · split
      · refine ⟨by simp [hne], List.forall_mem_append.mpr ⟨hdigits, hzeros _⟩, ?_⟩
        rintro f ⟨⟩
        simp
      · refine ⟨hnonempty _, htake _, ?_⟩
        rintro f ⟨⟩
        exact hdrop _

theorem value_shapeOf {digits : List Char} (hne : digits ≠ []) (top : ℤ) :
    (shapeOf digits top).decimal.value = digitsValue digits * 10 ^ (top + 1 - digits.length) := by
  have hlength := List.length_pos_of_ne_nil hne
  unfold shapeOf
  dsimp only
  split
  · split
    next hone =>
      -- A single digit has no point behind it.
      simp only [Shape.decimal, Decimal.value, Option.getD_none, Option.getD_some, List.append_nil,
        List.take_of_length_le hone.le, hone, List.length_nil]
      norm_num
    next =>
      simp only [Shape.decimal, Decimal.value, Option.getD_some, List.take_append_drop,
        List.length_drop]
      congr 2
      omega
  · split
    next htop =>
      simp only [Shape.decimal, Decimal.value, Option.getD_some, Option.getD_none,
        List.length_append, List.length_replicate]
      rw [digitsValue_append, digitsValue_append, digitsValue_replicate,
        show digitsValue ['0'] = 0 from rfl, Nat.mul_zero, Nat.mul_zero, Nat.zero_add, Nat.zero_add]
      congr 2
      push_cast
      omega
    next htop =>
      split
      next hlen =>
        obtain ⟨zeros, hzeros⟩ := Nat.le.dest hlen
        simp only [Shape.decimal, Decimal.value, Option.getD_some, Option.getD_none]
        rw [digitsValue_append, digitsValue_append, digitsValue_replicate, List.length_replicate,
          show digitsValue ['0'] = 0 from rfl,
          show top + 1 - (digits.length : ℤ) = (zeros : ℤ) by omega,
          show top.toNat + 1 - digits.length = zeros by omega]
        push_cast
        rw [zpow_natCast]
        norm_num
        ring
      next hlen =>
        simp only [Shape.decimal, Decimal.value, Option.getD_some, Option.getD_none,
          List.take_append_drop, List.length_drop]
        congr 2
        omega

theorem value_signed (s : Sign) {body : List Char} (h : Stops isSign body) :
    value (signed s body) =
      match s with
      | .negative => -(decimal body).toFloat
      | .positive => (decimal body).toFloat := by
  cases s with
  | negative => rfl
  | positive =>
    cases body with
    | nil => rfl
    | cons c rest => simp [signed, value, splitSign, stops_cons.mp h]

/-- The text of a finite double has a shape, and the magnitude is read off it. -/
theorem exists_shape {x : Float} (hx : x.isFinite = true) :
    ∃ s : Shape, s.Valid ∧ floatDigits x = signed (Number.sign (parts x)) s.text ∧
      s.decimal.toFloat = ofParts (parts x).abs := by
  unfold floatDigits
  rcases Number.finite_cases hx with ⟨s, h⟩ | ⟨s, m, e, hm, h, hcan, -⟩ <;> rw [h]
  · refine ⟨⟨['0'], some ['0'], none⟩, ⟨List.cons_ne_nil _ _, by simp, by simp⟩, rfl, ?_⟩
    have hzero : (Shape.decimal ⟨['0'], some ['0'], none⟩).value = 0 :=
      (mul_eq_zero_of_left Nat.cast_zero _)
    rw [Decimal.toFloat_eq_rounded, hzero, Number.rounded_zero]
    rfl
  · have hne := naturalDigits_ne_nil (Decimal.shortest m e).digits
    refine ⟨shapeOf _ _, valid_shapeOf hne isDigit_of_mem_naturalDigits _,
      congrArg (signed s) (placed_eq hne _), ?_⟩
    have hvalue := value_shapeOf hne ((Decimal.shortest m e).exponent +
      (naturalDigits (Decimal.shortest m e).digits).length - 1)
    rw [digitsValue_naturalDigits, sub_add_cancel, add_sub_cancel_right] at hvalue
    exact (Decimal.toFloat_congr hvalue).trans (Decimal.toFloat_shortest hm hcan)

theorem Shape.Valid.stops_sign {s : Shape} (h : s.Valid) : Stops isSign s.text := by
  obtain ⟨c, rest, hw⟩ := List.exists_cons_of_ne_nil h.ne
  have hc := h.whole c (by rw [hw]; exact List.mem_cons_self)
  rw [Shape.text, hw]
  exact stops_cons.mpr (not_sign_of_isDigit hc)

theorem Shape.Valid.matches_pattern {s : Shape} (h : s.Valid) : pattern.Matches s.text :=
  .seq (a := []) .skipped h.matches_text

theorem Shape.Valid.value_text {s : Shape} (h : s.Valid) :
    value s.text = rounded .positive s.decimal.value := by
  have hread := value_signed .positive h.stops_sign
  rw [signed] at hread
  rw [hread, h.decimal_text, Decimal.toFloat_eq_rounded]

theorem matches_floatDigits {x : Float} (hx : x.isFinite = true) :
    pattern.Matches (floatDigits x) := by
  obtain ⟨s, hvalid, htext, -⟩ := exists_shape hx
  rw [htext]
  cases Number.sign (parts x) with
  | positive => exact hvalid.matches_pattern
  | negative => exact .seq (a := ['-']) (.taken (.one rfl)) hvalid.matches_text

theorem value_floatDigits {x : Float} (hx : x.isFinite = true) : value (floatDigits x) = x := by
  obtain ⟨s, hvalid, htext, hread⟩ := exists_shape hx
  rw [htext, value_signed _ hvalid.stops_sign, hvalid.decimal_text, hread]
  have hparts := Number.ofParts_parts x
  rcases Number.finite_cases hx with ⟨s, h⟩ | ⟨s, m, e, hm, h, hcan, he⟩ <;> rw [h] at hparts ⊢ <;>
    refine Eq.trans ?_ hparts
  · cases s <;> rfl
  · cases s with
    | positive => rfl
    | negative => exact Number.neg_ofParts (Number.parts_ofParts_finite .positive hm hcan he)

theorem valid_naturalDigits (n : ℕ) : Shape.Valid ⟨naturalDigits n, none, none⟩ :=
  ⟨naturalDigits_ne_nil n, isDigit_of_mem_naturalDigits, nofun⟩

theorem matches_naturalDigits (n : ℕ) : pattern.Matches (naturalDigits n) := by
  have h := (valid_naturalDigits n).matches_pattern
  rwa [Shape.text_whole] at h

theorem value_naturalDigits (n : ℕ) : value (naturalDigits n) = rounded .positive n := by
  have hread := (valid_naturalDigits n).value_text
  have hvalue : (Shape.decimal ⟨naturalDigits n, none, none⟩).value = n := by
    rw [Shape.decimal, Option.getD_none, Option.getD_none, List.append_nil,
      digitsValue_naturalDigits, Decimal.value]
    exact mul_one _
  rwa [Shape.text_whole, hvalue] at hread

theorem floatDigits_of_not_isFinite {x : Float} (hx : ¬x.isFinite = true) :
    floatDigits x = "nan".toList ∨ floatDigits x = "inf".toList ∨ floatDigits x = "-inf".toList := by
  change ¬(parts x).isFinite = true at hx
  unfold floatDigits
  cases hparts : parts x with
  | zero | finite =>
    rw [hparts] at hx
    exact absurd rfl hx
  | notANumber => exact .inl rfl
  | infinity s =>
    cases s with
    | positive => exact .inr (.inl rfl)
    | negative => exact .inr (.inr rfl)

theorem not_matches_floatDigits {x : Float} (hx : ¬x.isFinite = true) :
    ¬pattern.Matches (floatDigits x) := by
  rw [← Pattern.fits_iff]
  rcases floatDigits_of_not_isFinite hx with h | h | h <;> rw [h] <;> decide

theorem not_blank_floatDigits (x : Float) : ∀ c ∈ floatDigits x, isBlank c = false := by
  by_cases hx : x.isFinite = true
  · exact fun c hc => not_blank_of_isNumeric (isNumeric_of_matches (matches_floatDigits hx) c hc)
  · have hall : (floatDigits x).all (!isBlank ·) = true := by
      rcases floatDigits_of_not_isFinite hx with h | h | h <;> rw [h] <;> decide
    simpa using hall

theorem floatDigits_ne_nil (x : Float) : floatDigits x ≠ [] := by
  by_cases hx : x.isFinite = true
  · exact ne_nil_of_matches (matches_floatDigits hx)
  · rcases floatDigits_of_not_isFinite hx with h | h | h <;> rw [h] <;> decide

end Numeral

end Text

end Tween
