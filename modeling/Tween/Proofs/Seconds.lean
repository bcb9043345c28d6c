import Tween.Proofs.RoundTrip
import Tween.Proofs.Precision

namespace Tween

open Text Number

namespace Number

def threeDigits (k : ℕ) : List Char :=
  [(k / 100).digitChar, (k / 10 % 10).digitChar, (k % 10).digitChar]

/-- Whole milliseconds in seconds, with three places behind the point. -/
def secondsDigits (n : ℕ) : List Char :=
  naturalDigits (n / 1000) ++ '.' :: threeDigits (n % 1000)

theorem isDigit_of_mem_threeDigits {k : ℕ} (hk : k < 1000) :
    ∀ c ∈ threeDigits k, c.isDigit = true := by
  simp only [threeDigits, List.forall_mem_cons, Nat.isDigit_digitChar, decide_eq_true_iff]
  exact ⟨by omega, by omega, by omega, nofun⟩

theorem digitsValue_threeDigits {k : ℕ} (hk : k < 1000) : digitsValue (threeDigits k) = k := by
  simp only [threeDigits, digitsValue, List.foldl_cons, List.foldl_nil,
    Nat.toNat_digitChar_of_lt_ten (by omega : k / 100 < 10),
    Nat.toNat_digitChar_of_lt_ten (by omega : k / 10 % 10 < 10),
    Nat.toNat_digitChar_of_lt_ten (by omega : k % 10 < 10)]
  have hzero : '0'.toNat = 48 := rfl
  omega

theorem Denotes.truncate {x : Float} {a : ℚ} (h : Denotes x a) (ha : 0 ≤ a) :
    Number.truncate x = .ok (⌊a⌋₊ : ℕ) := by
  rw [truncate_of_not_lt_zero h.1 (h.not_lt_zero ha), h.magnitude_eq, abs_of_nonneg ha]

end Number

namespace Text.Numeral

def secondsShape (n : ℕ) : Shape :=
  ⟨naturalDigits (n / 1000), some (threeDigits (n % 1000)), none⟩

theorem text_secondsShape (n : ℕ) : (secondsShape n).text = secondsDigits n := by
  simp [secondsShape, Shape.text, secondsDigits]

theorem valid_secondsShape (n : ℕ) : (secondsShape n).Valid where
  ne := naturalDigits_ne_nil _
  whole := isDigit_of_mem_naturalDigits
  fraction := by
    rintro f hf
    rw [← Option.some.inj hf]
    exact isDigit_of_mem_threeDigits (Nat.mod_lt n (by norm_num))

theorem matches_secondsDigits (n : ℕ) : pattern.Matches (secondsDigits n) := by
  rw [← text_secondsShape]
  exact (valid_secondsShape n).matches_pattern

/-- Milliseconds in seconds are read as the double nearest to their thousandth. -/
theorem value_secondsDigits (n : ℕ) : value (secondsDigits n) = rounded .positive (n / 1000) := by
  have hvalue : (secondsShape n).decimal.value = n / 1000 := by
    rw [secondsShape, Shape.decimal, Option.getD_some, Option.getD_none, digitsValue_append,
      digitsValue_naturalDigits, digitsValue_threeDigits (Nat.mod_lt n (by norm_num)), Decimal.value]
    have hlength : (threeDigits (n % 1000)).length = 3 := rfl
    have hsplit : 10 ^ 3 * (n / 1000) + n % 1000 = n := Nat.div_add_mod n 1000
    rw [hlength, hsplit]
    norm_num
    ring
  rw [← text_secondsShape, (valid_secondsShape n).value_text, hvalue]

end Text.Numeral

namespace Description

/-- The milliseconds that come back of `n` written in seconds. -/
def throughSeconds (n : ℕ) : ℕ :=
  ⌊snap (snap (n / 1000) * 1000)⌋₊

variable {n : ℕ}

theorem denotes_thousand : Denotes 1000.0 1000 :=
  .of_value (s := .positive) (m := 1000 * 2 ^ 43) (e := -43) rfl (by norm_num [withSign])

theorem abs_quotient_sub_le (hn : n < 10 ^ 12) : |snap (n / 1000) - n / 1000| ≤ 2 ^ (-22 : ℤ) := by
  have hn' : (n : ℚ) ≤ 10 ^ 12 := by exact_mod_cast hn.le
  refine abs_snap_sub_le_zpow (by decide) ?_
  rw [abs_of_nonneg (by positivity)]
  norm_num
  linarith

theorem quotient_mul_mem (hn : n < 10 ^ 12) :
    snap (n / 1000) * 1000 ∈ Set.Icc ((0 : ℤ) : ℚ) ((2 ^ 40 : ℤ) : ℚ) := by
  have hn' : (n : ℚ) ≤ 10 ^ 12 := by exact_mod_cast hn.le
  have hquotient := abs_le.mp (abs_quotient_sub_le hn)
  have hnonneg : 0 ≤ snap (n / 1000) := snap_nonneg (by positivity)
  norm_num at hquotient ⊢
  constructor <;> linarith

theorem abs_product_sub_lt (hn : n < 10 ^ 12) : |snap (snap (n / 1000) * 1000) - n| < 1 := by
  -- The product makes a thousand times as much of the first error, which is still below a half.
  have hquotient := abs_le.mp (abs_quotient_sub_le hn)
  obtain ⟨hlow, hhigh⟩ := quotient_mul_mem hn
  have hproduct : |snap (snap (n / 1000) * 1000) - snap (n / 1000) * 1000| ≤ 2 ^ (-12 : ℤ) := by
    refine abs_snap_sub_le_zpow (by decide) ?_
    rw [Int.cast_zero] at hlow
    rw [abs_of_nonneg hlow]
    norm_num at hhigh ⊢
    exact hhigh
  have hproduct := abs_le.mp hproduct
  norm_num at hquotient hproduct
  rw [abs_lt]
  constructor <;> linarith

theorem product_nonneg (n : ℕ) : 0 ≤ snap (snap (n / 1000) * 1000) :=
  snap_nonneg (mul_nonneg (snap_nonneg (by positivity)) (by norm_num))

theorem throughSeconds_of_le (hn : n < 10 ^ 12) (h : (n : ℚ) ≤ snap (snap (n / 1000) * 1000)) :
    throughSeconds n = n := by
  have hhigh := (abs_lt.mp (abs_product_sub_lt hn)).2
  rw [throughSeconds, Nat.floor_eq_iff (product_nonneg n)]
  exact ⟨h, by linarith⟩

theorem throughSeconds_of_lt (hn : n < 10 ^ 12) (h : snap (snap (n / 1000) * 1000) < n) :
    throughSeconds n + 1 = n := by
  have hlow := (abs_lt.mp (abs_product_sub_lt hn)).1
  have hpos : 0 < n := Nat.cast_pos.mp ((product_nonneg n).trans_lt h)
  obtain ⟨m, rfl⟩ := Nat.exists_eq_succ_of_ne_zero hpos.ne'
  rw [Nat.succ_eq_add_one, Nat.add_right_cancel_iff, throughSeconds,
    Nat.floor_eq_iff (product_nonneg _)]
  push_cast at h hlow ⊢
  exact ⟨by linarith, h⟩

theorem throughSeconds_of_dvd (hn : n < 10 ^ 12) (h : 125 ∣ n) : throughSeconds n = n := by
  obtain ⟨k, rfl⟩ := h
  have hquotient : snap ((125 * k : ℕ) / 1000) = (125 * k : ℕ) / 1000 := by
    refine snap_of_dyadic k 3 ?_ (by omega) (by norm_num)
    push_cast
    ring
  have hproduct : snap ((125 * k : ℕ) : ℚ) = (125 * k : ℕ) :=
    snap_intCast (n := (125 * k : ℕ)) (by omega)
  rw [throughSeconds, hquotient, div_mul_cancel₀ _ (by norm_num), hproduct, Nat.floor_natCast]

theorem readLength?_secondsDigits (hn : n < 10 ^ 12) :
    readLength? (secondsDigits n) .seconds = some (throughSeconds n : ℤ) := by
  have hn' : (n : ℚ) ≤ 10 ^ 12 := by exact_mod_cast hn.le
  have hsmall : (n : ℚ) / 1000 < overflowBound := by
    refine (le_abs_self _).trans_lt
      (abs_lt_overflowBound (k := 0) (n := 10 ^ 9) (by decide) (by decide) ⟨?_, ?_⟩) <;> push_cast
    · positivity
    · linarith
  have hquotient : Denotes (rounded .positive (n / 1000)) (snap (n / 1000)) :=
    .rounded .positive (by positivity) hsmall
  have hproduct := hquotient.mul denotes_thousand
    (abs_lt_overflowBound (by decide) (by decide) (quotient_mul_mem hn))
  rw [readLength?_eq_some_iff, measure, Numeral.value_secondsDigits]
  exact ⟨hproduct.1, hproduct.not_lt_zero (product_nonneg n), hproduct.truncate (product_nonneg n)⟩

theorem readLength?_of_lt (hn : n < 10 ^ 12) :
    readLength? (naturalDigits n) .milliseconds = some (n : ℤ) := by
  have hwhole := magnitude_rounding_of_lt .positive (m := n) (by omega) (e := 0) (by norm_num)
  have hsmall := mul_zpow_lt_overflowBound (m := n) (by omega) (e := 0) (by norm_num)
  rw [zpow_zero, mul_one] at hwhole hsmall
  exact readLength?_naturalDigits hsmall hwhole

/-- Whole milliseconds below `10 ^ 12` are read as they are; written in seconds with three places
they are one less just when rounding the thousandth and then its multiple ends below. -/
theorem read?_seconds (hn : n < 10 ^ 12) {rest : String} (hrest : Stops (!isBlank ·) rest.toList) :
    read? (String.ofList (naturalDigits n) ++ "ms" ++ rest) =
        .ok ((readEasing? (words rest.toList)).map fun (name, easing) => ⟨n, name, easing⟩) ∧
      read? (String.ofList (secondsDigits n) ++ "s" ++ rest) =
        .ok ((readEasing? (words rest.toList)).map fun (name, easing) =>
          ⟨throughSeconds n, name, easing⟩) ∧
      (throughSeconds n = n ∨ throughSeconds n + 1 = n) ∧
      (throughSeconds n = n ↔ (n : ℚ) ≤ snap (snap (n / 1000) * 1000)) ∧
      (125 ∣ n → throughSeconds n = n) := by
  have hmilliseconds : (String.ofList (naturalDigits n) ++ "ms" ++ rest).toList =
      naturalDigits n ++ (TimeUnit.milliseconds.text ++ rest.toList) := by
    simp [TimeUnit.text]
  have hseconds : (String.ofList (secondsDigits n) ++ "s" ++ rest).toList =
      secondsDigits n ++ (TimeUnit.seconds.text ++ rest.toList) := by
    simp [TimeUnit.text]
  refine ⟨?_, ?_, ?_, ⟨fun h => ?_, throughSeconds_of_le hn⟩, throughSeconds_of_dvd hn⟩
  · rw [read?_of_toList_eq .milliseconds hmilliseconds (Numeral.matches_naturalDigits n) hrest,
      readLength?_of_lt hn, Option.map_eq_bind]
    rfl
  · rw [read?_of_toList_eq .seconds hseconds (Numeral.matches_secondsDigits n) hrest,
      readLength?_secondsDigits hn, Option.map_eq_bind]
    rfl
  · rcases le_or_gt (n : ℚ) (snap (snap (n / 1000) * 1000)) with h | h
    · exact .inl (throughSeconds_of_le hn h)
    · exact .inr (throughSeconds_of_lt hn h)
  · by_contra hless
    have := throughSeconds_of_lt hn (not_le.mp hless)
    omega

/-- A quarter of a second is read alike in both units. -/
theorem read?_seconds_quarter :
    read? "250ms linear" = .ok (some ⟨250, "linear", .named .linear⟩) ∧
      read? "0.250s linear" = read? "250ms linear" := by
  have hrest : Stops (!isBlank ·) " linear".toList := stops_cons.mpr (by decide)
  obtain ⟨hmilliseconds, hseconds, -, -, hdvd⟩ := read?_seconds (n := 250) (by norm_num) hrest
  rw [hdvd (by norm_num)] at hseconds
  have heasing : readEasing? (words " linear".toList) = some ("linear", .named .linear) := rfl
  have htext : String.ofList (naturalDigits 250) ++ "ms" ++ " linear" = "250ms linear" := by decide
  have htext' : String.ofList (secondsDigits 250) ++ "s" ++ " linear" = "0.250s linear" := by decide
  rw [htext, heasing] at hmilliseconds
  rw [htext', heasing] at hseconds
  exact ⟨hmilliseconds, hseconds.trans hmilliseconds.symm⟩

/-- A thousandth more than a second is lost: the product of the rounded numeral is below 1001. -/
theorem read?_seconds_short :
    "1.001s" = String.ofList (secondsDigits 1001) ++ "s" ++ "" ∧
      read? "1001ms" = .ok (some ⟨1001, "circle", .named .circle⟩) ∧
      read? "1.001s" = .ok (some ⟨1000, "circle", .named .circle⟩) :=
  ⟨by decide, rfl, rfl⟩

end Description

end Tween
