import Tween.Proofs.RoundTrip
import Tween.Proofs.Precision

namespace Tween

open Text Number
open Float.Model (UnpackedFloat)
open Float.Model.UnpackedFloat

namespace Number

theorem abs_carried (s : Sign) (n : ℕ) (e : ℤ) : (carried s n e).abs = carried .positive n e := by
  unfold carried
  split_ifs <;> rfl

theorem abs_rounded (s : Sign) {q : ℚ} (hq : 0 ≤ q) : (rounded s q).abs = rounded .positive q := by
  change ofParts (parts (rounded s q)).abs = rounded .positive q
  rcases lt_or_ge q overflowBound with h | h
  · rw [parts_rounded s hq h]
    exact congrArg ofParts (abs_carried s _ _)
  · rw [rounded_of_le s h, rounded_of_le .positive h, parts_ofParts_infinity]
    rfl

namespace Denotes

variable {x y : Float} {a b : ℚ}

theorem abs_sub (hx : Denotes x a) (hy : Denotes y b) :
    (x - y).abs = Number.rounded .positive |a - b| := by
  obtain ⟨s, heq, -⟩ := hx.exists_sub_eq hy
  rw [heq, abs_rounded s (abs_nonneg _)]

theorem abs_add (hx : Denotes x a) (hy : Denotes y b) :
    (x + y).abs = Number.rounded .positive |a + b| := by
  obtain ⟨s, heq, -⟩ := hx.exists_add_eq hy
  rw [heq, abs_rounded s (abs_nonneg _)]

end Denotes

/-- Unless both are finite, a difference is an infinity or no number, whichever is taken from the
other. -/
theorem sub_of_not_isFinite {p q : UnpackedFloat} (h : ¬(p.isFinite = true ∧ q.isFinite = true)) :
    (UnpackedFloat.sub .binary64 p q = .notANumber ∧
        UnpackedFloat.sub .binary64 q p = .notANumber) ∨
      ∃ s s', UnpackedFloat.sub .binary64 p q = .infinity s ∧
        UnpackedFloat.sub .binary64 q p = .infinity s' := by
  cases p with
  | notANumber => cases q <;> exact .inl ⟨rfl, rfl⟩
  | infinity s =>
    cases q with
    | notANumber => exact .inl ⟨rfl, rfl⟩
    | infinity s' =>
      cases s <;> cases s'
      · exact .inl ⟨rfl, rfl⟩
      · exact .inr ⟨_, _, rfl, rfl⟩
      · exact .inr ⟨_, _, rfl, rfl⟩
      · exact .inl ⟨rfl, rfl⟩
    | zero | finite => exact .inr ⟨_, _, rfl, rfl⟩
  | zero | finite =>
    cases q with
    | notANumber => exact .inl ⟨rfl, rfl⟩
    | infinity => exact .inr ⟨_, _, rfl, rfl⟩
    | zero | finite => exact absurd ⟨rfl, rfl⟩ h

theorem sub_self_of_not_isFinite {p : UnpackedFloat} (h : ¬p.isFinite = true) :
    UnpackedFloat.sub .binary64 p p = .notANumber := by
  cases p with
  | notANumber => rfl
  | infinity s => cases s <;> rfl
  | zero | finite => exact absurd rfl h

theorem abs_sub_swap (x y : Float) : (x - y).abs = (y - x).abs := by
  by_cases h : x.isFinite = true ∧ y.isFinite = true
  · have hx : Denotes x (rational x) := ⟨h.1, rfl⟩
    have hy : Denotes y (rational y) := ⟨h.2, rfl⟩
    rw [hx.abs_sub hy, hy.abs_sub hx, abs_sub_comm]
  · change ofParts (parts (ofParts (UnpackedFloat.sub .binary64 (parts x) (parts y)))).abs =
      ofParts (parts (ofParts (UnpackedFloat.sub .binary64 (parts y) (parts x)))).abs
    have hcases := sub_of_not_isFinite (p := parts x) (q := parts y) h
    obtain ⟨h, h'⟩ | ⟨s, s', h, h'⟩ := hcases <;> rw [h, h']
    rw [parts_ofParts_infinity, parts_ofParts_infinity]
    rfl

theorem add_swap (x y : Float) : x + y = y + x := by
  refine congrArg ofParts (?_ : UnpackedFloat.add .binary64 (parts x) (parts y) =
    UnpackedFloat.add .binary64 (parts y) (parts x))
  cases parts x with
  | notANumber => cases parts y <;> rfl
  | infinity s =>
    cases parts y with
    | infinity s' => cases s <;> cases s' <;> rfl
    | notANumber | zero | finite => rfl
  | zero s =>
    cases parts y with
    | zero s' => cases s <;> cases s' <;> rfl
    | notANumber | infinity | finite => rfl
  | finite s m e hm =>
    cases parts y with
    | finite s' m' e' hm' =>
      -- Both mantissas are brought to the lower exponent, so that whole numbers are added.
      unfold UnpackedFloat.add
      dsimp only
      rw [min_comm, Int.add_comm]
    | notANumber | infinity | zero => rfl

theorem zero_le_rounded {q : ℚ} (hq : 0 ≤ q) : 0.0 ≤ rounded .positive q := by
  rw [le_iff]
  change UnpackedFloat.le (.zero .positive) _ = true
  rcases lt_or_ge q overflowBound with h | h
  · rw [parts_rounded .positive hq h, rounding, carried]
    split_ifs <;> rfl
  · rw [rounded_of_le .positive h, parts_ofParts_infinity]
    rfl

end Number

namespace Text.Numeral

theorem isInf_value (text : List Char) : (value text).isInf = !(value text).isFinite := by
  have hnonneg : 0 ≤ (decimal (splitSign text).2).value :=
    mul_nonneg (Nat.cast_nonneg _) (zpow_pos (by norm_num) _).le
  have hrounded := isInf_rounded .positive hnonneg
  rw [← Decimal.toFloat_eq_rounded] at hrounded
  unfold value
  dsimp only
  split
  · rwa [isInf_neg, isFinite_neg]
  · exact hrounded

end Text.Numeral

namespace Description

theorem parts_epsilon : parts epsilon = .finite .positive (2 ^ 52) (-104) (by norm_num) := rfl

theorem zero_le_epsilon_mul {q : ℚ} (hq : 0 ≤ q) : 0.0 ≤ epsilon * rounded .positive q := by
  rcases lt_or_ge q overflowBound with h | h
  · have hfinite : epsilon.isFinite = true := by
      change (parts epsilon).isFinite = true
      rw [parts_epsilon]
      rfl
    rw [mul_eq_rounded hfinite ((isFinite_rounded_iff .positive hq).mpr h),
      parts_rounded .positive hq h, sign_rounding .positive hq, parts_epsilon]
    exact zero_le_rounded (mul_nonneg (magnitude_nonneg _) (magnitude_nonneg _))
  · rw [rounded_of_le .positive h, le_iff]
    rfl

theorem nearlyEqual_comm (x y : Float) : nearlyEqual x y = nearlyEqual y x := by
  rw [nearlyEqual, abs_sub_swap x y, add_swap x y]
  rfl

/-- A finite number nearly equals itself; an infinity does not, nor what is no number. -/
theorem nearlyEqual_self (x : Float) : nearlyEqual x x = x.isFinite := by
  by_cases h : x.isFinite = true
  · have hx : Denotes x (rational x) := ⟨h, rfl⟩
    rw [h, nearlyEqual, hx.abs_sub hx, hx.abs_add hx, sub_self, abs_zero, decide_eq_true_iff,
      rounded_zero]
    exact zero_le_epsilon_mul (abs_nonneg _)
  · -- Here the difference is not a number, and comparing it with any bound is false.
    have hsub : (x - x).abs =
        ofParts (parts (ofParts (UnpackedFloat.sub .binary64 (parts x) (parts x)))).abs := rfl
    rw [Bool.eq_false_iff.mpr h, nearlyEqual, decide_eq_false_iff_not, le_iff, hsub,
      sub_self_of_not_isFinite (p := parts x) h]
    exact Bool.false_ne_true

def alike (c d : Bezier) : Bool :=
  nearlyEqual c.x1 d.x1 && nearlyEqual c.y1 d.y1 && nearlyEqual c.x2 d.x2

theorem alike_comm (c d : Bezier) : alike c d = alike d c := by
  rw [alike, nearlyEqual_comm c.x1, nearlyEqual_comm c.y1, nearlyEqual_comm c.x2]
  rfl

theorem nearlyAgree_eq (c d : Bezier) : nearlyAgree c d = (alike c d && c.y2.isFinite) := by
  rw [nearlyAgree, nearlyEqual_self]
  rfl

/-- Whether an easing name spells a curve: the keyword and the numerals behind it, as far as they go
and four at most. The coordinates left out are those of the straight line. -/
def SpellsCurve (name : String) (c : Bezier) : Prop :=
  ∃ numerals left, words name.toList = Bezier.keyword.toList :: (numerals ++ left) ∧
    (∀ n ∈ numerals, Numeral.pattern.Matches n) ∧ numerals.length ≤ 4 ∧
    (numerals.length < 4 → ∀ word ∈ left.head?, ¬Numeral.pattern.Matches word) ∧
    c = .complete (numerals.map Numeral.value)

theorem readNumbers_append {numerals left : List (List Char)} {most : ℕ}
    (hnumerals : ∀ n ∈ numerals, Numeral.pattern.Matches n) (hlength : numerals.length ≤ most)
    (hleft : numerals.length < most → ∀ word ∈ left.head?, ¬Numeral.pattern.Matches word) :
    (readNumbers most (numerals ++ left)).1 = numerals.map Numeral.value := by
  induction numerals generalizing most with
  | nil =>
    cases most with
    | zero => cases left <;> rfl
    | succ most =>
      cases left with
      | nil => rfl
      | cons word left =>
        have hword := hleft (Nat.succ_pos most) word rfl
        rw [List.nil_append, readNumbers, if_neg (mt Pattern.fits_iff.mp hword)]
        rfl
  | cons n numerals ih =>
    obtain ⟨hn, hnumerals⟩ := List.forall_mem_cons.mp hnumerals
    cases most with
    | zero => cases hlength
    | succ most =>
      rw [List.cons_append, readNumbers, if_pos (Pattern.fits_iff.mpr hn), List.map_cons]
      exact congrArg _ (ih hnumerals (Nat.le_of_succ_le_succ hlength) fun h =>
        hleft (Nat.succ_lt_succ h))

/-- The numerals that begin a list of words are told apart from what is left. -/
theorem exists_numerals (most : ℕ) (ws : List (List Char)) :
    ∃ numerals left, ws = numerals ++ left ∧ (∀ n ∈ numerals, Numeral.pattern.Matches n) ∧
      numerals.length ≤ most ∧
      (numerals.length < most → ∀ word ∈ left.head?, ¬Numeral.pattern.Matches word) := by
  induction most generalizing ws with
  | zero => exact ⟨[], ws, rfl, nofun, le_rfl, nofun⟩
  | succ most ih =>
    cases ws with
    | nil => exact ⟨[], [], rfl, nofun, Nat.zero_le _, fun _ => nofun⟩
    | cons word ws =>
      by_cases hword : Numeral.pattern.Matches word
      · obtain ⟨numerals, left, rfl, hnumerals, hlength, hleft⟩ := ih ws
        exact ⟨word :: numerals, left, rfl, List.forall_mem_cons.mpr ⟨hword, hnumerals⟩,
          Nat.succ_le_succ hlength, fun h => hleft (Nat.lt_of_succ_lt_succ h)⟩
      · refine ⟨[], word :: ws, rfl, nofun, Nat.zero_le _, fun _ w hw => ?_⟩
        rwa [← Option.some.inj hw]

theorem namedBezier?_eq_some_iff {name : String} {c : Bezier} :
    namedBezier? name = some c ↔ SpellsCurve name c := by
  constructor
  · intro h
    unfold namedBezier? at h
    cases hwords : words name.toList with
    | nil =>
      rw [hwords] at h
      cases h
    | cons word rest =>
      rw [hwords] at h
      dsimp only at h
      split at h
      next hword =>
        obtain ⟨numerals, left, rfl, hnumerals, hlength, hleft⟩ := exists_numerals 4 rest
        rw [readNumbers_append hnumerals hlength hleft] at h
        exact ⟨numerals, left, hword ▸ hwords, hnumerals, hlength, hleft, (Option.some.inj h).symm⟩
      next => cases h
  · rintro ⟨numerals, left, hwords, hnumerals, hlength, hleft, rfl⟩
    rw [namedBezier?, hwords]
    dsimp only
    rw [if_pos rfl, readNumbers_append hnumerals hlength hleft]

namespace SpellsCurve

variable {name : String} {c : Bezier}

theorem y2_cases (h : SpellsCurve name c) : c.y2 = 1.0 ∨
    ∃ n ∈ words name.toList, Numeral.pattern.Matches n ∧ c.y2 = Numeral.value n := by
  obtain ⟨numerals, left, hwords, hnumerals, -, -, rfl⟩ := h
  have hy : (Bezier.complete (numerals.map Numeral.value)).y2 =
      (numerals[3]?.map Numeral.value).getD 1.0 := by
    change (numerals.map Numeral.value).getD 3 1.0 = _
    rw [List.getD_eq_getElem?_getD, List.getElem?_map]
  rw [hy]
  cases hn : numerals[3]? with
  | none => exact .inl rfl
  | some n =>
    have hmem := List.mem_of_getElem? hn
    refine .inr ⟨n, ?_, hnumerals n hmem, rfl⟩
    rw [hwords]
    exact List.mem_cons_of_mem _ (List.mem_append_left left hmem)

theorem isInf_y2 (h : SpellsCurve name c) : c.y2.isInf = !c.y2.isFinite := by
  rcases h.y2_cases with h | ⟨n, -, -, h⟩ <;> rw [h]
  · rfl
  · exact Numeral.isInf_value n

theorem unique {d : Bezier} (hc : SpellsCurve name c) (hd : SpellsCurve name d) : c = d :=
  Option.some.inj ((namedBezier?_eq_some_iff.mpr hc).symm.trans (namedBezier?_eq_some_iff.mpr hd))

/-- The name of what was read spells no infinite last coordinate: infinities are not written as
numerals. -/
theorem isFinite_y2 (h : SpellsCurve name c) {ws : List (List Char)} {easing : Easing}
    (hname : NamesEasing ws name easing) : c.y2.isFinite = true := by
  have hcurve : ∀ curve : Curve, ∀ n ∈ words curve.name.toList, ¬Numeral.pattern.Matches n := by
    intro curve n hn
    rw [words_curve_name, List.mem_singleton] at hn
    rw [hn, ← Pattern.fits_iff]
    cases curve <;> decide
  rcases h.y2_cases with hy | ⟨n, hmem, hmatches, hy⟩ <;> rw [hy]
  · rfl
  · cases hname with
    | none => exact absurd hmatches (hcurve .circle n hmem)
    | curve curve => exact absurd hmatches (hcurve curve n hmem)
    | bezier =>
      have hread : ∀ x : Float, n = floatDigits x → (Numeral.value n).isFinite = true := by
        rintro x rfl
        have hx : x.isFinite = true :=
          Decidable.of_not_not fun hx => Numeral.not_matches_floatDigits hx hmatches
        rwa [Numeral.value_floatDigits hx]
      have hkeyword : n ≠ Bezier.keyword.toList := by
        rintro rfl
        exact absurd (Pattern.fits_iff.mpr hmatches) (by decide)
      rw [Bezier.words_name, List.mem_cons, or_iff_right hkeyword] at hmem
      simp only [List.mem_cons, List.not_mem_nil, or_false] at hmem
      rcases hmem with h | h | h | h <;> exact hread _ h

end SpellsCurve

variable {a b : Description}

theorem same_of_name_eq (h : a.easingName = b.easingName) :
    a.same b = decide (a.length = b.length) := by
  rw [same, if_pos h]

/-- Descriptions of different names are the same only if both names spell curves. -/
theorem same_eq_true_iff (h : a.easingName ≠ b.easingName) :
    a.same b = true ↔ ∃ c d, SpellsCurve a.easingName c ∧ SpellsCurve b.easingName d ∧
      a.length = b.length ∧ alike c d = true ∧ c.y2.isInf = false := by
  rw [same, if_neg h]
  constructor
  · intro hsame
    split at hsame
    next c d hc hd =>
      have hc := namedBezier?_eq_some_iff.mp hc
      rw [nearlyAgree_eq, Bool.and_eq_true, Bool.and_eq_true, decide_eq_true_iff] at hsame
      refine ⟨c, d, hc, namedBezier?_eq_some_iff.mp hd, hsame.1, hsame.2.1, ?_⟩
      rw [hc.isInf_y2, hsame.2.2]
      rfl
    next => cases hsame
  · rintro ⟨c, d, hc, hd, hlength, halike, hy⟩
    rw [hc.isInf_y2, Bool.not_eq_false'] at hy
    rw [namedBezier?_eq_some_iff.mpr hc, namedBezier?_eq_some_iff.mpr hd]
    simp [nearlyAgree_eq, hlength, halike, hy]

/-- Of curves that agree otherwise, the last coordinate of the first decides. -/
theorem same_eq_not_isInf (h : a.easingName ≠ b.easingName) (hlength : a.length = b.length)
    {c d : Bezier} (hc : SpellsCurve a.easingName c) (hd : SpellsCurve b.easingName d)
    (halike : alike c d = true) : a.same b = !c.y2.isInf := by
  rw [Bool.eq_iff_iff, same_eq_true_iff h, Bool.not_eq_true']
  constructor
  · rintro ⟨c', d', hc', -, -, -, hy⟩
    rwa [hc.unique hc']
  · exact fun hy => ⟨c, d, hc, hd, hlength, halike, hy⟩

/-- The order matters just to curves of which one has an infinite last coordinate. -/
theorem same_ne_same_iff (a b : Description) :
    a.same b ≠ b.same a ↔ a.easingName ≠ b.easingName ∧ a.length = b.length ∧
      ∃ c d, SpellsCurve a.easingName c ∧ SpellsCurve b.easingName d ∧ alike c d = true ∧
        c.y2.isInf ≠ d.y2.isInf := by
  by_cases hname : a.easingName = b.easingName
  · refine iff_of_false (not_not.mpr ?_) fun h => h.1 hname
    rw [same_of_name_eq hname, same_of_name_eq hname.symm]
    exact decide_eq_decide.mpr eq_comm
  · -- One of the two is true, so that the lengths agree and both names spell curves.
    have hcurves : a.same b ≠ b.same a → a.length = b.length ∧ ∃ c d,
        SpellsCurve a.easingName c ∧ SpellsCurve b.easingName d ∧ alike c d = true := by
      intro hne
      cases hab : a.same b with
      | true =>
        obtain ⟨c, d, hc, hd, hlength, halike, -⟩ := (same_eq_true_iff hname).mp hab
        exact ⟨hlength, c, d, hc, hd, halike⟩
      | false =>
        have hba : b.same a = true := by
          rw [hab] at hne
          exact Bool.eq_true_of_not_eq_false (Ne.symm hne)
        obtain ⟨d, c, hd, hc, hlength, halike, -⟩ := (same_eq_true_iff (Ne.symm hname)).mp hba
        exact ⟨hlength.symm, c, d, hc, hd, alike_comm d c ▸ halike⟩
    constructor
    · intro hne
      obtain ⟨hlength, c, d, hc, hd, halike⟩ := hcurves hne
      refine ⟨hname, hlength, c, d, hc, hd, halike, fun hy => hne ?_⟩
      rw [same_eq_not_isInf hname hlength hc hd halike, hy,
        same_eq_not_isInf (Ne.symm hname) hlength.symm hd hc (alike_comm c d ▸ halike)]
    · rintro ⟨-, hlength, c, d, hc, hd, halike, hy⟩
      rw [same_eq_not_isInf hname hlength hc hd halike,
        same_eq_not_isInf (Ne.symm hname) hlength.symm hd hc (alike_comm c d ▸ halike)]
      exact fun h => hy (Bool.not_inj h)

/-- Tolerant equality is reflexive, respects what hash tables go by, and is symmetric but for curves
of which one has an infinite last coordinate. -/
theorem same_laws (a b : Description) :
    a.same a = true ∧
      (a.same b = true → a.length = b.length ∧ a.hashKey = b.hashKey) ∧
      (a.easingName = b.easingName → (a.same b = true ↔ a.length = b.length)) ∧
      (a.easingName ≠ b.easingName → (a.same b = true ↔
        ∃ c d, SpellsCurve a.easingName c ∧ SpellsCurve b.easingName d ∧ a.length = b.length ∧
          alike c d = true ∧ c.y2.isInf = false)) ∧
      (a.same b ≠ b.same a ↔ a.easingName ≠ b.easingName ∧ a.length = b.length ∧
        ∃ c d, SpellsCurve a.easingName c ∧ SpellsCurve b.easingName d ∧ alike c d = true ∧
          c.y2.isInf ≠ d.y2.isInf) ∧
      ∀ s t, read? s = .ok (some a) → read? t = .ok (some b) → a.same b = b.same a := by
  have hlength : a.same b = true → a.length = b.length := by
    intro h
    by_cases hname : a.easingName = b.easingName
    · rwa [same_of_name_eq hname, decide_eq_true_iff] at h
    · obtain ⟨-, -, -, -, hlength, -⟩ := (same_eq_true_iff hname).mp h
      exact hlength
  refine ⟨?_, fun h => ⟨hlength h, hlength h⟩, ?_, same_eq_true_iff, same_ne_same_iff a b, ?_⟩
  · rw [same_of_name_eq rfl, decide_eq_true_iff]
  · intro hname
    rw [same_of_name_eq hname, decide_eq_true_iff]
  · intro s t ha hb
    -- A curve that has been read ends in a finite coordinate, so the order cannot matter.
    by_contra hne
    obtain ⟨-, -, c, d, hc, hd, -, hy⟩ := (same_ne_same_iff a b).mp hne
    obtain ⟨_, _, -, -, hnamed, -⟩ := of_read? ha
    obtain ⟨_, _, -, -, hnamed', -⟩ := of_read? hb
    rw [hc.isInf_y2, hd.isInf_y2, hc.isFinite_y2 hnamed, hd.isFinite_y2 hnamed'] at hy
    exact hy rfl

/-- A curve that ends in a numeral beyond the doubles is not the same as one that ends before it, though
the other way around it is. -/
theorem same_laws_overflowing :
    let a : Description := ⟨1000, "cubic-bezier 0 0 1 1e1024", .named .circle⟩
    let b : Description := ⟨1000, "cubic-bezier 0 0 1 end", .named .circle⟩
    a.same b = false ∧ b.same a = true := by
  intro a b
  have hmatches : ∀ n ∈ ["0".toList, "0".toList, "1".toList, "1e1024".toList],
      Numeral.pattern.Matches n := by
    simp only [← Pattern.fits_iff]
    decide
  have ha : SpellsCurve a.easingName (.complete
      (["0".toList, "0".toList, "1".toList, "1e1024".toList].map Numeral.value)) :=
    ⟨_, [], by decide, hmatches, le_rfl, fun h => absurd h (lt_irrefl 4), rfl⟩
  have hb : SpellsCurve b.easingName (.complete
      (["0".toList, "0".toList, "1".toList].map Numeral.value)) := by
    refine ⟨_, ["end".toList], by decide, fun n hn => ?_, by decide, fun _ word hword => ?_, rfl⟩
    · exact hmatches n (List.mem_append_left ["1e1024".toList] hn)
    · rw [← Option.some.inj hword, ← Pattern.fits_iff]
      decide
  have halike : alike (.complete (["0".toList, "0".toList, "1".toList].map Numeral.value))
      (.complete (["0".toList, "0".toList, "1".toList, "1e1024".toList].map Numeral.value)) = true := by
    rfl
  have hinf : (Numeral.value "1e1024".toList).isInf = true := by
    have hdecimal : Numeral.decimal "1e1024".toList = ⟨1, 1024⟩ := by decide
    have hvalue : Numeral.value "1e1024".toList = (Numeral.decimal "1e1024".toList).toFloat := rfl
    rw [hvalue, hdecimal, Decimal.toFloat_eq_rounded, Decimal.value,
      rounded_of_le .positive (Decimal.overflowBound_le_of_lt one_pos le_rfl)]
    rfl
  obtain ⟨-, -, -, -, hne, -⟩ := same_laws a b
  obtain ⟨-, -, -, hsame, -⟩ := same_laws b a
  have hba : b.same a = true := (hsame (by decide)).mpr ⟨_, _, hb, ha, rfl, halike, rfl⟩
  have hdiffer := hne.mpr ⟨by decide, rfl, _, _, ha, hb, alike_comm _ _ ▸ halike, ?_⟩
  · rw [hba] at hdiffer
    exact ⟨Bool.eq_false_of_not_eq_true hdiffer, hba⟩
  · exact fun h => Bool.false_ne_true (h.symm.trans hinf)

end Description

end Tween
