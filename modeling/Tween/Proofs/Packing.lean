import Mathlib
import Tween.Proofs.Ratio

namespace Tween.Number

open Float.Model (UnpackedFloat Format)
open Float.Model.UnpackedFloat

/-- Whether a mantissa and an exponent are those of a double, unless the exponent is too large. -/
structure Canonical (m : ℕ) (e : ℤ) : Prop where
  lt : m < 2 ^ 53
  least : -1074 ≤ e
  full : 2 ^ 52 ≤ m ∨ e = -1074

variable {spec : Format}

theorem unpackSign_packComponents {s : Sign} {e : BitVec spec.exponentBits}
    {m : BitVec spec.mantissaBitsWithoutImplicit} :
    unpackSign (packComponents spec s e m) = s.toBitVec := by
  ext i hi
  obtain rfl : i = 0 := by omega
  simp [unpackSign, packComponents, BitVec.getLsbD_append, BitVec.getElem_append]

theorem ofBitVec_toBitVec (s : Sign) : Sign.ofBitVec s.toBitVec = s := by
  cases s <;> rfl

theorem toBitVec_ofBitVec (b : BitVec 1) : (Sign.ofBitVec b).toBitVec = b := by
  revert b
  decide

theorem packComponents_unpack (b : BitVec Format.binary64.numBits) :
    packComponents .binary64 (Sign.ofBitVec (unpackSign b)) (unpackExponent b) (unpackMantissa b) =
      b := by
  rw [packComponents, toBitVec_ofBitVec]
  ext i hi
  simp only [unpackSign, unpackExponent, unpackMantissa, BitVec.extractLsb]
  grind

theorem toNat_implicit (m : BitVec 52) : (1#1 ++ m).toNat = 2 ^ 52 + m.toNat := by
  rw [BitVec.toNat_append, ← Nat.shiftLeft_add_eq_or_of_lt m.isLt]
  rfl

/-- A finite number with a full mantissa is packed without the leading bit. -/
theorem pack_normal {m : ℕ} {e : ℤ} (s : Sign) (hm : 0 < m) (hfull : 2 ^ 52 ≤ m) (hlt : m < 2 ^ 53)
    (he : e ≤ 971) :
    UnpackedFloat.pack .binary64 (.finite s m e hm) =
      packComponents .binary64 s (BitVec.ofNat 11 (e + 1075).toNat) (BitVec.ofNat 52 m) := by
  have hlog : m.log2 = 52 := (Nat.log2_eq_iff hm.ne').mpr ⟨hfull, hlt⟩
  have hbiased : (e + (Format.binary64.exponentBias : ℤ) + (52 : ℕ)).toNat = (e + 1075).toNat := by
    rw [show (Format.binary64.exponentBias : ℤ) = 1023 from by decide]
    omega
  rw [UnpackedFloat.pack]
  simp only [hbiased]
  rw [if_neg (by omega), if_pos (by rw [hlog]; rfl)]

theorem pack_subnormal {m : ℕ} (s : Sign) (hm : 0 < m) (hlt : m < 2 ^ 52) :
    UnpackedFloat.pack .binary64 (.finite s m (-1074) hm) =
      packComponents .binary64 s 0#11 (BitVec.ofNat 52 m) := by
  have hlog : m.log2 < 52 := (Nat.log2_lt hm.ne').mpr hlt
  have hbiased : ((-1074 : ℤ) + (Format.binary64.exponentBias : ℤ) + (52 : ℕ)).toNat = 1 := by decide
  rw [UnpackedFloat.pack]
  simp only [hbiased]
  rw [if_neg (by decide), if_neg (show ¬m.log2 + 1 = Format.binary64.mantissaBits from ?_)]
  rw [show Format.binary64.mantissaBits = 53 from rfl]
  omega

theorem unpack_normal (s : Sign) {e : BitVec 11} (m : BitVec 52) (hones : e ≠ -1#11)
    (hzero : e ≠ 0#11) :
    UnpackedFloat.unpack .binary64 (packComponents .binary64 s e m) =
      .finite s (2 ^ 52 + m.toNat) (e.toNat - 1075) (by omega) := by
  rw [UnpackedFloat.unpack]
  simp only [unpackMantissa_packComponents, unpackExponent_packComponents,
    unpackSign_packComponents, ofBitVec_toBitVec, hones, hzero, if_false, toNat_implicit]
  rfl

theorem unpack_subnormal (s : Sign) {m : BitVec 52} (hm : 0 < m.toNat) :
    UnpackedFloat.unpack .binary64 (packComponents .binary64 s 0#11 m) =
      .finite s m.toNat (-1074) hm := by
  have hne : m ≠ 0#52 := by
    rintro rfl
    exact absurd hm (by decide)
  rw [UnpackedFloat.unpack]
  simp only [unpackMantissa_packComponents, unpackExponent_packComponents,
    unpackSign_packComponents, ofBitVec_toBitVec]
  rw [if_neg (by decide), if_pos trivial, dif_neg hne]
  rfl

theorem unpack_zero (s : Sign) :
    UnpackedFloat.unpack .binary64 (packComponents .binary64 s 0#11 0#52) = .zero s := by
  cases s <;> rfl

theorem unpack_ones (s : Sign) (m : BitVec 52) :
    UnpackedFloat.unpack .binary64 (packComponents .binary64 s (-1#11) m) =
      if m = 0#52 then .infinity s else .notANumber := by
  rw [UnpackedFloat.unpack]
  simp only [unpackMantissa_packComponents, unpackExponent_packComponents,
    unpackSign_packComponents, ofBitVec_toBitVec, if_true]

theorem parts_ofParts (x : UnpackedFloat) :
    parts (ofParts x) = UnpackedFloat.unpack .binary64 (UnpackedFloat.pack .binary64 x) := rfl

theorem parts_ofParts_zero (s : Sign) : parts (ofParts (.zero s)) = .zero s := by
  cases s <;> rfl

theorem parts_ofParts_infinity (s : Sign) : parts (ofParts (.infinity s)) = .infinity s := by
  cases s <;> rfl

theorem parts_ofParts_finite {m : ℕ} {e : ℤ} (s : Sign) (hm : 0 < m) (h : Canonical m e)
    (he : e ≤ 971) : parts (ofParts (.finite s m e hm)) = .finite s m e hm := by
  have hleast := h.least
  rw [parts_ofParts]
  by_cases hfull : 2 ^ 52 ≤ m
  · have hexp : (BitVec.ofNat 11 (e + 1075).toNat).toNat = (e + 1075).toNat := by
      rw [BitVec.toNat_ofNat, Nat.mod_eq_of_lt (by omega)]
    have hmant : 2 ^ 52 + (BitVec.ofNat 52 m).toNat = m := by
      have := h.lt
      rw [BitVec.toNat_ofNat]
      omega
    rw [pack_normal s hm hfull h.lt he, unpack_normal]
    · simp only [hexp, hmant, UnpackedFloat.finite.injEq, true_and]
      omega
    · intro h
      have := congrArg BitVec.toNat h
      rw [hexp, show (-1#11).toNat = 2047 from by decide] at this
      omega
    · intro h
      have := congrArg BitVec.toNat h
      rw [hexp, show (0#11).toNat = 0 from rfl] at this
      omega
  · obtain rfl := h.full.resolve_left hfull
    have hmant : (BitVec.ofNat 52 m).toNat = m := by
      rw [BitVec.toNat_ofNat, Nat.mod_eq_of_lt (by omega)]
    rw [pack_subnormal s hm (by omega), unpack_subnormal s (by omega)]
    simp only [hmant]

theorem neg_ofParts {x : UnpackedFloat} (h : parts (ofParts x) = x) :
    -ofParts x = ofParts x.neg := by
  change ofParts (parts (ofParts x)).neg = _
  rw [h]

theorem ofParts_finite_of_lt {m : ℕ} {e : ℤ} (s : Sign) (hm : 0 < m) (he : 971 < e) :
    ofParts (.finite s m e hm) = ofParts (.infinity s) := by
  have hbias : (Format.binary64.exponentBias : ℤ) = 1023 := by decide
  have hpack : UnpackedFloat.pack .binary64 (.finite s m e hm) =
      UnpackedFloat.pack .binary64 (.infinity s) := by
    rw [UnpackedFloat.pack, UnpackedFloat.pack]
    simp only [hbias]
    rw [if_pos (by simp only [Nat.reducePow]; omega)]
  unfold ofParts Float.Model.pack
  simp only [hpack]

/-- The parts of a finite double are canonical, and packing gives back every double. -/
theorem pack_unpack {b : BitVec Format.binary64.numBits} (hb : Format.binary64.Valid b) :
    UnpackedFloat.pack .binary64 (.unpack .binary64 b) = b ∧
      ∀ s m e hm, UnpackedFloat.unpack .binary64 b = .finite s m e hm → Canonical m e ∧ e ≤ 971 := by
  have hnan := hb.eq_packedNaN
  have hsplit := packComponents_unpack b
  generalize Sign.ofBitVec (unpackSign b) = s at hsplit
  generalize unpackExponent b = e at hsplit hnan
  generalize unpackMantissa b = m at hsplit hnan
  subst hsplit
  have hm : m.toNat < 2 ^ 52 := m.isLt
  have he : e.toNat < 2 ^ 11 := e.isLt
  by_cases hones : e = -1#11
  · subst hones
    rw [unpack_ones]
    by_cases hzero : m = 0#52
    · subst hzero
      exact ⟨rfl, nofun⟩
    · rw [if_neg hzero, hnan rfl hzero]
      exact ⟨rfl, nofun⟩
  · have hones' : e.toNat ≠ 2047 := fun h => hones (BitVec.eq_of_toNat_eq h)
    by_cases hzero : e = 0#11
    · subst hzero
      by_cases hmant : m = 0#52
      · subst hmant
        rw [unpack_zero]
        exact ⟨rfl, nofun⟩
      · have hpos : 0 < m.toNat := Nat.pos_of_ne_zero fun h => hmant (BitVec.eq_of_toNat_eq h)
        rw [unpack_subnormal s hpos, pack_subnormal s hpos hm, BitVec.ofNat_toNat,
          BitVec.setWidth_eq]
        refine ⟨rfl, ?_⟩
        rintro _ _ _ _ ⟨⟩
        exact ⟨⟨by omega, by decide, .inr rfl⟩, by decide⟩
    · have hzero' : e.toNat ≠ 0 := fun h => hzero (BitVec.eq_of_toNat_eq h)
      have hexp : BitVec.ofNat 11 ((e.toNat : ℤ) - 1075 + 1075).toNat = e := by
        rw [sub_add_cancel, Int.toNat_natCast, BitVec.ofNat_toNat, BitVec.setWidth_eq]
      have hmant : BitVec.ofNat 52 (2 ^ 52 + m.toNat) = m := by
        apply BitVec.eq_of_toNat_eq
        rw [BitVec.toNat_ofNat, Nat.add_mod_left, Nat.mod_eq_of_lt hm]
      rw [unpack_normal s m hones hzero, pack_normal s _ (by omega) (by omega) (by omega), hexp,
        hmant]
      refine ⟨rfl, ?_⟩
      rintro _ _ _ _ ⟨⟩
      exact ⟨⟨by omega, by omega, .inl (by omega)⟩, by omega⟩

theorem ofParts_parts (x : Float) : ofParts (parts x) = x := by
  obtain ⟨⟨bits, hvalid⟩⟩ := x
  unfold ofParts parts Float.Model.pack Float.Model.unpack
  simp only [(pack_unpack hvalid).1, UInt64.ofBitVec_toBitVec]

theorem canonical_of_parts {x : Float} {s : Sign} {m : ℕ} {e : ℤ} {hm : 0 < m}
    (h : parts x = .finite s m e hm) : Canonical m e ∧ e ≤ 971 :=
  (pack_unpack x.toModel.valid).2 s m e hm h

end Tween.Number
