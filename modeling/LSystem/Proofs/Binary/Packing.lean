import LSystem.Proofs.Binary.Rounding

/-! # Numbers as bits

Packing a number in the form of the format and unpacking it gives the number back, unless its
exponent is beyond the greatest: then it gives an infinity of the same sign. What is unpacked is
always in the form of the format and in its range.
-/

namespace LSystem.Binary

open Float.Model (Format UnpackedFloat)
open Float.Model.UnpackedFloat

variable {f : Format} {s : Sign} {u : UnpackedFloat} {m : ℕ} {e : ℤ}

section Exponent

theorem minExponent_eq (f : Format) :
    f.minExponent = 1 - f.exponentBias - f.mantissaBitsWithoutImplicit := by
  have hpos : 1 ≤ 2 ^ (f.exponentBits - 1) := Nat.one_le_two_pow
  rw [Format.minExponent, Format.exponentBias, mantissaBits_eq, Nat.cast_sub hpos]
  push_cast
  ring

theorem two_pow_exponentBits (f : Format) : 2 ^ f.exponentBits = 2 * f.exponentBias + 2 := by
  have hpos : 1 ≤ 2 ^ (f.exponentBits - 1) := Nat.one_le_two_pow
  have htwice : 2 ^ f.exponentBits = 2 ^ (f.exponentBits - 1) * 2 := by
    rw [← pow_succ, Nat.sub_add_cancel f.he]
  rw [Format.exponentBias, htwice]
  omega

/-- The exponent of a number that is less than the first power of two out of range. -/
def InRange (f : Format) : UnpackedFloat → Prop
  | .finite _ _ e _ => e + f.mantissaBits ≤ f.exponentBias + 1
  | _ => True

end Exponent

section Components

variable (E : BitVec f.exponentBits) (M : BitVec f.mantissaBitsWithoutImplicit)

theorem toNat_append_one : (1#1 ++ M).toNat = 2 ^ f.mantissaBitsWithoutImplicit + M.toNat := by
  rw [BitVec.toNat_append, ← Nat.shiftLeft_add_eq_or_of_lt M.isLt, Nat.shiftLeft_eq]
  simp

theorem toNat_neg_one : (-1#f.exponentBits).toNat = 2 * f.exponentBias + 1 := by
  rw [BitVec.neg_one_eq_allOnes, BitVec.toNat_allOnes, two_pow_exponentBits]
  rfl

theorem zero_ne_neg_one : (0#f.exponentBits) ≠ -1#_ := by
  intro h
  have hnat := congrArg BitVec.toNat h
  rw [toNat_neg_one, BitVec.toNat_zero] at hnat
  omega

theorem unpack_packedInfinity (s : Sign) : unpack f (packedInfinity f s) = .infinity s := by
  simp [unpack, packedInfinity]

theorem unpack_normal {b : ℕ} (hb : 0 < b) (hlt : b < 2 * f.exponentBias + 1)
    (hlow : 2 ^ f.mantissaBitsWithoutImplicit ≤ m) (hhigh : m < 2 ^ f.mantissaBits) :
    unpack f (packComponents f s (.ofNat _ b) (.ofNat _ m)) =
      .finite s m (b - (f.exponentBias + f.mantissaBitsWithoutImplicit))
        (Nat.lt_of_lt_of_le (Nat.two_pow_pos _) hlow) := by
  have hexponent : (BitVec.ofNat f.exponentBits b).toNat = b := by
    rw [BitVec.toNat_ofNat, Nat.mod_eq_of_lt]
    rw [two_pow_exponentBits]
    omega
  have hzero : BitVec.ofNat f.exponentBits b ≠ 0#_ := by
    intro h
    rw [h, BitVec.toNat_zero] at hexponent
    exact hb.ne hexponent
  have hspecial : BitVec.ofNat f.exponentBits b ≠ -1#_ := by
    intro h
    rw [h, toNat_neg_one] at hexponent
    exact hlt.ne' hexponent
  have hmantissa : (1#1 ++ BitVec.ofNat f.mantissaBitsWithoutImplicit m).toNat = m := by
    rw [mantissaBits_eq, pow_succ] at hhigh
    have hdigits := Nat.div_add_mod m (2 ^ f.mantissaBitsWithoutImplicit)
    have hone : m / 2 ^ f.mantissaBitsWithoutImplicit = 1 :=
      Nat.div_eq_of_lt_le (by rwa [one_mul]) (by rwa [mul_comm] at hhigh)
    rw [toNat_append_one, BitVec.toNat_ofNat]
    rw [hone, mul_one] at hdigits
    exact hdigits
  simp only [unpack, unpackMantissa_packComponents, unpackExponent_packComponents,
    unpackSign_packComponents, Sign.ofBitVec_toBitVec, if_neg hspecial, if_neg hzero, hexponent,
    hmantissa]

theorem unpack_subnormal (hpos : 0 < m) (hm : m < 2 ^ f.mantissaBitsWithoutImplicit) :
    unpack f (packComponents f s 0#_ (.ofNat _ m)) = .finite s m f.minExponent hpos := by
  have hmantissa : (BitVec.ofNat f.mantissaBitsWithoutImplicit m).toNat = m := by
    rw [BitVec.toNat_ofNat, Nat.mod_eq_of_lt hm]
  have hzero : BitVec.ofNat f.mantissaBitsWithoutImplicit m ≠ 0#_ := by
    intro h
    rw [h, BitVec.toNat_zero] at hmantissa
    exact hpos.ne hmantissa
  have hexponent : (0 : ℤ) - (f.exponentBias + f.mantissaBitsWithoutImplicit) + 1 =
      f.minExponent := by
    rw [minExponent_eq]
    ring
  simp only [unpack, unpackMantissa_packComponents, unpackExponent_packComponents,
    unpackSign_packComponents, Sign.ofBitVec_toBitVec, if_neg zero_ne_neg_one, if_true,
    dif_neg hzero, hmantissa, BitVec.toNat_zero, Nat.cast_zero, hexponent]

end Components

section RoundTrip

theorem pack_finite {hm : 0 < m} {b : ℕ}
    (hb : e + f.exponentBias + f.mantissaBitsWithoutImplicit = b) :
    pack f (.finite s m e hm) =
      if 2 ^ f.exponentBits ≤ b + 1 then packedInfinity f s
      else if m.log2 + 1 = f.mantissaBits then packComponents f s (.ofNat _ b) (.ofNat _ m)
      else packComponents f s 0#_ (.ofNat _ m) := by
  simp only [pack, hb, Int.toNat_natCast]

theorem Canonical.exists_biased (h : Canonical f m e) :
    ∃ b : ℕ, 0 < b ∧ e + f.exponentBias + f.mantissaBitsWithoutImplicit = b := by
  have hmin := h.le
  rw [minExponent_eq] at hmin
  obtain ⟨b, hb⟩ := Int.eq_ofNat_of_zero_le
    (show 0 ≤ e + f.exponentBias + f.mantissaBitsWithoutImplicit by omega)
  exact ⟨b, by omega, hb⟩

/-- Packing forgets nothing of a number in the form and in the range of the format. -/
theorem unpack_pack (hu : IsCanonical f u) (hr : InRange f u) : unpack f (pack f u) = u := by
  cases u with
  | infinity s => exact unpack_packedInfinity s
  | notANumber => exact unpack_packedNaN
  | zero s => exact unpack_packedZero
  | finite s m e hm =>
    have hcanonical : Canonical f m e := hu
    obtain ⟨b, hpos, hb⟩ := hcanonical.exists_biased
    have hlt : b < 2 * f.exponentBias + 1 := by
      rw [InRange, mantissaBits_eq] at hr
      push_cast at hr
      omega
    have hsmall : ¬ 2 ^ f.exponentBits ≤ b + 1 := by
      rw [two_pow_exponentBits]
      omega
    rw [pack_finite hb, if_neg hsmall]
    by_cases hlong : 2 ^ f.mantissaBitsWithoutImplicit ≤ m
    · have hlog : m.log2 + 1 = f.mantissaBits := by
        refine le_antisymm (log2_lt_of_lt hcanonical.lt) ?_
        rw [mantissaBits_eq]
        exact Nat.succ_le_succ ((Nat.le_log2 hm.ne').mpr hlong)
      have he : (b : ℤ) - (f.exponentBias + f.mantissaBitsWithoutImplicit) = e := by omega
      rw [if_pos hlog, unpack_normal hpos hlt hlong hcanonical.lt]
      simp only [he]
    · obtain rfl := hcanonical.long.resolve_right hlong
      have hlog : m.log2 + 1 ≠ f.mantissaBits := by
        have := (Nat.log2_lt hm.ne').mpr (Nat.lt_of_not_le hlong)
        rw [mantissaBits_eq]
        omega
      rw [if_neg hlog, unpack_subnormal hm (Nat.lt_of_not_le hlong)]

theorem unpack_pack_of_not_inRange (hu : IsCanonical f u) (hr : ¬ InRange f u) :
    ∃ s m e hm, u = .finite s m e hm ∧ unpack f (pack f u) = .infinity s := by
  cases u with
  | infinity | notANumber | zero => exact absurd trivial hr
  | finite s m e hm =>
    have hcanonical : Canonical f m e := hu
    obtain ⟨b, -, hb⟩ := hcanonical.exists_biased
    have hlarge : 2 ^ f.exponentBits ≤ b + 1 := by
      rw [InRange, mantissaBits_eq] at hr
      push_cast at hr
      rw [two_pow_exponentBits]
      omega
    refine ⟨s, m, e, hm, rfl, ?_⟩
    rw [pack_finite hb, if_pos hlarge, unpack_packedInfinity]

/-- What bits stand for is in the form and in the range of the format, unless the exponents of the
format are all special. -/
theorem unpack_spec (hf : 0 < f.exponentBias) (b : BitVec f.numBits) :
    IsCanonical f (unpack f b) ∧ InRange f (unpack f b) := by
  have hmantissa := (unpackMantissa b).isLt
  have hexponent := (unpackExponent b).isLt
  have hp : 2 ^ f.mantissaBits = 2 ^ f.mantissaBitsWithoutImplicit * 2 := by
    rw [mantissaBits_eq, pow_succ]
  rw [unpack]
  split_ifs with hspecial hzero hsub hnone
  · exact ⟨trivial, trivial⟩
  · exact ⟨trivial, trivial⟩
  · exact ⟨trivial, trivial⟩
  · have he : ((unpackExponent b).toNat : ℤ) - (f.exponentBias + f.mantissaBitsWithoutImplicit) + 1 =
        f.minExponent := by
      rw [hsub, BitVec.toNat_zero, minExponent_eq]
      ring
    rw [he]
    refine ⟨⟨by omega, le_rfl, .inl rfl⟩, ?_⟩
    rw [InRange, minExponent_eq, mantissaBits_eq]
    push_cast
    omega
  · have hpos : (unpackExponent b).toNat ≠ 0 := fun h =>
      hsub (BitVec.eq_of_toNat_eq (by rw [h, BitVec.toNat_zero]))
    have hlt : (unpackExponent b).toNat ≠ 2 * f.exponentBias + 1 := fun h =>
      hspecial (BitVec.eq_of_toNat_eq (by rw [h, toNat_neg_one]))
    rw [two_pow_exponentBits] at hexponent
    refine ⟨⟨?_, ?_, .inr ?_⟩, ?_⟩
    · rw [toNat_append_one]
      omega
    · rw [minExponent_eq]
      omega
    · rw [toNat_append_one]
      exact Nat.le_add_right _ _
    · rw [InRange, mantissaBits_eq]
      push_cast
      omega

end RoundTrip

end LSystem.Binary
