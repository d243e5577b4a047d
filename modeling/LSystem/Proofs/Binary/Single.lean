import LSystem.Binary.Single
import LSystem.Proofs.Binary.Machine

/-! # Single precision

Whole numbers and halves in single precision, and the rounding to whole numbers.
-/

namespace LSystem.Single

open Float.Model (Format)
open Float.Model.UnpackedFloat
open Binary (OnGrid Yields abs_signed nearest_normalize signed yields_stored)
open Binary.MachineNumber

section Exact

theorem onGrid_half {n : ℤ} (hn : |n| ≤ 2 ^ 24) : OnGrid .binary32 (n / 2) := by
  refine ⟨n, -1, hn, by decide, ?_⟩
  rw [zpow_neg_one, div_eq_mul_inv]

theorem isFinite_one : IsFinite (Float32.ofBits 0x3F800000) := rfl

theorem value_one : value (Float32.ofBits 0x3F800000) = 1 := by
  have hdigits : digits (Float32.ofBits 0x3F800000) =
      .finite .positive 8388608 (-23) (by decide) := rfl
  rw [value, hdigits]
  norm_num [Binary.value, signed]

theorem yields_toFloat32 (u : UInt64) : Yields .binary32 u.toNat (digits u.toFloat32) := by
  have h := nearest_normalize (f := .binary32) u.toNat 0 .positive
  rw [zpow_zero, mul_one] at h
  exact yields_stored (by decide) h

theorem ofNat_spec {n : ℕ} (hn : n < 2 ^ 23) :
    IsFinite (Float32.ofNat n) ∧ value (Float32.ofNat n) = n := by
  have hgrid : OnGrid .binary32 (n : ℚ) := by
    refine mod_cast OnGrid.intCast (f := .binary32) (n := (n : ℤ)) ?_
    rw [Nat.abs_cast]
    exact mod_cast hn.le.trans (by decide)
  have hlt : |(n : ℚ)| < 2 ^ (Format.binary32.exponentBias + 1) := by
    rw [Nat.abs_cast]
    exact mod_cast hn.trans (by decide)
  have hword : n.toUInt64.toNat = n := Nat.mod_eq_of_lt (hn.trans (by decide))
  have hstored := yields_toFloat32 n.toUInt64
  rw [hword] at hstored
  obtain ⟨hfinite, hvalue⟩ := hstored.exact hgrid hlt
  have hfast : Float32.ofNat n = n.toUInt64.toFloat32 * Float32.ofBits 0x3F800000 := by
    change Float32.ofScientific n false 0 = _
    rw [Float32.ofScientific, dif_pos ⟨hn, by decide⟩]
    rfl
  have hproduct := yields_mul (x := n.toUInt64.toFloat32) hfinite isFinite_one
  rw [value_one, mul_one, value, hvalue, ← hfast] at hproduct
  exact hproduct.exact hgrid hlt

theorem ofNat_zero : IsFinite (Float32.ofNat 0) ∧ value (Float32.ofNat 0) = 0 :=
  mod_cast ofNat_spec (n := 0) (by decide)

theorem lt_zero_iff {x : Float32} (hx : IsFinite x) : x < Float32.ofNat 0 ↔ value x < 0 := by
  rw [lt_iff hx ofNat_zero.1, ofNat_zero.2]

theorem zero_lt_iff {x : Float32} (hx : IsFinite x) : Float32.ofNat 0 < x ↔ 0 < value x := by
  rw [lt_iff ofNat_zero.1 hx, ofNat_zero.2]

theorem zero_le_iff {x : Float32} (hx : IsFinite x) : Float32.ofNat 0 ≤ x ↔ 0 ≤ value x := by
  rw [le_iff ofNat_zero.1 hx, ofNat_zero.2]

theorem ofNat_one : IsFinite (Float32.ofNat 1) ∧ value (Float32.ofNat 1) = 1 :=
  mod_cast ofNat_spec (n := 1) (by decide)

end Exact

section Wholes

variable {x y : Float32} {m n : ℤ}

/-- A whole number that is stored as it is. -/
structure Whole (n : ℤ) (x : Float32) : Prop where
  isFinite : IsFinite x
  value_eq : value x = n

theorem whole_of_yields (h : Yields .binary32 n (digits x)) (hn : |n| ≤ 2 ^ 24) : Whole n x := by
  have hlt : |(n : ℚ)| < 2 ^ (Format.binary32.exponentBias + 1) := by
    calc |(n : ℚ)| ≤ 2 ^ 24 := by exact_mod_cast hn
      _ < 2 ^ (Format.binary32.exponentBias + 1) := pow_lt_pow_right₀ (by norm_num) (by decide)
  obtain ⟨hfinite, hvalue⟩ := h.exact (OnGrid.intCast hn) hlt
  exact ⟨hfinite, hvalue⟩

namespace Whole

theorem ofNat {k : ℕ} (hk : k < 2 ^ 23) : Whole k (Float32.ofNat k) := by
  obtain ⟨hfinite, hvalue⟩ := ofNat_spec hk
  exact ⟨hfinite, mod_cast hvalue⟩

theorem add (hx : Whole m x) (hy : Whole n y) (h : |m + n| ≤ 2 ^ 24) : Whole (m + n) (x + y) := by
  refine whole_of_yields ?_ h
  have hsum := yields_add hx.isFinite hy.isFinite
  rw [hx.value_eq, hy.value_eq] at hsum
  exact_mod_cast hsum

theorem neg (hx : Whole n x) : Whole (-n) (-x) := by
  refine ⟨isFinite_neg hx.isFinite, ?_⟩
  rw [value_neg, hx.value_eq, Int.cast_neg]

end Whole

end Wholes

section Halves

variable {x y : Float32} {k m : ℤ} {q : ℚ}

/-- A multiple of a half that is stored as it is. -/
structure Half (m : ℤ) (x : Float32) : Prop where
  isFinite : IsFinite x
  value_eq : value x = m / 2

theorem half_of_yields (h : Yields .binary32 q (digits x)) (hq : q = m / 2) (hm : |m| ≤ 2 ^ 17) :
    Half m x := by
  have hm' : |(m : ℚ)| ≤ 2 ^ 17 := by exact_mod_cast hm
  have hlt : |(m : ℚ) / 2| < 2 ^ (Format.binary32.exponentBias + 1) := by
    rw [abs_div, abs_two]
    calc |(m : ℚ)| / 2 ≤ 2 ^ 17 := by linarith [abs_nonneg (m : ℚ)]
      _ < 2 ^ (Format.binary32.exponentBias + 1) := pow_lt_pow_right₀ (by norm_num) (by decide)
  rw [hq] at h
  obtain ⟨hfinite, hvalue⟩ := h.exact (onGrid_half (hm.trans (by norm_num))) hlt
  exact ⟨hfinite, hvalue⟩

namespace Half

theorem ofNat {k : ℕ} (hk : k < 2 ^ 23) : Half (2 * k) (Float32.ofNat k) := by
  obtain ⟨hfinite, hvalue⟩ := ofNat_spec hk
  refine ⟨hfinite, ?_⟩
  rw [hvalue]
  push_cast
  ring

theorem ofNat_div_two {k : ℕ} (hk : k ≤ 2 ^ 17) :
    Half k (Float32.ofNat k / Float32.ofNat 2) := by
  obtain ⟨hfinite, hvalue⟩ := ofNat_spec (hk.trans_lt (by norm_num))
  obtain ⟨htwo, htwo'⟩ := ofNat_spec (n := 2) (by decide)
  refine half_of_yields (yields_div hfinite htwo ?_) ?_ (by rw [abs_le]; omega)
  · rw [htwo']
    norm_num
  · rw [hvalue, htwo']
    norm_num

theorem add (hx : Half k x) (hy : Half m y) (h : |k + m| ≤ 2 ^ 17) : Half (k + m) (x + y) := by
  refine half_of_yields (yields_add hx.isFinite hy.isFinite) ?_ h
  rw [hx.value_eq, hy.value_eq]
  push_cast
  ring

theorem sub (hx : Half k x) (hy : Half m y) (h : |k - m| ≤ 2 ^ 17) : Half (k - m) (x - y) := by
  refine half_of_yields (yields_sub hx.isFinite hy.isFinite) ?_ h
  rw [hx.value_eq, hy.value_eq]
  push_cast
  ring

theorem neg (hx : Half m x) : Half (-m) (-x) := by
  refine ⟨isFinite_neg hx.isFinite, ?_⟩
  rw [value_neg, hx.value_eq]
  push_cast
  ring

theorem onGrid_add (hx : Half m x) (h : |m + 2 * k| ≤ 2 ^ 24) :
    OnGrid .binary32 (value x + k) := by
  have hgrid := onGrid_half h
  have hexact : value x + k = ((m + 2 * k : ℤ) : ℚ) / 2 := by
    rw [hx.value_eq]
    push_cast
    ring
  rwa [hexact]

end Half

end Halves

section Round

theorem abs_roundMagnitude_sub_le (m : ℕ) (e : ℤ) :
    |(roundMagnitude m e : ℚ) - m * 2 ^ e| ≤ 1 / 2 := by
  rw [roundMagnitude]
  split_ifs with he
  · obtain ⟨n, rfl⟩ := Int.eq_ofNat_of_zero_le he
    simp
  · obtain ⟨n, hn⟩ := Int.eq_ofNat_of_zero_le (Int.le_of_lt (Int.neg_pos.mpr (not_le.mp he)))
    obtain rfl : e = -n := by omega
    rw [neg_neg, Int.toNat_natCast, zpow_neg, zpow_natCast, Nat.pow_eq]
    have hpos : (0 : ℚ) < 2 ^ n := by positivity
    have hdiv := Nat.div_add_mod (2 * m + 2 ^ n) (2 * 2 ^ n)
    have hmod := Nat.mod_lt (2 * m + 2 ^ n) (show 0 < 2 * 2 ^ n by positivity)
    generalize (2 * m + 2 ^ n) / (2 * 2 ^ n) = k at hdiv ⊢
    generalize (2 * m + 2 ^ n) % (2 * 2 ^ n) = r at hdiv hmod
    have hdiv' : 2 * (2 : ℚ) ^ n * k + r = 2 * m + 2 ^ n := by exact_mod_cast hdiv
    have hmod' : (r : ℚ) < 2 * 2 ^ n := by exact_mod_cast hmod
    have hrem : (0 : ℚ) ≤ r := Nat.cast_nonneg r
    have hdiff : (k : ℚ) - m * (2 ^ n)⁻¹ = (2 ^ n - r) / (2 * 2 ^ n) := by
      field_simp
      linarith
    rw [hdiff, abs_div, abs_of_pos (by positivity : (0 : ℚ) < 2 * 2 ^ n),
      div_le_iff₀ (by positivity), abs_le]
    constructor <;> linarith

theorem abs_round_sub_le {x : Float32} (hx : IsFinite x) (h : |value x| ≤ 2 ^ 62) :
    |(round x : ℚ) - value x| ≤ 1 / 2 := by
  rcases digits_of_isFinite hx with ⟨s, hdigits, hvalue⟩ | ⟨s, m, e, hm, hdigits, -, hvalue⟩
  · have hround : round x = 0 := by
      rw [round, show x.toModel.unpack = _ from hdigits]
    rw [hround, hvalue]
    norm_num
  · have hnear := abs_roundMagnitude_sub_le m e
    rw [hvalue, abs_signed, abs_of_nonneg (by positivity)] at h
    have hsmall : roundMagnitude m e < 2 ^ 63 := by
      have hlt : (roundMagnitude m e : ℚ) < 2 ^ 63 := by
        linarith [(abs_le.mp hnear).2]
      exact_mod_cast hlt
    have hround : round x = s.apply (roundMagnitude m e) := by
      rw [round, show x.toModel.unpack = _ from hdigits]
      cases s <;> simp only [minWord, maxWord, Sign.apply] <;> omega
    rw [hround, hvalue]
    cases s <;> simp only [Sign.apply, signed] <;> push_cast
    · rwa [neg_sub_neg, abs_sub_comm]
    · exact hnear

theorem abs_value_le_of_round {x : Float32} (hx : IsFinite x) (h : |round x| ≤ 2 ^ 61) :
    |value x| ≤ 2 ^ 62 := by
  rcases digits_of_isFinite hx with ⟨s, -, hvalue⟩ | ⟨s, m, e, hm, hdigits, -, hvalue⟩
  · rw [hvalue, abs_zero]
    positivity
  · by_contra! hlarge
    have hnear := abs_roundMagnitude_sub_le m e
    rw [hvalue, abs_signed, abs_of_nonneg (by positivity)] at hlarge
    have hbound : 2 ^ 62 ≤ roundMagnitude m e := by
      have hlt : (2 : ℚ) ^ 62 < roundMagnitude m e + 1 := by
        linarith [(abs_le.mp hnear).1]
      exact Nat.le_of_lt_succ (by exact_mod_cast hlt)
    rw [round, show x.toModel.unpack = _ from hdigits, abs_le] at h
    cases s <;> simp only [minWord, maxWord, Sign.apply] at h <;> omega

end Round

end LSystem.Single
