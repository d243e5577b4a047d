import LSystem.Geometry.Box
import LSystem.Proofs.Binary.Single

/-! # The parameters of a clipped line

A condition on the parameter of a line takes over the quotient of two numbers that are stored, when
it is a number and narrows the range that is left. The quotient is no more than one then, so what it
is off by is in proportion to the coordinates of the line.
-/

namespace LSystem

open Float.Model (Format)
open Binary (OnGrid Rounds Yields)
open Binary.MachineNumber
open Single (lt_zero_iff ofNat_one ofNat_zero zero_lt_iff)

section Stored

variable {n : ℕ} {x y t : Float32}

/-- A number of a magnitude that `n` further binary digits double from the one at which single
precision still tells quarters apart. -/
structure Moderate (n : ℕ) (x : Float32) : Prop where
  isFinite : IsFinite x
  abs_le : |value x| ≤ 2 ^ (22 + n)

structure Extent (n : ℕ) (x : Float32) : Prop where
  isFinite : IsFinite x
  abs_le : |value x| ≤ 2 ^ (23 + n)

theorem Extent.neg (h : Extent n x) : Extent n (-x) where
  isFinite := isFinite_neg h.isFinite
  abs_le := by
    rw [value_neg, abs_neg]
    exact h.abs_le

theorem near_extent {q : ℚ} (hn : n ≤ 22) (h : Yields .binary32 q (digits x))
    (hq : |q| ≤ 2 ^ (23 + n)) : Extent n x ∧ |value x - q| ≤ 2 ^ n / 4 := by
  have hpow : (2 : ℚ) ^ (((23 + n : ℕ) : ℤ) - Format.binary32.mantissaBits - 1) = 2 ^ n / 4 := by
    have hexp : ((23 + n : ℕ) : ℤ) - Format.binary32.mantissaBits - 1 = n - 2 := by
      have hbits : (Format.binary32.mantissaBits : ℤ) = 24 := rfl
      omega
    rw [hexp, zpow_sub₀ (by norm_num), zpow_natCast]
    norm_num
  have hlow : Format.binary32.minExponent + Format.binary32.mantissaBits ≤ ((23 + n : ℕ) : ℤ) := by
    have hmin : Format.binary32.minExponent + Format.binary32.mantissaBits = -125 := rfl
    omega
  have hhigh : ((23 + n : ℕ) : ℤ) ≤ Format.binary32.exponentBias := by
    have hbias : (Format.binary32.exponentBias : ℤ) = 127 := rfl
    omega
  obtain ⟨hfinite, hnear, hle⟩ := h.near hlow hhigh (by rwa [zpow_natCast])
  rw [hpow] at hnear
  rw [zpow_natCast] at hle
  exact ⟨⟨hfinite, hle⟩, hnear⟩

theorem Moderate.sub (hn : n ≤ 22) (hx : Moderate n x) (hy : Moderate n y) :
    Extent n (x - y) ∧ |value (x - y) - (value x - value y)| ≤ 2 ^ n / 4 := by
  refine near_extent hn (yields_sub hx.isFinite hy.isFinite) ?_
  calc |value x - value y| ≤ |value x| + |value y| := abs_sub _ _
    _ ≤ 2 ^ (22 + n) + 2 ^ (22 + n) := add_le_add hx.abs_le hy.abs_le
    _ = 2 ^ (23 + n) := by ring

theorem Extent.mul (hn : n ≤ 22) (hx : Extent n x) (ht : IsFinite t) (hzero : 0 ≤ value t)
    (hone : value t ≤ 1) : Extent n (x * t) ∧ |value (x * t) - value x * value t| ≤ 2 ^ n / 4 := by
  refine near_extent hn (yields_mul hx.isFinite ht) ?_
  rw [abs_mul, abs_of_nonneg hzero]
  exact (mul_le_of_le_one_right (abs_nonneg _) hone).trans hx.abs_le

end Stored

namespace Interval

variable {n : ℕ} {i j : Interval Float32} {p q r : Float32} {x : ℚ}

/-- The parameters are numbers, some are left, and all are those of points of the line. -/
structure Valid (i : Interval Float32) : Prop where
  isFinite_first : IsFinite i.first
  isFinite_last : IsFinite i.last
  nonneg : 0 ≤ value i.first
  ordered : value i.first ≤ value i.last
  le_one : value i.last ≤ 1

/-- What of a parameter range is left. -/
structure Narrows (i j : Interval Float32) : Prop where
  valid : j.Valid
  first : value i.first ≤ value j.first
  last : value j.last ≤ value i.last

theorem Narrows.trans {k : Interval Float32} (h₁ : i.Narrows j) (h₂ : j.Narrows k) :
    i.Narrows k :=
  ⟨h₂.valid, h₁.first.trans h₂.first, h₂.last.trans h₁.last⟩

theorem valid_whole : (whole : Interval Float32).Valid where
  isFinite_first := ofNat_zero.1
  isFinite_last := ofNat_one.1
  nonneg := ofNat_zero.2.ge
  ordered := by
    change value (Float32.ofNat 0) ≤ value (Float32.ofNat 1)
    rw [ofNat_zero.2, ofNat_one.2]
    norm_num
  le_one := ofNat_one.2.le

theorem abs_quotient_sub_le (h : Rounds .binary32 x (value r)) (hx : |x| ≤ 2) :
    |value r - x| ≤ 1 / 2 ^ 24 := by
  have hnear := h.abs_sub_le (k := 1) (by decide) (by rwa [zpow_one])
  have hexp : (1 : ℤ) - Format.binary32.mantissaBits - 1 = -24 := rfl
  rwa [hexp, zpow_neg, ← one_div] at hnear

theorem onGrid_intCast (m : ℤ) (hm : |m| ≤ 2 ^ 24) : OnGrid .binary32 m := .intCast hm

theorem le_of_rounds (h : Rounds .binary32 x (value r)) (hr : value r ≤ 1) :
    x ≤ max (value r) 0 + 1 / 2 ^ 24 := by
  rcases le_or_gt x 0 with hx | hx
  · exact (hx.trans (le_max_right _ _)).trans (le_add_of_nonneg_right (by positivity))
  · have hle : x ≤ 2 := by
      by_contra hlt
      have htwo := h.ge (onGrid_intCast 2 (by norm_num)) (by push_cast; exact (not_le.mp hlt).le)
      push_cast at htwo
      linarith
    have hnear := abs_quotient_sub_le h (abs_le.mpr ⟨by linarith, hle⟩)
    linarith [(abs_le.mp hnear).1, le_max_left (value r) 0]

theorem ge_of_rounds (h : Rounds .binary32 x (value r)) (hr : 0 ≤ value r) :
    min (value r) 1 ≤ x + 1 / 2 ^ 24 := by
  rcases le_or_gt 1 x with hx | hx
  · exact ((min_le_right _ _).trans hx).trans (le_add_of_nonneg_right (by positivity))
  · have hle : -1 ≤ x := by
      by_contra hlt
      have hone := h.le (onGrid_intCast (-1) (by norm_num)) (by push_cast; exact (not_le.mp hlt).le)
      push_cast at hone
      linarith
    have hnear := abs_quotient_sub_le h (abs_le.mpr ⟨by linarith, by linarith⟩)
    linarith [(abs_le.mp hnear).2, min_le_left (value r) 1]

theorem raise_spec (hi : i.Valid) (hr : Yields .binary32 x (digits r)) (h : ¬ i.last < r) :
    i.Narrows ⟨if i.first < r then r else i.first, i.last⟩ ∧
      x ≤ value (if i.first < r then r else i.first) + 1 / 2 ^ 24 := by
  rcases hr.finite_or_infinity with hfinite | ⟨-, hinfinity⟩ | ⟨⟨s, hs, hlow⟩, hinfinity⟩
  · have hlast : value r ≤ value i.last := by
      rw [lt_iff hi.isFinite_last hfinite] at h
      exact not_lt.mp h
    have hx := le_of_rounds (hr.rounds hfinite) (hlast.trans hi.le_one)
    split_ifs with hlt
    · rw [lt_iff hi.isFinite_first hfinite] at hlt
      have hnonneg := hi.nonneg.trans hlt.le
      rw [max_eq_left hnonneg] at hx
      exact ⟨⟨⟨hfinite, hi.isFinite_last, hnonneg, hlast, hi.le_one⟩, hlt.le, le_rfl⟩, hx⟩
    · rw [lt_iff hi.isFinite_first hfinite, not_lt] at hlt
      exact ⟨⟨hi, le_rfl, le_rfl⟩, hx.trans (add_le_add_left (max_le hlt hi.nonneg) _)⟩
  · exact absurd (lt_of_posInfinity_right hi.isFinite_last hinfinity) h
  · -- the quotient is far below zero then, and no condition on the parameters of the line
    rw [if_neg (not_lt_of_negInfinity_right hinfinity)]
    refine ⟨⟨hi, le_rfl, le_rfl⟩, ?_⟩
    have hx : x ≤ 0 := by
      by_contra hpos
      have hs' := hs.nonneg (not_le.mp hpos).le
      have htwo : (0 : ℚ) < 2 ^ (Format.binary32.exponentBias + 1) := by positivity
      linarith
    exact (hx.trans hi.nonneg).trans (le_add_of_nonneg_right (by positivity))

theorem lower_spec (hi : i.Valid) (hr : Yields .binary32 x (digits r)) (h : ¬ r < i.first) :
    i.Narrows ⟨i.first, if r < i.last then r else i.last⟩ ∧
      value (if r < i.last then r else i.last) ≤ x + 1 / 2 ^ 24 := by
  rcases hr.finite_or_infinity with hfinite | ⟨⟨s, hs, hhigh⟩, hinfinity⟩ | ⟨-, hinfinity⟩
  · have hfirst : value i.first ≤ value r := by
      rw [lt_iff hfinite hi.isFinite_first] at h
      exact not_lt.mp h
    have hx := ge_of_rounds (hr.rounds hfinite) (hi.nonneg.trans hfirst)
    split_ifs with hlt
    · rw [lt_iff hfinite hi.isFinite_last] at hlt
      have hone := hlt.le.trans hi.le_one
      rw [min_eq_left hone] at hx
      exact ⟨⟨⟨hi.isFinite_first, hfinite, hi.nonneg, hfirst, hone⟩, le_rfl, hlt.le⟩, hx⟩
    · rw [lt_iff hfinite hi.isFinite_last, not_lt] at hlt
      exact ⟨⟨hi, le_rfl, le_rfl⟩, (le_min hlt hi.le_one).trans hx⟩
  · rw [if_neg (not_lt_of_posInfinity_left hinfinity)]
    refine ⟨⟨hi, le_rfl, le_rfl⟩, ?_⟩
    have hx : 1 ≤ x := by
      by_contra hlt
      have hs' := hs.le (onGrid_intCast 1 (by norm_num)) (by push_cast; exact (not_le.mp hlt).le)
      have htwo : (1 : ℚ) < 2 ^ (Format.binary32.exponentBias + 1) :=
        one_lt_pow₀ (by norm_num) (by decide)
      push_cast at hs'
      linarith
    exact (hi.le_one.trans hx).trans (le_add_of_nonneg_right (by positivity))
  · exact absurd (lt_of_negInfinity_left hinfinity hi.isFinite_first) h

theorem restrict_of_neg (hp : IsFinite p) (hneg : value p < 0) : i.restrict p q =
    if i.last < q / p then none else some ⟨if i.first < q / p then q / p else i.first, i.last⟩ := by
  have hlt : p < Float32.ofNat 0 := (lt_zero_iff hp).mpr hneg
  exact if_pos hlt

theorem restrict_of_pos (hp : IsFinite p) (hpos : 0 < value p) : i.restrict p q =
    if q / p < i.first then none else some ⟨i.first, if q / p < i.last then q / p else i.last⟩ := by
  have hlt : ¬ p < Float32.ofNat 0 := by
    rw [lt_zero_iff hp]
    exact hpos.not_gt
  have hgt : Float32.ofNat 0 < p := (zero_lt_iff hp).mpr hpos
  exact (if_neg hlt).trans (if_pos hgt)

theorem restrict_of_zero (hp : IsFinite p) (hzero : value p = 0) :
    i.restrict p q = if q < Float32.ofNat 0 then none else some i := by
  have hlt : ¬ p < Float32.ofNat 0 := by
    rw [lt_zero_iff hp]
    exact hzero.not_lt
  have hgt : ¬ Float32.ofNat 0 < p := by
    rw [zero_lt_iff hp]
    exact hzero.not_gt
  exact (if_neg hlt).trans (if_neg hgt)

/-- The condition holds of the parameters that are left, up to the rounding of the quotient. -/
theorem restrict_spec (hi : i.Valid) (hp : Extent n p) (hq : IsFinite q)
    (h : i.restrict p q = some j) : i.Narrows j ∧
      ∀ t, value j.first ≤ t → t ≤ value j.last → value p * t ≤ value q + 2 ^ n / 2 := by
  have hunit : |value p| * (1 / 2 ^ 24) ≤ 2 ^ n / 2 := by
    calc |value p| * (1 / 2 ^ 24) ≤ 2 ^ (23 + n) * (1 / 2 ^ 24) :=
          mul_le_mul_of_nonneg_right hp.abs_le (by positivity)
      _ = 2 ^ n / 2 := by ring
  rcases lt_trichotomy (value p) 0 with hneg | hzero | hpos
  · rw [restrict_of_neg hp.isFinite hneg, Option.ite_none_left_eq_some] at h
    obtain ⟨hout, h⟩ := h
    obtain ⟨hj, hx⟩ := raise_spec hi (yields_div hq hp.isFinite hneg.ne) hout
    rw [Option.some.inj h] at hj
    refine ⟨hj, fun t ht _ => ?_⟩
    rw [← Option.some.inj h] at ht
    have hle := mul_le_mul_of_nonpos_left (hx.trans (add_le_add_left ht _)) hneg.le
    rw [mul_div_cancel₀ _ hneg.ne, mul_add] at hle
    rw [abs_of_neg hneg] at hunit
    linarith
  · rw [restrict_of_zero hp.isFinite hzero, Option.ite_none_left_eq_some, lt_zero_iff hq,
      not_lt] at h
    obtain ⟨hnonneg, h⟩ := h
    obtain rfl := Option.some.inj h
    refine ⟨⟨hi, le_rfl, le_rfl⟩, fun t _ _ => ?_⟩
    rw [hzero, zero_mul]
    positivity
  · rw [restrict_of_pos hp.isFinite hpos, Option.ite_none_left_eq_some] at h
    obtain ⟨hout, h⟩ := h
    obtain ⟨hj, hx⟩ := lower_spec hi (yields_div hq hp.isFinite hpos.ne') hout
    rw [Option.some.inj h] at hj
    refine ⟨hj, fun t _ ht => ?_⟩
    rw [← Option.some.inj h] at ht
    have hle := mul_le_mul_of_nonneg_left (ht.trans hx) hpos.le
    rw [mul_add, mul_div_cancel₀ _ hpos.ne'] at hle
    rw [abs_of_pos hpos] at hunit
    linarith

end Interval

end LSystem
