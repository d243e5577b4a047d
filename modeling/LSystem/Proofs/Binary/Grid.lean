import Mathlib

/-! # The grid of a format

The numbers of a binary format are the whole multiples of powers of two that have few enough digits.
Rounding takes a number to the nearest one on this grid, and a few consequences of being nearest are
all that is used of it: numbers on the grid stay, no number passes one of the grid, and the error is
half a unit of the last digit at most.
-/

namespace LSystem.Binary

open Float.Model

variable {f : Format} {q r s : ℚ} {k : ℤ}

theorem mantissaBits_eq (f : Format) : f.mantissaBits = f.mantissaBitsWithoutImplicit + 1 :=
  Nat.add_comm ..

theorem one_lt_mantissaBits (f : Format) : 1 < f.mantissaBits := by
  rw [mantissaBits_eq]
  exact Nat.succ_lt_succ f.hm

theorem minExponent_nonpos (f : Format) : f.minExponent ≤ 0 := by
  have hp := one_lt_mantissaBits f
  have htwo : (1 : ℤ) ≤ 2 ^ (f.exponentBits - 1) := one_le_pow₀ (by norm_num)
  rw [Format.minExponent]
  omega

/-- The number has few enough digits, and they do not go below the least place. There is no greatest
number yet. -/
def OnGrid (f : Format) (q : ℚ) : Prop :=
  ∃ m e : ℤ, |m| ≤ 2 ^ f.mantissaBits ∧ f.minExponent ≤ e ∧ q = m * 2 ^ e

namespace OnGrid

theorem zero (f : Format) : OnGrid f 0 :=
  ⟨0, f.minExponent, by simp, le_rfl, by simp⟩

theorem neg (h : OnGrid f q) : OnGrid f (-q) := by
  obtain ⟨m, e, hm, he, rfl⟩ := h
  exact ⟨-m, e, by rwa [abs_neg], he, by push_cast; ring⟩

theorem two_zpow (hk : f.minExponent ≤ k) : OnGrid f (2 ^ k) := by
  refine ⟨1, k, ?_, hk, by simp⟩
  rw [abs_one]
  exact one_le_pow₀ (by norm_num)

theorem exists_int (h : OnGrid f q) : ∃ n : ℤ, q = n * 2 ^ f.minExponent := by
  obtain ⟨m, e, -, he, rfl⟩ := h
  obtain ⟨j, hj⟩ := Int.eq_ofNat_of_zero_le (sub_nonneg.mpr he)
  refine ⟨m * 2 ^ j, ?_⟩
  obtain rfl : e = j + f.minExponent := by omega
  rw [zpow_add₀ (by norm_num), zpow_natCast]
  push_cast
  ring

theorem intCast {n : ℤ} (hn : |n| ≤ 2 ^ f.mantissaBits) : OnGrid f n :=
  ⟨n, 0, hn, minExponent_nonpos f, by simp⟩

end OnGrid

/-- The number on the grid is as near as any other. -/
structure Rounds (f : Format) (q r : ℚ) : Prop where
  onGrid : OnGrid f r
  nearest : ∀ s, OnGrid f s → |r - q| ≤ |s - q|

namespace Rounds

theorem self (h : OnGrid f q) : Rounds f q q :=
  ⟨h, fun s _ => by rw [sub_self, abs_zero]; exact abs_nonneg _⟩

theorem eq (h : Rounds f q r) (hq : OnGrid f q) : r = q := by
  have hle := h.nearest q hq
  rw [sub_self, abs_zero] at hle
  exact sub_eq_zero.mp (abs_nonpos_iff.mp hle)

theorem neg (h : Rounds f q r) : Rounds f (-q) (-r) := by
  refine ⟨h.onGrid.neg, fun s hs => ?_⟩
  calc |-r - -q| = |r - q| := by rw [neg_sub_neg, abs_sub_comm]
    _ ≤ |-s - q| := h.nearest (-s) hs.neg
    _ = |s - -q| := by rw [← neg_add', abs_neg, sub_neg_eq_add]

/-- A number on the grid is not passed from below. -/
theorem le (h : Rounds f q r) (hs : OnGrid f s) (hq : q ≤ s) : r ≤ s := by
  by_contra hlt
  rw [not_le] at hlt
  have hle := h.nearest s hs
  rw [abs_of_nonneg (by linarith), abs_of_nonneg (by linarith)] at hle
  linarith

theorem ge (h : Rounds f q r) (hs : OnGrid f s) (hq : s ≤ q) : s ≤ r := by
  have hle := h.neg.le hs.neg (neg_le_neg hq)
  exact neg_le_neg_iff.mp hle

theorem nonneg (h : Rounds f q r) (hq : 0 ≤ q) : 0 ≤ r := h.ge (.zero f) hq

theorem abs_le_of_onGrid (h : Rounds f q r) (hs : OnGrid f s) (hq : |q| ≤ s) : |r| ≤ s := by
  obtain ⟨hlow, hhigh⟩ := abs_le.mp hq
  exact abs_le.mpr ⟨h.ge hs.neg hlow, h.le hs hhigh⟩

/-- A number of the grid is not reached from a place that is nearer to one below. -/
theorem lt_of_nearer {t : ℚ} (h : Rounds f q r) (hs : OnGrid f s) (hst : s < t)
    (hq : 2 * q < s + t) : r < t := by
  by_contra hle
  rw [not_lt] at hle
  have hnear := h.nearest s hs
  rw [abs_of_nonneg (by linarith : 0 ≤ r - q)] at hnear
  rcases le_total q s with hqs | hqs
  · rw [abs_of_nonneg (by linarith)] at hnear
    linarith
  · rw [abs_of_nonpos (by linarith)] at hnear
    linarith

theorem mono {q' r' : ℚ} (h : Rounds f q r) (h' : Rounds f q' r') (hlt : q < q') : r ≤ r' := by
  by_contra! hr
  have hnear := h.nearest r' h'.onGrid
  have hnear' := h'.nearest r h.onGrid
  have hq : r + r' ≤ 2 * q := by
    by_contra! hq
    have hcloser : |r' - q| < r - q := abs_lt.mpr ⟨by linarith, by linarith⟩
    linarith [le_abs_self (r - q)]
  have hq' : 2 * q' ≤ r + r' := by
    by_contra! hq'
    have hcloser : |r - q'| < q' - r' := abs_lt.mpr ⟨by linarith, by linarith⟩
    linarith [neg_abs_le (r' - q')]
  linarith

theorem eq_of_near (h : Rounds f q r) (hs : OnGrid f s)
    (hnear : 2 * |s - q| < 2 ^ f.minExponent) : r = s := by
  obtain ⟨m, hm⟩ := h.onGrid.exists_int
  obtain ⟨n, hn⟩ := hs.exists_int
  have hunit : (0 : ℚ) < 2 ^ f.minExponent := by positivity
  have hclose : |r - s| < 2 ^ f.minExponent :=
    calc |r - s| ≤ |r - q| + |q - s| := abs_sub_le r q s
      _ ≤ |s - q| + |s - q| := add_le_add (h.nearest s hs) (abs_sub_comm q s).le
      _ < 2 ^ f.minExponent := by rwa [← two_mul]
  rw [hm, hn, ← sub_mul, abs_mul, abs_of_pos hunit, mul_lt_iff_lt_one_left hunit] at hclose
  have heq : m = n := sub_eq_zero.mp (Int.abs_lt_one_iff.mp (by exact_mod_cast hclose))
  rw [hm, hn, heq]

end Rounds

theorem abs_round_le {x : ℚ} {n : ℤ} (hx : |x| ≤ n) : |round x| ≤ n := by
  have hnear := abs_sub_round x
  have htriangle := abs_sub_abs_le_abs_sub (round x : ℚ) x
  rw [abs_sub_comm] at htriangle
  have hlt : |(round x : ℚ)| < n + 1 := by linarith
  exact Int.lt_add_one_iff.mp (by exact_mod_cast hlt)

/-- Below a power of two the grid is as fine as its number of digits says. -/
theorem exists_onGrid_near (hk : f.minExponent + f.mantissaBits ≤ k) (hq : |q| ≤ 2 ^ k) :
    ∃ s, OnGrid f s ∧ |s - q| ≤ 2 ^ (k - f.mantissaBits - 1) := by
  have hunit : (0 : ℚ) < 2 ^ (k - f.mantissaBits) := by positivity
  have hbound : |q / 2 ^ (k - f.mantissaBits)| ≤ (2 ^ f.mantissaBits : ℤ) := by
    rw [abs_div, abs_of_pos hunit, div_le_iff₀ hunit]
    push_cast
    rw [← zpow_natCast, ← zpow_add₀ (by norm_num), add_sub_cancel]
    exact hq
  refine ⟨round (q / 2 ^ (k - f.mantissaBits)) * 2 ^ (k - f.mantissaBits),
    ⟨_, _, abs_round_le hbound, by omega, rfl⟩, ?_⟩
  have hnear := abs_sub_round (q / 2 ^ (k - f.mantissaBits))
  calc |round (q / 2 ^ (k - f.mantissaBits)) * 2 ^ (k - f.mantissaBits) - q|
      = |q / 2 ^ (k - f.mantissaBits) - round (q / 2 ^ (k - f.mantissaBits))| *
          2 ^ (k - f.mantissaBits) := by
        rw [← abs_of_pos hunit, ← abs_mul, abs_of_pos hunit, sub_mul,
          div_mul_cancel₀ q hunit.ne', abs_sub_comm]
    _ ≤ 1 / 2 * 2 ^ (k - f.mantissaBits) := mul_le_mul_of_nonneg_right hnear hunit.le
    _ = 2 ^ (k - f.mantissaBits - 1) := by
        rw [zpow_sub_one₀ (by norm_num)]
        ring

theorem Rounds.abs_sub_le (h : Rounds f q r) (hk : f.minExponent + f.mantissaBits ≤ k)
    (hq : |q| ≤ 2 ^ k) : |r - q| ≤ 2 ^ (k - f.mantissaBits - 1) := by
  obtain ⟨s, hs, hnear⟩ := exists_onGrid_near hk hq
  exact (h.nearest s hs).trans hnear

end LSystem.Binary
