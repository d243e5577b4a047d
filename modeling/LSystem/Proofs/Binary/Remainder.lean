import LSystem.Proofs.Binary.Single

/-! # Remainders in single precision

The remainder of a division by a whole number is exact, since it has no more digits than the number
divided.
-/

namespace LSystem.Single

open Float.Model (Format UnpackedFloat)
open Float.Model.UnpackedFloat
open Binary (Canonical OnGrid Yields abs_signed nearest_round nearest_zero signed yields_stored)
open Binary.MachineNumber

section Magnitude

variable {n m : ℕ} {e : ℤ}

theorem remainderMagnitude_spec (m : ℕ) (e : ℤ) (hn : 0 < n) :
    (remainderMagnitude n m e : ℚ) * 2 ^ min e 0 < n ∧
      ∃ k : ℕ, (m : ℚ) * 2 ^ e = remainderMagnitude n m e * 2 ^ min e 0 + k * n := by
  rw [remainderMagnitude]
  split_ifs with he
  · obtain ⟨j, rfl⟩ := Int.eq_ofNat_of_zero_le he
    rw [min_eq_right he, zpow_zero, mul_one, Nat.pow_eq, Int.toNat_natCast, zpow_natCast]
    refine ⟨by exact_mod_cast Nat.mod_lt _ hn, m * 2 ^ j / n, ?_⟩
    exact_mod_cast (Nat.mod_add_div' (m * 2 ^ j) n).symm
  · obtain ⟨j, hj⟩ := Int.eq_ofNat_of_zero_le (Int.le_of_lt (Int.neg_pos.mpr (not_le.mp he)))
    obtain rfl : e = -j := by omega
    rw [min_eq_left (by omega), neg_neg, Nat.pow_eq, Int.toNat_natCast, zpow_neg, zpow_natCast]
    refine ⟨?_, m / (n * 2 ^ j), ?_⟩
    · rw [mul_inv_lt_iff₀ (by positivity)]
      exact_mod_cast Nat.mod_lt m (by positivity)
    · have hdiv : ((m % (n * 2 ^ j) : ℕ) : ℚ) + (m / (n * 2 ^ j) : ℕ) * (n * 2 ^ j) = m := by
        exact_mod_cast Nat.mod_add_div' m (n * 2 ^ j)
      field_simp
      linarith

/-- Either the remainder is a whole number below `n`, or it has the places of the number divided. -/
theorem onGrid_remainderMagnitude (h : Canonical .binary32 m e) (hn : 0 < n) (hle : n ≤ 2 ^ 24) :
    OnGrid .binary32 (remainderMagnitude n m e * 2 ^ min e 0) := by
  refine ⟨remainderMagnitude n m e, min e 0, ?_, le_min h.le (by decide), by simp⟩
  rw [Nat.abs_cast, remainderMagnitude]
  have hm : m ≤ 2 ^ 24 := h.lt.le
  split_ifs
  · exact_mod_cast (Nat.mod_lt _ hn).le.trans hle
  · exact_mod_cast (Nat.mod_le _ _).trans hm

end Magnitude

section Remainder

variable {x : Float32} {n : ℕ}

/-- What is left after whole steps of `n`, on the side of zero that the number is on. -/
structure Remains (n : ℕ) (q r : ℚ) : Prop where
  lt : |r| < n
  steps : ∃ k : ℤ, q = r + k * n
  side : 0 ≤ q * r

theorem Remains.signed {q r : ℚ} (h : Remains n q r) (s : Sign) :
    Remains n (signed s q) (signed s r) := by
  cases s with
  | positive => exact h
  | negative =>
    obtain ⟨k, hk⟩ := h.steps
    refine ⟨by rw [Binary.signed, abs_neg]; exact h.lt, ⟨-k, ?_⟩, ?_⟩
    · simp only [Binary.signed, hk]
      push_cast
      ring
    · simpa [Binary.signed] using h.side

theorem digits_ofModel_pack (u : UnpackedFloat) :
    digits (Float32.ofModel (.pack u)) = unpack .binary32 (pack .binary32 u) := rfl

theorem yields_remainder {s : Sign} {m : ℕ} {e : ℤ} {hm : 0 < m}
    (hx : digits x = .finite s m e hm) :
    Yields .binary32 (signed s (remainderMagnitude n m e * 2 ^ min e 0))
      (digits (remainder x n)) := by
  simp only [remainder, show x.toModel.unpack = _ from hx]
  split
  next hr =>
    have hzero : signed s (((0 : ℕ) : ℚ) * 2 ^ min e 0) = 0 := by
      cases s <;> simp [signed]
    rw [hr, hzero, digits_ofModel_pack]
    exact yields_stored (by decide) (nearest_zero _ s)
  next r hr =>
    rw [hr, digits_ofModel_pack]
    exact yields_stored (by decide) (nearest_round s r.succ_pos)

theorem remainder_spec (hn : 0 < n) (hle : n ≤ 2 ^ 24) (hx : IsFinite x) :
    IsFinite (remainder x n) ∧ Remains n (value x) (value (remainder x n)) := by
  rcases digits_of_isFinite hx with ⟨s, hdigits, hvalue⟩ |
    ⟨s, m, e, hm, hdigits, hcanonical, hvalue⟩
  · have hself : remainder x n = x := by
      rw [remainder, show x.toModel.unpack = _ from hdigits]
    rw [hself, hvalue]
    exact ⟨hx, by simpa using hn, ⟨0, by simp⟩, by simp⟩
  · obtain ⟨hlt, k, hk⟩ := remainderMagnitude_spec m e hn
    have hnonneg : (0 : ℚ) ≤ remainderMagnitude n m e * 2 ^ min e 0 := by positivity
    have hremains : Remains n (m * 2 ^ e) (remainderMagnitude n m e * 2 ^ min e 0) :=
      ⟨by rwa [abs_of_nonneg hnonneg], ⟨k, by exact_mod_cast hk⟩,
        mul_nonneg (by positivity) hnonneg⟩
    have hsmall : |signed s ((remainderMagnitude n m e : ℚ) * 2 ^ min e 0)| <
        2 ^ (Format.binary32.exponentBias + 1) := by
      rw [abs_signed, abs_of_nonneg hnonneg]
      exact hlt.trans_le (mod_cast hle.trans (by decide))
    obtain ⟨hfinite, hexact⟩ := (yields_remainder hdigits).exact
      ((onGrid_remainderMagnitude hcanonical hn hle).signed s) hsmall
    refine ⟨hfinite, ?_⟩
    rw [hvalue, value, hexact]
    exact hremains.signed s

theorem Whole.remainder {q : ℤ} (hx : Whole q x) (hn : 0 < n) (hle : n ≤ 2 ^ 24) :
    ∃ r k : ℤ, Whole r (remainder x n) ∧ |r| < n ∧ q = r + k * n := by
  obtain ⟨hfinite, hlt, ⟨k, hk⟩, -⟩ := remainder_spec hn hle hx.isFinite
  rw [hx.value_eq] at hk
  have hvalue : value (Single.remainder x n) = (q - k * n : ℤ) := by
    push_cast
    linarith
  refine ⟨q - k * n, k, ⟨hfinite, hvalue⟩, ?_, by ring⟩
  rw [hvalue] at hlt
  exact_mod_cast hlt

end Remainder

end LSystem.Single
