import LSystem.Proofs.Binary.Packing

/-! # Arithmetic on the grid

Every operation on numbers in the form of a format gives the number on the grid that is nearest to
the exact result, and comparisons are those of the exact values.
-/

namespace LSystem.Binary

open Float.Model (Format UnpackedFloat totalExponent)
open Float.Model.UnpackedFloat

variable {f : Format} {u v : UnpackedFloat} {s s₁ s₂ : Sign} {m m₁ m₂ : ℕ} {e k e₁ e₂ : ℤ}
  {x y : ℚ}

section Numbers

theorem exists_of_isFinite (h : u.isFinite) :
    (∃ s, u = .zero s) ∨ ∃ s m e hm, u = .finite s m e hm := by
  cases u with
  | infinity | notANumber => cases h
  | zero s => exact .inl ⟨s, rfl⟩
  | finite s m e hm => exact .inr ⟨s, m, e, hm, rfl⟩

theorem onGrid_value (h : IsCanonical f u) : OnGrid f (value u) := by
  cases u with
  | infinity | notANumber | zero => exact .zero f
  | finite s m e hm =>
    have hcanonical : Canonical f m e := h
    have hgrid : OnGrid f (m * 2 ^ e) := by
      refine ⟨m, e, ?_, hcanonical.le, by simp⟩
      rw [Nat.abs_cast]
      exact_mod_cast hcanonical.lt.le
    cases s with
    | negative => exact hgrid.neg
    | positive => exact hgrid

theorem nearest_self (h : IsCanonical f u) (hu : u.isFinite) : Nearest f (value u) u :=
  ⟨h, hu, .self (onGrid_value h)⟩

end Numbers

section Sign

theorem signed_neg (s : Sign) (x : ℚ) : signed (-s) x = -signed s x := by
  cases s with
  | negative => exact (neg_neg x).symm
  | positive => rfl

theorem signed_mul (s₁ s₂ : Sign) (x y : ℚ) :
    signed (s₁ * s₂) (x * y) = signed s₁ x * signed s₂ y := by
  cases s₁ with
  | negative =>
    cases s₂ with
    | negative => exact (neg_mul_neg x y).symm
    | positive => exact (neg_mul x y).symm
  | positive =>
    cases s₂ with
    | negative => exact (mul_neg x y).symm
    | positive => rfl

theorem signed_div (s₁ s₂ : Sign) (x y : ℚ) :
    signed (s₁ / s₂) (x / y) = signed s₁ x / signed s₂ y := by
  cases s₁ with
  | negative =>
    cases s₂ with
    | negative => exact (neg_div_neg_eq x y).symm
    | positive => exact (neg_div y x).symm
  | positive =>
    cases s₂ with
    | negative => exact (div_neg x).symm
    | positive => rfl

theorem value_neg (u : UnpackedFloat) : value u.neg = -value u := by
  cases u with
  | infinity | notANumber | zero => exact neg_zero.symm
  | finite s m e hm => exact signed_neg s _

theorem isCanonical_neg (h : IsCanonical f u) : IsCanonical f u.neg := by
  cases u with
  | infinity | notANumber | zero => trivial
  | finite s m e hm => exact h

theorem inRange_neg (h : InRange f u) : InRange f u.neg := by
  cases u with
  | infinity | notANumber | zero => trivial
  | finite s m e hm => exact h

theorem isFinite_neg (u : UnpackedFloat) : u.neg.isFinite = u.isFinite := by
  cases u <;> rfl

theorem nearest_neg (h : IsCanonical f u) (hu : u.isFinite) : Nearest f (-value u) u.neg := by
  rw [← value_neg]
  exact nearest_self (isCanonical_neg h) (isFinite_neg u ▸ hu)

end Sign

section Add

theorem signed_decreaseExponent (s : Sign) (m : ℕ) (hk : k ≤ e) :
    (s.apply (decreaseExponent m e k).1 : ℚ) * 2 ^ k = signed s (m * 2 ^ e) := by
  have hk' : e - (e - k).toNat = k := by
    rw [Int.toNat_of_nonneg (sub_nonneg.mpr hk), sub_sub_cancel]
  have hscale := shiftLeft_mul_zpow m (e - k).toNat e
  rw [hk'] at hscale
  rw [signed_apply, Int.cast_natCast, decreaseExponent, hscale]

theorem nearest_add (hu : IsCanonical f u) (hv : IsCanonical f v) (hu' : u.isFinite)
    (hv' : v.isFinite) : Nearest f (value u + value v) (add f u v) := by
  rcases exists_of_isFinite hu' with ⟨s₁, rfl⟩ | ⟨s₁, m₁, e₁, h₁, rfl⟩
  · rcases exists_of_isFinite hv' with ⟨s₂, rfl⟩ | ⟨s₂, m₂, e₂, h₂, rfl⟩
    · have hzero : value (.zero s₁) + value (.zero s₂) = 0 := zero_add 0
      rw [hzero, add]
      split_ifs <;> exact nearest_zero f _
    · have hzero : value (.zero s₁) = 0 := rfl
      rw [hzero, zero_add]
      exact nearest_self hv hv'
  · rcases exists_of_isFinite hv' with ⟨s₂, rfl⟩ | ⟨s₂, m₂, e₂, h₂, rfl⟩
    · have hzero : value (.zero s₂) = 0 := rfl
      rw [hzero, add_zero]
      exact nearest_self hu hu'
    · have hsum := nearest_normalize (f := f) (s₁.apply (decreaseExponent m₁ e₁ (min e₁ e₂)).1 +
        s₂.apply (decreaseExponent m₂ e₂ (min e₁ e₂)).1) (min e₁ e₂) .positive
      rw [Int.cast_add, add_mul, signed_decreaseExponent _ _ (min_le_left e₁ e₂),
        signed_decreaseExponent _ _ (min_le_right e₁ e₂)] at hsum
      exact hsum

theorem nearest_sub (hu : IsCanonical f u) (hv : IsCanonical f v) (hu' : u.isFinite)
    (hv' : v.isFinite) : Nearest f (value u - value v) (sub f u v) := by
  rcases exists_of_isFinite hu' with ⟨s₁, rfl⟩ | ⟨s₁, m₁, e₁, h₁, rfl⟩
  · rcases exists_of_isFinite hv' with ⟨s₂, rfl⟩ | ⟨s₂, m₂, e₂, h₂, rfl⟩
    · have hzero : value (.zero s₁) - value (.zero s₂) = 0 := sub_zero 0
      rw [hzero, sub]
      split_ifs <;> exact nearest_zero f _
    · have hzero : value (.zero s₁) = 0 := rfl
      rw [hzero, zero_sub]
      exact nearest_neg hv hv'
  · rcases exists_of_isFinite hv' with ⟨s₂, rfl⟩ | ⟨s₂, m₂, e₂, h₂, rfl⟩
    · have hzero : value (.zero s₂) = 0 := rfl
      rw [hzero, sub_zero]
      exact nearest_self hu hu'
    · have hdifference := nearest_normalize (f := f)
        (s₁.apply (decreaseExponent m₁ e₁ (min e₁ e₂)).1 -
          s₂.apply (decreaseExponent m₂ e₂ (min e₁ e₂)).1) (min e₁ e₂) .positive
      rw [Int.cast_sub, sub_mul, signed_decreaseExponent _ _ (min_le_left e₁ e₂),
        signed_decreaseExponent _ _ (min_le_right e₁ e₂)] at hdifference
      exact hdifference

end Add

section Mul

theorem Canonical.placed_mul (h₁ : Canonical f m₁ e₁) (h₂ : Canonical f m₂ e₂) (hm₁ : 0 < m₁)
    (hm₂ : 0 < m₂) : Placed f (m₁ * m₂) (e₁ + e₂) := by
  rcases h₁.long with rfl | hlong
  · rcases h₂.long with rfl | hlong
    · exact .inl (add_le_of_nonpos_left (minExponent_nonpos f))
    · exact .inr (hlong.trans (Nat.le_mul_of_pos_left m₂ hm₁))
  · exact .inr (hlong.trans (Nat.le_mul_of_pos_right m₁ hm₂))

theorem nearest_mul (hu : IsCanonical f u) (hv : IsCanonical f v) (hu' : u.isFinite)
    (hv' : v.isFinite) : Nearest f (value u * value v) (mul f u v) := by
  rcases exists_of_isFinite hu' with ⟨s₁, rfl⟩ | ⟨s₁, m₁, e₁, h₁, rfl⟩
  · have hzero : value (.zero s₁) * value v = 0 := zero_mul _
    rw [hzero]
    rcases exists_of_isFinite hv' with ⟨s₂, rfl⟩ | ⟨s₂, m₂, e₂, h₂, rfl⟩ <;> exact nearest_zero f _
  · rcases exists_of_isFinite hv' with ⟨s₂, rfl⟩ | ⟨s₂, m₂, e₂, h₂, rfl⟩
    · have hzero : value (.finite s₁ m₁ e₁ h₁) * value (.zero s₂) = 0 := mul_zero _
      rw [hzero]
      exact nearest_zero f _
    · have hproduct := nearest_roundWithAccuracy (s₁ * s₂) (.exact (m₁ * m₂))
        (Canonical.placed_mul hu hv h₁ h₂)
      have hscale : ((m₁ * m₂ : ℕ) : ℚ) * 2 ^ (e₁ + e₂) = m₁ * 2 ^ e₁ * (m₂ * 2 ^ e₂) := by
        rw [zpow_add₀ (by norm_num)]
        push_cast
        ring
      rw [hscale, signed_mul] at hproduct
      exact hproduct

end Mul

section Div

theorem Stands.ofFraction {num den : ℕ} (m : ℕ) (hlt : num < den) :
    Stands (.ofMantissaAndAccuracy m (accuracyOfFraction num den)) (m + num / den) := by
  have hden : (0 : ℚ) < den := by exact_mod_cast Nat.zero_lt_of_lt hlt
  have hone : (num : ℚ) / den < 1 := (div_lt_one hden).mpr (by exact_mod_cast hlt)
  rcases Nat.eq_zero_or_pos num with rfl | hpos
  · have hexact : accuracyOfFraction 0 den = .exact := rfl
    rw [hexact, Nat.cast_zero, zero_div, add_zero]
    exact .exact m
  · have hnum : (0 : ℚ) < num / den := div_pos (by exact_mod_cast hpos) hden
    rw [accuracyOfFraction, if_neg hpos.ne']
    rcases lt_trichotomy (2 * num) den with h | h | h
    · have hhalf : (num : ℚ) / den < 1 / 2 := by
        rw [div_lt_div_iff₀ hden two_pos, one_mul, mul_comm]
        exact_mod_cast h
      rw [compare_lt_iff_lt.mpr h]
      refine .of_sticky rfl ?_ ?_ <;> rw [low_of_not_roundBit rfl, mantissa_ofMantissaAndAccuracy]
      · exact lt_add_of_pos_right _ hnum
      · exact add_lt_add_right hhalf _
    · have hhalf : (num : ℚ) / den = 1 / 2 := by
        rw [div_eq_div_iff hden.ne' two_ne_zero, one_mul, mul_comm]
        exact_mod_cast h
      rw [compare_eq_iff_eq.mpr h, hhalf]
      refine .of_not_sticky rfl ?_
      rw [low_of_roundBit rfl, mantissa_ofMantissaAndAccuracy]
    · have hhalf : 1 / 2 < (num : ℚ) / den := by
        rw [div_lt_div_iff₀ two_pos hden, one_mul, mul_comm]
        exact_mod_cast h
      rw [compare_gt_iff_gt.mpr h]
      refine .of_sticky rfl ?_ ?_ <;> rw [low_of_roundBit rfl, mantissa_ofMantissaAndAccuracy]
      · exact add_lt_add_right hhalf _
      · linarith

def quotientExponent (f : Format) (m₁ : ℕ) (e₁ : ℤ) (m₂ : ℕ) (e₂ : ℤ) : ℤ :=
  min (e₁ - e₂) (f.targetExponent (totalExponent m₁ e₁ - totalExponent m₂ e₂))

theorem placed_quotient (hm₁ : 0 < m₁) (hm₂ : 0 < m₂) :
    Placed f ((m₁ <<< (e₁ - e₂ - quotientExponent f m₁ e₁ m₂ e₂).toNat) / m₂)
      (quotientExponent f m₁ e₁ m₂ e₂) := by
  set t := quotientExponent f m₁ e₁ m₂ e₂ with ht
  set shift := (e₁ - e₂ - t).toNat with hshift
  have hle : t ≤ f.targetExponent (totalExponent m₁ e₁ - totalExponent m₂ e₂) := min_le_right _ _
  rcases max_choice (totalExponent m₁ e₁ - totalExponent m₂ e₂ - f.mantissaBits)
    f.minExponent with h | h
  · right
    rw [Format.targetExponent, h, totalExponent, totalExponent] at hle
    have hlog : f.mantissaBits + m₂.log2 ≤ m₁.log2 + shift := by omega
    rw [Nat.le_div_iff_mul_le hm₂, Nat.shiftLeft_eq]
    calc 2 ^ f.mantissaBitsWithoutImplicit * m₂
        ≤ 2 ^ f.mantissaBitsWithoutImplicit * 2 ^ (m₂.log2 + 1) :=
          Nat.mul_le_mul_left _ Nat.lt_log2_self.le
      _ = 2 ^ (f.mantissaBits + m₂.log2) := by
          rw [← pow_add, mantissaBits_eq]
          congr 1
          omega
      _ ≤ 2 ^ (m₁.log2 + shift) := Nat.pow_le_pow_right two_pos hlog
      _ = 2 ^ m₁.log2 * 2 ^ shift := pow_add ..
      _ ≤ m₁ * 2 ^ shift := Nat.mul_le_mul_right _ (Nat.log2_self_le hm₁.ne')
  · left
    rwa [Format.targetExponent, h] at hle

theorem nearest_div (hu : IsCanonical f u) (hv : IsCanonical f v) (hu' : u.isFinite)
    (hv' : v.isFinite) (hne : value v ≠ 0) : Nearest f (value u / value v) (div f u v) := by
  rcases exists_of_isFinite hv' with ⟨s₂, rfl⟩ | ⟨s₂, m₂, e₂, h₂, rfl⟩
  · exact absurd rfl hne
  · rcases exists_of_isFinite hu' with ⟨s₁, rfl⟩ | ⟨s₁, m₁, e₁, h₁, rfl⟩
    · have hzero : value (.zero s₁) / value (.finite s₂ m₂ e₂ h₂) = 0 := zero_div _
      rw [hzero]
      exact nearest_zero f _
    · set t := quotientExponent f m₁ e₁ m₂ e₂ with ht
      set m := m₁ <<< (e₁ - e₂ - t).toNat with hm
      have hquotient := nearest_roundWithAccuracy (s₁ / s₂)
        (Stands.ofFraction (m / m₂) (Nat.mod_lt m h₂)) (placed_quotient (f := f) h₁ h₂)
      have hdigits : ((m / m₂ : ℕ) : ℚ) + (m % m₂ : ℕ) / m₂ = m / m₂ := by
        have hpos : (m₂ : ℚ) ≠ 0 := by exact_mod_cast h₂.ne'
        rw [eq_div_iff hpos, add_mul, div_mul_cancel₀ _ hpos, mul_comm]
        exact_mod_cast Nat.div_add_mod m m₂
      have hscale : (m : ℚ) / m₂ * 2 ^ t = m₁ * 2 ^ e₁ / (m₂ * 2 ^ e₂) := by
        have hle : t ≤ e₁ - e₂ := min_le_left _ _
        have ht' : e₁ - e₂ - (e₁ - e₂ - t).toNat = t := by
          rw [Int.toNat_of_nonneg (sub_nonneg.mpr hle), sub_sub_cancel]
        have hshift := shiftLeft_mul_zpow m₁ (e₁ - e₂ - t).toNat (e₁ - e₂)
        rw [ht', ← hm] at hshift
        rw [div_mul_eq_mul_div, hshift, zpow_sub₀ (by norm_num)]
        field_simp
      rw [hdigits, hscale, signed_div] at hquotient
      exact hquotient

end Div

section Compare

theorem Canonical.lt_of_exponent_lt (h₁ : Canonical f m₁ e₁) (h₂ : Canonical f m₂ e₂)
    (he : e₁ < e₂) : (m₁ : ℚ) * 2 ^ e₁ < m₂ * 2 ^ e₂ := by
  have hlong := h₂.long.resolve_left (h₁.le.trans_lt he).ne'
  calc (m₁ : ℚ) * 2 ^ e₁ < 2 ^ f.mantissaBits * 2 ^ e₁ :=
        mul_lt_mul_of_pos_right (by exact_mod_cast h₁.lt) (by positivity)
    _ = 2 ^ f.mantissaBitsWithoutImplicit * 2 ^ (e₁ + 1) := by
        rw [mantissaBits_eq, pow_succ, zpow_add_one₀ (by norm_num)]
        ring
    _ ≤ 2 ^ f.mantissaBitsWithoutImplicit * 2 ^ e₂ :=
        mul_le_mul_of_nonneg_left (zpow_le_zpow_right₀ (by norm_num) he) (by positivity)
    _ ≤ m₂ * 2 ^ e₂ := mul_le_mul_of_nonneg_right (by exact_mod_cast hlong) (by positivity)

/-- In the form of the format numbers are compared digit by digit. -/
theorem Canonical.compare_eq (h₁ : Canonical f m₁ e₁) (h₂ : Canonical f m₂ e₂) :
    (compare e₁ e₂).then (compare m₁ m₂) = compare ((m₁ : ℚ) * 2 ^ e₁) (m₂ * 2 ^ e₂) := by
  rcases lt_trichotomy e₁ e₂ with he | rfl | he
  · rw [compare_lt_iff_lt.mpr he, compare_lt_iff_lt.mpr (h₁.lt_of_exponent_lt h₂ he)]
    rfl
  · have hunit : (0 : ℚ) < 2 ^ e₁ := by positivity
    rw [compare_eq_iff_eq.mpr rfl, Ordering.eq_then]
    rcases lt_trichotomy m₁ m₂ with hm | rfl | hm
    · have hlt : (m₁ : ℚ) * 2 ^ e₁ < m₂ * 2 ^ e₁ :=
        mul_lt_mul_of_pos_right (by exact_mod_cast hm) hunit
      rw [compare_lt_iff_lt.mpr hm, compare_lt_iff_lt.mpr hlt]
    · rw [compare_eq_iff_eq.mpr rfl, compare_eq_iff_eq.mpr rfl]
    · have hlt : (m₂ : ℚ) * 2 ^ e₁ < m₁ * 2 ^ e₁ :=
        mul_lt_mul_of_pos_right (by exact_mod_cast hm) hunit
      rw [compare_gt_iff_gt.mpr hm, compare_gt_iff_gt.mpr hlt]
  · rw [compare_gt_iff_gt.mpr he, compare_gt_iff_gt.mpr (h₂.lt_of_exponent_lt h₁ he)]
    rfl

theorem compare_signed (s : Sign) (x y : ℚ) :
    compare (signed s x) (signed s y) =
      match s with
      | .negative => (compare x y).swap
      | .positive => compare x y := by
  cases s with
  | positive => rfl
  | negative =>
    rcases lt_trichotomy x y with h | rfl | h
    · rw [compare_lt_iff_lt.mpr h]
      exact compare_gt_iff_gt.mpr (neg_lt_neg h)
    · rw [compare_eq_iff_eq.mpr rfl, compare_eq_iff_eq.mpr rfl]
      rfl
    · rw [compare_gt_iff_gt.mpr h]
      exact compare_lt_iff_lt.mpr (neg_lt_neg h)

theorem compare_eq (hu : IsCanonical f u) (hv : IsCanonical f v) (hu' : u.isFinite)
    (hv' : v.isFinite) : UnpackedFloat.compare u v = some (compare (value u) (value v)) := by
  have hpos : ∀ {m : ℕ} {e : ℤ}, 0 < m → (0 : ℚ) < m * 2 ^ e := fun hm =>
    mul_pos (by exact_mod_cast hm) (by positivity)
  rcases exists_of_isFinite hu' with ⟨s₁, rfl⟩ | ⟨s₁, m₁, e₁, h₁, rfl⟩
  · rcases exists_of_isFinite hv' with ⟨s₂, rfl⟩ | ⟨s₂, m₂, e₂, h₂, rfl⟩
    · exact congrArg some (compare_eq_iff_eq.mpr rfl).symm
    · cases s₂ with
      | negative => exact congrArg some (compare_gt_iff_gt.mpr (neg_neg_of_pos (hpos h₂))).symm
      | positive => exact congrArg some (compare_lt_iff_lt.mpr (hpos h₂)).symm
  · rcases exists_of_isFinite hv' with ⟨s₂, rfl⟩ | ⟨s₂, m₂, e₂, h₂, rfl⟩
    · cases s₁ with
      | negative => exact congrArg some (compare_lt_iff_lt.mpr (neg_neg_of_pos (hpos h₁))).symm
      | positive => exact congrArg some (compare_gt_iff_gt.mpr (hpos h₁)).symm
    · have hmagnitude := Canonical.compare_eq hu hv
      cases s₁ with
      | negative =>
        cases s₂ with
        | negative =>
          rw [value, value, compare_signed, ← hmagnitude]
          rfl
        | positive =>
          have hlt := (neg_neg_of_pos (hpos (e := e₁) h₁)).trans (hpos (e := e₂) h₂)
          exact congrArg some (compare_lt_iff_lt.mpr hlt).symm
      | positive =>
        cases s₂ with
        | negative =>
          have hlt := (neg_neg_of_pos (hpos (e := e₂) h₂)).trans (hpos (e := e₁) h₁)
          exact congrArg some (compare_gt_iff_gt.mpr hlt).symm
        | positive =>
          rw [value, value, compare_signed, ← hmagnitude]
          rfl

theorem lt_iff (hu : IsCanonical f u) (hv : IsCanonical f v) (hu' : u.isFinite)
    (hv' : v.isFinite) : UnpackedFloat.lt u v ↔ value u < value v := by
  rw [UnpackedFloat.lt, compare_eq hu hv hu' hv', ← compare_lt_iff_lt]
  simp

theorem le_iff (hu : IsCanonical f u) (hv : IsCanonical f v) (hu' : u.isFinite)
    (hv' : v.isFinite) : UnpackedFloat.le u v ↔ value u ≤ value v := by
  rw [UnpackedFloat.le, compare_eq hu hv hu' hv', ← compare_le_iff_le]
  exact Ordering.isLE_iff_ne_gt

end Compare

end LSystem.Binary
