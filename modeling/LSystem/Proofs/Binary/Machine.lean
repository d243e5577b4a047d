import LSystem.Proofs.Binary.Arithmetic

/-! # Machine numbers

What an operation on machine numbers gives: the number on the grid nearest to the exact result, or
an infinity when the nearest one is beyond the range of the format. Single and double precision
differ in the format only.
-/

namespace LSystem.Binary

open Float.Model (Format UnpackedFloat)
open Float.Model.UnpackedFloat

section Stored

variable {f : Format} {u v : UnpackedFloat} {q r g : ℚ}

/-- What is stored of a result. -/
inductive Yields (f : Format) (q : ℚ) : UnpackedFloat → Prop
  | number {u : UnpackedFloat} : Nearest f q u → Yields f q u
  | overflow {s : Sign} {r : ℚ} : Rounds f q r → 2 ^ (f.exponentBias + 1) ≤ signed s r →
      Yields f q (.infinity s)

theorem signed_signed (s : Sign) (q : ℚ) : signed s (signed s q) = q := by
  cases s with
  | negative => exact neg_neg q
  | positive => rfl

theorem signed_le_abs (s : Sign) (q : ℚ) : signed s q ≤ |q| :=
  (le_abs_self _).trans (abs_signed s q).le

theorem abs_value_lt (hu : IsCanonical f u) (hr : InRange f u) :
    |value u| < 2 ^ (f.exponentBias + 1) := by
  cases u with
  | infinity | notANumber | zero =>
    have hzero : |(0 : ℚ)| < 2 ^ (f.exponentBias + 1) := by
      rw [abs_zero]
      positivity
    exact hzero
  | finite s m e hm =>
    have hcanonical : Canonical f m e := hu
    rw [value, abs_signed, abs_of_nonneg (by positivity)]
    calc (m : ℚ) * 2 ^ e < 2 ^ f.mantissaBits * 2 ^ e :=
          mul_lt_mul_of_pos_right (by exact_mod_cast hcanonical.lt) (by positivity)
      _ = 2 ^ (e + f.mantissaBits) := by
          rw [zpow_add₀ (by norm_num), zpow_natCast, mul_comm]
      _ ≤ 2 ^ ((f.exponentBias + 1 : ℕ) : ℤ) :=
          zpow_le_zpow_right₀ (by norm_num) (by exact_mod_cast hr)
      _ = 2 ^ (f.exponentBias + 1) := zpow_natCast _ _

/-- The greatest number in range. -/
def greatest (f : Format) : ℚ :=
  (2 ^ f.mantissaBits - 1) * 2 ^ (f.exponentBias + 1 - f.mantissaBits : ℤ)

theorem greatest_add (f : Format) :
    greatest f + 2 ^ (f.exponentBias + 1 - f.mantissaBits : ℤ) = 2 ^ (f.exponentBias + 1) := by
  rw [greatest, sub_mul, one_mul, sub_add_cancel, ← zpow_natCast, ← zpow_natCast,
    ← zpow_add₀ (by norm_num)]
  congr 1
  push_cast
  ring

theorem abs_value_le_greatest (hu : IsCanonical f u) (hr : InRange f u) :
    |value u| ≤ greatest f := by
  have hone : (1 : ℚ) ≤ 2 ^ f.mantissaBits := one_le_pow₀ (by norm_num)
  cases u with
  | infinity | notANumber | zero =>
    have hzero : |(0 : ℚ)| ≤ greatest f := by
      rw [abs_zero]
      exact mul_nonneg (sub_nonneg.mpr hone) (by positivity)
    exact hzero
  | finite s m e hm =>
    have hcanonical : Canonical f m e := hu
    have hexponent : e + f.mantissaBits ≤ f.exponentBias + 1 := hr
    have hmantissa : (m : ℚ) ≤ 2 ^ f.mantissaBits - 1 := by
      rw [le_sub_iff_add_le]
      exact_mod_cast hcanonical.lt
    rw [value, abs_signed, abs_of_nonneg (by positivity)]
    exact mul_le_mul hmantissa (zpow_le_zpow_right₀ (by norm_num) (by omega)) (by positivity)
      (sub_nonneg.mpr hone)

theorem yields_stored (hf : 0 < f.exponentBias) (h : Nearest f q u) :
    Yields f q (unpack f (pack f u)) := by
  by_cases hr : InRange f u
  · rw [unpack_pack h.isCanonical hr]
    exact .number h
  · obtain ⟨s, m, e, hm, rfl, hinfinity⟩ := unpack_pack_of_not_inRange h.isCanonical hr
    rw [hinfinity]
    refine .overflow h.rounds ?_
    have hcanonical : Canonical f m e := h.isCanonical
    have hlong : 2 ^ f.mantissaBitsWithoutImplicit ≤ m := by
      refine hcanonical.long.resolve_left ?_
      rintro rfl
      rw [InRange, minExponent_eq, mantissaBits_eq] at hr
      push_cast at hr
      omega
    rw [value, signed_signed]
    calc (2 : ℚ) ^ (f.exponentBias + 1) = 2 ^ ((f.exponentBias + 1 : ℕ) : ℤ) :=
          (zpow_natCast _ _).symm
      _ ≤ 2 ^ (f.mantissaBitsWithoutImplicit + e) := by
          refine zpow_le_zpow_right₀ (by norm_num) ?_
          rw [InRange, mantissaBits_eq] at hr
          push_cast at hr ⊢
          omega
      _ = 2 ^ f.mantissaBitsWithoutImplicit * 2 ^ e := by
          rw [zpow_add₀ (by norm_num), zpow_natCast]
      _ ≤ m * 2 ^ e := mul_le_mul_of_nonneg_right (by exact_mod_cast hlong) (by positivity)

namespace Yields

theorem rounds (h : Yields f q u) (hu : u.isFinite) : Rounds f q (value u) := by
  cases h with
  | number h => exact h.rounds
  | overflow _ _ => cases hu

theorem finite_or_infinity (h : Yields f q u) : u.isFinite ∨
    (∃ r, Rounds f q r ∧ 2 ^ (f.exponentBias + 1) ≤ r) ∧ u = .infinity .positive ∨
    (∃ r, Rounds f q r ∧ r ≤ -2 ^ (f.exponentBias + 1)) ∧ u = .infinity .negative := by
  cases h with
  | number h => exact .inl h.isFinite
  | @overflow s r h hr =>
    right
    cases s with
    | positive => exact .inl ⟨⟨r, h, hr⟩, rfl⟩
    | negative => exact .inr ⟨⟨r, h, le_neg_of_le_neg hr⟩, rfl⟩

theorem isFinite (h : Yields f q u) (hg : OnGrid f g) (hlt : g < 2 ^ (f.exponentBias + 1))
    (hq : |q| ≤ g) : u.isFinite := by
  cases h with
  | number h => exact h.isFinite
  | overflow h hr =>
    exact absurd (hr.trans (signed_le_abs _ _))
      (not_le.mpr ((h.abs_le_of_onGrid hg hq).trans_lt hlt))

/-- Less than half a unit of the last digit does not move a number out of range. -/
theorem isFinite_add (h : Yields f (q + r) u) (hq : OnGrid f q) (hle : |q| ≤ greatest f)
    (hr : 2 * |r| < 2 ^ (f.exponentBias + 1 - f.mantissaBits : ℤ)) : u.isFinite := by
  cases h with
  | number h => exact h.isFinite
  | @overflow s t h ht =>
    have hnear := h.nearest q hq
    rw [sub_add_cancel_left, abs_neg] at hnear
    have htriangle : |t| ≤ |t - (q + r)| + |q + r| := by
      simpa using abs_add_le (t - (q + r)) (q + r)
    have hsum := abs_add_le q r
    have hlarge := ht.trans (signed_le_abs s t)
    rw [← greatest_add] at hlarge
    linarith

theorem exact (h : Yields f q u) (hq : OnGrid f q) (hlt : |q| < 2 ^ (f.exponentBias + 1)) :
    u.isFinite ∧ value u = q := by
  have hgrid : OnGrid f |q| := by
    rcases abs_choice q with h | h <;> rw [h]
    · exact hq
    · exact hq.neg
  have hfinite := h.isFinite hgrid hlt le_rfl
  exact ⟨hfinite, (h.rounds hfinite).eq hq⟩

/-- Up to a power of two in range the error is half a unit of the last digit at most. -/
theorem near {k : ℤ} (h : Yields f q u) (hlow : f.minExponent + f.mantissaBits ≤ k)
    (hhigh : k ≤ f.exponentBias) (hq : |q| ≤ 2 ^ k) :
    u.isFinite ∧ |value u - q| ≤ 2 ^ (k - f.mantissaBits - 1) ∧ |value u| ≤ 2 ^ k := by
  have hgrid : OnGrid f (2 ^ k) := .two_zpow (by omega)
  have hlt : (2 : ℚ) ^ k < 2 ^ (f.exponentBias + 1) := by
    rw [← zpow_natCast]
    exact zpow_lt_zpow_right₀ (by norm_num) (by push_cast; omega)
  have hfinite := h.isFinite hgrid hlt hq
  exact ⟨hfinite, (h.rounds hfinite).abs_sub_le hlow hq,
    (h.rounds hfinite).abs_le_of_onGrid hgrid hq⟩

end Yields

theorem isFinite_of_isFinite_stored (h : (unpack f (pack f u)).isFinite) : u.isFinite := by
  cases u with
  | infinity s =>
    rw [pack, unpack_packedInfinity] at h
    cases h
  | notANumber =>
    rw [pack, unpack_packedNaN] at h
    cases h
  | zero | finite => rfl

theorem isFinite_of_isFinite_add (h : (add f u v).isFinite) : u.isFinite ∧ v.isFinite := by
  cases u with
  | infinity s =>
    cases v with
    | infinity t =>
      rw [add] at h
      split_ifs at h <;> cases h
    | notANumber | zero | finite => cases h
  | notANumber => cases h
  | zero | finite =>
    cases v with
    | infinity | notANumber => cases h
    | zero | finite => exact ⟨rfl, rfl⟩

end Stored

/-- A type of numbers that are stored in a format and computed with digit by digit. -/
class MachineNumber (F : Type) [Add F] [Sub F] [Mul F] [Div F] [Neg F] [LT F] [LE F] where
  format : Format
  bias_pos : 0 < format.exponentBias
  digits : F → UnpackedFloat
  digits_spec (x : F) : IsCanonical format (digits x) ∧ InRange format (digits x)
  digits_add (x y : F) : digits (x + y) =
    unpack format (pack format (add format (digits x) (digits y)))
  digits_sub (x y : F) : digits (x - y) =
    unpack format (pack format (sub format (digits x) (digits y)))
  digits_mul (x y : F) : digits (x * y) =
    unpack format (pack format (mul format (digits x) (digits y)))
  digits_div (x y : F) : digits (x / y) =
    unpack format (pack format (div format (digits x) (digits y)))
  digits_neg (x : F) : digits (-x) = unpack format (pack format (digits x).neg)
  lt_iff_digits (x y : F) : x < y ↔ UnpackedFloat.lt (digits x) (digits y)
  le_iff_digits (x y : F) : x ≤ y ↔ UnpackedFloat.le (digits x) (digits y)

namespace MachineNumber

variable {F : Type} [Add F] [Sub F] [Mul F] [Div F] [Neg F] [LT F] [LE F] [MachineNumber F]
  {x y : F}

/-- The exact number that is stored, zero for what is not a number. -/
def value (x : F) : ℚ := Binary.value (digits x)

def IsFinite (x : F) : Prop := (digits x).isFinite

theorem unpack_pack_digits (x : F) : unpack (format F) (pack (format F) (digits x)) = digits x :=
  unpack_pack (digits_spec x).1 (digits_spec x).2

theorem onGrid_value (x : F) : OnGrid (format F) (value x) :=
  Binary.onGrid_value (digits_spec x).1

theorem digits_of_isFinite (hx : IsFinite x) :
    (∃ s, digits x = .zero s ∧ value x = 0) ∨
      ∃ s m e hm, digits x = .finite s m e hm ∧ Canonical (format F) m e ∧
        value x = signed s (m * 2 ^ e) := by
  rcases exists_of_isFinite hx with ⟨s, h⟩ | ⟨s, m, e, hm, h⟩
  · left
    refine ⟨s, h, ?_⟩
    rw [value, h]
    rfl
  · right
    have hcanonical := (digits_spec x).1
    rw [h] at hcanonical
    refine ⟨s, m, e, hm, h, hcanonical, ?_⟩
    rw [value, h]
    rfl

theorem digits_of_pos (hx : IsFinite x) (hpos : 0 < value x) :
    ∃ m e hm, digits x = .finite .positive m e hm ∧ Canonical (format F) m e ∧
      value x = m * 2 ^ e := by
  rcases digits_of_isFinite hx with ⟨s, -, hvalue⟩ | ⟨s, m, e, hm, hdigits, hcanonical, hvalue⟩
  · exact absurd hvalue hpos.ne'
  · cases s with
    | positive => exact ⟨m, e, hm, hdigits, hcanonical, hvalue⟩
    | negative =>
      rw [hvalue] at hpos
      exact absurd hpos (not_lt.mpr (neg_nonpos.mpr (by positivity)))

theorem abs_value_lt (x : F) : |value x| < 2 ^ ((format F).exponentBias + 1) :=
  Binary.abs_value_lt (digits_spec x).1 (digits_spec x).2

theorem abs_value_le (x : F) : |value x| ≤ greatest (format F) :=
  abs_value_le_greatest (digits_spec x).1 (digits_spec x).2

theorem yields_add (hx : IsFinite x) (hy : IsFinite y) :
    Yields (format F) (value x + value y) (digits (x + y)) := by
  rw [digits_add]
  exact yields_stored bias_pos (nearest_add (digits_spec x).1 (digits_spec y).1 hx hy)

theorem yields_sub (hx : IsFinite x) (hy : IsFinite y) :
    Yields (format F) (value x - value y) (digits (x - y)) := by
  rw [digits_sub]
  exact yields_stored bias_pos (nearest_sub (digits_spec x).1 (digits_spec y).1 hx hy)

theorem yields_mul (hx : IsFinite x) (hy : IsFinite y) :
    Yields (format F) (value x * value y) (digits (x * y)) := by
  rw [digits_mul]
  exact yields_stored bias_pos (nearest_mul (digits_spec x).1 (digits_spec y).1 hx hy)

theorem yields_div (hx : IsFinite x) (hy : IsFinite y) (hne : value y ≠ 0) :
    Yields (format F) (value x / value y) (digits (x / y)) := by
  rw [digits_div]
  exact yields_stored bias_pos (nearest_div (digits_spec x).1 (digits_spec y).1 hx hy hne)

theorem digits_neg_eq (x : F) : digits (-x) = (digits x).neg := by
  obtain ⟨hcanonical, hrange⟩ := digits_spec x
  rw [digits_neg, unpack_pack (isCanonical_neg hcanonical) (inRange_neg hrange)]

theorem value_neg (x : F) : value (-x) = -value x := by
  rw [value, digits_neg_eq, Binary.value_neg, value]

theorem isFinite_neg (hx : IsFinite x) : IsFinite (-x) := by
  rw [IsFinite, digits_neg_eq, Binary.isFinite_neg]
  exact hx

theorem isFinite_of_isFinite_add (h : IsFinite (x + y)) : IsFinite x ∧ IsFinite y := by
  rw [IsFinite, digits_add] at h
  exact Binary.isFinite_of_isFinite_add (isFinite_of_isFinite_stored h)

theorem rounds_add (h : IsFinite (x + y)) :
    Rounds (format F) (value x + value y) (value (x + y)) :=
  let ⟨hx, hy⟩ := isFinite_of_isFinite_add h
  (yields_add hx hy).rounds h

theorem le_value_add_right (hy : 0 ≤ value y) (h : IsFinite (x + y)) : value x ≤ value (x + y) :=
  (rounds_add h).ge (onGrid_value x) (le_add_of_nonneg_right hy)

theorem le_value_add_left (hx : 0 ≤ value x) (h : IsFinite (x + y)) : value y ≤ value (x + y) :=
  (rounds_add h).ge (onGrid_value y) (le_add_of_nonneg_left hx)

theorem lt_iff (hx : IsFinite x) (hy : IsFinite y) : x < y ↔ value x < value y := by
  rw [lt_iff_digits]
  exact Binary.lt_iff (digits_spec x).1 (digits_spec y).1 hx hy

theorem le_iff (hx : IsFinite x) (hy : IsFinite y) : x ≤ y ↔ value x ≤ value y := by
  rw [le_iff_digits]
  exact Binary.le_iff (digits_spec x).1 (digits_spec y).1 hx hy

theorem lt_of_posInfinity_right (hx : IsFinite x) (hy : digits y = .infinity .positive) :
    x < y := by
  rw [lt_iff_digits, hy]
  rcases exists_of_isFinite hx with ⟨s, h⟩ | ⟨s, m, e, hm, h⟩ <;> rw [h] <;> rfl

theorem not_lt_of_negInfinity_right (hy : digits y = .infinity .negative) : ¬ x < y := by
  rw [lt_iff_digits, hy]
  rcases digits x with (_ | _) | _ | _ | ⟨_ | _, m, e, hm⟩ <;> exact Bool.false_ne_true

theorem lt_of_negInfinity_left (hx : digits x = .infinity .negative) (hy : IsFinite y) :
    x < y := by
  rw [lt_iff_digits, hx]
  rcases exists_of_isFinite hy with ⟨s, h⟩ | ⟨s, m, e, hm, h⟩ <;> rw [h] <;> rfl

theorem not_lt_of_posInfinity_left (hx : digits x = .infinity .positive) : ¬ x < y := by
  rw [lt_iff_digits, hx]
  rcases digits y with (_ | _) | _ | _ | ⟨_ | _, m, e, hm⟩ <;> exact Bool.false_ne_true

theorem not_le_of_posInfinity_left (hx : digits x = .infinity .positive) (hy : IsFinite y) :
    ¬ x ≤ y := by
  rw [le_iff_digits, hx]
  rcases exists_of_isFinite hy with ⟨s, h⟩ | ⟨s, m, e, hm, h⟩ <;> rw [h] <;>
    exact Bool.false_ne_true

theorem not_lt_of_le {q : ℚ} (h : Yields (format F) q (digits x)) (hy : IsFinite y)
    (hq : q ≤ value y) : ¬ y < x := by
  rcases h.finite_or_infinity with hx | ⟨⟨r, hr, hlarge⟩, -⟩ | ⟨-, hinfinity⟩
  · rw [lt_iff hy hx]
    exact ((h.rounds hx).le (onGrid_value y) hq).not_gt
  · have hle := hlarge.trans (hr.le (onGrid_value y) hq)
    exact absurd (abs_value_lt y) (hle.trans (le_abs_self _)).not_gt
  · exact not_lt_of_negInfinity_right hinfinity

theorem not_lt_of_ge {q : ℚ} (h : Yields (format F) q (digits x)) (hy : IsFinite y)
    (hq : value y ≤ q) : ¬ x < y := by
  rcases h.finite_or_infinity with hx | ⟨-, hinfinity⟩ | ⟨⟨r, hr, hlarge⟩, -⟩
  · rw [lt_iff hx hy]
    exact ((h.rounds hx).ge (onGrid_value y) hq).not_gt
  · exact not_lt_of_posInfinity_left hinfinity
  · have hle := (hr.ge (onGrid_value y) hq).trans hlarge
    exact absurd (abs_value_lt y) ((le_neg_of_le_neg hle).trans (neg_le_abs _)).not_gt

theorem digits_add_of_posInfinity (hx : digits x = .infinity .positive) (hy : IsFinite y) :
    digits (x + y) = .infinity .positive := by
  have hsum : add (format F) (digits x) (digits y) = .infinity .positive := by
    rw [hx]
    rcases exists_of_isFinite hy with ⟨s, h⟩ | ⟨s, m, e, hm, h⟩ <;> rw [h] <;> rfl
  rw [digits_add, hsum]
  exact unpack_packedInfinity .positive

end MachineNumber

instance : MachineNumber Float32 where
  format := .binary32
  bias_pos := by decide
  digits x := x.toModel.unpack
  digits_spec x := unpack_spec (by decide) _
  digits_add _ _ := rfl
  digits_sub _ _ := rfl
  digits_mul _ _ := rfl
  digits_div _ _ := rfl
  digits_neg _ := rfl
  lt_iff_digits _ _ := decide_eq_true_iff
  le_iff_digits _ _ := decide_eq_true_iff

instance : MachineNumber Float where
  format := .binary64
  bias_pos := by decide
  digits x := x.toModel.unpack
  digits_spec x := unpack_spec (by decide) _
  digits_add _ _ := rfl
  digits_sub _ _ := rfl
  digits_mul _ _ := rfl
  digits_div _ _ := rfl
  digits_neg _ := rfl
  lt_iff_digits _ _ := decide_eq_true_iff
  le_iff_digits _ _ := decide_eq_true_iff

theorem MachineNumber.digits_ofBits (b : UInt64) :
    digits (Float.ofBits b) = unpack .binary64 b.toBitVec :=
  let ⟨hcanonical, hrange⟩ := unpack_spec (f := .binary64) (by decide) b.toBitVec
  unpack_pack hcanonical hrange

end LSystem.Binary
