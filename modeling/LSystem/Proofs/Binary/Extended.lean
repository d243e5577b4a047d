import LSystem.Proofs.Binary.Machine

/-! # The order of machine numbers

All that is stored, unless it is the result of an undefined operation, compares as the extended
rational that it stands for. The two zeros stand for one number, so the order is total but not
antisymmetric.
-/

namespace LSystem.Binary

open Float.Model (Format UnpackedFloat)
open Float.Model.UnpackedFloat

section Compare

variable {f : Format} {u v : UnpackedFloat}

/-- The number that is stored or the infinity, zero for what is not a number. -/
def extended : UnpackedFloat → WithBot (WithTop ℚ)
  | .infinity .negative => ⊥
  | .infinity .positive => (⊤ : WithTop ℚ)
  | u => (value u : WithTop ℚ)

theorem extended_of_isFinite (hu : u.isFinite) : extended u = (value u : WithTop ℚ) := by
  rcases exists_of_isFinite hu with ⟨s, rfl⟩ | ⟨s, m, e, hm, rfl⟩ <;> rfl

theorem compare_coe (q r : ℚ) :
    compare ((q : WithTop ℚ) : WithBot (WithTop ℚ)) (r : WithTop ℚ) = compare q r := by
  rcases lt_trichotomy q r with h | rfl | h
  · rw [compare_lt_iff_lt.mpr h, compare_lt_iff_lt.mpr (by exact_mod_cast h)]
  · rw [compare_eq_iff_eq.mpr rfl, compare_eq_iff_eq.mpr rfl]
  · rw [compare_gt_iff_gt.mpr h, compare_gt_iff_gt.mpr (by exact_mod_cast h)]

theorem infinity_or_isFinite (hu : u.isNaN = false) : (∃ s, u = .infinity s) ∨ u.isFinite := by
  cases u with
  | notANumber => cases hu
  | infinity s => exact .inl ⟨s, rfl⟩
  | zero | finite => exact .inr rfl

theorem bot_lt_extended (hu : u.isFinite) : ⊥ < extended u := by
  rw [extended_of_isFinite hu]
  exact WithBot.bot_lt_coe _

theorem extended_lt_top (hu : u.isFinite) : extended u < (⊤ : WithTop ℚ) := by
  rw [extended_of_isFinite hu]
  exact WithBot.coe_lt_coe.mpr (WithTop.coe_lt_top _)

theorem infinity_compare (s : Sign) (hv : v.isFinite) :
    UnpackedFloat.compare (.infinity s) v =
      some (compare (extended (.infinity s)) (extended v)) := by
  cases s with
  | negative =>
    rw [extended, compare_lt_iff_lt.mpr (bot_lt_extended hv)]
    rcases exists_of_isFinite hv with ⟨s, rfl⟩ | ⟨s, m, e, hm, rfl⟩ <;> rfl
  | positive =>
    rw [extended, compare_gt_iff_gt.mpr (extended_lt_top hv)]
    rcases exists_of_isFinite hv with ⟨s, rfl⟩ | ⟨s, m, e, hm, rfl⟩ <;> rfl

theorem compare_infinity (s : Sign) (hu : u.isFinite) :
    UnpackedFloat.compare u (.infinity s) =
      some (compare (extended u) (extended (.infinity s))) := by
  cases s with
  | negative =>
    rw [extended.eq_1, compare_gt_iff_gt.mpr (bot_lt_extended hu)]
    rcases exists_of_isFinite hu with ⟨s, rfl⟩ | ⟨_ | _, m, e, hm, rfl⟩ <;> rfl
  | positive =>
    rw [extended.eq_2, compare_lt_iff_lt.mpr (extended_lt_top hu)]
    rcases exists_of_isFinite hu with ⟨s, rfl⟩ | ⟨_ | _, m, e, hm, rfl⟩ <;> rfl

theorem compare_extended (hu : IsCanonical f u) (hv : IsCanonical f v) (hu' : u.isNaN = false)
    (hv' : v.isNaN = false) :
    UnpackedFloat.compare u v = some (compare (extended u) (extended v)) := by
  rcases infinity_or_isFinite hu' with ⟨s, rfl⟩ | hu'
  · rcases infinity_or_isFinite hv' with ⟨s', rfl⟩ | hv'
    · cases s <;> cases s' <;> rfl
    · exact infinity_compare s hv'
  · rcases infinity_or_isFinite hv' with ⟨s', rfl⟩ | hv'
    · exact compare_infinity s' hu'
    · rw [extended_of_isFinite hu', extended_of_isFinite hv', compare_coe,
        compare_eq hu hv hu' hv']

end Compare

namespace MachineNumber

variable {F : Type} [Add F] [Sub F] [Mul F] [Div F] [Neg F] [LT F] [LE F] [MachineNumber F]
  {x y z : F}

/-- The infinities are among the numbers. -/
def IsNumber (x : F) : Prop := (digits x).isNaN = false

def extended (x : F) : WithBot (WithTop ℚ) := Binary.extended (digits x)

theorem compare_digits (hx : IsNumber x) (hy : IsNumber y) :
    UnpackedFloat.compare (digits x) (digits y) = some (compare (extended x) (extended y)) :=
  compare_extended (digits_spec x).1 (digits_spec y).1 hx hy

theorem lt_iff_extended (hx : IsNumber x) (hy : IsNumber y) : x < y ↔ extended x < extended y := by
  rw [lt_iff_digits, UnpackedFloat.lt, compare_digits hx hy, ← compare_lt_iff_lt]
  simp

theorem le_iff_extended (hx : IsNumber x) (hy : IsNumber y) : x ≤ y ↔ extended x ≤ extended y := by
  rw [le_iff_digits, UnpackedFloat.le, compare_digits hx hy, ← compare_le_iff_le]
  exact Ordering.isLE_iff_ne_gt

namespace IsNumber

theorem le_of_not_lt (hx : IsNumber x) (hy : IsNumber y) (h : ¬ x < y) : y ≤ x := by
  rw [lt_iff_extended hx hy, not_lt] at h
  exact (le_iff_extended hy hx).mpr h

theorem le_of_lt (hx : IsNumber x) (hy : IsNumber y) (h : x < y) : x ≤ y :=
  (le_iff_extended hx hy).mpr ((lt_iff_extended hx hy).mp h).le

theorem le_self (hx : IsNumber x) : x ≤ x := (le_iff_extended hx hx).mpr le_rfl

theorem le_trans (hx : IsNumber x) (hy : IsNumber y) (hz : IsNumber z) (hxy : x ≤ y)
    (hyz : y ≤ z) : x ≤ z := by
  rw [le_iff_extended hx hy] at hxy
  rw [le_iff_extended hy hz] at hyz
  exact (le_iff_extended hx hz).mpr (hxy.trans hyz)

theorem extended_eq (hx : IsNumber x) (hy : IsNumber y) (hxy : x ≤ y) (hyx : y ≤ x) :
    extended x = extended y :=
  le_antisymm ((le_iff_extended hx hy).mp hxy) ((le_iff_extended hy hx).mp hyx)

theorem isLeast_singleton (hx : IsNumber x) : IsLeast {x} x := by
  refine ⟨rfl, ?_⟩
  rintro z rfl
  exact hx.le_self

theorem isGreatest_singleton (hx : IsNumber x) : IsGreatest {x} x := by
  refine ⟨rfl, ?_⟩
  rintro z rfl
  exact hx.le_self

end IsNumber

variable {S T : Set F}

theorem isLeast_union (hS : ∀ z ∈ S, IsNumber z) (hT : ∀ z ∈ T, IsNumber z) (hx : IsLeast S x)
    (hy : IsLeast T y) (h : x ≤ y) : IsLeast (S ∪ T) x := by
  refine ⟨.inl hx.1, ?_⟩
  rintro z (hz | hz)
  · exact hx.2 hz
  · exact (hS x hx.1).le_trans (hT y hy.1) (hT z hz) h (hy.2 hz)

theorem isGreatest_union (hS : ∀ z ∈ S, IsNumber z) (hT : ∀ z ∈ T, IsNumber z)
    (hx : IsGreatest S x) (hy : IsGreatest T y) (h : y ≤ x) : IsGreatest (S ∪ T) x := by
  refine ⟨.inl hx.1, ?_⟩
  rintro z (hz | hz)
  · exact hx.2 hz
  · exact (hT z hz).le_trans (hT y hy.1) (hS x hx.1) (hy.2 hz) h

end MachineNumber

end LSystem.Binary
