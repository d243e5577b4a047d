import LSystem.Proofs.Binary.Machine
import LSystem.Random.Lottery

/-! # Sums of weights

A running sum of weights that are not negative never decreases, rounded as it is. As long as it stays
finite it is therefore at least as great as each weight, and zero only when all weights are.
-/

namespace LSystem.Lottery

open Binary.MachineNumber

variable {x w : Float} {ws : List Float}

theorem isFinite_zero : IsFinite (0 : Float) := rfl

theorem value_zero : value (0 : Float) = 0 := rfl

theorem isFinite_one : IsFinite (1 : Float) := rfl

theorem value_one : value (1 : Float) = 1 := by
  have hdigits : digits (1 : Float) = .finite .positive (2 ^ 52) (-52) (by decide) := rfl
  rw [value, hdigits]
  norm_num [Binary.value, Binary.signed]

theorem isFinite_of_isFinite_foldl (h : IsFinite (ws.foldl (· + ·) x)) :
    IsFinite x ∧ ∀ w ∈ ws, IsFinite w := by
  induction ws generalizing x with
  | nil => exact ⟨h, nofun⟩
  | cons w ws ih =>
    obtain ⟨hsum, hws⟩ := ih h
    obtain ⟨hx, hw⟩ := isFinite_of_isFinite_add hsum
    exact ⟨hx, List.forall_mem_cons.mpr ⟨hw, hws⟩⟩

theorem le_value_foldl (hx : 0 ≤ value x) (hws : ∀ w ∈ ws, 0 ≤ value w)
    (h : IsFinite (ws.foldl (· + ·) x)) :
    value x ≤ value (ws.foldl (· + ·) x) ∧ ∀ w ∈ ws, value w ≤ value (ws.foldl (· + ·) x) := by
  induction ws generalizing x with
  | nil => exact ⟨le_rfl, nofun⟩
  | cons w ws ih =>
    obtain ⟨hw, hws⟩ := List.forall_mem_cons.mp hws
    rw [List.foldl_cons] at h ⊢
    have hsum := (isFinite_of_isFinite_foldl h).1
    have hle := le_value_add_right hw hsum
    obtain ⟨hstart, hrest⟩ := ih (hx.trans hle) hws h
    exact ⟨hle.trans hstart,
      List.forall_mem_cons.mpr ⟨(le_value_add_left hx hsum).trans hstart, hrest⟩⟩

theorem foldl_of_zero (hx : IsFinite x ∧ value x = 0) (hws : ∀ w ∈ ws, IsFinite w ∧ value w = 0) :
    IsFinite (ws.foldl (· + ·) x) ∧ value (ws.foldl (· + ·) x) = 0 := by
  induction ws generalizing x with
  | nil => exact hx
  | cons w ws ih =>
    obtain ⟨hw, hws⟩ := List.forall_mem_cons.mp hws
    have hsum := yields_add hx.1 hw.1
    rw [hx.2, hw.2, add_zero] at hsum
    exact ih (hsum.exact (.zero _) (by simp)) hws

/-- A finite sum of weights is positive when one of them is, and not otherwise. -/
theorem sum_pos_iff (hws : ∀ w ∈ ws, ¬ w < 0) (h : (sum ws).isFinite) :
    ¬ sum ws ≤ 0 ↔ ∃ w ∈ ws, 0 < w := by
  obtain ⟨hzero, hfinite⟩ := isFinite_of_isFinite_foldl h
  have hpos : ∀ w ∈ ws, 0 ≤ value w := by
    intro w hw
    have hlt := hws w hw
    rwa [lt_iff (hfinite w hw) isFinite_zero, not_lt] at hlt
  have hsum : IsFinite (sum ws) := h
  have hle : ∀ w ∈ ws, value w ≤ value (sum ws) := (le_value_foldl value_zero.ge hpos hsum).2
  rw [le_iff hsum isFinite_zero, not_le, value_zero]
  constructor
  · intro hlt
    by_contra hnone
    refine hlt.ne' (foldl_of_zero ⟨isFinite_zero, value_zero⟩ fun w hw => ⟨hfinite w hw, ?_⟩).2
    refine le_antisymm (not_lt.mp fun hw' => hnone ⟨w, hw, ?_⟩) (hpos w hw)
    exact (lt_iff isFinite_zero (hfinite w hw)).mpr hw'
  · rintro ⟨w, hw, hlt⟩
    exact ((lt_iff isFinite_zero (hfinite w hw)).mp hlt).trans_le (hle w hw)

section Fair

/-- A weight that an alternative may have. -/
def Fair (w : Float) : Prop := w.isFinite ∧ ¬ w < 0

theorem Fair.isFinite (h : Fair w) : IsFinite w := h.1

theorem Fair.nonneg (h : Fair w) : 0 ≤ value w := by
  have hlt := h.2
  rwa [lt_iff h.isFinite isFinite_zero, not_lt] at hlt

theorem Fair.pos_iff (h : Fair w) : 0 < w ↔ 0 < value w := lt_iff isFinite_zero h.isFinite

/-- What weights add up to: a number that is not negative, or more than any number. -/
def Mass (x : Float) : Prop := IsFinite x ∧ 0 ≤ value x ∨ digits x = .infinity .positive

theorem Mass.add (hx : Mass x) (hw : Fair w) : Mass (x + w) := by
  rcases hx with ⟨hx, hpos⟩ | hx
  · have hsum := yields_add hx hw.isFinite
    have hexact := add_nonneg hpos hw.nonneg
    rcases hsum.finite_or_infinity with hfinite | ⟨-, hinfinity⟩ | ⟨⟨r, hr, hneg⟩, -⟩
    · exact .inl ⟨hfinite, (hsum.rounds hfinite).nonneg hexact⟩
    · exact .inr hinfinity
    · have hlt : -(2 : ℚ) ^ ((Binary.MachineNumber.format Float).exponentBias + 1) < 0 :=
        neg_lt_zero.mpr (by positivity)
      exact absurd (hr.nonneg hexact) (not_le.mpr (hneg.trans_lt hlt))
  · exact .inr (digits_add_of_posInfinity hx hw.isFinite)

theorem Mass.foldl (hx : Mass x) (hws : ∀ w ∈ ws, Fair w) : Mass (ws.foldl (· + ·) x) := by
  induction ws generalizing x with
  | nil => exact hx
  | cons w ws ih =>
    obtain ⟨hw, hws⟩ := List.forall_mem_cons.mp hws
    exact ih (hx.add hw) hws

theorem mass_sum (hws : ∀ w ∈ ws, Fair w) : Mass (sum ws) :=
  Mass.foldl (.inl ⟨isFinite_zero, value_zero.ge⟩) hws

/-- Whether its sum is zero tells whether a list of weights has a positive one, even if the sum
overflows. -/
theorem sum_le_zero_iff (hws : ∀ w ∈ ws, Fair w) : sum ws ≤ 0 ↔ ∀ w ∈ ws, ¬ 0 < w := by
  have hneg : ∀ w ∈ ws, ¬ w < 0 := fun w hw => (hws w hw).2
  constructor
  · intro hzero
    rcases mass_sum hws with ⟨hfinite, -⟩ | hinfinity
    · simpa using mt (sum_pos_iff hneg hfinite).mpr (not_not.mpr hzero)
    · exact absurd hzero (not_le_of_posInfinity_left hinfinity isFinite_zero)
  · intro hnone
    have hvalue : ∀ w ∈ ws, IsFinite w ∧ value w = 0 := fun w hw =>
      ⟨(hws w hw).isFinite, le_antisymm (not_lt.mp (mt (hws w hw).pos_iff.mpr (hnone w hw)))
        (hws w hw).nonneg⟩
    have hfinite := (foldl_of_zero ⟨isFinite_zero, value_zero⟩ hvalue).1
    by_contra hlt
    obtain ⟨w, hw, hpos⟩ := (sum_pos_iff hneg hfinite).mp hlt
    exact hnone w hw hpos

end Fair

end LSystem.Lottery
