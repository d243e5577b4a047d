import LSystem.Proofs.Random.Weights
import LSystem.Rule

/-! # Which alternatives make a rule

Alternatives are refused for the first thing that is wrong with them: there are none, a weight is
not one, or nothing has any weight. Those that pass make a rule, unless their sum is beyond the
numbers; the rule has them in their order, each with its share of the sum.
-/

namespace LSystem

theorem forall_or_exists_first {α : Type} (P : α → Prop) (xs : List α) :
    (∀ x ∈ xs, P x) ∨ ∃ pre x post, xs = pre ++ x :: post ∧ (∀ p ∈ pre, P p) ∧ ¬ P x := by
  induction xs with
  | nil => exact .inl nofun
  | cons x xs ih =>
    by_cases hx : P x
    · rcases ih with h | ⟨pre, y, post, rfl, hpre, hy⟩
      · exact .inl (List.forall_mem_cons.mpr ⟨hx, h⟩)
      · exact .inr ⟨x :: pre, y, post, rfl, List.forall_mem_cons.mpr ⟨hx, hpre⟩, hy⟩
    · exact .inr ⟨[], x, xs, rfl, nofun, hx⟩

namespace Rule

open Lottery
open Binary.MachineNumber

variable {p : Letter} {as : List (Word × Float)} {a : Word × Float} {fault : RuleFault} {r : Rule}

/-- Alternatives among which there is something to choose. -/
structure Admissible (as : List (Word × Float)) : Prop where
  nonempty : as ≠ []
  fair : ∀ a ∈ as, Fair a.2
  pos : ∃ a ∈ as, 0 < a.2

/-- The first thing that is wrong with alternatives. -/
inductive Refused : List (Word × Float) → RuleFault → Prop
  | noSuccessors : Refused [] .noSuccessors
  | badWeight {pre post : List (Word × Float)} {a : Word × Float} :
      (∀ b ∈ pre, Fair b.2) → ¬ Fair a.2 → Refused (pre ++ a :: post) (.badWeight a.2)
  | zeroWeights {as : List (Word × Float)} :
      as ≠ [] → (∀ a ∈ as, Fair a.2) → (∀ a ∈ as, ¬ 0 < a.2) → Refused as .zeroWeights

/-- Whatever is not admissible breaks one of the rules for weights, and one of them first. -/
theorem exists_refused (h : ¬ Admissible as) : ∃ fault, Refused as fault := by
  by_cases hne : as = []
  · subst hne
    exact ⟨_, .noSuccessors⟩
  · rcases forall_or_exists_first (fun a => Fair a.2) as with
      hfair | ⟨pre, a, post, rfl, hpre, hbad⟩
    · exact ⟨_, .zeroWeights hne hfair fun a ha hpos => h ⟨hne, hfair, a, ha, hpos⟩⟩
    · exact ⟨_, .badWeight hpre hbad⟩

theorem forall_weights {P : Float → Prop} (h : ∀ a ∈ as, P a.2) :
    ∀ w ∈ Lottery.weights ⟨as⟩, P w := by
  rintro _ hw
  obtain ⟨a, ha, rfl⟩ := List.mem_map.mp hw
  exact h a ha

theorem bad_iff {w : Float} : (!w.isFinite || decide (w < 0)) = true ↔ ¬ Fair w := by
  unfold Fair
  cases w.isFinite <;> simp

theorem find?_eq_none_of_fair (h : ∀ a ∈ as, Fair a.2) :
    (Lottery.weights ⟨as⟩).find? (fun w => !w.isFinite || w < 0) = none :=
  List.find?_eq_none.mpr fun w hw hbad => bad_iff.mp hbad (forall_weights h w hw)

theorem total_le_zero_iff (h : ∀ a ∈ as, Fair a.2) :
    Lottery.total ⟨as⟩ ≤ 0 ↔ ∀ a ∈ as, ¬ 0 < a.2 := by
  unfold Lottery.total
  rw [sum_le_zero_iff (forall_weights h)]
  exact List.forall_mem_map

theorem stochastic_of_refused (h : Refused as fault) :
    stochastic p as = .error (.invalidRule p.symbol fault) := by
  cases h with
  | noSuccessors => rfl
  | @badWeight pre post a hpre hbad =>
    have hfind : (Lottery.weights ⟨pre ++ a :: post⟩).find? (fun w => !w.isFinite || w < 0) =
        some a.2 := by
      rw [List.find?_eq_some_iff_append]
      refine ⟨bad_iff.mpr hbad, pre.map Prod.snd, post.map Prod.snd, by simp [Lottery.weights], ?_⟩
      intro w hw
      have hgood := forall_weights hpre w hw
      simpa using mt bad_iff.mp (not_not.mpr hgood)
    have hne : (pre ++ a :: post).isEmpty = false := by simp
    simp only [stochastic, hne, hfind]
    rfl
  | zeroWeights hne hfair hzero =>
    have hne' : as.isEmpty = false := by simpa using hne
    simp only [stochastic, hne', find?_eq_none_of_fair hfair, (total_le_zero_iff hfair).mpr hzero]
    rfl

theorem stochastic_of_admissible (h : Admissible as) :
    stochastic p as = if (Lottery.total ⟨as⟩).isFinite then .ok ⟨p, .chosen ⟨as⟩⟩
      else .error (.overflow .weights) := by
  obtain ⟨hne, hfair, a, ha, hpos⟩ := h
  have hne' : as.isEmpty = false := by simpa using hne
  have htotal : ¬ Lottery.total ⟨as⟩ ≤ 0 := fun hzero =>
    (total_le_zero_iff hfair).mp hzero a ha hpos
  simp only [stochastic, hne', find?_eq_none_of_fair hfair, if_neg htotal]
  rfl

theorem stochastic_eq_ok_iff :
    stochastic p as = .ok r ↔
      Admissible as ∧ (Lottery.total ⟨as⟩).isFinite ∧ r = ⟨p, .chosen ⟨as⟩⟩ := by
  by_cases h : Admissible as
  · rw [stochastic_of_admissible h]
    split_ifs with hfinite <;> simp [h, hfinite, eq_comm]
  · obtain ⟨fault, hfault⟩ := exists_refused h
    simp [stochastic_of_refused hfault, h]

section Shares

theorem Admissible.total_pos (h : Admissible as) (hfinite : IsFinite (Lottery.total ⟨as⟩)) :
    0 < value (Lottery.total ⟨as⟩) := by
  obtain ⟨-, hfair, a, ha, hpos⟩ := h
  have hzero := mt (total_le_zero_iff hfair).mp fun hnone => hnone a ha hpos
  rwa [le_iff hfinite isFinite_zero, not_le] at hzero

theorem Admissible.le_total (h : Admissible as) (hfinite : IsFinite (Lottery.total ⟨as⟩))
    (ha : a ∈ as) : value a.2 ≤ value (Lottery.total ⟨as⟩) := by
  have hnonneg := forall_weights (P := fun w => 0 ≤ value w) fun a ha => (h.fair a ha).nonneg
  exact (le_value_foldl value_zero.ge hnonneg hfinite).2 _ (List.mem_map_of_mem ha)

theorem share_bounds (h : Admissible as) (hfinite : IsFinite (Lottery.total ⟨as⟩)) (ha : a ∈ as) :
    0 ≤ a.2 / Lottery.total ⟨as⟩ ∧ a.2 / Lottery.total ⟨as⟩ ≤ 1 := by
  have hpos := h.total_pos hfinite
  have hnonneg := (h.fair a ha).nonneg
  have hshare : value a.2 / value (Lottery.total ⟨as⟩) ≤ 1 :=
    (div_le_one hpos).mpr (h.le_total hfinite ha)
  have hshare' : 0 ≤ value a.2 / value (Lottery.total ⟨as⟩) := div_nonneg hnonneg hpos.le
  have hone : Binary.OnGrid .binary64 1 := mod_cast Binary.OnGrid.intCast (n := 1) (by decide)
  have hyields := yields_div (h.fair a ha).isFinite hfinite hpos.ne'
  have hquotient : IsFinite (a.2 / Lottery.total ⟨as⟩) :=
    hyields.isFinite hone (one_lt_pow₀ one_lt_two (Nat.succ_ne_zero _))
      (by rwa [abs_of_nonneg hshare'])
  have hrounds := hyields.rounds hquotient
  constructor
  · rw [le_iff isFinite_zero hquotient]
    exact hrounds.nonneg hshare'
  · rw [le_iff hquotient isFinite_one, value_one]
    exact hrounds.le hone hshare

end Shares

/-- Alternatives make a rule exactly when they are admissible and their sum is a number. What is not
admissible is refused under the symbol of the predecessor. Only an admissible sum beyond the numbers
ends without an answer. The rule lists the words in order, each with its share of the sum. -/
theorem stochastic_verdict (p : Letter) (as : List (Word × Float)) :
    ((∃ r, stochastic p as = .ok r) ↔ Admissible as ∧ (Lottery.sum (as.map Prod.snd)).isFinite) ∧
      (¬ Admissible as →
        ∃ fault, Refused as fault ∧ stochastic p as = .error (.invalidRule p.symbol fault)) ∧
      (stochastic p as = .error (.overflow .weights) ↔
        Admissible as ∧ ¬ (Lottery.sum (as.map Prod.snd)).isFinite) ∧
      ∀ r, stochastic p as = .ok r → r.predecessor = p ∧
        r.alternatives = as.map (fun a => (a.1, a.2 / Lottery.sum (as.map Prod.snd))) ∧
        ∀ a ∈ r.alternatives, 0 ≤ a.2 ∧ a.2 ≤ 1 := by
  refine ⟨?_, fun h => ?_, ?_, fun r hr => ?_⟩
  · simp only [stochastic_eq_ok_iff]
    constructor
    · rintro ⟨r, h, hfinite, -⟩
      exact ⟨h, hfinite⟩
    · rintro ⟨h, hfinite⟩
      exact ⟨_, h, hfinite, rfl⟩
  · obtain ⟨fault, hfault⟩ := exists_refused h
    exact ⟨fault, hfault, stochastic_of_refused hfault⟩
  · by_cases h : Admissible as
    · rw [stochastic_of_admissible h, Lottery.total, Lottery.weights]
      split_ifs with hfinite <;> simp [h, hfinite]
    · obtain ⟨fault, hfault⟩ := exists_refused h
      simp [stochastic_of_refused hfault, h]
  · obtain ⟨h, hfinite, rfl⟩ := stochastic_eq_ok_iff.mp hr
    refine ⟨rfl, rfl, ?_⟩
    rintro _ hshare
    obtain ⟨a, ha, rfl⟩ := List.mem_map.mp hshare
    exact share_bounds h hfinite ha

theorem stochastic_overflow :
    Admissible [([.plain "b"], 1e308), ([.plain "b"], 1e308)] ∧
      stochastic (.plain "a") [([.plain "b"], 1e308), ([.plain "b"], 1e308)] =
        .error (.overflow .weights) := by
  have hfair : Fair 1e308 := by
    unfold Fair
    decide +kernel
  have hsum : ¬ (Lottery.sum [1e308, 1e308]).isFinite := by decide +kernel
  have h : Admissible [([.plain "b"], 1e308), ([.plain "b"], 1e308)] :=
    ⟨nofun, by simpa using hfair, _, List.mem_cons_self, by decide +kernel⟩
  refine ⟨h, ?_⟩
  rw [stochastic_of_admissible h]
  exact if_neg hsum

end Rule

end LSystem
