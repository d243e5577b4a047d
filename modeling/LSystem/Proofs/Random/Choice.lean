import LSystem.Proofs.Random.Level
import LSystem.Proofs.Random.Validation

/-! # Which alternative is chosen

A number from zero to the sum of the weights lies between two running sums, and the weight that
takes the one to the other is not zero. The sum itself lies after them all and goes to the last
alternative, whatever its weight: this happens to rules with the least sums, and to no other.
-/

namespace LSystem

open Binary.MachineNumber

namespace Lottery

variable {l : Lottery} {u : UInt64} {start x w : Float} {ws : List Float}

section RunningSums

theorem length_runningSums (start : Float) (ws : List Float) :
    (runningSums start ws).length = ws.length := by
  induction ws generalizing start with
  | nil => rfl
  | cons w ws ih => exact congrArg Nat.succ (ih (start + w))

theorem mem_runningSums (hstart : 0 ≤ value start) (hws : ∀ w ∈ ws, 0 ≤ value w)
    (h : IsFinite (ws.foldl (· + ·) start)) {t : Float} (ht : t ∈ runningSums start ws) :
    IsFinite t ∧ value start ≤ value t ∧ value t ≤ value (ws.foldl (· + ·) start) := by
  induction ws generalizing start with
  | nil => cases ht
  | cons w ws ih =>
    obtain ⟨hw, hws⟩ := List.forall_mem_cons.mp hws
    rw [List.foldl_cons] at h ⊢
    have hsum := (isFinite_of_isFinite_foldl h).1
    have hle := le_value_add_right hw hsum
    cases ht with
    | head => exact ⟨hsum, hle, (le_value_foldl (hstart.trans hle) hws h).1⟩
    | tail _ ht =>
      obtain ⟨hfinite, hlow, hhigh⟩ := ih (hstart.trans hle) hws h ht
      exact ⟨hfinite, hle.trans hlow, hhigh⟩

theorem runningSums_dropLast (start : Float) (ws : List Float) :
    runningSums start ws.dropLast = (runningSums start ws).dropLast := by
  induction ws generalizing start with
  | nil => rfl
  | cons w ws ih =>
    cases ws with
    | nil => rfl
    | cons w' ws => exact congrArg (List.cons (start + w)) (ih (start + w))

theorem pos_of_value_lt_add (hw : 0 ≤ value w) (h : IsFinite (x + w))
    (hlt : value x < value (x + w)) : 0 < value w := by
  refine hw.lt_of_ne fun hzero => hlt.ne' ?_
  have hrounds := rounds_add h
  rw [← hzero, add_zero] at hrounds
  exact hrounds.eq (onGrid_value x)

/-- The weight at which the running sums pass a number that is not less than the start. -/
theorem exists_passing (hx : IsFinite x) (hstart : 0 ≤ value start) (hws : ∀ w ∈ ws, 0 ≤ value w)
    (h : IsFinite (ws.foldl (· + ·) start)) (hlow : value start ≤ value x)
    (hhigh : value x < value (ws.foldl (· + ·) start)) :
    ∃ w, ws[(runningSums start ws.dropLast).countP (· ≤ x)]? = some w ∧ 0 < value w := by
  induction ws generalizing start with
  | nil => exact absurd hhigh (not_lt.mpr hlow)
  | cons w ws ih =>
    obtain ⟨hw, hws⟩ := List.forall_mem_cons.mp hws
    rw [List.foldl_cons] at h hhigh
    have hsum := (isFinite_of_isFinite_foldl h).1
    have hle := le_value_add_right hw hsum
    cases ws with
    | nil => exact ⟨w, rfl, pos_of_value_lt_add hw hsum (hlow.trans_lt hhigh)⟩
    | cons w' ws =>
      have hsplit : runningSums start (w :: w' :: ws).dropLast =
          (start + w) :: runningSums (start + w) (w' :: ws).dropLast := rfl
      rw [hsplit, List.countP_cons]
      by_cases hpass : start + w ≤ x
      · have hlow' := (le_iff hsum hx).mp hpass
        obtain ⟨v, hv, hpos⟩ := ih (hstart.trans hle) hws h hlow' hhigh
        exact ⟨v, by simpa [hpass] using hv, hpos⟩
      · have hlt : value x < value (start + w) := by rwa [le_iff hsum hx, not_le] at hpass
        have hnone : (runningSums (start + w) (w' :: ws).dropLast).countP (· ≤ x) = 0 := by
          refine List.countP_eq_zero.mpr fun t ht => ?_
          rw [runningSums_dropLast] at ht
          obtain ⟨hfinite, hge, -⟩ :=
            mem_runningSums (hstart.trans hle) hws h (List.mem_of_mem_dropLast ht)
          rw [decide_eq_true_iff, le_iff hfinite hx, not_le]
          exact hlt.trans_le hge
        exact ⟨w, by simp [hnone, hpass], pos_of_value_lt_add hw hsum (hlow.trans_lt hlt)⟩

end RunningSums

section Pick

theorem length_thresholds (l : Lottery) : l.thresholds.length = l.entries.length - 1 := by
  unfold thresholds weights
  rw [length_runningSums, List.length_dropLast, List.length_map]

theorem pick_lt_length (hne : l.entries ≠ []) (u : UInt64) : l.pick u < l.entries.length := by
  have hle : l.pick u ≤ l.thresholds.length := List.countP_le_length
  have hpos := List.length_pos_iff.mpr hne
  rw [length_thresholds] at hle
  omega

variable (hfair : ∀ w ∈ l.weights, Fair w) (hfinite : IsFinite l.total)
include hfair hfinite

theorem total_nonneg : 0 ≤ value l.total :=
  (le_value_foldl value_zero.ge (fun w hw => (hfair w hw).nonneg) hfinite).1

theorem exists_pick_of_lt (hlt : value (l.level u) < value l.total) :
    ∃ a, l.entries[l.pick u]? = some a ∧ 0 < value a.2 := by
  have hnonneg : ∀ w ∈ l.weights, 0 ≤ value w := fun w hw => (hfair w hw).nonneg
  have htotal := total_nonneg hfair hfinite
  obtain ⟨w, hw, hpos⟩ := exists_passing (level_spec hfinite htotal u).1 value_zero.ge hnonneg
    hfinite (level_nonneg hfinite htotal u) hlt
  obtain ⟨a, ha, rfl⟩ := Option.map_eq_some_iff.mp ((List.getElem?_map ..).symm.trans hw)
  exact ⟨a, ha, hpos⟩

/-- At the sum the last alternative is picked. -/
theorem pick_of_eq (heq : value (l.level u) = value l.total) :
    l.pick u = l.entries.length - 1 := by
  have hnonneg : ∀ w ∈ l.weights, 0 ≤ value w := fun w hw => (hfair w hw).nonneg
  have htotal := total_nonneg hfair hfinite
  rw [← length_thresholds]
  refine List.countP_eq_length.mpr fun t ht => ?_
  unfold thresholds at ht
  rw [runningSums_dropLast] at ht
  obtain ⟨ht', -, hle⟩ := mem_runningSums value_zero.ge hnonneg hfinite (List.mem_of_mem_dropLast ht)
  rw [decide_eq_true_iff, le_iff ht' (level_spec hfinite htotal u).1, heq]
  exact hle

end Pick

end Lottery

namespace Rule

open Lottery

variable {p : Letter} {as : List (Word × Float)} {r : Rule}

theorem exists_picked (hne : as ≠ []) (u : UInt64) :
    ∃ a, as[(Lottery.mk as).pick u]? = some a ∧
      ∀ {σ : Type} [Source σ] (s : σ), (Source.next s).1 = u →
        (successorWord ⟨p, .chosen ⟨as⟩⟩).run s = (a.1, (Source.next s).2) := by
  have hlt := pick_lt_length (l := ⟨as⟩) hne u
  refine ⟨_, List.getElem?_eq_getElem hlt, ?_⟩
  rintro σ _ s rfl
  have hrun : (successorWord ⟨p, .chosen ⟨as⟩⟩).run s =
      (Lottery.outcome ⟨as⟩ (Source.next s).1, (Source.next s).2) := rfl
  rw [hrun, outcome, List.getElem?_eq_getElem hlt]
  rfl

section Weight

variable (h : Admissible as) (hfinite : IsFinite (Lottery.total ⟨as⟩))
include h hfinite

theorem pos_of_pick {u : UInt64} {a : Word × Float}
    (hlast : (∃ b, as.getLast? = some b ∧ 0 < b.2) ∨
      2 ^ (-1023 : ℤ) < value (Lottery.total ⟨as⟩))
    (ha : as[(Lottery.mk as).pick u]? = some a) : 0 < a.2 := by
  have hfair := forall_weights h.fair
  rcases (level_le_total hfinite (h.total_pos hfinite).le u).lt_or_eq with hlt | heq
  · obtain ⟨b, hb, hpos⟩ := exists_pick_of_lt hfair hfinite hlt
    obtain rfl : b = a := Option.some.inj (hb.symm.trans ha)
    exact (h.fair b (List.mem_of_getElem? ha)).pos_iff.mpr hpos
  · rcases hlast with ⟨b, hb, hpos⟩ | hlarge
    · rw [pick_of_eq hfair hfinite heq, ← List.getLast?_eq_getElem?] at ha
      exact Option.some.inj (hb.symm.trans ha) ▸ hpos
    · exact absurd heq (level_lt_total hfinite hlarge u).ne

theorem getElem?_pick_lastWord (hsmall : value (Lottery.total ⟨as⟩) ≤ 2 ^ (-1023 : ℤ)) :
    as[(Lottery.mk as).pick lastWord]? = as.getLast? := by
  have hlevel := level_lastWord hfinite (h.total_pos hfinite) hsmall
  rw [pick_of_eq (forall_weights h.fair) hfinite hlevel, List.getLast?_eq_getElem?]

end Weight

/-- A choice takes one word and gives the alternative that the word picks, of which there is one.
Every alternative that can be picked has a positive weight, whatever the word, exactly when the last
one has or the sum of the weights is more than half the least normal number. -/
theorem successorWord_choice (h : stochastic p as = .ok r) :
    (∀ u, ∃ a, as[(Lottery.mk as).pick u]? = some a ∧
        ∀ {σ : Type} [Source σ] (s : σ), (Source.next s).1 = u →
          r.successorWord.run s = (a.1, (Source.next s).2)) ∧
      ((∀ u a, as[(Lottery.mk as).pick u]? = some a → 0 < a.2) ↔
        (∃ a, as.getLast? = some a ∧ 0 < a.2) ∨
          2 ^ (-1023 : ℤ) < value (Lottery.mk as).total) := by
  obtain ⟨hadmissible, hfinite, rfl⟩ := stochastic_eq_ok_iff.mp h
  refine ⟨exists_picked hadmissible.nonempty, ?_, ?_⟩
  · intro hpos
    by_contra hnone
    rw [not_or, not_lt] at hnone
    have hpick := getElem?_pick_lastWord hadmissible hfinite hnone.2
    have hlast := List.getLast?_eq_some_getLast hadmissible.nonempty
    exact hnone.1 ⟨_, hlast, hpos lastWord _ (hpick.trans hlast)⟩
  · intro hlast u a ha
    exact pos_of_pick hadmissible hfinite hlast ha

section OneSided

def oneSided (weight : Float) : List (Word × Float) := [([.plain "A"], weight), ([.plain "B"], 0)]

theorem stochastic_oneSided {w : Float} (hw : Fair w) (hpos : 0 < w)
    (hfinite : (Lottery.total ⟨oneSided w⟩).isFinite) :
    stochastic p (oneSided w) = .ok ⟨p, .chosen ⟨oneSided w⟩⟩ := by
  have hzero : Fair 0 := by
    unfold Fair
    decide +kernel
  have hfair : ∀ a ∈ oneSided w, Fair a.2 := by
    unfold oneSided
    simp [hw, hzero]
  exact stochastic_eq_ok_iff.mpr ⟨⟨nofun, hfair, _, List.mem_cons_self, hpos⟩, hfinite, rfl⟩

theorem successorWord_choice_oneSided :
    stochastic (.plain "F") (oneSided 1) = .ok ⟨.plain "F", .chosen ⟨oneSided 1⟩⟩ ∧
      ∀ u a, (oneSided 1)[(Lottery.mk (oneSided 1)).pick u]? = some a → 0 < a.2 := by
  have hfair : Fair 1 := by
    unfold Fair
    decide +kernel
  have htotal : value (Lottery.mk (oneSided 1)).total = 1 := by
    have hdigits : digits (Lottery.mk (oneSided 1)).total = digits (1 : Float) := rfl
    rw [value, hdigits]
    exact value_one
  have hok : stochastic (.plain "F") (oneSided 1) = .ok ⟨.plain "F", .chosen ⟨oneSided 1⟩⟩ :=
    stochastic_oneSided hfair (by decide +kernel) (by decide +kernel)
  refine ⟨hok, (successorWord_choice hok).2.mpr (.inr ?_)⟩
  rw [htotal]
  exact zpow_lt_one_of_neg₀ one_lt_two (by norm_num)

/-- After the least positive weight, a weight of zero is picked. -/
theorem pick_oneSided_least :
    stochastic (.plain "F") (oneSided 5e-324) =
        .ok ⟨.plain "F", .chosen ⟨oneSided 5e-324⟩⟩ ∧
      (oneSided 5e-324)[(Lottery.mk (oneSided 5e-324)).pick lastWord]? =
        some ([.plain "B"], 0) ∧ ¬ (0 : Float) < 0 := by
  have hfair : Fair 5e-324 := by
    unfold Fair
    decide +kernel
  have hpick : (Lottery.mk (oneSided 5e-324)).pick lastWord = 1 := by decide +kernel
  refine ⟨stochastic_oneSided hfair (by decide +kernel) (by decide +kernel), ?_⟩
  rw [hpick]
  exact ⟨rfl, by decide +kernel⟩

end OneSided

end Rule

end LSystem
