import Mathlib.Data.Nat.Find
import Mathlib.Order.Bounds.Basic
import LSystem.Proofs.Turtle.Tally

/-! # Diagnosis of brackets

The brackets that a walk cannot match are told from counts alone. By how much the returns outnumber
the saves, prefix by prefix, reaches a new record exactly at the returns that find nothing saved, and
what is saved at any time is how far the current excess lies below the record.
-/

namespace LSystem

namespace Brackets

variable {cs : List Command} {c : Command} {k : Nat} {w : Walk} {g : Gait}

def excess (cs : List Command) : ℤ := cs.count .pop - cs.count .push

@[simp] theorem excess_nil : excess [] = 0 := rfl

theorem excess_concat :
    excess (cs ++ [c]) = excess cs + ((if c == .pop then 1 else 0) - (if c == .push then 1 else 0)) := by
  unfold excess
  cases c <;> simp [List.count_append] <;> omega

theorem excess_pos_iff : 0 < excess cs ↔ cs.count .push < cs.count .pop := by
  unfold excess; omega

theorem covered_zero_iff : Covered 0 cs ↔ ∀ v, v <+: cs → excess v ≤ 0 := by
  unfold Covered excess
  exact forall₂_congr fun v _ => by omega

/-- The command returns, and the returns outnumber the saves by more than ever before. -/
structure Surpasses (cs : List Command) (k : Nat) : Prop where
  pop : cs[k]? = some .pop
  exceeds : ∀ v, v <+: cs.take k → excess v < excess (cs.take (k + 1))

theorem Surpasses.lt_length (h : Surpasses cs k) : k < cs.length :=
  (List.getElem?_eq_some_iff.mp h.pop).1

theorem Surpasses.excess_pos (h : Surpasses cs k) : 0 < excess (cs.take (k + 1)) :=
  h.exceeds [] List.nil_prefix

theorem surpasses_append (hk : k < cs.length) : Surpasses (cs ++ [c]) k ↔ Surpasses cs k := by
  have hpop : (cs ++ [c])[k]? = cs[k]? := List.getElem?_append_left hk
  have htake : (cs ++ [c]).take k = cs.take k := List.take_append_of_le_length hk.le
  have htake' : (cs ++ [c]).take (k + 1) = cs.take (k + 1) := List.take_append_of_le_length hk
  constructor
  · rintro ⟨hp, he⟩
    exact ⟨hpop ▸ hp, htake' ▸ htake ▸ he⟩
  · rintro ⟨hp, he⟩
    exact ⟨hpop ▸ hp, htake' ▸ htake ▸ he⟩

theorem surpasses_concat_length :
    Surpasses (cs ++ [c]) cs.length ↔
      c = .pop ∧ ∀ v, v <+: cs → excess v < excess (cs ++ [c]) := by
  have htake : (cs ++ [c]).take (cs.length + 1) = cs ++ [c] := List.take_of_length_le (by simp)
  constructor
  · rintro ⟨hp, he⟩
    rw [List.getElem?_concat_length] at hp
    rw [htake, List.take_left' rfl] at he
    exact ⟨Option.some.inj hp, he⟩
  · rintro ⟨rfl, he⟩
    refine ⟨List.getElem?_concat_length, ?_⟩
    rwa [htake, List.take_left' rfl]

theorem surpasses_concat :
    Surpasses (cs ++ [c]) k ↔
      Surpasses cs k ∨ k = cs.length ∧ c = .pop ∧ ∀ v, v <+: cs → excess v < excess (cs ++ [c]) := by
  constructor
  · intro h
    have hlt := h.lt_length
    rw [List.length_append, List.length_singleton] at hlt
    rcases Nat.lt_succ_iff_lt_or_eq.mp hlt with hk | rfl
    · exact .inl ((surpasses_append hk).mp h)
    · exact .inr ⟨rfl, surpasses_concat_length.mp h⟩
  · rintro (h | ⟨rfl, h⟩)
    · exact (surpasses_append h.lt_length).mpr h
    · exact surpasses_concat_length.mpr h

def excesses (cs : List Command) : Set ℤ := {e | ∃ v, v <+: cs ∧ excess v = e}

theorem mem_excesses_concat {e : ℤ} :
    e ∈ excesses (cs ++ [c]) ↔ e = excess (cs ++ [c]) ∨ e ∈ excesses cs := by
  constructor
  · rintro ⟨v, hv, rfl⟩
    rcases List.prefix_concat_iff.mp hv with rfl | hv
    · exact .inl rfl
    · exact .inr ⟨v, hv, rfl⟩
  · rintro (rfl | ⟨v, hv, rfl⟩)
    · exact ⟨_, List.prefix_rfl, rfl⟩
    · exact ⟨v, hv.trans (List.prefix_append cs [c]), rfl⟩

/-- What a walk knows of the commands that it has read. -/
structure Tracks (cs : List Command) (w : Walk) : Prop where
  count : w.count = cs.length
  balance : (w.saved.length : ℤ) + excess cs = w.unmatchedPops.size
  greatest : IsGreatest (excesses cs) w.unmatchedPops.size
  pairwise : w.unmatchedPops.toList.Pairwise (· < ·)
  mem_iff : ∀ k, k ∈ w.unmatchedPops ↔ Surpasses cs k

namespace Tracks

theorem begin (t : Turtle) : Tracks [] (.begin t) where
  count := rfl
  balance := rfl
  greatest := by
    refine ⟨⟨[], List.prefix_rfl, rfl⟩, ?_⟩
    rintro e ⟨v, hv, rfl⟩
    rw [List.prefix_nil.mp hv]
    rfl
  pairwise := .nil
  mem_iff k := iff_of_false (Array.not_mem_empty k) fun h => absurd h.lt_length (Nat.not_lt_zero k)

theorem step_unmatched (h : Tracks cs w) (hs : w.saved = []) :
    Tracks (cs ++ [.pop]) (w.step g .pop) := by
  have hstep : w.step g .pop =
      { w with unmatchedPops := w.unmatchedPops.push w.count, count := w.count + 1 } := by
    simp only [Walk.step, hs]
  have hexcess : excess (cs ++ [.pop]) = w.unmatchedPops.size + 1 := by
    have hb := h.balance
    rw [hs, List.length_nil] at hb
    simp only [excess_concat]
    simpa using hb
  rw [hstep]
  refine ⟨?_, ?_, ⟨?_, ?_⟩, ?_, ?_⟩
  · simp [h.count]
  · simp [hs, hexcess]
  · exact ⟨_, List.prefix_rfl, by simpa using hexcess⟩
  · intro e he
    rcases mem_excesses_concat.mp he with rfl | he
    · simp [hexcess]
    · have := h.greatest.2 he
      simp only [Array.size_push]
      omega
  · simp only [Array.toList_push, List.pairwise_append, List.pairwise_singleton, true_and,
      List.mem_singleton, forall_eq]
    refine ⟨h.pairwise, fun k hk => ?_⟩
    rw [h.count]
    exact ((h.mem_iff k).mp (Array.mem_toList_iff.mp hk)).lt_length
  · intro k
    rw [Array.mem_push, h.count, h.mem_iff, surpasses_concat]
    refine or_congr_right (iff_self_and.mpr fun _ => ⟨rfl, fun v hv => ?_⟩)
    have := h.greatest.2 ⟨v, hv, rfl⟩
    omega

/-- Any other command leaves the records as they are: what is still saved is below them. -/
theorem step_matched (h : Tracks cs w) (hc : c = .pop → 0 < w.saved.length) :
    Tracks (cs ++ [c]) (w.step g c) := by
  have hpops : (w.step g c).unmatchedPops = w.unmatchedPops := Walk.unmatchedPops_step hc
  have hbalance : ((w.step g c).saved.length : ℤ) + excess (cs ++ [c]) = w.unmatchedPops.size := by
    have hdepth := Command.depthAfter_add hc
    rw [Walk.length_saved_step, excess_concat, ← h.balance]
    split_ifs at hdepth ⊢ <;> omega
  have hlow : excess (cs ++ [c]) ≤ w.unmatchedPops.size := by omega
  refine ⟨?_, hpops ▸ hbalance, hpops ▸ ⟨?_, ?_⟩, hpops ▸ h.pairwise, ?_⟩
  · simp [h.count]
  · exact mem_excesses_concat.mpr (.inr h.greatest.1)
  · intro e he
    rcases mem_excesses_concat.mp he with rfl | he
    · exact hlow
    · exact h.greatest.2 he
  · intro k
    rw [hpops, h.mem_iff, surpasses_concat]
    refine (or_iff_left ?_).symm
    rintro ⟨-, -, he⟩
    obtain ⟨v, hv, hmax⟩ := h.greatest.1
    have := he v hv
    omega

theorem step (h : Tracks cs w) : Tracks (cs ++ [c]) (w.step g c) := by
  by_cases hc : c = .pop → 0 < w.saved.length
  · exact h.step_matched hc
  · obtain ⟨rfl, hs⟩ := Classical.not_imp.mp hc
    exact h.step_unmatched (List.length_eq_zero_iff.mp (Nat.eq_zero_of_not_pos hs))

theorem saved_eq (h : Tracks cs w) :
    (w.saved.length : ℤ) = cs.count .push - cs.count .pop + w.unmatchedPops.size := by
  have hb := h.balance
  unfold excess at hb
  omega

end Tracks

def Overdrawn (cs : List Command) (k : Nat) : Prop :=
  (cs.take (k + 1)).count .push < (cs.take (k + 1)).count .pop

instance (cs : List Command) : DecidablePred (Overdrawn cs) :=
  fun _ => inferInstanceAs (Decidable (_ < _))

/-- What is wrong first with the brackets, told from counts alone. -/
def diagnose (cs : List Command) : Except SketchError Unit :=
  match (List.range cs.length).find? (Overdrawn cs ·) with
  | some k => .error (.unbalancedBracket k)
  | none =>
    if cs.count .pop < cs.count .push then
      .error (.unclosedBranch (cs.count .push - cs.count .pop))
    else .ok ()

example : diagnose [.push, .pop, .pop, .push, .pop, .pop] = .error (.unbalancedBracket 2) := by
  decide

theorem overdrawn_iff : Overdrawn cs k ↔ 0 < excess (cs.take (k + 1)) := excess_pos_iff.symm

theorem Overdrawn.surpasses (h : Overdrawn cs k) (hk : k < cs.length)
    (hfirst : ∀ j < k, ¬ Overdrawn cs j) : Surpasses cs k := by
  have hbefore : ∀ v, v <+: cs.take k → excess v ≤ 0 := by
    intro v hv
    obtain ⟨n, hn, rfl⟩ : ∃ n ≤ k, v = cs.take n := by
      refine ⟨v.length, hv.length_le.trans (List.length_take_le k cs), ?_⟩
      exact List.prefix_iff_eq_take.mp (hv.trans (List.take_prefix k cs))
    cases n with
    | zero => simp
    | succ n => exact not_lt.mp fun hpos => hfirst n hn (overdrawn_iff.mpr hpos)
  have hpos := overdrawn_iff.mp h
  refine ⟨?_, fun v hv => (hbefore v hv).trans_lt hpos⟩
  have hlast := hbefore _ List.prefix_rfl
  rw [List.take_succ_eq_append_getElem hk, excess_concat] at hpos
  rw [List.getElem?_eq_getElem hk]
  by_contra hne
  rw [if_neg (by simpa using hne)] at hpos
  split_ifs at hpos <;> omega

namespace Tracks

theorem covered_iff (h : Tracks cs w) : Covered 0 cs ↔ w.unmatchedPops = #[] := by
  rw [covered_zero_iff, ← Array.size_eq_zero_iff]
  obtain ⟨⟨v, hv, hmax⟩, hle⟩ := h.greatest
  constructor
  · intro hc
    have := hc v hv
    omega
  · intro hzero v hv
    have : excess v ≤ w.unmatchedPops.size := hle ⟨v, hv, rfl⟩
    omega

theorem nested_iff (h : Tracks cs w) : Nested cs ↔ w.unmatchedPops = #[] ∧ w.saved = [] := by
  have hsaved := h.saved_eq
  rw [← List.length_eq_zero_iff]
  constructor
  · rintro ⟨hcovered, hclosed⟩
    have hpops := h.covered_iff.mp hcovered
    rw [hpops, Array.size_empty] at hsaved
    exact ⟨hpops, by omega⟩
  · rintro ⟨hpops, hopen⟩
    rw [hpops, Array.size_empty, hopen] at hsaved
    exact ⟨h.covered_iff.mpr hpops, by omega⟩

/-- The first unmatched return is where the list is overdrawn first. -/
theorem head?_eq (h : Tracks cs w) :
    w.unmatchedPops.toList.head? = (List.range cs.length).find? (Overdrawn cs ·) := by
  have hmem : ∀ k ∈ w.unmatchedPops.toList, Surpasses cs k := fun k hk =>
    (h.mem_iff k).mp (Array.mem_toList_iff.mp hk)
  cases hfind : (List.range cs.length).find? (Overdrawn cs ·) with
  | none =>
    rw [List.head?_eq_none_iff, List.eq_nil_iff_forall_not_mem]
    intro k hk
    have hnone := List.find?_range_eq_none.mp hfind k (hmem k hk).lt_length
    exact absurd (overdrawn_iff.mpr (hmem k hk).excess_pos) (by simpa using hnone)
  | some m =>
    obtain ⟨hm, hlt, hfirst⟩ := List.find?_range_eq_some.mp hfind
    have hfirst' : ∀ j < m, ¬ Overdrawn cs j := fun j hj => by simpa using hfirst j hj
    have hin : m ∈ w.unmatchedPops.toList := Array.mem_toList_iff.mpr
      ((h.mem_iff m).mpr ((of_decide_eq_true hm).surpasses (List.mem_range.mp hlt) hfirst'))
    cases hl : w.unmatchedPops.toList with
    | nil => rw [hl] at hin; cases hin
    | cons k ks =>
      rw [hl] at hin hmem
      have hsorted := h.pairwise
      rw [hl] at hsorted
      have hk : ¬ k < m := fun hlt =>
        hfirst' k hlt (overdrawn_iff.mpr (hmem k List.mem_cons_self).excess_pos)
      rcases List.mem_cons.mp hin with rfl | hin
      · rfl
      · exact absurd ((List.pairwise_cons.mp hsorted).1 m hin) hk

end Tracks

end Brackets

open Brackets

namespace Interpreter

variable (i : Interpreter)

theorem tracks_walk (w : Word) (t : Turtle) : Tracks (i.commands w) (i.walk w t) := by
  induction w using List.reverseRecOn with
  | nil => exact .begin _
  | append_singleton v l ih =>
    rw [commands_concat, walk_concat]
    exact ih.step

theorem check_eq_diagnose (w : Word) (t : Turtle) :
    (i.interpret w t).check = diagnose (i.commands w) := by
  have h := i.tracks_walk w t
  have hsaved := h.saved_eq
  have hpops : (i.interpret w t).unmatchedPops = (i.walk w t).unmatchedPops.toList := rfl
  unfold diagnose Interpretation.check
  rw [← h.head?_eq, hpops]
  cases hl : (i.walk w t).unmatchedPops.toList with
  | cons k ks => rfl
  | nil =>
    have hsize : (i.walk w t).unmatchedPops.size = 0 := by rw [← Array.length_toList, hl]; rfl
    have hopen : (i.walk w t).saved.length =
        (i.commands w).count .push - (i.commands w).count .pop := by omega
    simp only [List.head?_nil, interpret, hopen, Nat.sub_pos_iff_lt]

/-- What a walk reports of its brackets is what counting them in every prefix tells: whether they
match, which returns are unmatched and how many, how many saves are open, and the first error. -/
theorem interpret_diagnosis (w : Word) (t : Turtle) :
    ((i.interpret w t).isBalanced = true ↔ Nested (i.commands w)) ∧
    (i.interpret w t).unmatchedPops.Pairwise (· < ·) ∧
    (∀ k, k ∈ (i.interpret w t).unmatchedPops ↔ Surpasses (i.commands w) k) ∧
    IsGreatest (excesses (i.commands w)) (i.interpret w t).unmatchedPops.length ∧
    ((i.interpret w t).openBranches : ℤ) = (i.commands w).count .push -
      (i.commands w).count .pop + (i.interpret w t).unmatchedPops.length ∧
    (i.interpret w t).check = diagnose (i.commands w) := by
  have h := i.tracks_walk w t
  refine ⟨?_, h.pairwise, ?_, ?_, ?_, i.check_eq_diagnose w t⟩
  · rw [h.nested_iff]
    simp [Interpretation.isBalanced, interpret]
  · intro k
    rw [← h.mem_iff]
    exact Array.mem_toList_iff
  · exact Array.length_toList ▸ h.greatest
  · exact Array.length_toList ▸ h.saved_eq

end Interpreter

end LSystem
