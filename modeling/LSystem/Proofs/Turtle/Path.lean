import Mathlib.Data.List.Basic
import LSystem.Proofs.Turtle.Branch
import LSystem.Proofs.Turtle.Matching

/-! # Paths

The path of a word is what is left of it without its branches, its unmatched brackets and its
ignored letters. It leads the turtle to the same place, with nothing ever saved. Every turtle that is
saved is the one at the end of a shorter path, so every segment of a word is the last one of the path
that leads to its letter.
-/

namespace LSystem

open Brackets

namespace Walk

variable {g : Gait} {c : Command}

theorem saved_step_of_ne (hpush : c ≠ .push) (hpop : c ≠ .pop) (w : Walk) :
    (w.step g c).saved = w.saved := by
  cases c with
  | push => exact absurd rfl hpush
  | pop => exact absurd rfl hpop
  | _ => rfl

theorem turtle_step_congr (hc : c.isMotion) {w v : Walk} (h : w.turtle = v.turtle) :
    (w.step g c).turtle = (v.step g c).turtle := by
  cases c with
  | draw | move | turnLeft | turnRight | turnAround => simp only [step, advance, turn, h]
  | push | pop | ignore => cases hc

theorem turtle_step_of_not_isMotion (hc : c.isMotion = false) (hpop : c ≠ .pop) (w : Walk) :
    (w.step g c).turtle = w.turtle := by
  cases c with
  | push | ignore => rfl
  | pop => exact absurd rfl hpop
  | draw | move | turnLeft | turnRight | turnAround => cases hc

theorem segments_step_of_strides (hc : c.strides) (w : Walk) :
    (w.step g c).segments.toList =
      w.segments.toList ++ [w.turtle.stride g.stepLength (c == .draw)] := by
  cases c with
  | draw | move => exact Array.toList_push
  | _ => cases hc

theorem segments_step_of_not_strides (hc : ¬ c.strides) (w : Walk) :
    (w.step g c).segments = w.segments := by
  cases c with
  | draw | move => exact absurd rfl hc
  | pop => cases hs : w.saved <;> simp [step, hs]
  | _ => rfl

end Walk

namespace Interpreter

variable (i : Interpreter)

/-- The letters of a word that are not deleted. -/
def path (w : Word) : Word :=
  (w.zipIdx.filter fun p => ¬ Deleted (i.commands w) p.2).map Prod.fst

variable {i} {v w : Word} {l o : Letter} {a u : Word} {t s : Turtle} {rest : List Turtle} {k : Nat}

theorem commands_append (v w : Word) : i.commands (v ++ w) = i.commands v ++ i.commands w :=
  List.map_append

theorem length_commands (w : Word) : (i.commands w).length = w.length := List.length_map _

theorem walk_concat (v : Word) (l : Letter) (t : Turtle) :
    i.walk (v ++ [l]) t = (i.walk v t).step i.gait (i.command l) :=
  i.walk_append v [l] t

section Path

theorem isMotion_of_mem_path (h : l ∈ i.path w) : (i.command l).isMotion := by
  obtain ⟨⟨l, k⟩, hp, rfl⟩ := List.mem_map.mp h
  obtain ⟨hmem, hkept⟩ := List.mem_filter.mp hp
  have hk : (i.commands w)[k]? = some (i.command l) := by
    rw [commands, List.getElem?_map, List.mem_zipIdx_iff_getElem?.mp hmem]
    rfl
  rw [decide_eq_true_eq, deleted_iff hk, not_or, Bool.not_eq_false] at hkept
  exact hkept.1

theorem path_append
    (h : ∀ k < v.length, Deleted (i.commands v ++ i.commands w) k ↔ Deleted (i.commands v) k) :
    i.path (v ++ w) = i.path v ++
      ((w.zipIdx v.length).filter fun p => ¬ Deleted (i.commands v ++ i.commands w) p.2).map
        Prod.fst := by
  have hv : v.zipIdx.filter (fun p => ¬ Deleted (i.commands v ++ i.commands w) p.2) =
      v.zipIdx.filter (fun p => ¬ Deleted (i.commands v) p.2) := by
    refine List.filter_congr fun p hp => ?_
    rw [decide_eq_decide, h p.2 (List.snd_lt_of_mem_zipIdx hp)]
  rw [path, path, commands_append, List.zipIdx_append, List.filter_append, List.map_append, hv,
    Nat.zero_add]

theorem path_concat (h : ∀ j, ¬ Matches (i.commands v ++ [i.command l]) j v.length) :
    i.path (v ++ [l]) = i.path v ++ if (i.command l).isMotion then [l] else [] := by
  have hlen : (i.commands v).length = v.length := length_commands v
  have hdel : Deleted (i.commands v ++ i.commands [l]) v.length ↔
      (i.command l).isMotion = false := by
    have hlast : (i.commands v ++ i.commands [l])[v.length]? = some (i.command l) := by
      simp [commands]
    rw [deleted_iff hlast]
    refine or_iff_left ?_
    rintro ⟨j, -, m, hm, hlt, -⟩
    rw [← commands_append, length_commands, List.length_append, List.length_singleton] at hm
    omega
  rw [path_append fun k hk => deleted_concat (hlen ▸ hk) (hlen ▸ h)]
  cases hc : (i.command l).isMotion with
  | true => simp [hdel, hc]
  | false => simp [hdel, hc]

theorem path_concat_of_ne_pop (h : i.command l ≠ .pop) :
    i.path (v ++ [l]) = i.path v ++ if (i.command l).isMotion then [l] else [] :=
  path_concat fun _ => length_commands (i := i) v ▸ not_matches_concat h

theorem path_group (ho : i.command o = .push) (hu : Nested (i.commands u))
    (hl : i.command l = .pop) : i.path (a ++ (o :: u ++ [l])) = i.path a := by
  have hcs : i.commands a ++ i.commands (o :: u ++ [l]) =
      i.commands a ++ .push :: i.commands u ++ [.pop] := by
    simp [commands, ho, hl]
  have hlen : (i.commands a).length = a.length := length_commands a
  rw [path_append fun k hk => hcs ▸ deleted_group_left hu (hlen ▸ hk)]
  refine List.append_right_eq_self.mpr (List.map_eq_nil_iff.mpr ?_)
  refine List.filter_eq_nil_iff.mpr fun p hp => ?_
  have hdel : Deleted (i.commands a ++ i.commands (o :: u ++ [l])) p.2 := by
    have hlast := List.snd_lt_add_of_mem_zipIdx hp
    rw [hcs]
    refine deleted_group hu (hlen ▸ List.le_snd_of_mem_zipIdx hp) ?_
    simp [commands] at hlast ⊢
    omega
  simpa using hdel

end Path

section Saved

theorem saved_walk_open (ho : i.command o = .push) (hu : Nested (i.commands u)) (a : Word)
    (t : Turtle) :
    (i.walk (a ++ o :: u) t).saved = (i.walk a t).turtle :: (i.walk a t).saved := by
  rw [walk_append, resume_cons, ho, resume_nested hu]
  simp [Walk.after, Walk.above, Walk.step, saved_excursion hu]

/-- Every turtle that is saved is the one before a branch that is still open. -/
theorem exists_open_of_saved {v : Word} {s : Turtle} {rest : List Turtle}
    (h : (i.walk v t).saved = s :: rest) :
    ∃ a o u, v = a ++ o :: u ∧ i.command o = .push ∧ Nested (i.commands u) ∧
      (i.walk a t).turtle = s ∧ (i.walk a t).saved = rest := by
  rcases List.eq_nil_or_concat' v with rfl | ⟨v, l, rfl⟩
  · cases h
  rw [walk_concat] at h
  by_cases hpush : i.command l = .push
  · rw [hpush] at h
    obtain ⟨rfl, rfl⟩ := List.cons.inj h
    exact ⟨v, l, [], rfl, hpush, nested_nil, rfl, rfl⟩
  by_cases hpop : i.command l = .pop
  · -- the group that is closed here belongs to the branch that is open before it
    rw [hpop] at h
    cases hs : (i.walk v t).saved with
    | nil => simp [Walk.step, hs] at h
    | cons s' rest' =>
      simp only [Walk.step, hs] at h
      obtain ⟨b, p, x, rfl, hp, hx, -, hrest⟩ := exists_open_of_saved hs
      obtain ⟨a, o, u, rfl, ho, hu, hturtle, hsaved⟩ := exists_open_of_saved (hrest.trans h)
      refine ⟨a, o, u ++ p :: (x ++ [l]), by simp, ho, ?_, hturtle, hsaved⟩
      have hgroup : i.commands (u ++ p :: (x ++ [l])) =
          i.commands u ++ .push :: (i.commands x ++ [.pop]) := by
        simp [commands, hp, hpop]
      exact hgroup ▸ hu.append hx.enclose
  · rw [Walk.saved_step_of_ne hpush hpop] at h
    obtain ⟨a, o, u, rfl, ho, hu, hturtle, hsaved⟩ := exists_open_of_saved h
    refine ⟨a, o, u ++ [l], by simp, ho, ?_, hturtle, hsaved⟩
    exact commands_append u [l] ▸ hu.append (nested_singleton hpush hpop)
termination_by v.length

end Saved

theorem not_matches_of_saved_nil (hs : (i.walk v t).saved = []) {j : Nat} :
    ¬ Matches (i.commands v ++ [.pop]) j v.length := by
  rw [← length_commands (i := i) v, matches_concat_pop]
  rintro ⟨as, us, hv, -, hu⟩
  obtain ⟨a, x, rfl, -, hx⟩ := List.map_eq_append_iff.mp hv
  obtain ⟨o, u, rfl, ho, rfl⟩ := List.map_eq_cons_iff.mp hx
  rw [saved_walk_open ho hu] at hs
  cases hs

/-- The path of a word leads to where the word leads. -/
theorem turtle_path (w : Word) (t : Turtle) :
    (i.walk (i.path w) t).turtle = (i.walk w t).turtle := by
  rcases List.eq_nil_or_concat' w with rfl | ⟨v, l, rfl⟩
  · rfl
  rw [walk_concat]
  by_cases hpop : i.command l = .pop
  · -- a return either closes the group that was opened last or is deleted alone
    cases hs : (i.walk v t).saved with
    | nil =>
      rw [path_concat fun j => hpop ▸ not_matches_of_saved_nil hs, hpop]
      simpa [Command.isMotion, Walk.step, hs] using turtle_path v t
    | cons s rest =>
      obtain ⟨a, o, u, rfl, ho, hu, hturtle, -⟩ := exists_open_of_saved hs
      rw [List.append_assoc, path_group ho hu hpop, turtle_path a t, hturtle, hpop]
      simp only [Walk.step, hs]
  · rw [path_concat_of_ne_pop hpop]
    cases hc : (i.command l).isMotion with
    | true =>
      rw [if_pos rfl, walk_concat]
      exact Walk.turtle_step_congr hc (turtle_path v t)
    | false =>
      rw [if_neg Bool.false_ne_true, List.append_nil, turtle_path v t]
      exact (Walk.turtle_step_of_not_isMotion hc hpop _).symm
termination_by w.length

/-- The segment of the letter at `k`: the last one of the path that leads to it. -/
def pathSegment (i : Interpreter) (w : Word) (t : Turtle) (k : Nat) : Option Segment :=
  w[k]?.bind fun l =>
    if (i.command l).strides then
      (i.interpret (i.path (w.take k) ++ [l]) t).segments.getLast?
    else none

theorem segments_concat (hl : (i.command l).strides) (v : Word) (t : Turtle) :
    (i.interpret (v ++ [l]) t).segments = (i.interpret v t).segments ++
      [(i.walk v t).turtle.stride i.gait.stepLength (i.command l == .draw)] := by
  rw [interpret, walk_concat]
  exact Walk.segments_step_of_strides hl _

theorem segments_concat_of_not_strides (hl : ¬ (i.command l).strides) (v : Word) (t : Turtle) :
    (i.interpret (v ++ [l]) t).segments = (i.interpret v t).segments := by
  rw [interpret, walk_concat, Walk.segments_step_of_not_strides hl, interpret]

theorem segments_take_succ (hk : w[k]? = some l) (hl : (i.command l).strides) (t : Turtle) :
    ∃ s, i.pathSegment w t k = some s ∧
      (i.interpret (w.take (k + 1)) t).segments = (i.interpret (w.take k) t).segments ++ [s] := by
  rw [List.take_add_one, hk, Option.toList_some, segments_concat hl]
  refine ⟨_, ?_, rfl⟩
  rw [pathSegment, hk, Option.bind_some, if_pos hl, segments_concat hl, turtle_path,
    List.getLast?_concat]

theorem segments_take (w : Word) (t : Turtle) (hk : k ≤ w.length) :
    (i.interpret (w.take k) t).segments = (List.range k).filterMap (i.pathSegment w t) := by
  induction k with
  | zero => rfl
  | succ k ih =>
    have hw : w[k]? = some w[k] := List.getElem?_eq_getElem hk
    rw [List.range_succ, List.filterMap_append, ← ih (Nat.le_of_lt hk)]
    by_cases hl : (i.command w[k]).strides
    · obtain ⟨s, hs, hseg⟩ := segments_take_succ hw hl t
      rw [hseg, List.filterMap_cons_some hs, List.filterMap_nil]
    · have hs : i.pathSegment w t k = none := by
        rw [pathSegment, hw, Option.bind_some, if_neg hl]
      rw [List.take_add_one, hw, Option.toList_some, segments_concat_of_not_strides hl,
        List.filterMap_cons_none hs, List.filterMap_nil, List.append_nil]

/-- The path of a word leads to its final state, and the segments of the word are the last ones of
the paths to its letters that go forward. -/
theorem interpret_path (i : Interpreter) (w : Word) (t : Turtle) :
    (∀ l ∈ i.path w, (i.command l).isMotion) ∧
    (i.interpret w t).finalState = (i.interpret (i.path w) t).finalState ∧
    (∀ k l, w[k]? = some l → (i.command l).strides →
      ∃ s, (i.interpret (i.path (w.take k) ++ [l]) t).segments.getLast? = some s ∧
        (i.interpret (w.take (k + 1)) t).segments =
          (i.interpret (w.take k) t).segments ++ [s]) ∧
    (i.interpret w t).segments = (List.range w.length).filterMap (i.pathSegment w t) := by
  refine ⟨fun l => isMotion_of_mem_path, (turtle_path w t).symm, fun k l hk hl => ?_, ?_⟩
  · obtain ⟨s, hs, hseg⟩ := segments_take_succ hk hl t
    rw [pathSegment, hk, Option.bind_some, if_pos hl] at hs
    exact ⟨s, hs, hseg⟩
  · rw [← segments_take w t (Nat.le_refl _), List.take_length]

example : (populate ⟨.standard, []⟩).path
    [.plain "]", .plain "F", .plain "[", .plain "+", .plain "F", .plain "]", .plain "A",
      .plain "[", .plain "-"] = [.plain "F", .plain "-"] := by
  rfl

end Interpreter

end LSystem
