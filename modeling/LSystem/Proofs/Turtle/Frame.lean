import LSystem.Proofs.Turtle.Brackets
import LSystem.Turtle.Interpretation

/-! # Walks in context

A walk that goes on in the middle of a word does what it would do on its own. Earlier segments and
earlier unmatched returns stand in front of its own, with its places counted on from theirs, and
turtles saved below a covered word are never touched.
-/

namespace LSystem

namespace Walk

def after (w earlier : Walk) : Walk where
  turtle := w.turtle
  saved := w.saved
  segments := earlier.segments ++ w.segments
  unmatchedPops := earlier.unmatchedPops ++ w.unmatchedPops.map (· + earlier.count)
  count := w.count + earlier.count

def above (w : Walk) (below : List Turtle) : Walk := { w with saved := w.saved ++ below }

def restart (w : Walk) : Walk := ⟨w.turtle, w.saved, #[], #[], 0⟩

@[simp] theorem restart_after (w : Walk) : w.restart.after w = w := by
  simp [restart, after]

variable {g : Gait} {w : Walk} {c : Command}

theorem step_after (earlier : Walk) : (w.after earlier).step g c = (w.step g c).after earlier := by
  cases c with
  | draw | move => simp [step, after, advance, Nat.add_right_comm]
  | turnLeft | turnRight | turnAround => simp [step, after, turn, Nat.add_right_comm]
  | push | ignore => simp [step, after, Nat.add_right_comm]
  | pop =>
    cases hs : w.saved with
    | nil => simp [step, after, hs, Nat.add_right_comm]
    | cons t rest => simp [step, after, hs, Nat.add_right_comm]

theorem length_saved_step : (w.step g c).saved.length = c.depthAfter w.saved.length := by
  cases c with
  | draw | move | turnLeft | turnRight | turnAround | ignore => rfl
  | push => rfl
  | pop => cases hs : w.saved <;> simp [step, hs, Command.depthAfter]

/-- Turtles below are touched only by a return with nothing saved above them. -/
theorem step_above (below : List Turtle) (h : c = .pop → 0 < w.saved.length) :
    (w.above below).step g c = (w.step g c).above below := by
  cases c with
  | draw | move | turnLeft | turnRight | turnAround | ignore | push => rfl
  | pop =>
    obtain ⟨t, rest, hs⟩ := List.exists_cons_of_length_pos (h rfl)
    simp [step, above, hs]

theorem unmatchedPops_step (h : c = .pop → 0 < w.saved.length) :
    (w.step g c).unmatchedPops = w.unmatchedPops := by
  cases c with
  | draw | move | turnLeft | turnRight | turnAround | ignore | push => rfl
  | pop =>
    obtain ⟨t, rest, hs⟩ := List.exists_cons_of_length_pos (h rfl)
    simp [step, hs]

def InRange (w : Walk) : Prop := ∀ k ∈ w.unmatchedPops, k < w.count

theorem inRange_step (h : w.InRange) : (w.step g c).InRange := by
  intro k hk
  rw [count_step]
  cases c with
  | draw | move | turnLeft | turnRight | turnAround | ignore | push =>
    exact Nat.lt_succ_of_lt (h k hk)
  | pop =>
    cases hs : w.saved with
    | cons t rest =>
      simp only [step, hs] at hk
      exact Nat.lt_succ_of_lt (h k hk)
    | nil =>
      simp only [step, hs, Array.mem_push] at hk
      rcases hk with hk | rfl
      · exact Nat.lt_succ_of_lt (h k hk)
      · exact Nat.lt_succ_self _

end Walk

namespace Interpreter

open Brackets

variable (i : Interpreter)

def commands (w : Word) : List Command := w.map i.command

def resume (walk : Walk) (w : Word) : Walk :=
  w.foldl (fun walk l => walk.step i.gait (i.command l)) walk

@[simp] theorem resume_nil (walk : Walk) : i.resume walk [] = walk := rfl

@[simp] theorem resume_cons (walk : Walk) (l : Letter) (w : Word) :
    i.resume walk (l :: w) = i.resume (walk.step i.gait (i.command l)) w := rfl

theorem resume_append (walk : Walk) (u v : Word) :
    i.resume walk (u ++ v) = i.resume (i.resume walk u) v :=
  List.foldl_append

theorem walk_append (u v : Word) (t : Turtle) :
    i.walk (u ++ v) t = i.resume (i.walk u t) v :=
  i.resume_append _ u v

theorem count_resume (walk : Walk) (w : Word) :
    (i.resume walk w).count = walk.count + w.length := by
  induction w generalizing walk with
  | nil => rfl
  | cons l w ih => simp [ih]; omega

theorem count_walk (w : Word) (t : Turtle) : (i.walk w t).count = w.length :=
  (i.count_resume (.begin (ready t)) w).trans (Nat.zero_add _)

theorem inRange_resume {walk : Walk} (h : walk.InRange) (w : Word) :
    (i.resume walk w).InRange := by
  induction w generalizing walk with
  | nil => exact h
  | cons l w ih => exact ih (Walk.inRange_step h)

theorem inRange_walk (w : Word) (t : Turtle) : (i.walk w t).InRange :=
  i.inRange_resume (fun _ hk => absurd hk (Array.not_mem_empty _)) w

theorem resume_after (walk earlier : Walk) (w : Word) :
    i.resume (walk.after earlier) w = (i.resume walk w).after earlier := by
  induction w generalizing walk with
  | nil => rfl
  | cons l w ih => rw [resume_cons, resume_cons, Walk.step_after, ih]

/-- A walk that goes on is a walk of its own, after the earlier one. -/
theorem resume_eq (walk : Walk) (w : Word) :
    i.resume walk w = (i.resume walk.restart w).after walk := by
  rw [← resume_after, Walk.restart_after]

section Covered

variable {i} {b : Walk} {w : Word}

theorem resume_above (below : List Turtle) (h : Covered b.saved.length (i.commands w)) :
    i.resume (b.above below) w = (i.resume b w).above below := by
  induction w generalizing b with
  | nil => rfl
  | cons l w ih =>
    have hl : i.command l = .pop → 0 < b.saved.length := h.pos_of_pop
    rw [resume_cons, resume_cons, Walk.step_above below hl]
    refine ih ?_
    rw [Walk.length_saved_step]
    exact h.tail

theorem unmatchedPops_resume (h : Covered b.saved.length (i.commands w)) :
    (i.resume b w).unmatchedPops = b.unmatchedPops := by
  induction w generalizing b with
  | nil => rfl
  | cons l w ih =>
    have hl : i.command l = .pop → 0 < b.saved.length := h.pos_of_pop
    rw [resume_cons, ih, Walk.unmatchedPops_step hl]
    rw [Walk.length_saved_step]
    exact h.tail

theorem length_saved_resume (h : Covered b.saved.length (i.commands w)) :
    (i.resume b w).saved.length + (i.commands w).count .pop =
      b.saved.length + (i.commands w).count .push := by
  induction w generalizing b with
  | nil => simp [commands]
  | cons l w ih =>
    have ht := ih (b := b.step i.gait (i.command l)) (Walk.length_saved_step ▸ h.tail)
    have hd := Command.depthAfter_add h.pos_of_pop
    rw [Walk.length_saved_step] at ht
    rw [commands, List.map_cons, List.count_cons, List.count_cons]
    rw [commands] at ht
    rw [resume_cons]
    omega

end Covered

end Interpreter

end LSystem
