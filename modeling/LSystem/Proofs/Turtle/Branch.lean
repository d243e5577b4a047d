import LSystem.Proofs.Turtle.Frame

/-! # Branches

A branch is a nested word between a letter that saves and one that returns. It adds its own segments
and moves on the count of letters; everything else goes on as if it were not there, whatever is open
or unmatched around it.
-/

namespace LSystem.Interpreter

open Brackets

/-- The walk along a word that starts with nothing saved and nothing read. -/
def excursion (i : Interpreter) (t : Turtle) (u : Word) : Walk := i.resume (.begin t) u

variable {i : Interpreter} {o c : Letter} {u : Word}

theorem saved_excursion (hu : Nested (i.commands u)) (t : Turtle) :
    (i.excursion t u).saved = [] := by
  have hl : (i.excursion t u).saved.length + _ = 0 + _ :=
    length_saved_resume (b := .begin t) hu.covered
  rw [hu.closed] at hl
  exact List.eq_nil_of_length_eq_zero (by omega)

theorem unmatchedPops_excursion (hu : Nested (i.commands u)) (t : Turtle) :
    (i.excursion t u).unmatchedPops = #[] :=
  unmatchedPops_resume (b := .begin t) hu.covered

theorem count_excursion (t : Turtle) : (i.excursion t u).count = u.length :=
  (i.count_resume (.begin t) u).trans (Nat.zero_add _)

/-- A nested word in the middle of a walk is an excursion above the turtles saved before. -/
theorem resume_nested (hu : Nested (i.commands u)) (walk : Walk) :
    i.resume walk u = ((i.excursion walk.turtle u).above walk.saved).after walk := by
  have hb : walk.restart = (Walk.begin walk.turtle).above walk.saved := rfl
  rw [resume_eq, hb, resume_above (b := .begin walk.turtle) walk.saved hu.covered, excursion]

/-- The walk after a branch, which differs from the walk before it in segments and count alone. -/
def pastBranch (i : Interpreter) (walk : Walk) (u : Word) : Walk :=
  { walk with
    segments := walk.segments ++ (i.excursion walk.turtle u).segments
    count := walk.count + (u.length + 2) }

theorem resume_branch (ho : i.command o = .push) (hc : i.command c = .pop)
    (hu : Nested (i.commands u)) (walk : Walk) (s : Word) :
    i.resume walk (o :: (u ++ c :: s)) = i.resume (i.pastBranch walk u) s := by
  have hs := saved_excursion hu walk.turtle
  have hp := unmatchedPops_excursion hu walk.turtle
  have hn : (i.excursion walk.turtle u).count = u.length := count_excursion _
  have hback : ((i.resume (walk.step i.gait .push) u).step i.gait .pop) = i.pastBranch walk u := by
    rw [resume_nested hu]
    simp only [Walk.step, Walk.after, Walk.above, pastBranch, hs, hp, hn, List.nil_append,
      Array.map_empty, Array.append_empty, Walk.mk.injEq, true_and]
    omega
  rw [resume_cons, ho, resume_append, resume_cons, hc, hback]

theorem segments_nested (hu : Nested (i.commands u)) (p : Word) (t : Turtle) :
    (i.interpret (p ++ u) t).segments =
      (i.interpret p t).segments ++ (i.excursion (i.walk p t).turtle u).segments.toList := by
  simp [interpret, walk_append, resume_nested hu, Walk.after, Walk.above]

/-- What follows a branch does the same with and without it. -/
theorem walk_branch (ho : i.command o = .push) (hc : i.command c = .pop)
    (hu : Nested (i.commands u)) (p s : Word) (t : Turtle) :
    i.walk (p ++ o :: (u ++ c :: s)) t =
      (i.resume (i.walk p t).restart s).after (i.pastBranch (i.walk p t) u) := by
  rw [walk_append, resume_branch ho hc hu, resume_eq]
  rfl

theorem interpret_branch (ho : i.command o = .push) (hc : i.command c = .pop)
    (hu : Nested (i.commands u)) (p s : Word) (t : Turtle) :
    let whole := i.interpret (p ++ o :: (u ++ c :: s)) t
    let trunk := i.interpret (p ++ s) t
    whole.finalState = trunk.finalState ∧
    whole.openBranches = trunk.openBranches ∧
    (∀ a b, (i.interpret (p ++ u) t).segments = (i.interpret p t).segments ++ a →
      trunk.segments = (i.interpret p t).segments ++ b →
      whole.segments = (i.interpret p t).segments ++ a ++ b) ∧
    whole.unmatchedPops =
      trunk.unmatchedPops.map fun k => if p.length ≤ k then k + (u.length + 2) else k := by
  have hwhole := walk_branch ho hc hu p s t
  have htrunk : i.walk (p ++ s) t = (i.resume (i.walk p t).restart s).after (i.walk p t) := by
    rw [walk_append, resume_eq]
  refine ⟨?_, ?_, ?_, ?_⟩
  · simp only [interpret, hwhole, htrunk, Walk.after]
  · simp only [interpret, hwhole, htrunk, Walk.after]
  · intro a b ha hb
    rw [segments_nested hu] at ha
    simp only [interpret, htrunk, Walk.after, Array.toList_append] at hb
    simp only [interpret, hwhole, Walk.after, pastBranch, Array.toList_append,
      List.append_cancel_left ha, List.append_cancel_left hb]
  · -- the places before the branch stay, those of what follows it are counted on
    have hlt : ∀ k ∈ (i.walk p t).unmatchedPops.toList, k < p.length := by
      intro k hk
      have := i.inRange_walk p t k (Array.mem_toList_iff.mp hk)
      rwa [count_walk] at this
    simp only [interpret, hwhole, htrunk, Walk.after, pastBranch, count_walk, Array.toList_append,
      Array.toList_map, List.map_append, List.map_map]
    congr 1
    · refine (List.map_id _).symm.trans (List.map_congr_left fun k hk => ?_)
      rw [if_neg (Nat.not_le.mpr (hlt k hk)), id]
    · refine List.map_congr_left fun k _ => ?_
      simp only [Function.comp, Nat.le_add_left, if_true]
      omega

theorem interpret_branch_unbalanced :
    let i := populate ⟨.standard, []⟩
    let p := [.plain "]", .plain "F", .plain "["]
    let u := [.plain "F", .plain "[", .plain "+", .plain "F", .plain "]", .plain "F"]
    let s := [.plain "F", .plain "]", .plain "]", .plain "["]
    let whole := i.interpret (p ++ .plain "[" :: (u ++ .plain "]" :: s)) .home
    (i.command (.plain "[") = .push ∧ i.command (.plain "]") = .pop ∧ Nested (i.commands u)) ∧
      whole.finalState = (i.interpret (p ++ s) .home).finalState ∧
      whole.unmatchedPops = [0, 13] ∧ whole.openBranches = 1 := by
  intro i p u s whole
  have ho : i.command (.plain "[") = .push := by decide
  have hc : i.command (.plain "]") = .pop := by decide
  have hu : Nested (i.commands u) := by decide
  obtain ⟨hstate, hopen, -, hpops⟩ := interpret_branch ho hc hu p s .home
  exact ⟨⟨ho, hc, hu⟩, hstate, hpops.trans rfl, hopen.trans rfl⟩

end LSystem.Interpreter
