import LSystem.Derivation

/-! # Generations

The words that a rule set gives a word when nothing limits their length, with the source threaded
from generation to generation. A derivation lists the words of the generations as long as each of
them is within the limit, and stops at the first that is not.
-/

namespace LSystem

section Run

theorem bind_eq_ok_iff {α β ε : Type} {x : Except ε α} {f : α → Except ε β} {b : β} :
    x >>= f = .ok b ↔ ∃ a, x = .ok a ∧ f a = .ok b := by
  cases x with
  | ok a =>
    constructor
    · intro h
      exact ⟨a, rfl, h⟩
    · rintro ⟨_, ⟨⟩, h⟩
      exact h
  | error e =>
    constructor
    · nofun
    · rintro ⟨_, ⟨⟩, -⟩

variable {σ α β ε : Type} {x : ExceptT ε (StateM σ) α} {f : α → ExceptT ε (StateM σ) β} {s r : σ}

theorem run_bind_of_ok {a : α} (h : x.run.run s = (.ok a, r)) :
    (x >>= f).run.run s = (f a).run.run r := by
  simp only [ExceptT.run_bind, StateT.run_bind, h]
  rfl

theorem run_bind_of_error {e : ε} (h : x.run.run s = (.error e, r)) :
    (x >>= f).run.run s = (.error e, r) := by
  simp only [ExceptT.run_bind, StateT.run_bind, h]
  rfl

theorem run_liftM_state (y : StateM σ α) :
    ((liftM y : ExceptT ε (StateM σ) α).run).run s = (.ok (y.run s).1, (y.run s).2) := rfl

theorem run_liftM_bind_of_ok {y : Except ε α} {a : α} (h : y = .ok a) :
    ((liftM y : ExceptT ε (StateM σ) α) >>= f).run.run s = (f a).run.run s :=
  run_bind_of_ok (congrArg (·, s) h)

theorem run_liftM_bind_of_error {y : Except ε α} {e : ε} (h : y = .error e) :
    ((liftM y : ExceptT ε (StateM σ) α) >>= f).run.run s = (.error e, s) :=
  run_bind_of_error (congrArg (·, s) h)

end Run

variable {σ : Type} [Source σ]

namespace RuleSet

theorem mem_of_get? {rs : RuleSet} {symbol : String} {r : Rule}
    (h : rs.get? symbol = some r) : r ∈ rs.toList := by
  obtain ⟨place, -, hplace⟩ := Option.bind_eq_some_iff.mp h
  exact Array.mem_toList_iff.mpr (Array.mem_of_getElem? hplace)

theorem run_grow_cons (rs : RuleSet) (l : Letter) (w : Word) (s : σ) :
    (rs.grow (l :: w)).run s =
      (((rs.expand l).run s).1 ++ ((rs.grow w).run ((rs.expand l).run s).2).1,
        ((rs.grow w).run ((rs.expand l).run s).2).2) := by
  rw [grow_cons]
  rfl

/-- The word of a generation after `w`, and the source that is left after it. -/
def generation (rs : RuleSet) (w : Word) (s : σ) : Nat → Word × σ
  | 0 => (w, s)
  | n + 1 =>
    let (u, r) := rs.generation w s n
    (rs.grow u).run r

theorem run_grow_empty (w : Word) (s : σ) : (RuleSet.empty.grow w).run s = (w, s) := by
  induction w with
  | nil => rfl
  | cons l w ih =>
    have hl : RuleSet.empty.expand (σ := σ) l = pure [l] := by
      simp [expand, get?, RuleSet.empty]
    have hrun : (RuleSet.empty.expand l).run s = ([l], s) := by
      rw [hl]
      rfl
    rw [run_grow_cons, hrun, ih]
    rfl

theorem generation_empty (w : Word) (s : σ) (n : Nat) :
    RuleSet.empty.generation w s n = (w, s) := by
  induction n with
  | zero => rfl
  | succ n ih =>
    rw [generation, ih]
    exact run_grow_empty w s

variable (rs : RuleSet) (w : Word) (s : σ)

@[simp] theorem generation_zero : rs.generation w s 0 = (w, s) := rfl

theorem generation_succ (n : Nat) :
    rs.generation w s (n + 1) =
      (rs.grow (rs.generation w s n).1).run (rs.generation w s n).2 := rfl

theorem generation_succ' (n : Nat) :
    rs.generation w s (n + 1) =
      rs.generation ((rs.grow w).run s).1 ((rs.grow w).run s).2 n := by
  induction n with
  | zero => rfl
  | succ n ih => rw [generation_succ, ih, ← generation_succ]

end RuleSet

namespace Grammar

/-- A word is no longer than the limit, if there is one. -/
def Fits (g : Grammar) (w : Word) : Prop := ∀ limit, g.wordLimit = some limit → w.length ≤ limit

variable {g : Grammar} {w : Word} {limit n k depth : Nat} {s : σ}

theorem exists_of_not_fits (h : ¬ g.Fits w) :
    ∃ limit, g.wordLimit = some limit ∧ limit < w.length := by
  simpa only [Fits, Classical.not_forall, exists_prop, Nat.not_le] using h

theorem checkLength_of_fits (h : g.Fits w) : g.checkLength n w = .ok () := by
  unfold checkLength
  split
  · rename_i limit hlimit
    rw [if_neg (Nat.not_lt.mpr (h limit hlimit))]
  · rfl

theorem checkLength_of_lt (hl : g.wordLimit = some limit) (h : limit < w.length) :
    g.checkLength n w = .error (.wordLimitExceeded n w.length limit) := by
  simp only [checkLength, hl, if_pos h]

theorem run_deriveFrom_succ_of_fits (h : g.Fits ((g.rules.grow w).run s).1) :
    (g.deriveFrom n w (depth + 1)).run.run s =
      (do return ((g.rules.grow w).run s).1 ::
          (← g.deriveFrom (n + 1) ((g.rules.grow w).run s).1 depth) :
        ExceptT _ (StateM σ) _).run.run ((g.rules.grow w).run s).2 := by
  rw [deriveFrom, run_bind_of_ok (run_liftM_state _), run_liftM_bind_of_ok (checkLength_of_fits h)]

theorem run_deriveFrom_succ_of_lt (hl : g.wordLimit = some limit)
    (h : limit < ((g.rules.grow w).run s).1.length) :
    (g.deriveFrom n w (depth + 1)).run.run s =
      (.error (.wordLimitExceeded (n + 1) ((g.rules.grow w).run s).1.length limit),
        ((g.rules.grow w).run s).2) := by
  rw [deriveFrom, run_bind_of_ok (run_liftM_state _),
    run_liftM_bind_of_error (checkLength_of_lt hl h)]

theorem run_deriveFrom_of_fits (h : ∀ k < depth, g.Fits (g.rules.generation w s (k + 1)).1) :
    (g.deriveFrom n w depth).run.run s =
      (.ok ((List.range depth).map fun k => (g.rules.generation w s (k + 1)).1),
        (g.rules.generation w s depth).2) := by
  induction depth generalizing n w s with
  | zero => rfl
  | succ depth ih =>
    have hu : g.Fits ((g.rules.grow w).run s).1 := h 0 (Nat.succ_pos _)
    have hrest := ih (n := n + 1) (w := ((g.rules.grow w).run s).1)
      (s := ((g.rules.grow w).run s).2) fun k hk => by
        rw [← RuleSet.generation_succ']
        exact h (k + 1) (Nat.succ_lt_succ hk)
    rw [run_deriveFrom_succ_of_fits hu, run_bind_of_ok hrest, List.range_succ_eq_map]
    simp only [← RuleSet.generation_succ', List.map_cons, List.map_map]
    rfl

theorem run_deriveFrom_of_lt (hk : k < depth) (hl : g.wordLimit = some limit)
    (hfit : ∀ j < k, g.Fits (g.rules.generation w s (j + 1)).1)
    (hlt : limit < (g.rules.generation w s (k + 1)).1.length) :
    (g.deriveFrom n w depth).run.run s =
      (.error (.wordLimitExceeded (n + k + 1) (g.rules.generation w s (k + 1)).1.length limit),
        (g.rules.generation w s (k + 1)).2) := by
  induction k generalizing n w s depth with
  | zero =>
    obtain ⟨depth, rfl⟩ := Nat.exists_eq_succ_of_ne_zero (Nat.ne_of_gt hk)
    exact run_deriveFrom_succ_of_lt hl hlt
  | succ k ih =>
    obtain ⟨depth, rfl⟩ := Nat.exists_eq_succ_of_ne_zero (Nat.ne_of_gt (Nat.zero_lt_of_lt hk))
    have hu : g.Fits ((g.rules.grow w).run s).1 := hfit 0 (Nat.succ_pos _)
    rw [RuleSet.generation_succ'] at hlt ⊢
    have hrest := ih (n := n + 1) (Nat.lt_of_succ_lt_succ hk)
      (fun j hj => by
        rw [← RuleSet.generation_succ']
        exact hfit (j + 1) (Nat.succ_lt_succ hj)) hlt
    rw [run_deriveFrom_succ_of_fits hu, run_bind_of_error hrest]
    rw [Nat.add_right_comm n 1 k, Nat.add_assoc n k 1]

end Grammar

end LSystem
