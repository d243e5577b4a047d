import Mathlib.Data.List.Induction
import Mathlib.Data.List.Infix
import Mathlib.Data.List.Nodup
import LSystem.Proofs.Turtle.Path
import LSystem.Raster.Drawing

/-! # The tally of a walk

A walk leaves one segment for every letter that goes forward, drawn or not as its command says. It
records exactly the returns that match no save, in reading order, and at its end as many turtles are
saved as there are saves that no return matches: a bracket matches one other bracket at most.
-/

namespace LSystem

/-- Whether the segment of a command is drawn, `none` when there is no segment. -/
def Command.stroke? : Command → Option Bool
  | .draw => some true
  | .move => some false
  | _ => none

theorem Command.isSome_stroke? (c : Command) : c.stroke?.isSome = c.strides := by
  cases c <;> rfl

theorem Command.length_filterMap_stroke? (cs : List Command) :
    (cs.filterMap stroke?).length = cs.count .draw + cs.count .move := by
  induction cs with
  | nil => rfl
  | cons c cs ih => cases c <;> simp [stroke?, List.filterMap_cons, ih] <;> omega

theorem Command.count_filterMap_stroke? (cs : List Command) :
    (cs.filterMap stroke?).count true = cs.count .draw := by
  induction cs with
  | nil => rfl
  | cons c cs ih => cases c <;> simp [stroke?, List.filterMap_cons, ih]

namespace Brackets

variable {cs : List Command} {c : Command} {i j k : Nat}

section Unique

theorem Matches.not_lt_left (hi : Matches cs i k) (hj : Matches cs j k) : ¬ i < j := by
  intro hij
  obtain ⟨hlen, hpush⟩ := List.getElem?_eq_some_iff.mp hj.push
  have hjt : j < (cs.take k).length := by
    rw [List.length_take]
    exact Nat.lt_min.mpr ⟨hj.lt, hlen⟩
  have hsplit : (cs.take k).drop (i + 1) =
      ((cs.take k).take j).drop (i + 1) ++ .push :: (cs.take k).drop (j + 1) := by
    have hat : (cs.take k)[j] = .push := by rw [List.getElem_take, hpush]
    rw [← hat, List.getElem_cons_drop hjt, ← List.drop_append_of_le_length]
    · rw [List.take_append_drop]
    · rw [List.length_take, Nat.min_eq_left (Nat.le_of_lt hjt)]
      exact hij
  exact not_nested_of_open hj.nested.covered (hsplit ▸ hi.nested)

theorem Matches.not_lt_right (hj : Matches cs i j) (hk : Matches cs i k) : ¬ j < k := by
  intro hjk
  obtain ⟨hlen, hpop⟩ := List.getElem?_eq_some_iff.mp hj.pop
  have hpre : (cs.take (j + 1)).drop (i + 1) <+: (cs.take k).drop (i + 1) :=
    List.IsPrefix.drop (List.take_prefix_take_left hjk) (i + 1)
  have hsplit : (cs.take (j + 1)).drop (i + 1) = (cs.take j).drop (i + 1) ++ [.pop] := by
    rw [List.take_succ_eq_append_getElem hlen, hpop, List.drop_append_of_le_length]
    rw [List.length_take, Nat.min_eq_left (Nat.le_of_lt hlen)]
    exact hj.lt
  have hcount := hk.nested.covered _ hpre
  have hpush : [Command.pop].count .push = 0 := rfl
  rw [hsplit, List.count_append, List.count_append, hj.nested.closed,
    List.count_singleton_self, hpush] at hcount
  omega

theorem Matches.eq_left (h : Matches cs i k) (h' : Matches cs j k) : i = j :=
  Nat.le_antisymm (Nat.le_of_not_lt (h'.not_lt_left h)) (Nat.le_of_not_lt (h.not_lt_left h'))

theorem Matches.eq_right (h : Matches cs i j) (h' : Matches cs i k) : j = k :=
  Nat.le_antisymm (Nat.le_of_not_lt (h'.not_lt_right h)) (Nat.le_of_not_lt (h.not_lt_right h'))

end Unique

/-- The command at a place returns, and no save matches it. -/
def UnmatchedPop (cs : List Command) (k : Nat) : Prop :=
  cs[k]? = some .pop ∧ ∀ i < k, ¬ Matches cs i k

/-- The command at a place saves, and no return matches it. -/
def OpenPush (cs : List Command) (k : Nat) : Prop :=
  cs[k]? = some .push ∧ ∀ j < cs.length, ¬ Matches cs k j

instance (cs : List Command) (k : Nat) : Decidable (UnmatchedPop cs k) :=
  inferInstanceAs (Decidable (_ ∧ ∀ i < k, _))

instance (cs : List Command) (k : Nat) : Decidable (OpenPush cs k) :=
  inferInstanceAs (Decidable (_ ∧ ∀ j < cs.length, _))

def unmatchedPops (cs : List Command) : List Nat :=
  (List.range cs.length).filter (UnmatchedPop cs ·)

def openPushes (cs : List Command) : List Nat := (List.range cs.length).filter (OpenPush cs ·)

section Concat

theorem unmatchedPop_concat (hk : k < cs.length) :
    UnmatchedPop (cs ++ [c]) k ↔ UnmatchedPop cs k := by
  simp only [UnmatchedPop, List.getElem?_append_left hk, matches_append hk]

theorem openPush_concat (hk : k < cs.length) :
    OpenPush (cs ++ [c]) k ↔ OpenPush cs k ∧ ¬ Matches (cs ++ [c]) k cs.length := by
  rw [OpenPush, OpenPush, List.getElem?_append_left hk, List.length_append, List.length_singleton,
    and_assoc]
  refine and_congr_right fun _ => ?_
  constructor
  · intro h
    exact ⟨fun j hj hm => h j (Nat.lt_succ_of_lt hj) ((matches_append hj).mpr hm),
      h _ (Nat.lt_succ_self _)⟩
  · rintro ⟨h, hlast⟩ j hj
    rcases Nat.lt_succ_iff_lt_or_eq.mp hj with hj | rfl
    · rw [matches_append hj]
      exact h j hj
    · exact hlast

theorem openPush_concat_length : OpenPush (cs ++ [c]) cs.length ↔ c = .push := by
  rw [OpenPush, List.getElem?_concat_length, Option.some_inj]
  refine and_iff_left fun j hj hm => ?_
  rw [List.length_append, List.length_singleton] at hj
  exact absurd hm.lt (Nat.not_lt.mpr (Nat.le_of_lt_succ hj))

theorem unmatchedPops_concat :
    unmatchedPops (cs ++ [c]) =
      unmatchedPops cs ++ if UnmatchedPop (cs ++ [c]) cs.length then [cs.length] else [] := by
  have hold : (List.range cs.length).filter (UnmatchedPop (cs ++ [c]) ·) = unmatchedPops cs := by
    refine List.filter_congr fun k hk => ?_
    rw [decide_eq_decide, unmatchedPop_concat (List.mem_range.mp hk)]
  rw [unmatchedPops, List.length_append, List.length_singleton, List.range_succ,
    List.filter_append, hold, List.filter_cons, List.filter_nil]
  simp only [decide_eq_true_eq]

theorem openPushes_concat (h : ∀ i, ¬ Matches (cs ++ [c]) i cs.length) :
    openPushes (cs ++ [c]) = openPushes cs ++ if c = .push then [cs.length] else [] := by
  have hold : (List.range cs.length).filter (OpenPush (cs ++ [c]) ·) = openPushes cs := by
    refine List.filter_congr fun k hk => ?_
    rw [decide_eq_decide, openPush_concat (List.mem_range.mp hk), and_iff_left (h k)]
  rw [openPushes, List.length_append, List.length_singleton, List.range_succ,
    List.filter_append, hold, List.filter_cons, List.filter_nil]
  simp only [decide_eq_true_eq, openPush_concat_length]

/-- The save that a return matches has been open, and is the only one that no longer is. -/
theorem openPushes_concat_of_matches (h : Matches (cs ++ [c]) i cs.length) :
    i ∈ openPushes cs ∧ openPushes (cs ++ [c]) = (openPushes cs).erase i := by
  have hi : i < cs.length := h.lt
  have hopen : OpenPush cs i := by
    refine ⟨List.getElem?_append_left hi ▸ h.push, fun j hj hm => ?_⟩
    exact Nat.ne_of_lt hj (((matches_append hj).mpr hm).eq_right h)
  have hc : c ≠ .push := by
    rintro rfl
    have hpop := h.pop
    rw [List.getElem?_concat_length] at hpop
    cases hpop
  refine ⟨List.mem_filter.mpr ⟨List.mem_range.mpr hi, decide_eq_true hopen⟩, ?_⟩
  have hold : (List.range cs.length).filter (OpenPush (cs ++ [c]) ·) =
      (openPushes cs).erase i := by
    rw [openPushes, (List.nodup_range.filter _).erase_eq_filter, List.filter_filter]
    refine List.filter_congr fun k hk => ?_
    have hki : Matches (cs ++ [c]) k cs.length ↔ k = i :=
      ⟨fun hm => hm.eq_left h, fun hk => hk ▸ h⟩
    rw [Bool.eq_iff_iff]
    simp [openPush_concat (List.mem_range.mp hk), hki, and_comm]
  rw [openPushes, List.length_append, List.length_singleton, List.range_succ,
    List.filter_append, hold, List.filter_cons, List.filter_nil]
  simp [openPush_concat_length, hc]

end Concat

end Brackets

namespace Interpreter

open Brackets

variable (i : Interpreter)

theorem commands_concat (v : Word) (l : Letter) :
    i.commands (v ++ [l]) = i.commands v ++ [i.command l] :=
  i.commands_append v [l]

theorem exists_matches_of_saved {v : Word} {t s : Turtle} {rest : List Turtle}
    (h : (i.walk v t).saved = s :: rest) :
    ∃ k, Matches (i.commands v ++ [.pop]) k (i.commands v).length := by
  obtain ⟨a, o, u, rfl, ho, hu, -, -⟩ := exists_open_of_saved h
  refine ⟨_, matches_concat_pop.mpr ⟨i.commands a, i.commands u, ?_, rfl, hu⟩⟩
  rw [commands_append, ← ho]
  rfl

/-- The segments are those of the letters that go forward, one for each. -/
theorem map_drawn_segments (w : Word) (t : Turtle) :
    (i.interpret w t).segments.map Segment.drawn = (i.commands w).filterMap Command.stroke? := by
  induction w using List.reverseRecOn with
  | nil => rfl
  | append_singleton v l ih =>
    rw [commands_concat, List.filterMap_append, ← ih]
    by_cases hl : (i.command l).strides
    · rw [segments_concat hl, List.map_append]
      cases hc : i.command l with
      | draw | move => rfl
      | turnLeft | turnRight | turnAround | push | pop | ignore => rw [hc] at hl; cases hl
    · have hnone : (i.command l).stroke? = none := by
        rwa [← Option.not_isSome_iff_eq_none, Command.isSome_stroke?]
      rw [segments_concat_of_not_strides hl, List.filterMap_cons_none hnone, List.filterMap_nil,
        List.append_nil]

theorem length_segments (w : Word) (t : Turtle) :
    (i.interpret w t).segments.length =
      (i.commands w).count .draw + (i.commands w).count .move := by
  rw [← List.length_map Segment.drawn, map_drawn_segments, Command.length_filterMap_stroke?]

theorem countDrawn_segments (w : Word) (t : Turtle) :
    countDrawn (i.interpret w t).segments = (i.commands w).count .draw := by
  rw [← Command.count_filterMap_stroke?, ← map_drawn_segments i w t, List.count, List.countP_map]
  refine List.countP_congr fun s _ => ?_
  rw [Function.comp, beq_true]

theorem unmatchedPops_walk (w : Word) (t : Turtle) :
    (i.walk w t).unmatchedPops.toList = unmatchedPops (i.commands w) := by
  induction w using List.reverseRecOn with
  | nil => rfl
  | append_singleton v l ih =>
    rw [walk_concat, commands_concat, unmatchedPops_concat, ← ih]
    cases hc : i.command l with
    | pop =>
      cases hs : (i.walk v t).saved with
      | nil =>
        have hpop : UnmatchedPop (i.commands v ++ [.pop]) (i.commands v).length :=
          ⟨List.getElem?_concat_length, fun k _ => length_commands (i := i) v ▸
            not_matches_of_saved_nil hs⟩
        rw [if_pos hpop, Walk.step, hs]
        simp [count_walk, length_commands]
      | cons s rest =>
        obtain ⟨k, hk⟩ := i.exists_matches_of_saved hs
        rw [if_neg fun h => h.2 k hk.lt hk, Walk.step, hs, List.append_nil]
    | draw | move | turnLeft | turnRight | turnAround | push | ignore =>
      have hne : ¬ UnmatchedPop (i.commands v ++ [i.command l]) (i.commands v).length := by
        rintro ⟨hpop, -⟩
        rw [List.getElem?_concat_length, hc] at hpop
        cases hpop
      rw [hc] at hne
      rw [if_neg hne, List.append_nil]
      rfl

theorem length_saved_walk (w : Word) (t : Turtle) :
    (i.walk w t).saved.length = (openPushes (i.commands w)).length := by
  induction w using List.reverseRecOn with
  | nil => rfl
  | append_singleton v l ih =>
    rw [walk_concat, commands_concat, Walk.length_saved_step, ih]
    cases hc : i.command l with
    | pop =>
      cases hs : (i.walk v t).saved with
      | nil =>
        have hnone : ∀ k, ¬ Matches (i.commands v ++ [.pop]) k (i.commands v).length :=
          fun k => length_commands (i := i) v ▸ not_matches_of_saved_nil hs
        rw [hs, List.length_nil] at ih
        rw [openPushes_concat hnone, if_neg (by decide), List.append_nil, ← ih]
        rfl
      | cons s rest =>
        obtain ⟨k, hk⟩ := i.exists_matches_of_saved hs
        obtain ⟨hmem, herase⟩ := openPushes_concat_of_matches hk
        rw [herase, List.length_erase_of_mem hmem]
        rfl
    | push =>
      rw [openPushes_concat fun k => not_matches_concat (by decide), if_pos rfl,
        List.length_append]
      rfl
    | draw | move | turnLeft | turnRight | turnAround | ignore =>
      rw [openPushes_concat fun k => not_matches_concat (by decide), if_neg (by decide),
        List.append_nil]
      rfl

end Interpreter

end LSystem
