import LSystem.Proofs.Turtle.Heading
import LSystem.Proofs.Turtle.Tally

/-! # What letters come to mean

A symbol means the command that was assigned to it last, as long as the table has not been replaced
since. What a letter means depends on no other letter, and a walk leaves one segment for each letter
that means to go forward, whatever its brackets do.
-/

namespace LSystem

inductive TableEdit where
  | assign (symbol : String) (c : Command)
  | replace (table : CommandTable)
  | populate

namespace TableEdit

def apply (t : CommandTable) : TableEdit → CommandTable
  | .assign s c => t.assign s c
  | .replace t' => t'
  | .populate => t.assignAll CommandTable.standardPairs

def assignments : TableEdit → List (String × Command)
  | .assign s c => [(s, c)]
  | .replace t => t.reverse
  | .populate => CommandTable.standardPairs

def Replaces : TableEdit → Prop
  | .replace _ => True
  | _ => False

/-- The last assignment to a symbol that the change makes gives it the command. -/
def Assigns (e : TableEdit) (s : String) (c : Command) : Prop :=
  ∃ before after, e.assignments = before ++ (s, c) :: after ∧ ∀ pair ∈ after, s ≠ pair.1

def Spares (e : TableEdit) (s : String) : Prop :=
  ¬ e.Replaces ∧ ∀ pair ∈ e.assignments, s ≠ pair.1

/-- The last assignment to a symbol since the table was replaced gives it the command. -/
def LastAssigned (es : List TableEdit) (s : String) (c : Command) : Prop :=
  ∃ earlier e later, es = earlier ++ e :: later ∧ e.Assigns s c ∧ ∀ e' ∈ later, e'.Spares s

variable {t : CommandTable} {e : TableEdit} {es : List TableEdit} {s : String} {c : Command}

section Apply

theorem assignAll_eq (pairs : List (String × Command)) :
    t.assignAll pairs = pairs.reverse ++ t := by
  induction pairs generalizing t with
  | nil => rfl
  | cons pair pairs ih =>
    simp only [List.reverse_cons, List.append_assoc]
    exact ih

theorem apply_of_not_replaces (h : ¬ e.Replaces) : e.apply t = e.assignments.reverse ++ t := by
  cases e with
  | assign s c => rfl
  | replace t' => exact absurd trivial h
  | populate => exact assignAll_eq _

theorem lookup_assignments_eq_some_iff :
    e.assignments.reverse.lookup s = some c ↔ e.Assigns s c := by
  simp only [List.lookup_eq_some_iff, Assigns]
  constructor
  · rintro ⟨after, before, heq, hafter⟩
    refine ⟨before.reverse, after.reverse, ?_, by simpa using hafter⟩
    simpa using congrArg List.reverse heq
  · rintro ⟨before, after, heq, hafter⟩
    exact ⟨after.reverse, before.reverse, by simp [heq], by simpa using hafter⟩

theorem lookup_assignments_eq_none_iff :
    e.assignments.reverse.lookup s = none ↔ ∀ pair ∈ e.assignments, s ≠ pair.1 := by
  simp only [List.lookup_eq_none_iff, List.mem_reverse, bne_iff_ne]

theorem get?_apply : (e.apply t).get? s = some c ↔
    e.Assigns s c ∨ e.Spares s ∧ t.get? s = some c := by
  by_cases h : e.Replaces
  · cases e with
    | replace t' =>
      simp only [Spares, h, not_true_eq_false, false_and, or_false,
        ← lookup_assignments_eq_some_iff, assignments, List.reverse_reverse]
      rfl
    | assign | populate => exact h.elim
  · simp only [CommandTable.get?, apply_of_not_replaces h, List.lookup_append,
      Option.or_eq_some_iff, lookup_assignments_eq_some_iff, lookup_assignments_eq_none_iff,
      Spares, h, not_false_eq_true, true_and]

end Apply

section History

theorem not_lastAssigned_nil : ¬ LastAssigned [] s c := by
  rintro ⟨earlier, e, later, heq, -⟩
  simp at heq

theorem lastAssigned_concat :
    LastAssigned (es ++ [e]) s c ↔ e.Assigns s c ∨ e.Spares s ∧ LastAssigned es s c := by
  constructor
  · rintro ⟨earlier, e', later, heq, hassigns, hlater⟩
    rcases List.eq_nil_or_concat' later with rfl | ⟨later, e'', rfl⟩
    · obtain ⟨-, hlast⟩ := List.append_inj' heq rfl
      obtain rfl := List.singleton_inj.mp hlast
      exact .inl hassigns
    · rw [← List.cons_append, ← List.append_assoc] at heq
      obtain ⟨rfl, hlast⟩ := List.append_inj' heq rfl
      obtain rfl := List.singleton_inj.mp hlast
      obtain ⟨hlater, hspares⟩ := List.forall_mem_append.mp hlater
      exact .inr ⟨hspares _ List.mem_cons_self, earlier, e', later, rfl, hassigns, hlater⟩
  · rintro (hassigns | ⟨hspares, earlier, e', later, rfl, hassigns, hlater⟩)
    · exact ⟨es, e, [], rfl, hassigns, fun _ h => absurd h List.not_mem_nil⟩
    · exact ⟨earlier, e', later ++ [e], by simp, hassigns,
        List.forall_mem_append.mpr ⟨hlater, by simpa using hspares⟩⟩

end History

end TableEdit

namespace Interpreter

open TableEdit

/-- The changes that have made the table of an interpreter what it is. One that is made with the
customary commands has them assigned first. -/
inductive History : Interpreter → List TableEdit → Prop
  | plain {g : Gait} {i : Interpreter} : Interpreter.plain g = .ok i → History i []
  | standard {g : Gait} {i : Interpreter} : Interpreter.standard g = .ok i → History i [.populate]
  | edit {i : Interpreter} {es : List TableEdit} (e : TableEdit) :
      History i es → History { i with table := e.apply i.table } (es ++ [e])

/-- What a letter means after changes of the table. -/
inductive Resolves (es : List TableEdit) : Letter → Command → Prop
  | plain {s : String} {c : Command} : LastAssigned es s c → Resolves es (.plain s) c
  | unassigned {s : String} : (∀ c, ¬ LastAssigned es s c) → Resolves es (.plain s) .ignore
  | edge {s : String} {hand : Hand} {c : Command} :
      LastAssigned es s c → Resolves es (.edge s hand) c
  | unassignedEdge {s : String} {hand : Hand} :
      (∀ c, ¬ LastAssigned es s c) → Resolves es (.edge s hand) .draw
  | node {s : String} {entry exit : Anchor} {frame : String} :
      Resolves es (.node s entry exit frame) .ignore

variable {i : Interpreter} {es : List TableEdit} {s : String} {c : Command} {l : Letter} {w : Word}

/-- Each way to come by an interpreter leaves a history. -/
theorem configured_iff : Configured i ↔ ∃ es, History i es := by
  constructor
  · intro h
    induction h with
    | plain h => exact ⟨_, .plain h⟩
    | standard h => exact ⟨_, .standard h⟩
    | assign symbol c h ih => exact ih.imp' _ fun _ h => h.edit (.assign symbol c)
    | replace table h ih => exact ih.imp' _ fun _ h => h.edit (.replace table)
    | populate h ih => exact ih.imp' _ fun _ h => h.edit .populate
  · rintro ⟨es, h⟩
    induction h with
    | plain h => exact .plain h
    | standard h => exact .standard h
    | edit e h ih =>
      cases e with
      | assign symbol c => exact ih.assign symbol c
      | replace table => exact ih.replace table
      | populate => exact ih.populate

theorem History.get?_table (h : History i es) : i.table.get? s = some c ↔ LastAssigned es s c := by
  have hempty : CommandTable.get? [] s = some c ↔ LastAssigned [] s c :=
    iff_of_false (by simp) not_lastAssigned_nil
  induction h with
  | plain h =>
    obtain ⟨-, rfl⟩ := plain_eq_ok_iff.mp h
    exact hempty
  | standard h =>
    obtain ⟨-, rfl⟩ := standard_eq_ok_iff.mp h
    rw [← List.nil_append [TableEdit.populate], lastAssigned_concat, ← hempty]
    exact get?_apply (t := []) (e := .populate)
  | edit e h ih =>
    exact get?_apply.trans (lastAssigned_concat.trans (or_congr_right
      (and_congr_right fun _ => ih.symm))).symm

theorem History.get?_table_eq_none (h : History i es) :
    i.table.get? s = none ↔ ∀ c, ¬ LastAssigned es s c := by
  simp only [Option.eq_none_iff_forall_ne_some, Ne, h.get?_table]

theorem History.getD_table (h : History i es) {otherwise : Command} :
    (i.table.get? s).getD otherwise = c ↔
      LastAssigned es s c ∨ (∀ c, ¬ LastAssigned es s c) ∧ otherwise = c := by
  rw [← h.get?_table, ← h.get?_table_eq_none]
  cases i.table.get? s <;> simp

/-- What a letter means is the command that it gives. -/
theorem History.resolves_iff (h : History i es) : Resolves es l c ↔ i.command l = c := by
  constructor
  · intro hl
    cases hl with
    | plain hlast | edge hlast => exact h.getD_table.mpr (.inl hlast)
    | unassigned hnone | unassignedEdge hnone => exact h.getD_table.mpr (.inr ⟨hnone, rfl⟩)
    | node => rfl
  · intro hc
    cases l with
    | plain s =>
      obtain hlast | ⟨hnone, rfl⟩ := h.getD_table.mp hc
      · exact .plain hlast
      · exact .unassigned hnone
    | edge s hand =>
      obtain hlast | ⟨hnone, rfl⟩ := h.getD_table.mp hc
      · exact .edge hlast
      · exact .unassignedEdge hnone
    | node s entry exit frame =>
      obtain rfl : Command.ignore = c := hc
      exact .node

theorem History.forall₂_resolves_iff (h : History i es) {cs : List Command} :
    List.Forall₂ (Resolves es) w cs ↔ i.commands w = cs := by
  have hresolves : Resolves es = fun l c => i.command l = c := by
    ext l c
    exact h.resolves_iff
  rw [hresolves, commands, ← List.forall₂_eq_eq_eq, List.forall₂_map_left_iff]

theorem commands_cons (l : Letter) (w : Word) : i.commands (l :: w) = i.command l :: i.commands w :=
  rfl

theorem filterMap_stroke?_filter (keep : Letter → Bool)
    (h : ∀ l ∈ w, ¬ keep l → (i.command l).stroke? = none) :
    (i.commands (w.filter keep)).filterMap Command.stroke? =
      (i.commands w).filterMap Command.stroke? := by
  induction w with
  | nil => rfl
  | cons l w ih =>
    obtain ⟨hl, hw⟩ := List.forall_mem_cons.mp h
    by_cases hk : keep l
    · simp only [List.filter_cons_of_pos hk, commands_cons, List.filterMap_cons, ih hw]
    · rw [List.filter_cons_of_neg hk, commands_cons, List.filterMap_cons_none (hl hk), ih hw]

/-- The drawn flags of the segments are told letter by letter from what was assigned last, under any
history of the table, and brackets have no part in it. -/
theorem drawn_flags_resolved (h : History i es) :
    (∀ l, ∃! c, Resolves es l c) ∧
    (∀ (w : Word) (t : Turtle) (cs : List Command), List.Forall₂ (Resolves es) w cs →
      (i.interpret w t).segments.map Segment.drawn = cs.filterMap Command.stroke?) ∧
    ∀ (w : Word) (t u : Turtle) (keep : Letter → Bool),
      (∀ l ∈ w, ¬ keep l → Resolves es l .push ∨ Resolves es l .pop) →
        (i.interpret (w.filter keep) t).segments.map Segment.drawn =
          (i.interpret w u).segments.map Segment.drawn := by
  refine ⟨fun l => ⟨i.command l, h.resolves_iff.mpr rfl, fun c hc => (h.resolves_iff.mp hc).symm⟩,
    fun w t cs hcs => ?_, fun w t u keep hkeep => ?_⟩
  · rw [map_drawn_segments, h.forall₂_resolves_iff.mp hcs]
  · rw [map_drawn_segments, map_drawn_segments, filterMap_stroke?_filter]
    intro l hl hk
    rcases hkeep l hl hk with hl | hl <;> rw [h.resolves_iff.mp hl] <;> rfl

theorem drawn_flags_resolved_replaced :
    let es : List TableEdit := [.populate, .assign "F" .move,
      .replace [("A", .draw), ("]", .pop), ("A", .turnLeft)], .assign "B" .move, .assign "[" .draw]
    let w : Word := [.plain "]", .plain "A", .plain "F", .edge "Fl" .left, .plain "[", .plain "]",
      .plain "]", .plain "B"]
    let cs : List Command := [.pop, .draw, .ignore, .draw, .draw, .pop, .pop, .move]
    ∃ i, History i es ∧ List.Forall₂ (Resolves es) w cs ∧
      (i.interpret w (Turtle.facing ⟨0, 0⟩ 0)).segments.map Segment.drawn =
        [true, true, true, false] := by
  intro es w cs
  have h := (((History.standard (g := .standard) rfl).edit (.assign "F" .move)).edit
    (.replace [("A", .draw), ("]", .pop), ("A", .turnLeft)])).edit (.assign "B" .move)
  have h := h.edit (.assign "[" .draw)
  have hw : List.Forall₂ (Resolves es) w cs := h.forall₂_resolves_iff.mpr (by decide)
  exact ⟨_, h, hw, (drawn_flags_resolved h).2.1 w _ cs hw⟩

end Interpreter

end LSystem
