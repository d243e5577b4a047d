import Mathlib.Data.List.Induction
import Mathlib.Data.List.Sort
import Mathlib.Data.Nat.Factorial.Basic
import Mathlib.Algebra.BigOperators.Group.Finset.Basic
import Mathlib.Order.Interval.Finset.Nat
import LSystem.Alphabet.Arrangements

/-! # What the search for arrangements finds

From any picked places the search lays out one word for every way to go on with distinct places, in
lexicographic order, and hands the list of picked places back as it was. The ways are told apart by
their places: two of them may spell the same word.
-/

namespace LSystem

open scoped Nat

/-- The ways to go on with `k` distinct places out of `n` that are not taken. -/
def continuations (n : Nat) : Nat → List Nat → List (List Nat)
  | 0, _ => [[]]
  | k + 1, taken =>
    ((List.range n).filter (· ∉ taken)).flatMap fun i =>
      (continuations n k (taken ++ [i])).map (i :: ·)

variable {n k i : Nat} {taken places : List Nat} {pool : List String}

section Continuations

theorem mem_continuations :
    places ∈ continuations n k taken ↔
      places.length = k ∧ places.Nodup ∧ ∀ i ∈ places, i < n ∧ i ∉ taken := by
  induction k generalizing taken places with
  | zero =>
    simp only [continuations, List.mem_singleton, List.length_eq_zero_iff]
    refine ⟨?_, And.left⟩
    rintro rfl
    simp
  | succ k ih =>
    simp only [continuations, List.mem_flatMap, List.mem_filter, List.mem_range, List.mem_map, ih,
      decide_eq_true_eq]
    constructor
    · rintro ⟨i, ⟨hi, hfree⟩, rest, ⟨rfl, hnodup, hrest⟩, rfl⟩
      refine ⟨rfl, List.nodup_cons.mpr ⟨fun h => ?_, hnodup⟩, ?_⟩
      · exact (hrest i h).2 (by simp)
      · exact List.forall_mem_cons.mpr ⟨⟨hi, hfree⟩, fun j hj =>
          ⟨(hrest j hj).1, fun h => (hrest j hj).2 (List.mem_append_left _ h)⟩⟩
    · rintro ⟨hlength, hnodup, hplaces⟩
      cases places with
      | nil => cases hlength
      | cons i rest =>
        obtain ⟨hi, hrest⟩ := List.forall_mem_cons.mp hplaces
        obtain ⟨hnot, hnodup⟩ := List.nodup_cons.mp hnodup
        refine ⟨i, hi, rest, ⟨Nat.succ.inj hlength, hnodup, fun j hj => ⟨(hrest j hj).1, ?_⟩⟩, rfl⟩
        rw [List.mem_append, List.mem_singleton]
        rintro (h | rfl)
        · exact (hrest j hj).2 h
        · exact hnot hj

theorem pairwise_continuations : (continuations n k taken).Pairwise (· < ·) := by
  induction k generalizing taken with
  | zero => exact List.pairwise_singleton _ _
  | succ k ih =>
    rw [continuations, List.pairwise_flatMap]
    constructor
    · intro i _
      rw [List.pairwise_map]
      exact ih.imp fun h => List.Lex.cons h
    · refine (List.pairwise_lt_range.filter _).imp fun {i j} hij => ?_
      rintro _ hi _ hj
      obtain ⟨x, -, rfl⟩ := List.mem_map.mp hi
      obtain ⟨y, -, rfl⟩ := List.mem_map.mp hj
      exact List.Lex.rel hij

theorem length_free (hnodup : taken.Nodup) (htaken : ∀ i ∈ taken, i < n) :
    ((List.range n).filter (· ∉ taken)).length = n - taken.length := by
  have hperm : (taken ++ (List.range n).filter (· ∉ taken)).Perm (List.range n) := by
    refine (List.perm_ext_iff_of_nodup ?_ List.nodup_range).mpr fun i => ?_
    · refine hnodup.append (List.nodup_range.filter _) fun i hi hfree => ?_
      exact of_decide_eq_true (List.mem_filter.mp hfree).2 hi
    · rw [List.mem_append, List.mem_filter, List.mem_range, decide_eq_true_eq]
      by_cases hi : i ∈ taken
      · simp [hi, htaken i hi]
      · simp [hi]
  have hlength := hperm.length_eq
  rw [List.length_append, List.length_range] at hlength
  omega

theorem length_continuations (hnodup : taken.Nodup) (htaken : ∀ i ∈ taken, i < n) :
    (continuations n k taken).length = (n - taken.length).descFactorial k := by
  induction k generalizing taken with
  | zero => rfl
  | succ k ih =>
    have hnext : ∀ i ∈ (List.range n).filter (· ∉ taken),
        ((continuations n k (taken ++ [i])).map (i :: ·)).length =
          (n - taken.length - 1).descFactorial k := by
      intro i hi
      obtain ⟨hlt, hfree⟩ := List.mem_filter.mp hi
      have hnodup' : (taken ++ [i]).Nodup := by
        refine hnodup.append (List.nodup_singleton i) fun j hj hj' => ?_
        obtain rfl := List.mem_singleton.mp hj'
        exact of_decide_eq_true hfree hj
      have htaken' : ∀ j ∈ taken ++ [i], j < n := by
        rintro j hj
        rcases List.mem_append.mp hj with hj | hj
        · exact htaken j hj
        · exact List.mem_singleton.mp hj ▸ List.mem_range.mp hlt
      rw [List.length_map, ih hnodup' htaken', List.length_append, List.length_singleton,
        Nat.sub_add_eq]
    rw [continuations, List.length_flatMap, List.map_congr_left hnext, List.map_const',
      List.sum_replicate_nat, length_free hnodup htaken]
    cases n - taken.length with
    | zero => rw [Nat.zero_mul, Nat.zero_descFactorial_succ]
    | succ m => rw [Nat.succ_descFactorial_succ, Nat.add_sub_cancel]

end Continuations

section Search

theorem run_forM {σ α : Type} (f : α → StateM σ Unit) (xs : List α) (s : σ) :
    (xs.forM f).run s = ((), xs.foldl (fun s x => ((f x).run s).2) s) := by
  induction xs generalizing s with
  | nil => rfl
  | cons x xs ih => exact ih _

theorem run_arrange_succ (pool : List String) (k : Nat) (l : Layout) :
    (arrange pool (k + 1)).run l = ((), (List.range pool.length).foldl (fun l i =>
      if i ∈ l.picked then l else ((arrange pool k).run (l.pick i)).2.unpick) l) := by
  rw [arrange, run_forM]
  congr
  ext l' i
  by_cases hi : i ∈ l'.picked
  · simp only [StateT.run_bind, StateT.run_get, pure_bind, if_pos hi]
    rfl
  · simp only [StateT.run_bind, StateT.run_get, pure_bind, if_neg hi]
    rfl

def Layout.recordAll (pool : List String) (l : Layout) (found : List (List Nat)) : Layout :=
  { l with words := l.words ++ (found.map (spell pool)).toArray }

theorem foldl_recordAll {f : Layout → Nat → Layout} {p : Nat → Bool}
    {found : Nat → List (List Nat)} {is : List Nat} {l : Layout}
    (hskip : ∀ l' i, l'.picked = l.picked → p i = false → f l' i = l')
    (htake : ∀ l' i, l'.picked = l.picked → p i = true → f l' i = l'.recordAll pool (found i)) :
    is.foldl f l = l.recordAll pool ((is.filter p).flatMap found) := by
  induction is generalizing l with
  | nil => simp [Layout.recordAll]
  | cons i is ih =>
    cases hi : p i with
    | false =>
      rw [List.foldl_cons, hskip l i rfl hi, ih hskip htake, List.filter_cons_of_neg (by simp [hi])]
    | true =>
      rw [List.foldl_cons, htake l i rfl hi, List.filter_cons_of_pos hi,
        ih (l := l.recordAll pool (found i)) hskip htake]
      simp [Layout.recordAll]

/-- The search hands the picked places back, and has laid out one word for each way to go on. -/
theorem run_arrange (pool : List String) (k : Nat) (l : Layout) :
    (arrange pool k).run l = ((), l.recordAll pool
      ((continuations pool.length k l.picked).map (l.picked ++ ·))) := by
  induction k generalizing l with
  | zero =>
    change ((), l.record pool) = _
    simp [Layout.recordAll, Layout.record, continuations]
  | succ k ih =>
    rw [run_arrange_succ, continuations, List.map_flatMap]
    refine congrArg (Prod.mk ()) (foldl_recordAll ?_ ?_)
    · intro l' i hl' hi
      exact if_pos (by simpa [hl'] using hi)
    · intro l' i hl' hi
      rw [if_neg (by simpa [hl'] using hi), ih]
      simp [Layout.pick, Layout.unpick, Layout.recordAll, hl', Function.comp_def]

end Search

namespace Alphabet

variable (a : Alphabet) (longest : Nat)

theorem arrangements_eq :
    a.arrangements longest = (List.range' 1 (min longest a.symbols.length)).flatMap fun k =>
      (continuations a.symbols.length k []).map (spell a.symbols) := by
  have hsearch : (List.range' 1 (min longest a.symbols.length)).foldl
      (fun l k => ((arrange a.symbols k).run l).2) .empty =
      Layout.empty.recordAll a.symbols ((List.range' 1 (min longest a.symbols.length)).flatMap
        fun k => continuations a.symbols.length k []) := by
    rw [foldl_recordAll (p := fun _ => true) nofun, List.filter_true]
    intro l k hl _
    rw [run_arrange, hl]
    exact congrArg (l.recordAll a.symbols) (List.map_id _)
  rw [arrangements, run_forM, hsearch, ← List.map_flatMap]
  simp [Layout.recordAll, Layout.empty]

theorem length_arrangements :
    (a.arrangements longest).length = ∑ k ∈ Finset.Icc 1 (min longest a.symbols.length),
      a.symbols.length ! / (a.symbols.length - k)! := by
  have hcount : ∀ k ∈ List.range' 1 (min longest a.symbols.length),
      ((continuations a.symbols.length k []).map (spell a.symbols)).length =
        a.symbols.length ! / (a.symbols.length - k)! := by
    intro k hk
    have hle : k ≤ a.symbols.length := by
      rw [List.mem_range'_1] at hk
      omega
    rw [List.length_map, length_continuations .nil nofun, List.length_nil, Nat.sub_zero,
      Nat.descFactorial_eq_div hle]
  rw [arrangements_eq, List.length_flatMap, List.map_congr_left hcount]
  rfl

/-- The arrangements are listed by length and then in lexicographic order of their places, all of
them and each once, and every search hands the picked places back. -/
theorem arrangements_in_order :
    (a.arrangements longest = (List.range' 1 (min longest a.symbols.length)).flatMap fun k =>
      (continuations a.symbols.length k []).map (spell a.symbols)) ∧
    (∀ k, (continuations a.symbols.length k []).Pairwise (· < ·) ∧
      ∀ places, places ∈ continuations a.symbols.length k [] ↔
        places.length = k ∧ places.Nodup ∧ ∀ i ∈ places, i < a.symbols.length) ∧
    (a.arrangements longest).length = ∑ k ∈ Finset.Icc 1 (min longest a.symbols.length),
      a.symbols.length ! / (a.symbols.length - k)! ∧
    ∀ k l, ((arrange a.symbols k).run l).2.picked = l.picked := by
  refine ⟨a.arrangements_eq longest, fun k => ⟨pairwise_continuations, fun places => ?_⟩,
    a.length_arrangements longest, fun k l => ?_⟩
  · rw [mem_continuations]
    simp
  · rw [run_arrange]
    rfl

end Alphabet

end LSystem
