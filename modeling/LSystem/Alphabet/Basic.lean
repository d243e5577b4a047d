/-! # Alphabets

Sets of symbols, kept in increasing order so that everything listed from one has a fixed order.
-/

namespace LSystem

structure Alphabet where
  symbols : List String
  sorted : symbols.Pairwise (· < ·)

namespace Alphabet

instance : Membership String Alphabet := ⟨fun a s => s ∈ a.symbols⟩

instance (a : Alphabet) (s : String) : Decidable (s ∈ a) :=
  inferInstanceAs (Decidable (s ∈ a.symbols))

def empty : Alphabet := ⟨[], .nil⟩

/-- Inserts a symbol before the first greater one, unless it is there already. -/
def insertSorted (s : String) : List String → List String
  | [] => [s]
  | t :: ts => if s < t then s :: t :: ts else if t < s then t :: insertSorted s ts else t :: ts

theorem mem_insertSorted {s r : String} {ts : List String} :
    r ∈ insertSorted s ts ↔ r = s ∨ r ∈ ts := by
  induction ts with
  | nil => simp [insertSorted]
  | cons t ts ih =>
    simp only [insertSorted]
    split
    · simp
    · rename_i hst
      split
      · simp only [List.mem_cons, ih]
        constructor
        · rintro (h | h | h) <;> simp [h]
        · rintro (h | h | h) <;> simp [h]
      · rename_i hts
        have : s = t := String.le_antisymm (String.not_lt.mp hts) (String.not_lt.mp hst)
        simp [this]

theorem pairwise_insertSorted {s : String} {ts : List String} (h : ts.Pairwise (· < ·)) :
    (insertSorted s ts).Pairwise (· < ·) := by
  induction ts with
  | nil => simp [insertSorted]
  | cons t ts ih =>
    obtain ⟨ht, hts⟩ := List.pairwise_cons.mp h
    simp only [insertSorted]
    split
    · rename_i hst
      refine List.pairwise_cons.mpr ⟨fun r hr => ?_, h⟩
      rcases List.mem_cons.mp hr with rfl | hr
      · exact hst
      · exact String.lt_trans hst (ht r hr)
    · split
      · rename_i hlt
        refine List.pairwise_cons.mpr ⟨fun r hr => ?_, ih hts⟩
        rcases mem_insertSorted.mp hr with rfl | hr
        · exact hlt
        · exact ht r hr
      · exact h

def insert (a : Alphabet) (s : String) : Alphabet :=
  ⟨insertSorted s a.symbols, pairwise_insertSorted a.sorted⟩

@[simp] theorem mem_insert {a : Alphabet} {s r : String} : r ∈ a.insert s ↔ r = s ∨ r ∈ a :=
  mem_insertSorted

def insertAll (a : Alphabet) (ss : List String) : Alphabet := ss.foldl insert a

@[simp] theorem mem_insertAll {a : Alphabet} {ss : List String} {r : String} :
    r ∈ a.insertAll ss ↔ r ∈ ss ∨ r ∈ a := by
  induction ss generalizing a with
  | nil => simp [insertAll]
  | cons s ss ih =>
    have : a.insertAll (s :: ss) = (a.insert s).insertAll ss := rfl
    rw [this, ih, mem_insert, List.mem_cons]
    constructor
    · rintro (h | h | h) <;> simp [h]
    · rintro ((h | h) | h) <;> simp [h]

def ofList (ss : List String) : Alphabet := empty.insertAll ss

@[simp] theorem not_mem_empty {r : String} : ¬ r ∈ empty := List.not_mem_nil

@[simp] theorem mem_ofList {ss : List String} {r : String} : r ∈ ofList ss ↔ r ∈ ss := by
  simp [ofList]

end Alphabet

end LSystem
