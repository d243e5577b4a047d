import LSystem.Alphabet.Basic

/-! # Arrangements

The words that can be laid out from an alphabet without using a symbol twice. They are found by a
search that goes forth and back: one list of picked places is shared by the whole search, a place is
put at its end before the search goes on, and taken from it when the search comes back.
-/

namespace LSystem

def spell (pool : List String) (places : List Nat) : String :=
  String.join (places.map fun i => pool[i]?.getD "")

structure Layout where
  picked : List Nat
  words : Array String

namespace Layout

def empty : Layout := ⟨[], #[]⟩

def pick (i : Nat) (l : Layout) : Layout := { l with picked := l.picked ++ [i] }

def unpick (l : Layout) : Layout := { l with picked := l.picked.dropLast }

def record (pool : List String) (l : Layout) : Layout :=
  { l with words := l.words.push (spell pool l.picked) }

end Layout

/-- Lays out the words that begin with the picked symbols and go on with `k` others, in the order of
their places. -/
def arrange (pool : List String) : Nat → StateM Layout Unit
  | 0 => modify (Layout.record pool)
  | k + 1 =>
    (List.range pool.length).forM fun i => do
      if i ∈ (← get).picked then return
      modify (Layout.pick i)
      arrange pool k
      modify Layout.unpick

/-- The arrangements of one up to `longest` distinct symbols, shorter ones first. -/
def Alphabet.arrangements (a : Alphabet) (longest : Nat) : List String :=
  let search := (List.range' 1 (min longest a.symbols.length)).forM (arrange a.symbols)
  (search.run .empty).2.words.toList

example : (Alphabet.ofList ["b", "a"]).arrangements 3 = ["a", "b", "ab", "ba"] := by
  decide +kernel

end LSystem
