import LSystem.Grammar
import LSystem.Random.KeyStream

/-! # Derivations

The words of successive generations. A derivation either gives all of them, the axiom first, or
fails at the first word that is too long; either way the source is left where the last generation
left it. The words are kept in a table, which limits the number of generations.
-/

namespace LSystem.Grammar

variable {σ : Type} [Source σ]

def checkLength (g : Grammar) (generation : Nat) (w : Word) : Except SketchError Unit :=
  match g.wordLimit with
  | some limit =>
    if limit < w.length then .error (.wordLimitExceeded generation w.length limit) else .ok ()
  | none => .ok ()

/-- The most words that a table can have: each takes 24 of the bytes that 63 bits count. -/
def maxWords : Nat := 0x7fffffffffffffff / 24

def checkDepth (depth : Nat) : Except SketchError Unit :=
  if depth < maxWords then .ok () else .error (.overflow .depth)

/-- The words of the `depth` generations after the word `w` of a generation. -/
def deriveFrom (g : Grammar) (generation : Nat) (w : Word) :
    (depth : Nat) → ExceptT SketchError (StateM σ) (List Word)
  | 0 => return []
  | depth + 1 => do
    let next ← (g.rules.grow w : StateM σ Word)
    g.checkLength (generation + 1) next
    let rest ← g.deriveFrom (generation + 1) next depth
    return next :: rest

/-- The axiom and the words of the `depth` generations after it. -/
def derive (g : Grammar) (depth : Nat) : ExceptT SketchError (StateM σ) (List Word) := do
  g.checkLength 0 g.start
  checkDepth depth
  let rest ← g.deriveFrom 0 g.start depth
  return g.start :: rest

def finalWord (g : Grammar) (depth : Nat) : ExceptT SketchError (StateM σ) Word := do
  let words ← g.derive depth
  return words.getLast?.getD []

def deriveSeeded (g : Grammar) (depth : Nat) (seed : UInt64) : Except SketchError (List Word) :=
  ((g.derive depth).run.run (KeyStream.ofSeed seed)).1

end LSystem.Grammar
