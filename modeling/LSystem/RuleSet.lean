import LSystem.Rule
import Std.Data.HashMap

/-! # Rule sets

Rules in the order in which they were added, at most one for each symbol, with an index from symbols
to places.
-/

namespace LSystem

structure RuleSet where
  rules : Array Rule
  index : Std.HashMap String Nat

namespace RuleSet

def empty : RuleSet := ⟨#[], ∅⟩

def add (rs : RuleSet) (r : Rule) : Except SketchError RuleSet :=
  if rs.index.contains r.symbol then .error (.invalidRule r.symbol .repeatedPredecessor)
  else
    let place := rs.rules.size
    .ok ⟨rs.rules.push r, rs.index.insert r.symbol place⟩

/-- Adds the rules one after the other; the first that is refused decides the error. -/
def ofRules (rules : List Rule) : Except SketchError RuleSet := rules.foldlM add empty

def get? (rs : RuleSet) (symbol : String) : Option Rule := rs.index[symbol]?.bind (rs.rules[·]?)

def toList (rs : RuleSet) : List Rule := rs.rules.toList

def size (rs : RuleSet) : Nat := rs.rules.size

def isStochastic (rs : RuleSet) : Bool := rs.toList.any Rule.isStochastic

variable {σ : Type} [Source σ]

/-- What one letter becomes. A letter without a rule stays as it is. -/
def expand (rs : RuleSet) (l : Letter) : StateM σ Word :=
  match rs.get? l.symbol with
  | some r => r.successorWord
  | none => pure [l]

/-- Replaces every letter of a word at once, choices being made from left to right. -/
def grow (rs : RuleSet) (w : Word) : StateM σ Word := w.flatMapM rs.expand

theorem grow_cons (rs : RuleSet) (l : Letter) (w : Word) :
    rs.grow (σ := σ) (l :: w) = do return (← rs.expand l) ++ (← rs.grow w) := by
  simp [grow]

end RuleSet

end LSystem
