import LSystem.Error
import LSystem.Random.Lottery

/-! # Production rules -/

namespace LSystem

inductive Successor where
  | fixed (word : Word)
  | chosen (lottery : Lottery)

structure Rule where
  predecessor : Letter
  successor : Successor

namespace Rule

def symbol (r : Rule) : String := r.predecessor.symbol

def deterministic (predecessor : Letter) (word : Word) : Rule := ⟨predecessor, .fixed word⟩

/-- A rule with weighted alternatives. There has to be one; weights are finite and not negative, and
not all zero. -/
def stochastic (predecessor : Letter) (alternatives : List (Word × Float)) :
    Except SketchError Rule :=
  let lottery : Lottery := ⟨alternatives⟩
  let fault := SketchError.invalidRule predecessor.symbol
  if alternatives.isEmpty then .error (fault .noSuccessors)
  else
    match lottery.weights.find? fun w => !w.isFinite || w < 0 with
    | some w => .error (fault (.badWeight w))
    | none =>
      if lottery.total ≤ 0 then .error (fault .zeroWeights)
      else if lottery.total.isFinite then .ok ⟨predecessor, .chosen lottery⟩
      else .error (.overflow .weights)

def isStochastic (r : Rule) : Bool :=
  match r.successor with
  | .fixed _ => false
  | .chosen _ => true

def alternatives (r : Rule) : List (Word × Float) :=
  match r.successor with
  | .fixed w => [(w, 1)]
  | .chosen l => l.probabilities

/-- The word for one occurrence of the predecessor. A choice takes one word of the source, even
among a single alternative; without a choice none is taken. -/
def successorWord {σ : Type} [Source σ] (r : Rule) : StateM σ Word :=
  match r.successor with
  | .fixed w => pure w
  | .chosen l => l.outcome <$> draw

end Rule

end LSystem
