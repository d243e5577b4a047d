import LSystem.Grammar
import LSystem.Raster.Canvas
import LSystem.Turtle.Interpretation

/-! # Sketch documents

A sketch is described by its grammar, as texts that are still to be cut into letters, and by the
settings of its picture. Everything has a default.
-/

namespace LSystem

structure WeightedText where
  word : String
  weight : Float
deriving BEq

structure RuleText where
  predecessor : String := ""
  successor : Option String := none
  successors : List WeightedText := []
deriving BEq

structure GrammarText where
  /-- The declared symbols, which also decide how texts are cut into letters. -/
  alphabet : List String := []
  start : String := ""
  rules : List RuleText := []
  policy : AlphabetPolicy := .inferred
  wordLimit : Option UInt64 := none
deriving BEq

structure RenderSettings where
  depth : UInt64 := 3
  seed : UInt64 := 0
  stepLength : Float32 := 10
  turnAngle : Float32 := 90
  start : Turtle := Turtle.home
  width : UInt32 := 800
  height : UInt32 := 800
  background : Color := ⟨255, 255, 255⟩
  lineColor : Color := ⟨0, 0, 0⟩
  lineWidth : UInt32 := 1
  fit : Bool := true
  margin : Float32 := 10
deriving BEq

structure SketchText where
  grammar : GrammarText := {}
  render : RenderSettings := {}
deriving BEq

structure Report where
  letters : Nat
  segments : Nat
  drawn : Nat
  unmatchedPops : List Nat
  openBranches : Nat
deriving DecidableEq

def Report.isBalanced (r : Report) : Bool := r.unmatchedPops.isEmpty && r.openBranches == 0

end LSystem
