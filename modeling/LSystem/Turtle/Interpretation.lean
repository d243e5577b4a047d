import LSystem.Turtle.State
import LSystem.Turtle.Command
import LSystem.Geometry.Box
import LSystem.Word.Basic
import LSystem.Error

/-! # Interpretations

What a word draws: the segments in reading order, and where its brackets do not match. Brackets that
do not match never lose a segment; whether they are an error is left to the caller.
-/

namespace LSystem

structure Gait where
  stepLength : Float32
  turnAngle : Float32

namespace Gait

def standard : Gait := ⟨10, 90⟩

def validate (g : Gait) : Except SketchError Unit :=
  if !(g.stepLength.isFinite && 0 < g.stepLength) then
    .error (.invalidParameter (.stepLength g.stepLength))
  else if !g.turnAngle.isFinite then .error (.invalidParameter (.turnAngle g.turnAngle))
  else .ok ()

end Gait

structure Walk where
  turtle : Turtle
  /-- The saved turtles, the last one first. -/
  saved : List Turtle
  segments : Array Segment
  unmatchedPops : Array Nat
  count : Nat

namespace Walk

def begin (t : Turtle) : Walk := ⟨t, [], #[], #[], 0⟩

def advance (w : Walk) (distance : Float32) (drawn : Bool) : Walk :=
  { w with
    turtle := w.turtle.advance distance drawn
    segments := w.segments.push (w.turtle.stride distance drawn)
    count := w.count + 1 }

def turn (w : Walk) (degrees : Float32) : Walk :=
  { w with turtle := w.turtle.turn degrees, count := w.count + 1 }

/-- Obeys the command of the next letter. Returning with nothing saved leaves the turtle where it is
and records the letter. -/
def step (g : Gait) (w : Walk) : Command → Walk
  | .draw => w.advance g.stepLength true
  | .move => w.advance g.stepLength false
  | .turnLeft => w.turn g.turnAngle
  | .turnRight => w.turn (-g.turnAngle)
  | .turnAround => w.turn 180
  | .push => { w with saved := w.turtle :: w.saved, count := w.count + 1 }
  | .pop =>
    match w.saved with
    | t :: rest => { w with turtle := t, saved := rest, count := w.count + 1 }
    | [] => { w with unmatchedPops := w.unmatchedPops.push w.count, count := w.count + 1 }
  | .ignore => { w with count := w.count + 1 }

@[simp] theorem count_step (g : Gait) (w : Walk) (c : Command) :
    (w.step g c).count = w.count + 1 := by
  cases c <;> simp only [step, advance, turn]
  split <;> rfl

end Walk

structure Interpretation where
  segments : List Segment
  finalState : Turtle
  unmatchedPops : List Nat
  openBranches : Nat

structure Interpreter where
  gait : Gait
  table : CommandTable

namespace Interpreter

def plain (g : Gait) : Except SketchError Interpreter := do
  g.validate
  return ⟨g, []⟩

def populate (i : Interpreter) : Interpreter :=
  { i with table := i.table.assignAll CommandTable.standardPairs }

def standard (g : Gait) : Except SketchError Interpreter := do
  let i ← plain g
  return i.populate

def command (i : Interpreter) (l : Letter) : Command := i.table.command l

/-- The turtle that a word starts from: its heading is normalised first. -/
def ready (t : Turtle) : Turtle := { Turtle.facing t.position t.heading with penDown := t.penDown }

def walk (i : Interpreter) (w : Word) (t : Turtle) : Walk :=
  w.foldl (fun walk l => walk.step i.gait (i.command l)) (.begin (ready t))

def interpret (i : Interpreter) (w : Word) (t : Turtle) : Interpretation :=
  let walk := i.walk w t
  { segments := walk.segments.toList
    finalState := walk.turtle
    unmatchedPops := walk.unmatchedPops.toList
    openBranches := walk.saved.length }

end Interpreter

namespace Interpretation

def isBalanced (r : Interpretation) : Bool := r.unmatchedPops.isEmpty && r.openBranches == 0

def check (r : Interpretation) : Except SketchError Unit :=
  match r.unmatchedPops with
  | i :: _ => .error (.unbalancedBracket i)
  | [] => if 0 < r.openBranches then .error (.unclosedBranch r.openBranches) else .ok ()

def drawn (r : Interpretation) : List Segment := r.segments.filter Segment.drawn

/-- The least box around the drawn segments, `none` when nothing is drawn. -/
def bounds (r : Interpretation) : Option (Box Float32) :=
  match r.drawn with
  | [] => none
  | s :: rest =>
    some (rest.foldl (fun b s => b.union (.spanning s.start s.stop)) (.spanning s.start s.stop))

end Interpretation

end LSystem
