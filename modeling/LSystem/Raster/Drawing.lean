import LSystem.Error
import LSystem.Raster.Canvas
import LSystem.Raster.Transform
import LSystem.Turtle.State

/-! # Drawing

Lines and segments on a canvas. A line is first cut to the canvas with room for the brush around it;
what is left is rounded to cells and stamped cell by cell.
-/

namespace LSystem

structure Pen where
  color : Color
  width : Nat

def Pen.size (p : Pen) : Nat := max p.width 1

section Generic

variable {K : Type} [Scalar K]

/-- The canvas with room for half a brush and one pixel more on every side. -/
def paddedBox (width height size : Nat) : Box K :=
  let one : K := (1 : Nat)
  let pad := (size : K) / (2 : Nat) + one
  ⟨Point.diagonal (-pad), ⟨(width : K) - one + pad, (height : K) - one + pad⟩⟩

def Point.toCell (p : Point K) : Cell := ⟨Scalar.round p.x, Scalar.round p.y⟩

/-- The line of cells between two points, as far as a brush on it can reach the canvas. -/
@[specialize] def lineBetween (width height size : Nat) (a b : Point K) : Option Line :=
  (Box.clip (paddedBox width height size) a b).map fun (a, b) => ⟨a.toCell, b.toCell⟩

end Generic

def brushFits (size : Nat) (center : Int) : Bool :=
  let first := center - ((size - 1) / 2 : Nat)
  Single.fitsWord first && Single.fitsWord (first + size)

/-- Whether all numbers computed at a place on a line have 64-bit forms. -/
def Line.placeFits (l : Line) (size : Nat) (c : Cursor) : Bool :=
  brushFits size c.cell.x && brushFits size c.cell.y && (c.cell == l.stop || l.stepFits c)

namespace Canvas

def stampAt (l : Line) (p : Pen) (canvas : Canvas) (c : Cursor) : Except SketchError Canvas :=
  if l.placeFits p.size c then .ok (canvas.stamp p.color p.size c.cell)
  else .error (.overflow .coordinate)

def trace (canvas : Canvas) (p : Pen) (l : Line) : Except SketchError Canvas :=
  if l.extentFits then l.visit (stampAt l p) canvas else .error (.overflow .coordinate)

def drawLine (canvas : Canvas) (p : Pen) (a b : Point Float32) : Except SketchError Canvas :=
  match lineBetween canvas.width canvas.height p.size a b with
  | some l => canvas.trace p l
  | none => .ok canvas

def drawSegment (canvas : Canvas) (t : Transform Float32) (p : Pen) (s : Segment) :
    Except SketchError Canvas :=
  if s.drawn then canvas.drawLine p (t.apply s.start) (t.apply s.stop) else .ok canvas

def drawSegments (canvas : Canvas) (t : Transform Float32) (p : Pen) (ss : List Segment) :
    Except SketchError Canvas :=
  ss.foldlM (fun canvas s => canvas.drawSegment t p s) canvas

def drawAndCount (t : Transform Float32) (p : Pen) :
    Canvas × Nat → Segment → Except SketchError (Canvas × Nat)
  | (canvas, drawn), s => do
    if s.drawn then
      let canvas ← canvas.drawSegment t p s
      return (canvas, drawn + 1)
    else return (canvas, drawn)

def drawAll (canvas : Canvas) (t : Transform Float32) (p : Pen) (ss : List Segment) :
    Except SketchError (Canvas × Nat) :=
  ss.foldlM (drawAndCount t p) (canvas, 0)

end Canvas

def countDrawn (ss : List Segment) : Nat := ss.countP Segment.drawn

end LSystem
