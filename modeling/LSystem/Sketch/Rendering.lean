import LSystem.Derivation
import LSystem.Picture.Folder
import LSystem.Raster.Drawing
import LSystem.Sketch.Build

/-! # From grammar to picture

A grammar derives its words, the last word is walked by the turtle, and the segments are drawn on a
canvas. Brackets that do not match show in the report and are no error.
-/

namespace LSystem

def maxSide : Nat := 16384

def maxLineWidth : Nat := 256

namespace RenderSettings

def gait (s : RenderSettings) : Gait := ⟨s.stepLength, s.turnAngle⟩

def pen (s : RenderSettings) : Pen := ⟨s.lineColor, s.lineWidth.toNat⟩

/-- Refuses settings that no picture can be drawn with: the canvas first, then the line, the margin
and the gait. -/
def validate (s : RenderSettings) : Except SketchError Unit :=
  let width := s.width.toNat
  let height := s.height.toNat
  let lineWidth := s.lineWidth.toNat
  if width = 0 ∨ height = 0 then .error (.invalidParameter (.emptyCanvas width height))
  else if maxSide < width ∨ maxSide < height then
    .error (.invalidParameter (.longSide maxSide width height))
  else if maxLineWidth < lineWidth then
    .error (.invalidParameter (.lineWidth maxLineWidth lineWidth))
  else if !(s.margin.isFinite && 0 ≤ s.margin) then .error (.invalidParameter (.margin s.margin))
  else s.gait.validate

def transform (s : RenderSettings) (bounds : Option (Box Float32)) : Transform Float32 :=
  match s.fit, bounds with
  | true, some box => .fit box s.width.toNat s.height.toNat s.margin
  | _, _ => .centered s.width.toNat s.height.toNat

end RenderSettings

structure Rendering where
  canvas : Canvas
  transform : Transform Float32
  report : Report

def Grammar.draw (g : Grammar) (s : RenderSettings) : Except SketchError Rendering := do
  s.validate
  let words ← g.deriveSeeded s.depth.toNat s.seed
  let word := words.getLast?.getD []
  let interpreter ← Interpreter.standard s.gait
  let run := interpreter.interpret word s.start
  let transform := s.transform run.bounds
  let blank := Canvas.blank s.width.toNat s.height.toNat s.background
  let (canvas, drawn) ← blank.drawAll transform s.pen run.segments
  return {
    canvas, transform
    report := {
      letters := word.length
      segments := run.segments.length
      drawn
      unmatchedPops := run.unmatchedPops
      openBranches := run.openBranches } }

def Grammar.drawTo (g : Grammar) (s : RenderSettings) (folder : Folder) (path : String) :
    Except SketchError (Report × ByteArray) := do
  let rendering ← g.draw s
  let bytes ← folder.save path rendering.canvas
  return (rendering.report, bytes)

def SketchText.drawTo (s : SketchText) (folder : Folder) (path : String) :
    Except SketchError (Report × ByteArray) := do
  let grammar ← s.grammar.build
  grammar.drawTo s.render folder path

end LSystem
