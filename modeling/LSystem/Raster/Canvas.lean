import LSystem.Error
import LSystem.Raster.Line

/-! # Canvases

A rectangle of coloured pixels, row by row from the top, and the square brush that paints on it.
-/

namespace LSystem

structure Color where
  red : UInt8
  green : UInt8
  blue : UInt8
deriving DecidableEq, Repr

structure Canvas where
  width : Nat
  height : Nat
  pixels : Array Color
  size_pixels : pixels.size = width * height

structure Span where
  first : Nat
  count : Nat

/-- The pixels that a brush of a size covers when it stands at `center`. A brush of even size
reaches one pixel further toward greater numbers. -/
def brushSpan (size : Nat) (center : Int) (side : Nat) : Span :=
  let first := center - ((size - 1) / 2 : Nat)
  let low := max first 0
  let high := min (first + size) side
  ⟨low.toNat, (high - low).toNat⟩

def paintRun (color : Color) (i : Nat) : Nat → Array Color → Array Color
  | 0, pixels => pixels
  | n + 1, pixels => paintRun color (i + 1) n (pixels.setIfInBounds i color)

@[simp] theorem size_paintRun (color : Color) (i n : Nat) (pixels : Array Color) :
    (paintRun color i n pixels).size = pixels.size := by
  induction n generalizing i pixels with
  | zero => rfl
  | succ n ih => simp [paintRun, ih]

def paintRows (color : Color) (width run : Nat) (i : Nat) : Nat → Array Color → Array Color
  | 0, pixels => pixels
  | n + 1, pixels => paintRows color width run (i + width) n (paintRun color i run pixels)

@[simp] theorem size_paintRows (color : Color) (width run i n : Nat) (pixels : Array Color) :
    (paintRows color width run i n pixels).size = pixels.size := by
  induction n generalizing i pixels with
  | zero => rfl
  | succ n ih => simp [paintRows, ih]

namespace Canvas

def blank (width height : Nat) (background : Color) : Canvas :=
  ⟨width, height, Array.replicate (width * height) background, Array.size_replicate⟩

def byteCount (width height : Nat) : Nat := 3 * width * height

/-- The most bytes that memory can have, those that 63 bits count. -/
def maxBytes : Nat := 0x7fffffffffffffff

def create (width height : Nat) (background : Color) : Except SketchError Canvas :=
  if byteCount width height ≤ maxBytes then .ok (blank width height background)
  else .error (.overflow .canvas)

/-- The colour of a pixel, `none` off the canvas. -/
def pixel? (c : Canvas) (x y : Nat) : Option Color :=
  if x < c.width ∧ y < c.height then c.pixels[y * c.width + x]? else none

def stamp (c : Canvas) (color : Color) (size : Nat) (cell : Cell) : Canvas :=
  let xs := brushSpan size cell.x c.width
  let ys := brushSpan size cell.y c.height
  { c with
    pixels := paintRows color c.width xs.count (ys.first * c.width + xs.first) ys.count c.pixels
    size_pixels := by simp [c.size_pixels] }

variable {c : Canvas} {color : Color} {size : Nat} {cell : Cell}

@[simp] theorem width_stamp : (c.stamp color size cell).width = c.width := rfl

@[simp] theorem height_stamp : (c.stamp color size cell).height = c.height := rfl

theorem index_lt {width height x y : Nat} (hx : x < width) (hy : y < height) :
    y * width + x < width * height := by
  have := Nat.mul_le_mul_right width (Nat.succ_le_of_lt hy)
  rw [Nat.succ_mul, Nat.mul_comm height] at this
  omega

theorem pixel?_blank {width height x y : Nat} (hx : x < width) (hy : y < height) :
    (blank width height color).pixel? x y = some color := by
  simp [pixel?, blank, hx, hy, index_lt hx hy]

end Canvas

end LSystem
