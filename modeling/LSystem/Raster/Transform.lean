import LSystem.Geometry.Box

/-! # From the plane to the canvas

Pixel coordinates grow to the right and downward. A transform stretches the plane by one factor on
both axes, turns it upside down if wanted, and moves it.
-/

namespace LSystem

structure Transform (K : Type) where
  origin : Point K
  scale : K
  flipY : Bool
deriving BEq

namespace Transform

variable {K : Type} [Scalar K]

def identity : Transform K := ⟨Point.zero, (1 : Nat), false⟩

def centered (width height : Nat) : Transform K :=
  ⟨⟨(width : K) / (2 : Nat), (height : K) / (2 : Nat)⟩, (1 : Nat), true⟩

def lastPixel (side : Nat) : K := (max side 1 : Nat) - (1 : Nat)

def room (side : Nat) (margin : K) : K :=
  Scalar.greatest (lastPixel side - (2 : Nat) * margin) (1 : Nat)

/-- The scale at which an extent fills its room. An extent that is not positive sets none. -/
def axisScale (room extent : K) : Option K :=
  if ((0 : Nat) : K) < extent then
    let s := room / extent
    if Scalar.isFinite s then some s else none
  else none

/-- The greatest scale at which both extents stay in their rooms, one if neither sets a scale. -/
def commonScale : Option K → Option K → K
  | some a, some b => Scalar.least a b
  | some a, none => a
  | none, some b => b
  | none, none => (1 : Nat)

/-- The transform that puts a box in the middle of the canvas, as large as the margins allow. -/
def fit (box : Box K) (width height : Nat) (margin : K) : Transform K :=
  let extent := box.high - box.low
  let scale := commonScale (axisScale (room width margin) extent.x)
    (axisScale (room height margin) extent.y)
  let two : K := (2 : Nat)
  let sum := box.low + box.high
  let center : Point K := ⟨sum.x / two, sum.y / two⟩
  let middle : Point K := ⟨lastPixel width / two, lastPixel height / two⟩
  ⟨middle - Point.scale ⟨center.x, -center.y⟩ scale, scale, true⟩

@[inline] def apply (t : Transform K) (p : Point K) : Point K :=
  t.origin + Point.scale ⟨p.x, if t.flipY then -p.y else p.y⟩ t.scale

end Transform

end LSystem
