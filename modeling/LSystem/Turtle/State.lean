import LSystem.Geometry.Point

/-! # The turtle

Position, heading and pen of the drawing turtle, and the segments it travels. The plane has `y`
upward; headings are degrees, counted counter-clockwise from the direction of `x`, and are kept from
zero to below a full turn.
-/

namespace LSystem

/-- Brings an angle into the range from zero to below a full turn. -/
def normalizeDegrees (degrees : Float32) : Float32 :=
  let r := Single.remainder degrees 360
  let r := if r < 0 then r + 360 else r
  if 360 ≤ r then 0 else r

def radiansPerDegree : Float32 := 3.1415927 / 180

def degreesPerRadian : Float32 := 57.29578

def unitVector (radians : Float32) : Point Float32 :=
  let a := radians.toFloat
  ⟨Single.ofDouble a.cos, Single.ofDouble a.sin⟩

def angleOf (p : Point Float32) : Float32 := Single.ofDouble (Float.atan2 p.y.toFloat p.x.toFloat)

structure Segment where
  start : Point Float32
  stop : Point Float32
  drawn : Bool
deriving BEq

namespace Segment

def length (s : Segment) : Float32 :=
  let d := s.start - s.stop
  (d.x * d.x + d.y * d.y).sqrt

def heading (s : Segment) : Float32 :=
  let d := s.stop - s.start
  if d == Point.zero then 0 else normalizeDegrees (angleOf d * degreesPerRadian)

end Segment

structure Turtle where
  position : Point Float32
  heading : Float32
  /-- Whether the last move was drawn. -/
  penDown : Bool
deriving BEq

namespace Turtle

def home : Turtle := ⟨⟨0, 0⟩, 0, true⟩

def facing (position : Point Float32) (heading : Float32) : Turtle :=
  ⟨position, normalizeDegrees heading, true⟩

def direction (t : Turtle) : Point Float32 := unitVector (t.heading * radiansPerDegree)

def turn (t : Turtle) (degrees : Float32) : Turtle :=
  { t with heading := normalizeDegrees (t.heading + degrees) }

def advance (t : Turtle) (distance : Float32) (drawn : Bool) : Turtle :=
  { t with position := t.position + t.direction.scale distance, penDown := drawn }

def stride (t : Turtle) (distance : Float32) (drawn : Bool) : Segment :=
  ⟨t.position, (t.advance distance drawn).position, drawn⟩

end Turtle

end LSystem
