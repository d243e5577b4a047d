import LSystem.Geometry.Point

/-! # Boxes and clipping

Boxes with sides along the axes, and the part of a line that lies in one. A line from `a` to `b` is
the set of points `a + (b - a) * t` with `t` from zero to one; each side of the box bounds `t` from
one end, and the line misses the box when the bounds cross.
-/

namespace LSystem

structure Box (K : Type) where
  low : Point K
  high : Point K
deriving BEq

structure Interval (K : Type) where
  first : K
  last : K

namespace Box

variable {K : Type} [Scalar K]

@[inline] def spanning (p q : Point K) : Box K := ⟨p.least q, p.greatest q⟩

@[inline] def union (b c : Box K) : Box K := ⟨b.low.least c.low, b.high.greatest c.high⟩

end Box

namespace Interval

variable {K : Type} [Scalar K]

/-- Keeps the parameters `t` with `p * t ≤ q`, and gives `none` when there are none left. -/
@[inline] def restrict (i : Interval K) (p q : K) : Option (Interval K) :=
  let zero : K := (0 : Nat)
  if p < zero then
    let r := q / p
    if i.last < r then none else some { i with first := if i.first < r then r else i.first }
  else if zero < p then
    let r := q / p
    if r < i.first then none else some { i with last := if r < i.last then r else i.last }
  else if q < zero then none
  else some i

@[inline] def whole : Interval K := ⟨(0 : Nat), (1 : Nat)⟩

end Interval

/-- The ends of the part of the line from `a` to `b` that lies in the box, in that order. An end
that is in the box is kept as it is. -/
@[specialize] def Box.clip {K : Type} [Scalar K] (box : Box K) (a b : Point K) :
    Option (Point K × Point K) :=
  if a.isFinite && b.isFinite then do
    let d := b - a
    let i ← Interval.whole.restrict (-d.x) (a.x - box.low.x)
    let i ← i.restrict d.x (box.high.x - a.x)
    let i ← i.restrict (-d.y) (a.y - box.low.y)
    let i ← i.restrict d.y (box.high.y - a.y)
    let start := if ((0 : Nat) : K) < i.first then a + d.scale i.first else a
    let stop := if i.last < ((1 : Nat) : K) then a + d.scale i.last else b
    return (start, stop)
  else none

end LSystem
