import LSystem.Geometry.Scalar

/-! # Points of the plane -/

namespace LSystem

structure Point (K : Type) where
  x : K
  y : K
deriving BEq

namespace Point

variable {K : Type} [Scalar K]

@[inline] def zero : Point K := ⟨(0 : Nat), (0 : Nat)⟩

@[inline] def diagonal (a : K) : Point K := ⟨a, a⟩

@[inline] instance : Add (Point K) := ⟨fun p q => ⟨p.x + q.x, p.y + q.y⟩⟩

@[inline] instance : Sub (Point K) := ⟨fun p q => ⟨p.x - q.x, p.y - q.y⟩⟩

@[simp] theorem add_x (p q : Point K) : (p + q).x = p.x + q.x := rfl
@[simp] theorem add_y (p q : Point K) : (p + q).y = p.y + q.y := rfl
@[simp] theorem sub_x (p q : Point K) : (p - q).x = p.x - q.x := rfl
@[simp] theorem sub_y (p q : Point K) : (p - q).y = p.y - q.y := rfl

@[inline] def scale (p : Point K) (a : K) : Point K := ⟨p.x * a, p.y * a⟩

@[inline] def least (p q : Point K) : Point K := ⟨Scalar.least p.x q.x, Scalar.least p.y q.y⟩

@[inline] def greatest (p q : Point K) : Point K :=
  ⟨Scalar.greatest p.x q.x, Scalar.greatest p.y q.y⟩

@[inline] def isFinite (p : Point K) : Bool := Scalar.isFinite p.x && Scalar.isFinite p.y

end Point

end LSystem
