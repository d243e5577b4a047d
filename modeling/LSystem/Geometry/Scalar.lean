import LSystem.Binary.Single

/-! # Scalars

The arithmetic that geometry is written over. Drawings are computed in single precision; over the
rationals the same definitions say what they compute when nothing is rounded.
-/

namespace LSystem

class Scalar (K : Type) extends NatCast K, Add K, Sub K, Mul K, Div K, Neg K, LT K where
  decidableLT : DecidableLT K
  isFinite : K → Bool
  /-- The nearest integer, a half going away from zero. -/
  round : K → Int

instance Scalar.instDecidableLT {K : Type} [Scalar K] : DecidableLT K := Scalar.decidableLT

instance : Scalar Float32 where
  natCast := Float32.ofNat
  decidableLT := inferInstance
  isFinite := Float32.isFinite
  round := Single.round

/-- The rational rounding of a half away from zero. -/
def roundRat (q : Rat) : Int :=
  if 0 ≤ q then (q + 1 / 2).floor else -((1 / 2 - q).floor)

instance : Scalar Rat where
  decidableLT := inferInstance
  isFinite _ := true
  round := roundRat

namespace Scalar

variable {K : Type} [Scalar K]

@[inline] def least (a b : K) : K := if a < b then a else b

@[inline] def greatest (a b : K) : K := if b < a then a else b

end Scalar

end LSystem
