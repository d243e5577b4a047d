import LSystem.Binary.Single

/-! # Decimal numbers

A sign, a coefficient and a power of ten: what a numeral says before it is rounded to a float. A
float is read from it by scaling the rounded coefficient, which is the nearest float when the
coefficient has at most 53 bits and the power of ten is at most the 22nd, and may otherwise be a
neighbour of the nearest.
-/

namespace LSystem

/-- The number `± coefficient * 10 ^ exponent`; zero keeps its sign. -/
structure Decimal where
  negative : Bool
  coefficient : Nat
  exponent : Int
deriving DecidableEq, Repr

namespace Decimal

def greatestPower : Nat := 308

def powerOfTen (n : Nat) : Float := OfScientific.ofScientific 1 false n

def scaleUp (x : Float) (n : Nat) : Float :=
  if n ≤ greatestPower then x * powerOfTen n
  else if x = 0 then 0 else 1 / 0

/-- The quotient of `x` by `10 ^ n`, in two steps when that power is not finite. Two such steps take
every integer of 64 bits to zero. -/
def scaleDown (x : Float) (n : Nat) : Float :=
  if n ≤ greatestPower then x / powerOfTen n
  else x / powerOfTen greatestPower / powerOfTen (min (n - greatestPower) greatestPower)

/-- The double read from a decimal number: its coefficient is rounded, then scaled by its power of
ten. -/
def toFloat (d : Decimal) : Float :=
  let x := Float.ofNat d.coefficient
  let magnitude := match d.exponent with
    | .ofNat n => scaleUp x n
    | .negSucc n => scaleDown x (n + 1)
  if d.negative then -magnitude else magnitude

def toSingle? (d : Decimal) : Option Float32 :=
  let x := d.toFloat
  if x.isFinite then some (Single.ofDouble x) else none

example : (toFloat ⟨true, 15, -1⟩).toBits = (-1.5 : Float).toBits := by decide +kernel
example : (toFloat ⟨false, 21052650847192078, -17⟩).toBits =
    (0.2105265084719208 : Float).toBits := by decide +kernel
example : toSingle? ⟨false, 1, 400⟩ = none ∧
    (toFloat ⟨true, 0, 400⟩).toBits = (-0 : Float).toBits := by decide +kernel

def digits (d : Decimal) : List Char := Nat.toDigits 10 d.coefficient

def point (d : Decimal) : Int := d.digits.length + d.exponent

def magnitude (d : Decimal) : Int := d.point - 1

end Decimal

end LSystem
