import LSystem.Decimal.Basic

/-! # Shortest decimals

The decimal numeral with the fewest digits among those that the float is nearest to, and of those
the nearest to it. All comparisons are between exact natural numbers.
-/

namespace LSystem

open Float.Model

/-- Which of two numerals is taken that are equally near: the one with the even last digit, or the
greater one. -/
inductive Tie where
  | even
  | up

/-- A positive number and the reals that round to it, in units of `2 ^ unit`. -/
structure Basin where
  lower : Nat
  centre : Nat
  upper : Nat
  unit : Int
  closed : Bool

namespace Basin

/-- The reals that round to `m * 2 ^ e`. They end halfway to the neighbours; below a power of two
the neighbour is at half the distance. -/
def ofFinite (format : Format) (m : Nat) (e : Int) : Basin where
  lower :=
    if m = Nat.pow 2 format.mantissaBitsWithoutImplicit ∧ format.minExponent < e then 4 * m - 1
    else 4 * m - 2
  centre := 4 * m
  upper := 4 * m + 2
  unit := e - 2
  closed := m % 2 = 0

def decimalFactor (b : Basin) (grid : Int) : Nat :=
  Nat.pow 10 grid.toNat * Nat.pow 2 (-b.unit).toNat

def binaryFactor (b : Basin) (grid : Int) : Nat :=
  Nat.pow 2 b.unit.toNat * Nat.pow 10 (-grid).toNat

def contains (b : Basin) (c : Nat) (grid : Int) : Bool :=
  let x := c * b.decimalFactor grid
  let low := b.lower * b.binaryFactor grid
  let high := b.upper * b.binaryFactor grid
  if b.closed then low ≤ x && x ≤ high else low < x && x < high

def nearer (tie : Tie) (x y c : Nat) : Nat :=
  match compare (2 * x) ((2 * c + 1) * y), tie with
  | .lt, _ => c
  | .gt, _ => c + 1
  | .eq, .even => if c % 2 = 0 then c else c + 1
  | .eq, .up => c + 1

/-- The multiple of `10 ^ grid` in the basin that is nearest to the centre, if one is in it. Only
the two neighbours of the centre have to be looked at. -/
def multiple? (tie : Tie) (b : Basin) (grid : Int) : Option Nat :=
  let x := b.centre * b.binaryFactor grid
  let y := b.decimalFactor grid
  let c := x / y
  match b.contains c grid, b.contains (c + 1) grid with
  | true, true => some (nearer tie x y c)
  | true, false => some c
  | false, true => some (c + 1)
  | false, false => none

/-- The first grid `10 ^ top`, `10 ^ (top - 1)`, … with a multiple in the basin. The coarsest grid
needs the fewest digits. -/
def search (tie : Tie) (b : Basin) (top : Int) : Nat → Option (Nat × Int)
  | 0 => none
  | n + 1 =>
    match b.multiple? tie top with
    | some c => some (c, top)
    | none => b.search tie (top - 1) n

end Basin

inductive Numeral where
  | notANumber
  | infinity (negative : Bool)
  | finite (value : Decimal)
deriving DecidableEq, Repr

namespace Numeral

def allDigits (m : Nat) (e : Int) : Nat × Int :=
  if 0 ≤ e then (m * Nat.pow 2 e.toNat, 0) else (m * Nat.pow 5 (-e).toNat, e)

/-- The shortest numeral of a float, looked for on `depth` grids from `10 ^ top` downward. -/
def ofUnpacked (tie : Tie) (format : Format) (top : Int) (depth : Nat) : UnpackedFloat → Numeral
  | .notANumber => .notANumber
  | .infinity s => .infinity (s == .negative)
  | .zero s => .finite ⟨s == .negative, 0, 0⟩
  | .finite s m e _ =>
    let (c, grid) := ((Basin.ofFinite format m e).search tie top depth).getD (allDigits m e)
    .finite ⟨s == .negative, c, grid⟩

/-- Singles lie between `10 ^ -46` and `10 ^ 39`. -/
def ofSingle (tie : Tie) (x : Float32) : Numeral :=
  ofUnpacked tie .binary32 39 90 x.toModel.unpack

def ofDouble (tie : Tie) (x : Float) : Numeral :=
  ofUnpacked tie .binary64 309 640 x.toModel.unpack

end Numeral

end LSystem
