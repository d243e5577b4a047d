import LSystem.Word.Basic
import LSystem.Random.Source

/-! # Lotteries

A choice among weighted words. A word from the source becomes a number from zero to the sum of the
weights, and the running sums of the weights that do not exceed it are counted.
-/

namespace LSystem

structure Lottery where
  entries : List (Word × Float)

namespace Lottery

def weights (l : Lottery) : List Float := l.entries.map Prod.snd

def sum (ws : List Float) : Float := ws.foldl (· + ·) 0

def total (l : Lottery) : Float := sum l.weights

def runningSums (start : Float) : List Float → List Float
  | [] => []
  | w :: ws => (start + w) :: runningSums (start + w) ws

/-- The running sums at which one entry gives way to the next. -/
def thresholds (l : Lottery) : List Float := runningSums 0 l.weights.dropLast

/-- The number from zero, included, to one, excluded, whose binary places are the high 52 bits of a
word. -/
def unitInterval (u : UInt64) : Float :=
  Float.ofBits ((0x3ff0000000000000 : UInt64) ||| (u >>> 12)) - 1

/-- The number that a word of the source picks between zero and the sum of the weights. -/
def level (l : Lottery) (u : UInt64) : Float := unitInterval u * l.total + 0

/-- The place of the entry that a word of the source picks. -/
def pick (l : Lottery) (u : UInt64) : Nat :=
  let x := l.level u
  l.thresholds.countP fun t => t ≤ x

def outcome (l : Lottery) (u : UInt64) : Word := (l.entries[l.pick u]?.map Prod.fst).getD []

def probabilities (l : Lottery) : List (Word × Float) :=
  let total := l.total
  l.entries.map fun (w, weight) => (w, weight / total)

end Lottery

end LSystem
