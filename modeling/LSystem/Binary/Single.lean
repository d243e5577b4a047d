/-! # Single precision, exactly

Operations on single-precision numbers that are not arithmetic of the type itself: rounding to an
integer, the remainder of a division, and rounding a double to a single. Each works on the exact
value `± m * 2 ^ e` of its argument.
-/

namespace LSystem.Single

open Float.Model

def roundMagnitude (m : Nat) (e : Int) : Nat :=
  if 0 ≤ e then m * Nat.pow 2 e.toNat
  else (2 * m + Nat.pow 2 (-e).toNat) / (2 * Nat.pow 2 (-e).toNat)

def minWord : Int := -0x8000000000000000

def maxWord : Int := 0x7fffffffffffffff

def fitsWord (n : Int) : Bool := minWord ≤ n && n ≤ maxWord

theorem fitsWord_iff {n : Int} : fitsWord n ↔ minWord ≤ n ∧ n ≤ maxWord := by
  simp [fitsWord]

/-- The nearest integer, a half going away from zero. Numbers beyond the 64-bit range go to its end,
and a number that is not one goes to zero. -/
def round (x : Float32) : Int :=
  match x.toModel.unpack with
  | .notANumber => 0
  | .zero _ => 0
  | .infinity .negative => minWord
  | .infinity .positive => maxWord
  | .finite s m e _ => max minWord (min maxWord (s.apply (roundMagnitude m e)))

/-- The remainder of `m * 2 ^ e` divided by `n`, in units of `2 ^ min e 0`. -/
def remainderMagnitude (n m : Nat) (e : Int) : Nat :=
  if 0 ≤ e then m * Nat.pow 2 e.toNat % n else m % (n * Nat.pow 2 (-e).toNat)

/-- The remainder of division by `n`, with the sign of the dividend. It is exact: the remainder has
no more binary digits than the dividend. -/
def remainder (x : Float32) (n : Nat) : Float32 :=
  match x.toModel.unpack with
  | .notANumber => x
  | .zero _ => x
  | .infinity _ => .ofModel (.pack .notANumber)
  | .finite s m e _ =>
    match remainderMagnitude n m e with
    | 0 => .ofModel (.pack (.zero s))
    | r + 1 => .ofModel (.pack (.round .binary32 s (r + 1) (min e 0)))

/-- The single nearest to a double, a tie going to the even one. -/
def ofDouble (x : Float) : Float32 :=
  match x.toModel.unpack with
  | .finite s m e _ => .ofModel (.pack (.round .binary32 s m e))
  | y => .ofModel (.pack y)

def ofInt (n : Int) : Float32 := Float32.ofInt n

end LSystem.Single
