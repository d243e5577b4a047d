import LSystem.Binary.Single

/-! # Lines of cells

The cells that a straight line between two cells passes through, found with whole numbers alone. The
cursor carries how far it has drifted from the ideal line and steps along an axis whenever the drift
allows it, until it is at the end.
-/

namespace LSystem

structure Cell where
  x : Int
  y : Int
deriving DecidableEq, Repr

structure Line where
  start : Cell
  stop : Cell
deriving DecidableEq, Repr

structure Cursor where
  cell : Cell
  drift : Int

namespace Line

variable (l : Line)

def width : Int := (l.stop.x - l.start.x).natAbs

def height : Int := (l.stop.y - l.start.y).natAbs

def stepX : Int := if l.start.x < l.stop.x then 1 else -1

def stepY : Int := if l.start.y < l.stop.y then 1 else -1

def cursor : Cursor := ⟨l.start, l.width - l.height⟩

def movesX (c : Cursor) : Bool := -l.height ≤ 2 * c.drift

def movesY (c : Cursor) : Bool := 2 * c.drift ≤ l.width

def next (c : Cursor) : Cursor where
  cell.x := if l.movesX c then c.cell.x + l.stepX else c.cell.x
  cell.y := if l.movesY c then c.cell.y + l.stepY else c.cell.y
  drift := c.drift + (if l.movesX c then -l.height else 0) + (if l.movesY c then l.width else 0)

/-- The places from `c` to the end of the line, `n` at most. -/
def cursorsFrom : Nat → Cursor → List Cursor
  | 0, _ => []
  | n + 1, c => c :: if c.cell = l.stop then [] else cursorsFrom n (l.next c)

def count : Nat := max l.width.toNat l.height.toNat + 1

def cursors : List Cursor := l.cursorsFrom l.count l.cursor

def cells : List Cell := l.cursors.map Cursor.cell

/-- Visits the places that `cursorsFrom` lists without listing them. -/
@[specialize] def visitFrom {m : Type → Type} [Monad m] {α : Type} (f : α → Cursor → m α) :
    Nat → Cursor → α → m α
  | 0, _, a => pure a
  | n + 1, c, a => do
    let a ← f a c
    if c.cell = l.stop then pure a else visitFrom f n (l.next c) a

theorem visitFrom_eq {m : Type → Type} [Monad m] [LawfulMonad m] {α : Type}
    (f : α → Cursor → m α) (n : Nat) (c : Cursor) (a : α) :
    l.visitFrom f n c a = (l.cursorsFrom n c).foldlM f a := by
  induction n generalizing c a with
  | zero => rfl
  | succ n ih =>
    simp only [visitFrom, cursorsFrom, List.foldlM_cons]
    refine bind_congr fun a => ?_
    split
    · simp
    · exact ih ..

@[inline] def visit {m : Type → Type} [Monad m] {α : Type} (f : α → Cursor → m α) (a : α) : m α :=
  l.visitFrom f l.count l.cursor a

theorem visit_eq {m : Type → Type} [Monad m] [LawfulMonad m] {α : Type} (f : α → Cursor → m α)
    (a : α) : l.visit f a = l.cursors.foldlM f a :=
  visitFrom_eq ..

def extentFits : Bool :=
  Single.fitsWord (l.stop.x - l.start.x) && Single.fitsWord (l.stop.y - l.start.y) &&
    Single.fitsWord l.width && Single.fitsWord l.height

/-- Whether the numbers computed on the way to the next place have 64-bit forms. -/
def stepFits (c : Cursor) : Bool :=
  Single.fitsWord (2 * c.drift) && (!l.movesX c || Single.fitsWord (c.drift - l.height)) &&
    Single.fitsWord (l.next c).drift && Single.fitsWord (l.next c).cell.x &&
    Single.fitsWord (l.next c).cell.y

end Line

end LSystem
