import LSystem.Geometry.Point

/-! # Letters

The atoms of words. Rules and drawing commands look only at a letter's symbol; the kind of the
letter decides what travels with it.
-/

namespace LSystem

/-- The side on which an edge of an edge-replacement system is replaced. -/
inductive Hand where
  | left
  | right
deriving DecidableEq, Repr

/-- Where a node is entered or left, and in which direction. -/
structure Anchor where
  point : Point Float32
  direction : Point Float32
deriving BEq

inductive Letter where
  | plain (symbol : String)
  | edge (symbol : String) (hand : Hand)
  | node (symbol : String) (entry exit : Anchor) (frame : String)
deriving BEq

namespace Letter

def symbol : Letter → String
  | plain s => s
  | edge s _ => s
  | node s _ _ _ => s

def edgeToken : Hand → String
  | .left => "Fl"
  | .right => "Fr"

def ofToken (token : String) : Letter :=
  if token = edgeToken .left then edge token .left
  else if token = edgeToken .right then edge token .right
  else plain token

@[simp] theorem symbol_ofToken (token : String) : (ofToken token).symbol = token := by
  unfold ofToken; split
  · rfl
  · split <;> rfl

end Letter

end LSystem
