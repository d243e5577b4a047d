import LSystem.Decimal.Basic

/-! # JSON values

Numbers keep the form in which they are known: a literal is an integer or a decimal number, and is
rounded to a float only where a float is wanted; a float that is to be written stays a float.
-/

namespace LSystem

/-- The text of a string literal, `none` when an escape names half of a surrogate pair, which no
text contains. Where a value is ignored such a literal does no harm. -/
abbrev Literal := Option String

inductive Json where
  | null
  | bool (value : Bool)
  | integer (value : Int)
  | decimal (value : Decimal)
  | single (value : Float32)
  | double (value : Float)
  | text (value : Literal)
  | array (items : List Json)
  | object (members : List (Literal × Json))

namespace Json

def string (s : String) : Json := .text (some s)

def record (members : List (String × Json)) : Json :=
  .object (members.map fun m => (some m.1, m.2))

end Json

end LSystem
