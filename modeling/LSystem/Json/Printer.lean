import LSystem.Decimal.Layout
import LSystem.Json.Value
import LSystem.Text.Quoted

/-! # Writing JSON

Documents are written without blanks. A float is written with the fewest digits that read back, and
as `null` when it is not finite.
-/

namespace LSystem.Json

def controlEscape (c : Char) : String :=
  if c = '\x08' then "\\b"
  else if c = '\x0c' then "\\f"
  else if c.toNat < 0x20 then
    "\\u00" ++ String.ofList [Nat.digitChar (c.toNat / 16), Nat.digitChar (c.toNat % 16)]
  else c.toString

/-- A literal without text is written as `null`; documents that are written have none. -/
def printLiteral : Literal → String
  | some s => quotedWith controlEscape s
  | none => "null"

def printNumeral (w : Decimal.Window) : Numeral → String
  | .finite d => d.windowed w
  | _ => "null"

mutual

def append (out : String) : Json → String
  | .null => out ++ "null"
  | .bool b => out ++ if b then "true" else "false"
  | .integer n => out ++ toString n
  | .decimal d => out ++ d.windowed .double
  | .single x => out ++ printNumeral .single (.ofSingle .even x)
  | .double x => out ++ printNumeral .double (.ofDouble .even x)
  | .text s => out ++ printLiteral s
  | .array items => appendItems (out ++ "[") true items ++ "]"
  | .object members => appendMembers (out ++ "\x7b") true members ++ "\x7d"

def appendItems (out : String) (first : Bool) : List Json → String
  | [] => out
  | v :: vs => appendItems (append (if first then out else out ++ ",") v) false vs

def appendMembers (out : String) (first : Bool) : List (Literal × Json) → String
  | [] => out
  | (k, v) :: rest =>
    let out := (if first then out else out ++ ",") ++ printLiteral k ++ ":"
    appendMembers (append out v) false rest

end

def print (v : Json) : String := append "" v

end LSystem.Json
