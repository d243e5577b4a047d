import LSystem.Json.Token

/-! # Reading JSON

The tokens of a document are read from left to right. The containers that are open form a stack, so
nesting may be as deep as it likes.
-/

namespace LSystem.Json

/-- An open container with what is complete in it, the last part first. -/
inductive Frame where
  | array (items : List Json)
  | object (members : List (Literal × Json)) (key : Literal)

/-- What the next token is read as, within the open containers. -/
inductive Reading where
  | value (stack : List Frame)
  | firstItem (stack : List Frame)
  | firstKey (stack : List Frame)
  | key (members : List (Literal × Json)) (stack : List Frame)
  | colon (members : List (Literal × Json)) (key : Literal) (stack : List Frame)
  | complete (value : Json) (stack : List Frame)

namespace Reading

def stepValue (stack : List Frame) : Token → Option Reading
  | .atom v => some (complete v stack)
  | .text s => some (complete (.text s) stack)
  | .openArray => some (firstItem stack)
  | .openObject => some (firstKey stack)
  | _ => none

def stepComplete (v : Json) : List Frame → Token → Option Reading
  | .array items :: stack, .comma => some (value (.array (v :: items) :: stack))
  | .array items :: stack, .closeArray => some (complete (.array (v :: items).reverse) stack)
  | .object members k :: stack, .comma => some (key ((k, v) :: members) stack)
  | .object members k :: stack, .closeObject =>
    some (complete (.object ((k, v) :: members).reverse) stack)
  | _, _ => none

def step : Reading → Token → Option Reading
  | value stack, t => stepValue stack t
  | firstItem stack, .closeArray => some (complete (.array []) stack)
  | firstItem stack, t => stepValue (.array [] :: stack) t
  | firstKey stack, .closeObject => some (complete (.object []) stack)
  | firstKey stack, .text k => some (colon [] k stack)
  | key members stack, .text k => some (colon members k stack)
  | colon members k stack, .colon => some (value (.object members k :: stack))
  | complete v stack, t => stepComplete v stack t
  | _, _ => none

def result? : Reading → Option Json
  | complete v [] => some v
  | _ => none

end Reading

def parse? (text : String) : Option Json := do
  let ts ← tokens text.toList
  let reading ← ts.foldlM Reading.step (.value [])
  reading.result?

end LSystem.Json
