import LSystem.Letter
import LSystem.Word.Tokens

/-! # Words -/

namespace LSystem

abbrev Word := List Letter

namespace Word

def parse (alphabet : Alphabet) (text : String) : Word :=
  (tokens alphabet.spellings text.toList).map fun t => Letter.ofToken (String.ofList t)

def edgeAlphabet : Alphabet := .ofList [Letter.edgeToken .left, Letter.edgeToken .right]

/-- The word of a text in which edges are the only symbols of more than one character. -/
def ofText (text : String) : Word := parse edgeAlphabet text

def display (w : Word) : String := String.join (w.map Letter.symbol)

def countSymbol (w : Word) (symbol : String) : Nat := w.countP fun l => l.symbol == symbol

end Word

end LSystem
