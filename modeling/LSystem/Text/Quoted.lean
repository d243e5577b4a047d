import LSystem.Text.Invisible

/-! # Quoted text

Text between double quotes, with an escape for each character that would not show.
-/

namespace LSystem

/-- A character between quotes. The quote, the backslash, the tab and the ends of lines have short
escapes; `other` writes all other characters. -/
def escapeWith (other : Char → String) : Char → String
  | '"' => "\\\""
  | '\\' => "\\\\"
  | '\n' => "\\n"
  | '\r' => "\\r"
  | '\t' => "\\t"
  | c => other c

def quotedWith (other : Char → String) (s : String) : String :=
  s.foldl (fun out c => out ++ escapeWith other c) "\"" ++ "\""

def braced (c : Char) : String :=
  if c = '\x00' then "\\0"
  else if isInvisible c then "\\u\x7b" ++ String.ofList (Nat.toDigits 16 c.toNat) ++ "\x7d"
  else c.toString

def quoted (s : String) : String := quotedWith braced s

end LSystem
