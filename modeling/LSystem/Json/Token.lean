import LSystem.Json.Number
import LSystem.Json.Text

/-! # JSON tokens

A document is cut into brackets, separators, strings, numbers and words. Only space, tab, line feed
and carriage return may stand between tokens.
-/

namespace LSystem.Json

inductive Token where
  | openArray
  | closeArray
  | openObject
  | closeObject
  | comma
  | colon
  | text (value : Literal)
  | atom (value : Json)

def isBlank (c : Char) : Bool := c = ' ' || c = '\t' || c = '\n' || c = '\r'

def scanToken (c : Char) (cs : List Char) : Option (Token × List Char) :=
  match c, cs with
  | '[', _ => some (.openArray, cs)
  | ']', _ => some (.closeArray, cs)
  | '\x7b', _ => some (.openObject, cs)
  | '\x7d', _ => some (.closeObject, cs)
  | ',', _ => some (.comma, cs)
  | ':', _ => some (.colon, cs)
  | '"', _ => (scanText cs).map fun (s, rest) => (.text s, rest)
  | 'n', 'u' :: 'l' :: 'l' :: rest => some (.atom .null, rest)
  | 't', 'r' :: 'u' :: 'e' :: rest => some (.atom (.bool true), rest)
  | 'f', 'a' :: 'l' :: 's' :: 'e' :: rest => some (.atom (.bool false), rest)
  | '-', _ => (scanNumber true cs).map fun (v, rest) => (.atom v, rest)
  | _, _ =>
    if c.isDigit then (scanNumber false (c :: cs)).map fun (v, rest) => (.atom v, rest) else none

theorem length_of_scanToken {c : Char} {cs rest : List Char} {t : Token}
    (h : scanToken c cs = some (t, rest)) : rest.length < cs.length + 1 := by
  unfold scanToken at h
  split at h
  case h_7 =>
    obtain ⟨⟨_, _⟩, hs, he⟩ := Option.map_eq_some_iff.mp h
    cases he
    exact Nat.lt_succ_of_le (length_of_scanText hs)
  case h_11 =>
    obtain ⟨⟨_, _⟩, hs, he⟩ := Option.map_eq_some_iff.mp h
    cases he
    exact Nat.lt_succ_of_lt (length_of_scanNumber hs)
  case h_12 =>
    split at h
    · obtain ⟨⟨_, _⟩, hs, he⟩ := Option.map_eq_some_iff.mp h
      cases he
      exact length_of_scanNumber hs
    · cases h
  case h_8 | h_9 | h_10 => cases h; simp only [List.length_cons]; omega
  all_goals cases h; exact Nat.lt_succ_self _

def tokens (cs : List Char) : Option (List Token) :=
  match cs with
  | [] => some []
  | c :: cs =>
    if isBlank c then tokens cs
    else
      match _h : scanToken c cs with
      | none => none
      | some (t, rest) => (t :: ·) <$> tokens rest
termination_by cs.length
decreasing_by
  · simp
  · have := length_of_scanToken _h
    simpa using this

end LSystem.Json
