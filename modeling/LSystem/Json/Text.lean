import LSystem.Json.Value

/-! # JSON strings

String literals after their opening quote. Characters beyond sixteen bits may be escaped as the two
halves of a surrogate pair; a literal with a half on its own is a literal, but has no text.
-/

namespace LSystem.Json

def hexValue? (c : Char) : Option Nat :=
  if '0' ≤ c ∧ c ≤ '9' then some (c.toNat - '0'.toNat)
  else if 'a' ≤ c ∧ c ≤ 'f' then some (c.toNat - 'a'.toNat + 10)
  else if 'A' ≤ c ∧ c ≤ 'F' then some (c.toNat - 'A'.toNat + 10)
  else none

def hexNumber? (cs : List Char) : Option Nat :=
  cs.foldlM (fun n c => (hexValue? c).map (16 * n + ·)) 0

def escaped? : Char → Option Char
  | '"' => some '"'
  | '\\' => some '\\'
  | '/' => some '/'
  | 'b' => some '\x08'
  | 'f' => some '\x0c'
  | 'n' => some '\n'
  | 'r' => some '\r'
  | 't' => some '\t'
  | _ => none

/-- A piece of a literal: a character, or half of a surrogate pair with its ten bits. -/
inductive Piece where
  | char (c : Char)
  | high (bits : Nat)
  | low (bits : Nat)

def Piece.ofNat (n : Nat) : Piece :=
  if 0xd800 ≤ n ∧ n < 0xdc00 then .high (n - 0xd800)
  else if 0xdc00 ≤ n ∧ n < 0xe000 then .low (n - 0xdc00)
  else .char (Char.ofNat n)

def joinPairs : List Piece → Option (List Char)
  | [] => some []
  | .char c :: rest => (c :: ·) <$> joinPairs rest
  | .high h :: .low l :: rest => (Char.ofNat (0x10000 + 0x400 * h + l) :: ·) <$> joinPairs rest
  | _ => none

def scanPieces (pieces : List Piece) : List Char → Option (List Piece × List Char)
  | '"' :: rest => some (pieces, rest)
  | '\\' :: 'u' :: a :: b :: c :: d :: rest =>
    match hexNumber? [a, b, c, d] with
    | some n => scanPieces (.ofNat n :: pieces) rest
    | none => none
  | '\\' :: c :: rest =>
    match escaped? c with
    | some c => scanPieces (.char c :: pieces) rest
    | none => none
  | c :: rest => if c.toNat < 0x20 then none else scanPieces (.char c :: pieces) rest
  | [] => none

theorem length_of_scanPieces {pieces out : List Piece} {cs rest : List Char}
    (h : scanPieces pieces cs = some (out, rest)) : rest.length ≤ cs.length := by
  fun_induction scanPieces pieces cs with
  | case1 pieces rest => cases h; simp
  | case2 pieces a b c d rest n hn ih => have := ih h; simp only [List.length_cons]; omega
  | case3 => cases h
  | case4 pieces c rest _ c' hc ih => have := ih h; simp only [List.length_cons]; omega
  | case5 => cases h
  | case6 => cases h
  | case7 pieces c rest _ _ _ hc ih => have := ih h; simp only [List.length_cons]; omega
  | case8 => cases h

def scanText (cs : List Char) : Option (Literal × List Char) :=
  (scanPieces [] cs).map fun (pieces, rest) =>
    ((joinPairs pieces.reverse).map String.ofList, rest)

theorem length_of_scanText {cs rest : List Char} {s : Literal}
    (h : scanText cs = some (s, rest)) : rest.length ≤ cs.length := by
  obtain ⟨⟨_, _⟩, hs, he⟩ := Option.map_eq_some_iff.mp h
  cases he
  exact length_of_scanPieces hs

end LSystem.Json
