/-! # White space

The characters that separate tokens: those with the Unicode property White_Space.
-/

namespace LSystem

def whiteSpaceRanges : List (Nat × Nat) :=
  [(0x0009, 0x000D), (0x0020, 0x0020), (0x0085, 0x0085), (0x00A0, 0x00A0), (0x1680, 0x1680),
    (0x2000, 0x200A), (0x2028, 0x2029), (0x202F, 0x202F), (0x205F, 0x205F), (0x3000, 0x3000)]

def isWhiteSpace (c : Char) : Bool :=
  whiteSpaceRanges.any fun (low, high) => low ≤ c.toNat && c.toNat ≤ high

example : isWhiteSpace '\t' ∧ isWhiteSpace ' ' ∧ isWhiteSpace '\u00a0' ∧ isWhiteSpace '\u3000' ∧
    isWhiteSpace 'F' = false ∧ isWhiteSpace '\u200b' = false := by decide

end LSystem
