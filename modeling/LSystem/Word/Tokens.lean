import LSystem.Alphabet.Basic
import LSystem.Text.WhiteSpace

/-! # Tokens

A text is cut into tokens from left to right. White space between tokens is skipped. At any other
character the symbols of at least two characters are tried, from the greatest length that a symbol
has downward; the token is the first that the rest of the text begins with, and the single character
when there is none.
-/

namespace LSystem

def Alphabet.spellings (a : Alphabet) : List (List Char) := a.symbols.map String.toList

theorem Alphabet.mem_spellings_iff {a : Alphabet} {s : List Char} :
    s ∈ a.spellings ↔ String.ofList s ∈ a := by
  rw [spellings, List.mem_map]
  constructor
  · rintro ⟨r, hr, rfl⟩
    rwa [String.ofList_toList]
  · intro h
    exact ⟨_, h, String.toList_ofList⟩

def initial? : Nat → List Char → Option (List Char)
  | 0, _ => some []
  | _ + 1, [] => none
  | n + 1, c :: cs => (initial? n cs).map (c :: ·)

theorem initial?_eq_some_iff {n : Nat} {text t : List Char} :
    initial? n text = some t ↔ t <+: text ∧ t.length = n := by
  induction n generalizing text t with
  | zero =>
    rw [initial?, Option.some_inj, eq_comm]
    constructor
    · rintro rfl
      exact ⟨List.nil_prefix, rfl⟩
    · rintro ⟨-, h⟩
      exact List.length_eq_zero_iff.mp h
  | succ n ih =>
    cases text with
    | nil =>
      rw [initial?]
      constructor
      · nofun
      · rintro ⟨h, hn⟩
        rw [List.prefix_nil.mp h] at hn
        cases hn
    | cons c cs =>
      rw [initial?, Option.map_eq_some_iff]
      constructor
      · rintro ⟨s, hs, rfl⟩
        obtain ⟨hp, hn⟩ := ih.mp hs
        exact ⟨List.cons_prefix_cons.mpr ⟨rfl, hp⟩, congrArg (· + 1) hn⟩
      · rintro ⟨hp, hn⟩
        cases t with
        | nil => cases hn
        | cons d s =>
          obtain ⟨rfl, hs⟩ := List.cons_prefix_cons.mp hp
          exact ⟨s, ih.mpr ⟨hs, Nat.succ.inj hn⟩, rfl⟩

def longest (symbols : List (List Char)) : Nat := (symbols.map List.length).max?.getD 1

theorem length_le_longest {symbols : List (List Char)} {s : List Char} (h : s ∈ symbols) :
    s.length ≤ longest symbols :=
  List.le_max?_getD_of_mem (List.mem_map_of_mem h)

/-- The length of the token at the beginning of a text, when it is `n` at most. -/
def tokenLength (symbols : List (List Char)) (text : List Char) : Nat → Nat
  | 0 => 1
  | 1 => 1
  | n + 2 =>
    if (initial? (n + 2) text).any (· ∈ symbols) then n + 2 else tokenLength symbols text (n + 1)

theorem one_le_tokenLength (symbols : List (List Char)) (text : List Char) (n : Nat) :
    1 ≤ tokenLength symbols text n := by
  fun_induction tokenLength symbols text n with
  | case1 => exact Nat.le_refl 1
  | case2 => exact Nat.le_refl 1
  | case3 n => exact Nat.le_add_left 1 (n + 1)
  | case4 n _ ih => exact ih

def tokensUpTo (symbols : List (List Char)) (n : Nat) (text : List Char) : List (List Char) :=
  match text with
  | [] => []
  | c :: rest =>
    if isWhiteSpace c then tokensUpTo symbols n rest
    else
      let k := tokenLength symbols (c :: rest) n
      (c :: rest).take k :: tokensUpTo symbols n ((c :: rest).drop k)
termination_by text.length
decreasing_by
  · simp
  · have := one_le_tokenLength symbols (c :: rest) n
    simp only [List.length_drop, List.length_cons]
    omega

def tokens (symbols : List (List Char)) (text : List Char) : List (List Char) :=
  tokensUpTo symbols (longest symbols) text

variable {symbols : List (List Char)} {c : Char} {text : List Char}

@[simp] theorem tokens_nil : tokens symbols [] = [] := by rw [tokens, tokensUpTo]

theorem tokens_cons_of_blank (h : isWhiteSpace c) :
    tokens symbols (c :: text) = tokens symbols text := by
  rw [tokens, tokensUpTo, if_pos h, tokens]

theorem tokens_cons (h : ¬isWhiteSpace c) :
    tokens symbols (c :: text) =
      (c :: text).take (tokenLength symbols (c :: text) (longest symbols)) ::
        tokens symbols ((c :: text).drop (tokenLength symbols (c :: text) (longest symbols))) := by
  rw [tokens, tokensUpTo, if_neg h, tokens]

end LSystem
