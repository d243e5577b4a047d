import LSystem.RuleSet

/-! # Grammars

An axiom and rules over an alphabet. A strict grammar uses declared symbols only; an inferred one
declares every symbol that it uses.
-/

namespace LSystem

inductive AlphabetPolicy where
  | strict
  | inferred
deriving DecidableEq, Repr

structure Grammar where
  alphabet : Alphabet
  start : Word
  rules : RuleSet
  policy : AlphabetPolicy
  wordLimit : Option Nat

namespace Grammar

def ruleSymbols (r : Rule) : List (String × SymbolPlace) :=
  (r.symbol, .predecessor) ::
    r.alternatives.flatMap fun (w, _) => w.map fun l => (l.symbol, .successorOf r.symbol)

def usedSymbols (start : Word) (rules : RuleSet) : List (String × SymbolPlace) :=
  start.map (fun l => (l.symbol, .startWord)) ++ rules.toList.flatMap ruleSymbols

/-- The grammar whose alphabet is what is declared and what is used. -/
def inferred (declared : Alphabet) (start : Word) (rules : RuleSet) : Grammar where
  alphabet := declared.insertAll ((usedSymbols start rules).map Prod.fst)
  start := start
  rules := rules
  policy := .inferred
  wordLimit := none

/-- Builds a grammar under a policy. A strict grammar is refused at the first symbol that is not
declared. -/
def build (declared : Alphabet) (start : Word) (rules : RuleSet) :
    AlphabetPolicy → Except SketchError Grammar
  | .inferred => .ok (inferred declared start rules)
  | .strict =>
    match (usedSymbols start rules).find? fun (s, _) => s ∉ declared with
    | some (s, place) => .error (.unknownSymbol s place)
    | none => .ok ⟨declared, start, rules, .strict, none⟩

def withWordLimit (g : Grammar) (limit : Option Nat) : Grammar := { g with wordLimit := limit }

def isStochastic (g : Grammar) : Bool := g.rules.isStochastic

def parseWord (g : Grammar) (text : String) : Word := Word.parse g.alphabet text

end Grammar

end LSystem
