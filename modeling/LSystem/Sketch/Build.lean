import LSystem.Sketch.Basic

/-! # Building grammars

Every text of a grammar is cut into letters with the declared alphabet. Rules are refused in the
order of the document before they are collected, and the collected rules before the policy is
applied.
-/

namespace LSystem

/-- The rule of a text. The predecessor has to be a single letter, and there has to be either one
successor or a list of weighted ones. -/
def RuleText.build (alphabet : Alphabet) (r : RuleText) : Except SketchError Rule :=
  match Word.parse alphabet r.predecessor with
  | [letter] =>
    match r.successor, r.successors with
    | some w, [] => .ok (.deterministic letter (Word.parse alphabet w))
    | none, s :: ss =>
      Rule.stochastic letter ((s :: ss).map fun s => (Word.parse alphabet s.word, s.weight))
    | some _, _ :: _ => .error (.invalidRule r.predecessor .twoSuccessors)
    | none, [] => .error (.invalidRule r.predecessor .missingSuccessor)
  | _ => .error (.invalidRule r.predecessor .longPredecessor)

def GrammarText.build (g : GrammarText) : Except SketchError Grammar := do
  let alphabet := Alphabet.ofList g.alphabet
  let start := Word.parse alphabet g.start
  let rules ← g.rules.mapM (RuleText.build alphabet)
  let ruleSet ← RuleSet.ofRules rules
  let grammar ← Grammar.build alphabet start ruleSet g.policy
  return grammar.withWordLimit (g.wordLimit.map UInt64.toNat)

end LSystem
