import Mathlib.Data.List.Basic
import LSystem.Proofs.Derivation.WordLimit
import LSystem.Sketch.Build

/-! # Words over the alphabet

A grammar is closed when its axiom and all that its rules may write use symbols of its alphabet
only. Every way of making a grammar gives a closed one: a strict grammar is refused when a symbol is
missing, and an inferred one takes in every symbol, those of alternatives without weight included.
The words that a closed grammar derives are over its alphabet, whatever the source chooses.
-/

namespace LSystem

variable {σ : Type} [Source σ]

/-- Every symbol of the word belongs to the alphabet. -/
def Alphabet.Spells (a : Alphabet) (w : Word) : Prop := ∀ l ∈ w, l.symbol ∈ a

theorem Lottery.outcome_eq_nil_or_mem (l : Lottery) (u : UInt64) :
    l.outcome u = [] ∨ l.outcome u ∈ l.probabilities.map Prod.fst := by
  have hwords : l.probabilities.map Prod.fst = l.entries.map Prod.fst := by
    simp [probabilities]
  rw [hwords, outcome]
  cases hentry : l.entries[l.pick u]? with
  | none => exact .inl rfl
  | some entry => exact .inr (List.mem_map_of_mem (List.mem_of_getElem? hentry))

theorem Rule.successorWord_eq_nil_or_mem (r : Rule) (s : σ) :
    (r.successorWord.run s).1 = [] ∨
      (r.successorWord.run s).1 ∈ r.alternatives.map Prod.fst := by
  unfold successorWord alternatives
  cases r.successor with
  | fixed w => exact .inr (List.mem_singleton_self w)
  | chosen l => exact l.outcome_eq_nil_or_mem (Source.next s).1

namespace Grammar

/-- The axiom and all words that a rule may write are over the alphabet. -/
structure Closed (g : Grammar) : Prop where
  start : g.alphabet.Spells g.start
  successor : ∀ r ∈ g.rules.toList, ∀ w ∈ r.alternatives.map Prod.fst, g.alphabet.Spells w

/-- The ways of making a grammar. -/
inductive Made : Grammar → Prop
  | build {declared : Alphabet} {start : Word} {rules : RuleSet} {policy : AlphabetPolicy}
      {g : Grammar} : build declared start rules policy = .ok g → Made g
  | inferred (declared : Alphabet) (start : Word) (rules : RuleSet) :
      Made (inferred declared start rules)
  | text {t : GrammarText} {g : Grammar} : t.build = .ok g → Made g
  | withWordLimit {g : Grammar} (limit : Option Nat) : Made g → Made (g.withWordLimit limit)

variable {g : Grammar} {declared : Alphabet} {start : Word} {rules : RuleSet}

section Construction

theorem closed_of_usedSymbols
    (h : ∀ p ∈ usedSymbols g.start g.rules, p.1 ∈ g.alphabet) : g.Closed where
  start := by
    intro l hl
    exact h (l.symbol, .startWord) (List.mem_append_left _ (List.mem_map_of_mem hl))
  successor := by
    rintro r hr w hw l hl
    obtain ⟨⟨w, p⟩, hwp, rfl⟩ := List.mem_map.mp hw
    have hrule : (l.symbol, SymbolPlace.successorOf r.symbol) ∈ ruleSymbols r := by
      refine List.mem_cons_of_mem _ (List.mem_flatMap.mpr ⟨(w, p), hwp, ?_⟩)
      exact List.mem_map_of_mem hl
    exact h _ (List.mem_append_right _ (List.mem_flatMap.mpr ⟨r, hr, hrule⟩))

theorem closed_inferred : (inferred declared start rules).Closed := by
  apply closed_of_usedSymbols
  intro p hp
  exact Alphabet.mem_insertAll.mpr (.inl (List.mem_map_of_mem hp))

theorem closed_of_build {policy : AlphabetPolicy} (h : build declared start rules policy = .ok g) :
    g.Closed := by
  cases policy with
  | inferred =>
    cases h
    exact closed_inferred
  | strict =>
    rw [build] at h
    split at h
    · cases h
    · rename_i hnone
      cases h
      apply closed_of_usedSymbols
      intro p hp
      have hin := List.find?_eq_none.mp hnone p hp
      simpa using hin

theorem Closed.withWordLimit (h : g.Closed) (limit : Option Nat) :
    (g.withWordLimit limit).Closed :=
  ⟨h.start, h.successor⟩

theorem closed_of_build_text {t : GrammarText} (h : t.build = .ok g) : g.Closed := by
  obtain ⟨rules, -, h⟩ := bind_eq_ok_iff.mp h
  obtain ⟨ruleSet, -, h⟩ := bind_eq_ok_iff.mp h
  obtain ⟨grammar, hbuild, h⟩ := bind_eq_ok_iff.mp h
  cases h
  exact (closed_of_build hbuild).withWordLimit _

theorem Made.closed (h : Made g) : g.Closed := by
  induction h with
  | build hbuild => exact closed_of_build hbuild
  | inferred => exact closed_inferred
  | text hbuild => exact closed_of_build_text hbuild
  | withWordLimit limit _ ih => exact ih.withWordLimit limit

end Construction

section Words

theorem Closed.spells_expand (h : g.Closed) {l : Letter} (hl : l.symbol ∈ g.alphabet) (s : σ) :
    g.alphabet.Spells ((g.rules.expand l).run s).1 := by
  unfold RuleSet.expand
  split
  · rename_i r hr
    rcases r.successorWord_eq_nil_or_mem s with hnil | hmem
    · rw [hnil]
      nofun
    · exact h.successor r (RuleSet.mem_of_get? hr) _ hmem
  · rintro k hk
    rwa [List.mem_singleton.mp hk]

theorem Closed.spells_grow (h : g.Closed) {w : Word} (hw : g.alphabet.Spells w) (s : σ) :
    g.alphabet.Spells ((g.rules.grow w).run s).1 := by
  induction w generalizing s with
  | nil => exact hw
  | cons l w ih =>
    obtain ⟨hl, hw⟩ := List.forall_mem_cons.mp hw
    rw [RuleSet.run_grow_cons]
    exact List.forall_mem_append.mpr ⟨h.spells_expand hl s, ih hw _⟩

theorem Closed.spells_unlimited (h : g.Closed) (s : σ) (n : Nat) :
    g.alphabet.Spells (g.unlimited s n).1 := by
  induction n with
  | zero => exact h.start
  | succ n ih => exact h.spells_grow ih _

/-- Every word that a grammar derives is over its alphabet, however the grammar was made and
whatever is chosen. -/
theorem spells_derive {s r : σ} {depth : Nat} {ws : List Word} (h : Made g)
    (hd : (g.derive depth).run.run s = (.ok ws, r)) :
    ∀ w ∈ ws, ∀ l ∈ w, l.symbol ∈ g.alphabet := by
  have hends := ends_derive g s depth
  rw [hd] at hends
  cases hends with
  | complete =>
    intro w hw
    obtain ⟨k, -, rfl⟩ := List.mem_map.mp hw
    exact h.closed.spells_unlimited s k

end Words

section Sprouting

def sproutingText : GrammarText where
  alphabet := ["F", "X", "Y"]
  start := "F"
  rules := [{ predecessor := "F", successors := [⟨"FX", 1⟩, ⟨"YF", 0⟩] }]
  policy := .strict

def sproutingRule : Rule :=
  ⟨.plain "F", .chosen ⟨[([.plain "F", .plain "X"], 1), ([.plain "Y", .plain "F"], 0)]⟩⟩

def sprouting : Grammar where
  alphabet := .ofList ["F", "X", "Y"]
  start := [.plain "F"]
  rules := ⟨#[sproutingRule], (∅ : Std.HashMap String Nat).insert "F" 0⟩
  policy := .strict
  wordLimit := none

theorem build_sproutingText : sproutingText.build = .ok sprouting := by
  have hF : Word.parse sprouting.alphabet "F" = [.plain "F"] := by cbv
  have hFX : Word.parse sprouting.alphabet "FX" = [.plain "F", .plain "X"] := by cbv
  have hYF : Word.parse sprouting.alphabet "YF" = [.plain "Y", .plain "F"] := by cbv
  have hrule : Rule.stochastic (.plain "F")
      [([.plain "F", .plain "X"], 1), ([.plain "Y", .plain "F"], 0)] = .ok sproutingRule := rfl
  have hrules : sproutingText.rules.mapM (RuleText.build sprouting.alphabet) =
      .ok [sproutingRule] := by
    simp only [sproutingText, List.mapM_cons, List.mapM_nil, RuleText.build, hF, List.map_cons,
      List.map_nil, hFX, hYF, hrule]
    rfl
  have hset : RuleSet.ofRules [sproutingRule] = .ok sprouting.rules := by
    simp only [RuleSet.ofRules, List.foldlM_cons, RuleSet.add, RuleSet.empty,
      Std.HashMap.contains_empty]
    rfl
  have ha : Alphabet.ofList sproutingText.alphabet = sprouting.alphabet := rfl
  rw [GrammarText.build, ha, hrules, show sproutingText.start = "F" from rfl, hF]
  simp only [bind, Except.bind, hset]
  rfl

theorem spells_derive_sprouting :
    ∃ g ws r, sproutingText.build = .ok g ∧
      (g.derive 2).run.run (KeyStream.ofSeed 7) = (.ok ws, r) ∧ ws.length = 3 ∧
      ∀ w ∈ ws, ∀ l ∈ w, l.symbol ∈ g.alphabet := by
  have hfit : ∀ w, sprouting.Fits w := fun w limit hlimit => nomatch hlimit
  have hd : (sprouting.derive 2).run.run (KeyStream.ofSeed 7) = _ :=
    run_derive_of_fits (by decide) fun k _ => hfit _
  exact ⟨_, _, _, build_sproutingText, hd, rfl, spells_derive (.text build_sproutingText) hd⟩

end Sprouting

end Grammar

end LSystem
