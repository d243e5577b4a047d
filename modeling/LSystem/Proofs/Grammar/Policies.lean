import Mathlib.Data.List.Sort
import LSystem.Proofs.Derivation.Closure

/-! # Alphabet policies

Both policies look at the same symbols: those of the axiom, of the predecessors and of all that may
be written for them. The strict one refuses a grammar at the first of these that is not declared,
read from the axiom on, and the inferred one declares them all.
-/

namespace LSystem

namespace Alphabet

def Covers (a : Alphabet) (r : Rule) : Prop :=
  r.symbol ∈ a ∧ ∀ alternative ∈ r.alternatives, a.Spells alternative.1

def FirstMissing (a : Alphabet) (w : Word) (s : String) : Prop :=
  ∃ pre l post, w = pre ++ l :: post ∧ a.Spells pre ∧ l.symbol ∉ a ∧ l.symbol = s

theorem eq_of_mem_iff {a b : Alphabet} (h : ∀ s, s ∈ a ↔ s ∈ b) : a = b := by
  have hsymbols : a.symbols = b.symbols := a.sorted.eq_of_mem_iff b.sorted h
  cases a
  cases b
  congr

end Alphabet

theorem SymbolPlace.message_injective : Function.Injective SymbolPlace.message := by
  intro p q h
  have htext := congrArg String.toList h
  cases p <;> cases q <;> simp [message] at htext ⊢
  exact String.toList_inj.mp htext

namespace Grammar

/-- The symbols that an axiom and rules use. -/
inductive Uses (start : Word) (rules : RuleSet) : String → Prop
  | start {l : Letter} : l ∈ start → Uses start rules l.symbol
  | predecessor {r : Rule} : r ∈ rules.toList → Uses start rules r.symbol
  | successor {r : Rule} {alternative : Word × Float} {l : Letter} : r ∈ rules.toList →
      alternative ∈ r.alternatives → l ∈ alternative.1 → Uses start rules l.symbol

/-- The first symbol that is not declared: in the axiom, else in the first rule that has one, where
the predecessor stands before the alternatives. -/
inductive FirstUndeclared (declared : Alphabet) (start : Word) (rules : RuleSet) :
    String → SymbolPlace → Prop
  | start {s : String} : declared.FirstMissing start s →
      FirstUndeclared declared start rules s .startWord
  | predecessor {pre post : List Rule} {r : Rule} : declared.Spells start →
      rules.toList = pre ++ r :: post → (∀ p ∈ pre, declared.Covers p) → r.symbol ∉ declared →
      FirstUndeclared declared start rules r.symbol .predecessor
  | successor {pre post : List Rule} {r : Rule} {before after : List (Word × Float)}
      {alternative : Word × Float} {s : String} : declared.Spells start →
      rules.toList = pre ++ r :: post → (∀ p ∈ pre, declared.Covers p) → r.symbol ∈ declared →
      r.alternatives = before ++ alternative :: after → (∀ b ∈ before, declared.Spells b.1) →
      declared.FirstMissing alternative.1 s →
      FirstUndeclared declared start rules s (.successorOf r.symbol)

variable {declared : Alphabet} {start w : Word} {rules : RuleSet} {r : Rule} {s : String}
  {place : SymbolPlace}

section Search

theorem find?_letters_eq_none_iff :
    (w.map fun l => (l.symbol, place)).find? (fun (s, _) => s ∉ declared) = none ↔
      declared.Spells w := by
  simp [Alphabet.Spells]

theorem find?_letters_eq_some_iff {u : String × SymbolPlace} :
    (w.map fun l => (l.symbol, place)).find? (fun (s, _) => s ∉ declared) = some u ↔
      declared.FirstMissing w u.1 ∧ place = u.2 := by
  rw [List.find?_map, Option.map_eq_some_iff]
  constructor
  · rintro ⟨l, hl, rfl⟩
    obtain ⟨hmissing, pre, post, rfl, hpre⟩ := List.find?_eq_some_iff_append.mp hl
    have hspells : declared.Spells pre := by simpa [Alphabet.Spells] using hpre
    exact ⟨⟨pre, l, post, rfl, hspells, by simpa using hmissing, rfl⟩, rfl⟩
  · rintro ⟨⟨pre, l, post, rfl, hpre, hmissing, hs⟩, hplace⟩
    refine ⟨l, List.find?_eq_some_iff_append.mpr ⟨?_, pre, post, rfl, ?_⟩, Prod.ext hs hplace⟩
    · simpa using hmissing
    · simpa [Alphabet.Spells] using hpre

theorem find?_ruleSymbols_eq_none_iff :
    (ruleSymbols r).find? (fun (s, _) => s ∉ declared) = none ↔ declared.Covers r := by
  rw [ruleSymbols, List.find?_eq_none, List.forall_mem_cons, ← List.find?_eq_none,
    List.find?_flatMap, List.findSome?_eq_none_iff]
  simp only [find?_letters_eq_none_iff]
  simp [Alphabet.Covers]

theorem find?_ruleSymbols_eq_some_iff {u : String × SymbolPlace} :
    (ruleSymbols r).find? (fun (s, _) => s ∉ declared) = some u ↔
      (r.symbol ∉ declared ∧ (r.symbol, .predecessor) = u) ∨
        (r.symbol ∈ declared ∧ ∃ before alternative after,
          r.alternatives = before ++ alternative :: after ∧
          (declared.FirstMissing alternative.1 u.1 ∧ .successorOf r.symbol = u.2) ∧
          ∀ b ∈ before, declared.Spells b.1) := by
  rw [ruleSymbols, List.find?_cons_eq_some, List.find?_flatMap, List.findSome?_eq_some_iff]
  simp only [find?_letters_eq_some_iff, find?_letters_eq_none_iff]
  simp

theorem find?_usedSymbols_eq_none_iff :
    (usedSymbols start rules).find? (fun (s, _) => s ∉ declared) = none ↔
      declared.Spells start ∧ ∀ r ∈ rules.toList, declared.Covers r := by
  rw [usedSymbols, List.find?_append, Option.or_eq_none_iff, find?_letters_eq_none_iff,
    List.find?_flatMap, List.findSome?_eq_none_iff]
  simp only [find?_ruleSymbols_eq_none_iff]

theorem find?_usedSymbols_eq_some_iff :
    (usedSymbols start rules).find? (fun (s, _) => s ∉ declared) = some (s, place) ↔
      FirstUndeclared declared start rules s place := by
  rw [usedSymbols, List.find?_append, Option.or_eq_some_iff, find?_letters_eq_some_iff,
    find?_letters_eq_none_iff, List.find?_flatMap, List.findSome?_eq_some_iff]
  simp only [find?_ruleSymbols_eq_some_iff, find?_ruleSymbols_eq_none_iff]
  constructor
  · rintro (⟨hmissing, rfl⟩ | ⟨hstart, pre, r, post, hrules, ⟨hr, heq⟩ |
      ⟨hr, before, alternative, after, halternatives, ⟨hmissing, rfl⟩, hbefore⟩, hpre⟩)
    · exact .start hmissing
    · obtain ⟨rfl, rfl⟩ := Prod.mk.inj heq
      exact .predecessor hstart hrules hpre hr
    · exact .successor hstart hrules hpre hr halternatives hbefore hmissing
  · intro h
    cases h with
    | start hmissing => exact .inl ⟨hmissing, rfl⟩
    | predecessor hstart hrules hpre hr =>
      exact .inr ⟨hstart, _, _, _, hrules, .inl ⟨hr, rfl⟩, hpre⟩
    | successor hstart hrules hpre hr halternatives hbefore hmissing =>
      exact .inr ⟨hstart, _, _, _, hrules,
        .inr ⟨hr, _, _, _, halternatives, ⟨hmissing, rfl⟩, hbefore⟩, hpre⟩

end Search

section Uses

theorem mem_usedSymbols_iff : s ∈ (usedSymbols start rules).map Prod.fst ↔ Uses start rules s := by
  simp only [usedSymbols, ruleSymbols, List.map_append, List.mem_append, List.map_map,
    List.mem_map, List.mem_flatMap, Function.comp_apply]
  constructor
  · rintro (⟨l, hl, rfl⟩ | ⟨u, ⟨r, hr, hu⟩, rfl⟩)
    · exact .start hl
    · rcases List.mem_cons.mp hu with rfl | hu
      · exact .predecessor hr
      · obtain ⟨alternative, halternative, hu⟩ := List.mem_flatMap.mp hu
        obtain ⟨l, hl, rfl⟩ := List.mem_map.mp hu
        exact .successor hr halternative hl
  · intro h
    cases h with
    | @start l hl => exact .inl ⟨l, hl, rfl⟩
    | @predecessor r hr => exact .inr ⟨_, ⟨r, hr, List.mem_cons_self⟩, rfl⟩
    | @successor r alternative l hr halternative hl =>
      refine .inr ⟨(l.symbol, .successorOf r.symbol), ⟨r, hr, List.mem_cons_of_mem _ ?_⟩, rfl⟩
      exact List.mem_flatMap.mpr ⟨alternative, halternative, List.mem_map_of_mem hl⟩

theorem forall_uses_iff : (∀ s, Uses start rules s → s ∈ declared) ↔
    declared.Spells start ∧ ∀ r ∈ rules.toList, declared.Covers r := by
  constructor
  · intro h
    exact ⟨fun l hl => h _ (.start hl), fun r hr => ⟨h _ (.predecessor hr),
      fun alternative halternative l hl => h _ (.successor hr halternative hl)⟩⟩
  · rintro ⟨hstart, hrules⟩ s hs
    cases hs with
    | start hl => exact hstart _ hl
    | predecessor hr => exact (hrules _ hr).1
    | successor hr halternative hl => exact (hrules _ hr).2 _ halternative _ hl

end Uses

section Build

theorem build_strict_of_uses (h : ∀ s, Uses start rules s → s ∈ declared) :
    build declared start rules .strict = .ok ⟨declared, start, rules, .strict, none⟩ := by
  rw [build, find?_usedSymbols_eq_none_iff.mpr (forall_uses_iff.mp h)]

theorem build_strict_of_firstUndeclared (h : FirstUndeclared declared start rules s place) :
    build declared start rules .strict = .error (.unknownSymbol s place) := by
  rw [build, find?_usedSymbols_eq_some_iff.mpr h]

theorem uses_or_firstUndeclared (declared : Alphabet) (start : Word) (rules : RuleSet) :
    (∀ s, Uses start rules s → s ∈ declared) ∨
      ∃ s place, FirstUndeclared declared start rules s place := by
  cases hfind : (usedSymbols start rules).find? (fun (s, _) => s ∉ declared) with
  | none => exact .inl (forall_uses_iff.mpr (find?_usedSymbols_eq_none_iff.mp hfind))
  | some u => exact .inr ⟨u.1, u.2, find?_usedSymbols_eq_some_iff.mp hfind⟩

theorem mem_alphabet_inferred :
    s ∈ (inferred declared start rules).alphabet ↔ s ∈ declared ∨ Uses start rules s := by
  rw [inferred, Alphabet.mem_insertAll, mem_usedSymbols_iff, or_comm]

theorem alphabet_inferred_eq_iff :
    (inferred declared start rules).alphabet = declared ↔
      ∀ s, Uses start rules s → s ∈ declared := by
  constructor
  · intro h s hs
    rw [← h]
    exact mem_alphabet_inferred.mpr (.inr hs)
  · intro h
    refine Alphabet.eq_of_mem_iff fun s => ?_
    rw [mem_alphabet_inferred, or_iff_left_of_imp (h s)]

theorem build_strict_eq_ok_iff : (∃ g, build declared start rules .strict = .ok g) ↔
    ∀ s, Uses start rules s → s ∈ declared := by
  constructor
  · rintro ⟨g, hg⟩
    refine (uses_or_firstUndeclared declared start rules).resolve_right ?_
    rintro ⟨s, place, h⟩
    cases hg.symm.trans (build_strict_of_firstUndeclared h)
  · intro h
    exact ⟨_, build_strict_of_uses h⟩

theorem build_strict_eq_error_iff {e : SketchError} :
    build declared start rules .strict = .error e ↔
      ∃ s place, FirstUndeclared declared start rules s place ∧ e = .unknownSymbol s place := by
  constructor
  · intro he
    rcases uses_or_firstUndeclared declared start rules with h | ⟨s, place, h⟩
    · cases he.symm.trans (build_strict_of_uses h)
    · exact ⟨s, place, h, Except.error.inj (he.symm.trans (build_strict_of_firstUndeclared h))⟩
  · rintro ⟨s, place, h, rfl⟩
    exact build_strict_of_firstUndeclared h

theorem parts_of_build {policy : AlphabetPolicy} {g : Grammar}
    (h : build declared start rules policy = .ok g) :
    g.start = start ∧ g.rules = rules ∧ g.policy = policy ∧
      ∀ s, s ∈ g.alphabet ↔ s ∈ declared ∨ Uses start rules s := by
  cases policy with
  | inferred =>
    cases h
    exact ⟨rfl, rfl, rfl, fun s => mem_alphabet_inferred⟩
  | strict =>
    have huses := build_strict_eq_ok_iff.mp ⟨g, h⟩
    cases h.symm.trans (build_strict_of_uses huses)
    exact ⟨rfl, rfl, rfl, fun s => (or_iff_left_of_imp (huses s)).symm⟩

end Build

/-- What the two policies make of the same parts. -/
theorem build_under_policies (declared : Alphabet) (start : Word) (rules : RuleSet) :
    ((∃ g, build declared start rules .strict = .ok g) ↔
      ∀ s, Uses start rules s → s ∈ declared) ∧
    (∀ g, build declared start rules .strict = .ok g →
      g = ⟨declared, start, rules, .strict, none⟩) ∧
    (∀ e, build declared start rules .strict = .error e ↔
      ∃ s place, FirstUndeclared declared start rules s place ∧ e = .unknownSymbol s place) ∧
    Function.Injective SymbolPlace.message ∧
    (∃ g, build declared start rules .inferred = .ok g ∧
      (∀ s, s ∈ g.alphabet ↔ s ∈ declared ∨ Uses start rules s) ∧
      g.start = start ∧ g.rules = rules ∧ g.policy = .inferred ∧ g.wordLimit = none) ∧
    build .empty start rules .inferred = .ok (inferred .empty start rules) ∧
    ((∃ g, build declared start rules .strict = .ok g) ↔
      ∃ g, build declared start rules .inferred = .ok g ∧ g.alphabet = declared) := by
  refine ⟨build_strict_eq_ok_iff, fun g hg => ?_, fun e => build_strict_eq_error_iff,
    SymbolPlace.message_injective, ⟨_, rfl, fun s => mem_alphabet_inferred, rfl, rfl, rfl, rfl⟩,
    rfl, ?_⟩
  · have huses := build_strict_eq_ok_iff.mp ⟨g, hg⟩
    exact (Except.ok.inj ((build_strict_of_uses huses).symm.trans hg)).symm
  · rw [build_strict_eq_ok_iff, ← alphabet_inferred_eq_iff]
    constructor
    · intro h
      exact ⟨_, rfl, h⟩
    · rintro ⟨_, ⟨⟩, h⟩
      exact h

end Grammar

end LSystem
