import LSystem.Sketch.Build
import LSystem.Proofs.Grammar.RuleSets
import LSystem.Proofs.Random.Validation

/-! # Building grammars from documents

A document is built exactly when it is well formed: each rule on its own, the predecessors together,
and under the strict policy the symbols that are used. What is not well formed is refused for the
first thing that is wrong, the rules one by one before anything is said of them together.
-/

namespace LSystem

section Traverse

variable {α β ε : Type} {f : α → Except ε β} {xs : List α} {e : ε}

theorem exists_mapM_eq_ok {R : α → β → Prop} (h : ∀ x ∈ xs, ∃ y, R x y ∧ f x = .ok y) :
    ∃ ys, xs.mapM f = .ok ys ∧ List.Forall₂ R xs ys := by
  induction xs with
  | nil => exact ⟨[], rfl, .nil⟩
  | cons x xs ih =>
    obtain ⟨⟨y, hxy, hy⟩, hrest⟩ := List.forall_mem_cons.mp h
    obtain ⟨ys, hys, hforall⟩ := ih hrest
    refine ⟨y :: ys, ?_, .cons hxy hforall⟩
    rw [List.mapM_cons, hy, hys]
    rfl

theorem forall₂_of_mapM_eq_ok {ys : List β} (h : xs.mapM f = .ok ys) :
    List.Forall₂ (fun x y => f x = .ok y) xs ys := by
  induction xs generalizing ys with
  | nil => cases h; exact .nil
  | cons x xs ih =>
    rw [List.mapM_cons] at h
    obtain ⟨y, hy, h⟩ := bind_eq_ok_iff.mp h
    obtain ⟨ys, hys, h⟩ := bind_eq_ok_iff.mp h
    cases h
    exact .cons hy (ih hys)

theorem mapM_eq_error {pre post : List α} {x : α} (hpre : ∀ p ∈ pre, ∃ y, f p = .ok y)
    (hx : f x = .error e) : (pre ++ x :: post).mapM f = .error e := by
  induction pre with
  | nil =>
    rw [List.nil_append, List.mapM_cons, hx]
    rfl
  | cons p pre ih =>
    obtain ⟨⟨y, hy⟩, hrest⟩ := List.forall_mem_cons.mp hpre
    rw [List.cons_append, List.mapM_cons, hy, ih hrest]
    rfl

end Traverse

def WeightedText.Valid (s : WeightedText) : Prop := s.weight.isFinite ∧ ¬ s.weight < 0

section Stochastic

variable {alphabet : Alphabet} {l : Letter} {ss : List WeightedText}

def alternativesOf (alphabet : Alphabet) (ss : List WeightedText) : List (Word × Float) :=
  ss.map fun s => (Word.parse alphabet s.word, s.weight)

theorem forall_alternativesOf {P : Float → Prop} (h : ∀ s ∈ ss, P s.weight) :
    ∀ a ∈ alternativesOf alphabet ss, P a.2 := by
  rintro _ ha
  obtain ⟨s, hs, rfl⟩ := List.mem_map.mp ha
  exact h s hs

theorem alternativesOf_ne_nil (hne : ss ≠ []) : alternativesOf alphabet ss ≠ [] :=
  List.map_eq_nil_iff.not.mpr hne

theorem total_alternativesOf :
    Lottery.total ⟨alternativesOf alphabet ss⟩ = Lottery.sum (ss.map WeightedText.weight) :=
  congrArg Lottery.sum (List.map_map ..)

theorem stochastic_of_bad {pre post : List WeightedText} {s : WeightedText}
    (hss : ss = pre ++ s :: post) (hpre : ∀ p ∈ pre, p.Valid) (hs : ¬ s.Valid) :
    Rule.stochastic l (alternativesOf alphabet ss) =
      .error (.invalidRule l.symbol (.badWeight s.weight)) := by
  have hsplit : alternativesOf alphabet ss = alternativesOf alphabet pre ++
      (Word.parse alphabet s.word, s.weight) :: alternativesOf alphabet post := by
    rw [hss]
    exact List.map_append
  rw [hsplit]
  exact Rule.stochastic_of_refused (.badWeight (forall_alternativesOf hpre) hs)

theorem stochastic_of_zero (hne : ss ≠ []) (hvalid : ∀ s ∈ ss, s.Valid)
    (hzero : ∀ s ∈ ss, ¬ 0 < s.weight) :
    Rule.stochastic l (alternativesOf alphabet ss) =
      .error (.invalidRule l.symbol .zeroWeights) :=
  Rule.stochastic_of_refused (.zeroWeights (alternativesOf_ne_nil hne)
    (forall_alternativesOf hvalid) (forall_alternativesOf (P := fun w => ¬ 0 < w) hzero))

theorem stochastic_of_valid (hvalid : ∀ s ∈ ss, s.Valid) (hpos : ∃ s ∈ ss, 0 < s.weight)
    (hfit : (Lottery.sum (ss.map WeightedText.weight)).isFinite) :
    Rule.stochastic l (alternativesOf alphabet ss) =
      .ok ⟨l, .chosen ⟨alternativesOf alphabet ss⟩⟩ := by
  obtain ⟨s, hs, hweight⟩ := hpos
  have hadmissible : Rule.Admissible (alternativesOf alphabet ss) :=
    ⟨alternativesOf_ne_nil (List.ne_nil_of_mem hs), forall_alternativesOf hvalid,
      _, List.mem_map_of_mem hs, hweight⟩
  rw [Rule.stochastic_of_admissible hadmissible, total_alternativesOf, if_pos hfit]

end Stochastic

namespace RuleText

variable (alphabet : Alphabet) (r : RuleText)

/-- What a rule has to be on its own. -/
structure WellFormed : Prop where
  predecessor : ∃ l, Word.parse alphabet r.predecessor = [l]
  successor : r.successor.isSome ↔ r.successors = []
  weights : r.successors ≠ [] →
    (∀ s ∈ r.successors, s.Valid) ∧ ∃ s ∈ r.successors, 0 < s.weight

/-- The first thing that is wrong with a rule, as the error that reports it. -/
inductive Breaks : SketchError → Prop
  | longPredecessor : (∀ l, Word.parse alphabet r.predecessor ≠ [l]) →
      Breaks (.invalidRule r.predecessor .longPredecessor)
  | twoSuccessors {l : Letter} : Word.parse alphabet r.predecessor = [l] →
      r.successor.isSome → r.successors ≠ [] → Breaks (.invalidRule r.predecessor .twoSuccessors)
  | missingSuccessor {l : Letter} : Word.parse alphabet r.predecessor = [l] →
      r.successor = none → r.successors = [] →
      Breaks (.invalidRule r.predecessor .missingSuccessor)
  | badWeight {l : Letter} {pre post : List WeightedText} {s : WeightedText} :
      Word.parse alphabet r.predecessor = [l] → r.successor = none →
      r.successors = pre ++ s :: post → (∀ p ∈ pre, p.Valid) → ¬ s.Valid →
      Breaks (.invalidRule l.symbol (.badWeight s.weight))
  | zeroWeights {l : Letter} : Word.parse alphabet r.predecessor = [l] → r.successor = none →
      r.successors ≠ [] → (∀ s ∈ r.successors, s.Valid) → (∀ s ∈ r.successors, ¬ 0 < s.weight) →
      Breaks (.invalidRule l.symbol .zeroWeights)

def WeightsFit : Prop :=
  (∀ s ∈ r.successors, s.Valid) →
    (Lottery.sum (r.successors.map WeightedText.weight)).isFinite

/-- The rule with the texts cut into letters. -/
inductive Describes : RuleText → Rule → Prop
  | fixed {p w : String} {l : Letter} : Word.parse alphabet p = [l] →
      Describes ⟨p, some w, []⟩ ⟨l, .fixed (Word.parse alphabet w)⟩
  | chosen {p : String} {ss : List WeightedText} {l : Letter} : Word.parse alphabet p = [l] →
      ss ≠ [] → Describes ⟨p, none, ss⟩
        ⟨l, .chosen ⟨alternativesOf alphabet ss⟩⟩

variable {alphabet r} {rule : Rule} {e : SketchError}

theorem wellFormed_or_breaks (alphabet : Alphabet) (r : RuleText) :
    r.WellFormed alphabet ∨ ∃ e, r.Breaks alphabet e := by
  by_cases hp : ∃ l, Word.parse alphabet r.predecessor = [l]
  · obtain ⟨l, hl⟩ := hp
    by_cases hw : r.successor.isSome
    · by_cases hs : r.successors = []
      · exact .inl ⟨⟨l, hl⟩, by simp [hw, hs], fun hne => absurd hs hne⟩
      · exact .inr ⟨_, .twoSuccessors hl hw hs⟩
    · have hnone : r.successor = none := by simpa using hw
      by_cases hs : r.successors = []
      · exact .inr ⟨_, .missingSuccessor hl hnone hs⟩
      · rcases forall_or_exists_first WeightedText.Valid r.successors with
          hvalid | ⟨pre, s, post, hsplit, hpre, hbad⟩
        · by_cases hpos : ∃ s ∈ r.successors, 0 < s.weight
          · exact .inl ⟨⟨l, hl⟩, by simp [hw, hs], fun _ => ⟨hvalid, hpos⟩⟩
          · exact .inr ⟨_, .zeroWeights hl hnone hs hvalid (by simpa using hpos)⟩
        · exact .inr ⟨_, .badWeight hl hnone hsplit hpre hbad⟩
  · exact .inr ⟨_, .longPredecessor (not_exists.mp hp)⟩

theorem build_of_weights {l : Letter} (hl : Word.parse alphabet r.predecessor = [l])
    (hw : r.successor = none) (hs : r.successors ≠ []) :
    r.build alphabet = Rule.stochastic l (alternativesOf alphabet r.successors) := by
  obtain ⟨s, ss, hss⟩ := List.exists_cons_of_ne_nil hs
  simp only [build, hl, hw, hss]
  rfl

theorem build_of_breaks (h : r.Breaks alphabet e) : r.build alphabet = .error e := by
  cases h with
  | longPredecessor hl =>
    unfold build
    split
    · rename_i l hl'
      exact absurd hl' (hl l)
    · rfl
  | twoSuccessors hl hw hs =>
    obtain ⟨w, hw⟩ := Option.isSome_iff_exists.mp hw
    obtain ⟨s, ss, hss⟩ := List.exists_cons_of_ne_nil hs
    simp only [build, hl, hw, hss]
  | missingSuccessor hl hw hs => simp only [build, hl, hw, hs]
  | badWeight hl hw hsplit hpre hbad =>
    rw [build_of_weights hl hw (by simp [hsplit]), stochastic_of_bad hsplit hpre hbad]
  | zeroWeights hl hw hs hvalid hzero =>
    rw [build_of_weights hl hw hs, stochastic_of_zero hs hvalid hzero]

theorem WellFormed.exists_describes (h : r.WellFormed alphabet) (hfit : r.WeightsFit) :
    ∃ rule, Describes alphabet r rule ∧ r.build alphabet = .ok rule := by
  obtain ⟨⟨l, hl⟩, hone, hweights⟩ := h
  by_cases hs : r.successors = []
  · obtain ⟨w, hw⟩ := Option.isSome_iff_exists.mp (hone.mpr hs)
    refine ⟨⟨l, .fixed (Word.parse alphabet w)⟩, ?_, ?_⟩
    · obtain ⟨p, successor, ss⟩ := r
      cases hw
      cases hs
      exact .fixed hl
    · simp only [build, hl, hw, hs]
      rfl
  · have hw : r.successor = none := by simpa [hs] using hone
    obtain ⟨hvalid, hpos⟩ := hweights hs
    refine ⟨⟨l, .chosen ⟨alternativesOf alphabet r.successors⟩⟩, ?_, ?_⟩
    · obtain ⟨p, successor, ss⟩ := r
      cases hw
      exact .chosen hl hs
    · rw [build_of_weights hl hw hs, stochastic_of_valid hvalid hpos (hfit hvalid)]

theorem describes_of_build (h : r.build alphabet = .ok rule) : Describes alphabet r rule := by
  obtain ⟨p, successor, successors⟩ := r
  unfold build at h
  split at h
  · rename_i l hl
    split at h
    · cases h
      rename_i hw hs
      cases hw
      cases hs
      exact .fixed hl
    · rename_i s ss hw hs
      cases hw
      cases hs
      obtain ⟨-, -, rfl⟩ := Rule.stochastic_eq_ok_iff.mp h
      exact .chosen hl (List.cons_ne_nil s ss)
    · cases h
    · cases h
  · cases h

section Symbols

variable (alphabet r)

def symbols : List String := (Word.parse alphabet r.predecessor).map Letter.symbol

def words : List Word :=
  (r.successor.toList ++ r.successors.map WeightedText.word).map (Word.parse alphabet)

def usedSymbols : List (String × SymbolPlace) :=
  (r.symbols alphabet).flatMap fun p => (p, .predecessor) ::
    (r.words alphabet).flatMap fun w => w.map fun l => (l.symbol, .successorOf p)

variable {alphabet r} {rs : List RuleText} {rules : List Rule}

theorem Describes.symbols_eq (h : Describes alphabet r rule) :
    r.symbols alphabet = [rule.symbol] := by
  cases h with
  | fixed hl => simp [symbols, hl, Rule.symbol]
  | chosen hl _ => simp [symbols, hl, Rule.symbol]

theorem Describes.usedSymbols_eq (h : Describes alphabet r rule) :
    r.usedSymbols alphabet = Grammar.ruleSymbols rule := by
  rw [usedSymbols, h.symbols_eq, List.flatMap_singleton, Grammar.ruleSymbols]
  cases h with
  | fixed hl => simp [words, Rule.alternatives]
  | chosen hl _ =>
    simp [words, Rule.alternatives, Lottery.probabilities, alternativesOf, List.flatMap_map]

theorem flatMap_symbols (h : List.Forall₂ (Describes alphabet) rs rules) :
    rs.flatMap (symbols alphabet) = rules.map Rule.symbol := by
  induction h with
  | nil => rfl
  | cons hr _ ih => rw [List.flatMap_cons, hr.symbols_eq, ih]; rfl

theorem flatMap_usedSymbols (h : List.Forall₂ (Describes alphabet) rs rules) :
    rs.flatMap (usedSymbols alphabet) = rules.flatMap Grammar.ruleSymbols := by
  induction h with
  | nil => rfl
  | cons hr _ ih => rw [List.flatMap_cons, List.flatMap_cons, hr.usedSymbols_eq, ih]

end Symbols

end RuleText

namespace GrammarText

variable (t : GrammarText)

def declared : Alphabet := .ofList t.alphabet

def usedSymbols : List (String × SymbolPlace) :=
  (Word.parse t.declared t.start).map (fun l => (l.symbol, .startWord)) ++
    t.rules.flatMap (RuleText.usedSymbols t.declared)

/-- What a document has to be. -/
structure WellFormed : Prop where
  rules : ∀ r ∈ t.rules, r.WellFormed t.declared
  distinct : (t.rules.flatMap (RuleText.symbols t.declared)).Nodup
  declares : t.policy = .strict → ∀ used ∈ t.usedSymbols, used.1 ∈ t.alphabet

inductive Breaks : SketchError → Prop
  | rule {pre post : List RuleText} {r : RuleText} {e : SketchError} :
      t.rules = pre ++ r :: post → (∀ p ∈ pre, p.WellFormed t.declared) →
      r.Breaks t.declared e → Breaks e
  | repeated {pre post : List RuleText} {r : RuleText} {s : String} :
      (∀ r ∈ t.rules, r.WellFormed t.declared) → t.rules = pre ++ r :: post →
      (pre.flatMap (RuleText.symbols t.declared)).Nodup → r.symbols t.declared = [s] →
      s ∈ pre.flatMap (RuleText.symbols t.declared) →
      Breaks (.invalidRule s .repeatedPredecessor)
  | undeclared {s : String} {place : SymbolPlace} :
      (∀ r ∈ t.rules, r.WellFormed t.declared) →
      (t.rules.flatMap (RuleText.symbols t.declared)).Nodup → t.policy = .strict →
      t.usedSymbols.find? (fun used => used.1 ∉ t.alphabet) = some (s, place) →
      Breaks (.unknownSymbol s place)

structure Describes (g : Grammar) : Prop where
  start : g.start = Word.parse t.declared t.start
  rules : List.Forall₂ (RuleText.Describes t.declared) t.rules g.rules.toList
  policy : g.policy = t.policy
  wordLimit : g.wordLimit = t.wordLimit.map UInt64.toNat

variable {t} {e : SketchError}

theorem symbols_of_wellFormed {alphabet : Alphabet} {r : RuleText}
    (h : r.WellFormed alphabet) : ∃ s, r.symbols alphabet = [s] := by
  obtain ⟨l, hl⟩ := h.predecessor
  exact ⟨l.symbol, by rw [RuleText.symbols, hl]; rfl⟩

theorem wellFormed_or_breaks (t : GrammarText) : t.WellFormed ∨ ∃ e, t.Breaks e := by
  rcases forall_or_exists_first (RuleText.WellFormed t.declared) t.rules with
    hrules | ⟨pre, r, post, hsplit, hpre, hr⟩
  · by_cases hdistinct : (t.rules.flatMap (RuleText.symbols t.declared)).Nodup
    · by_cases hdeclares : t.policy = .strict → ∀ used ∈ t.usedSymbols, used.1 ∈ t.alphabet
      · exact .inl ⟨hrules, hdistinct, hdeclares⟩
      · simp only [not_forall] at hdeclares
        obtain ⟨hstrict, used, hused, hmem⟩ := hdeclares
        obtain ⟨⟨s, place⟩, hfind⟩ : ∃ u, t.usedSymbols.find? (fun u => u.1 ∉ t.alphabet) = some u :=
          Option.isSome_iff_exists.mp (List.find?_isSome.mpr ⟨used, hused, decide_eq_true hmem⟩)
        exact .inr ⟨_, .undeclared hrules hdistinct hstrict hfind⟩
    · obtain ⟨pre, r, post, s, hsplit, hpre, hs, hmem⟩ :=
        exists_first_repeat (fun r hr => symbols_of_wellFormed (hrules r hr)) hdistinct
      exact .inr ⟨_, .repeated hrules hsplit hpre hs hmem⟩
  · obtain ⟨e, he⟩ := (RuleText.wellFormed_or_breaks t.declared r).resolve_left hr
    exact .inr ⟨e, .rule hsplit hpre he⟩

theorem exists_rules (hrules : ∀ r ∈ t.rules, r.WellFormed t.declared)
    (hfit : ∀ r ∈ t.rules, r.WeightsFit) :
    ∃ rules, t.rules.mapM (RuleText.build t.declared) = .ok rules ∧
      List.Forall₂ (RuleText.Describes t.declared) t.rules rules :=
  exists_mapM_eq_ok fun r hr => (hrules r hr).exists_describes (hfit r hr)

theorem build_of_rules {rules : List Rule} {rs : RuleSet}
    (hrules : t.rules.mapM (RuleText.build t.declared) = .ok rules)
    (hrs : RuleSet.ofRules rules = .ok rs) :
    t.build = (Grammar.build t.declared (Word.parse t.declared t.start) rs t.policy).map
      fun g => g.withWordLimit (t.wordLimit.map UInt64.toNat) := by
  rw [declared] at hrules
  rw [build, hrules]
  change RuleSet.ofRules rules >>= _ = _
  rw [hrs]
  change Grammar.build t.declared (Word.parse t.declared t.start) rs t.policy >>= _ = _
  cases Grammar.build t.declared (Word.parse t.declared t.start) rs t.policy <;> rfl

theorem usedSymbols_eq {rs : RuleSet}
    (h : List.Forall₂ (RuleText.Describes t.declared) t.rules rs.toList) :
    t.usedSymbols = Grammar.usedSymbols (Word.parse t.declared t.start) rs := by
  rw [usedSymbols, RuleText.flatMap_usedSymbols h, Grammar.usedSymbols]

theorem find?_declared (used : List (String × SymbolPlace)) :
    used.find? (fun (s, _) => s ∉ t.declared) = used.find? fun u => u.1 ∉ t.alphabet := by
  have hmem : ∀ s, s ∈ t.declared ↔ s ∈ t.alphabet := fun s => Alphabet.mem_ofList
  simp only [hmem]

theorem build_of_breaks (h : t.Breaks e) (hfit : ∀ r ∈ t.rules, r.WeightsFit) :
    t.build = .error e := by
  cases h with
  | @rule pre post r e hsplit hpre he =>
    have hmap : t.rules.mapM (RuleText.build t.declared) = .error e := by
      rw [hsplit] at hfit ⊢
      refine mapM_eq_error (fun p hp => ?_) (RuleText.build_of_breaks he)
      obtain ⟨rule, -, hrule⟩ :=
        (hpre p hp).exists_describes (hfit p (List.mem_append_left _ hp))
      exact ⟨rule, hrule⟩
    rw [declared] at hmap
    rw [build, hmap]
    rfl
  | @repeated pre post r s hrules hsplit hpre hs hmem =>
    obtain ⟨rules, hmap, hdescribes⟩ := exists_rules hrules hfit
    have hsymbols := RuleText.flatMap_symbols hdescribes
    rw [hsplit, List.flatMap_append, List.flatMap_cons, hs] at hsymbols
    obtain ⟨pre', rest, rfl, hpre', hrest⟩ := List.map_eq_append_iff.mp hsymbols.symm
    obtain ⟨rule, post', rfl, rfl, -⟩ := List.map_eq_cons_iff.mp hrest
    rw [← hpre'] at hpre hmem
    rw [declared] at hmap
    rw [build, hmap]
    change RuleSet.ofRules (pre' ++ rule :: post') >>= _ = _
    rw [RuleSet.ofRules_of_repeat rfl hpre hmem]
    rfl
  | undeclared hrules hdistinct hstrict hfind =>
    obtain ⟨rules, hmap, hdescribes⟩ := exists_rules hrules hfit
    rw [RuleText.flatMap_symbols hdescribes] at hdistinct
    obtain ⟨rs, hrs, -, rfl⟩ := RuleSet.ofRules_of_nodup hdistinct
    rw [usedSymbols_eq hdescribes, ← find?_declared] at hfind
    rw [build_of_rules hmap hrs, hstrict, Grammar.build, hfind]
    rfl

theorem WellFormed.exists_describes (h : t.WellFormed) (hfit : ∀ r ∈ t.rules, r.WeightsFit) :
    ∃ g, t.Describes g ∧ t.build = .ok g := by
  obtain ⟨rules, hmap, hdescribes⟩ := exists_rules h.rules hfit
  have hdistinct := h.distinct
  rw [RuleText.flatMap_symbols hdescribes] at hdistinct
  obtain ⟨rs, hrs, -, rfl⟩ := RuleSet.ofRules_of_nodup hdistinct
  rw [build_of_rules hmap hrs]
  cases hpolicy : t.policy with
  | inferred => exact ⟨_, ⟨rfl, hdescribes, hpolicy.symm, rfl⟩, rfl⟩
  | strict =>
    have hfind : (Grammar.usedSymbols (Word.parse t.declared t.start) rs).find?
        (fun (s, _) => s ∉ t.declared) = none := by
      rw [find?_declared, ← usedSymbols_eq hdescribes, List.find?_eq_none]
      simpa using h.declares hpolicy
    rw [Grammar.build, hfind]
    exact ⟨_, ⟨rfl, hdescribes, hpolicy.symm, rfl⟩, rfl⟩

/-- A document whose weights have sums is built exactly when it is well formed, into the grammar
that it describes, and is otherwise refused for the first thing that is wrong. -/
theorem build_iff_wellFormed (t : GrammarText) (hfit : ∀ r ∈ t.rules, r.WeightsFit) :
    ((∃ g, t.build = .ok g) ↔ t.WellFormed) ∧ (∀ g, t.build = .ok g → t.Describes g) ∧
      ∀ e, t.build = .error e ↔ t.Breaks e := by
  have hok := fun h : t.WellFormed => h.exists_describes hfit
  have herror := fun e (h : t.Breaks e) => build_of_breaks h hfit
  refine ⟨⟨?_, ?_⟩, ?_, fun e => ⟨?_, herror e⟩⟩
  · rintro ⟨g, hg⟩
    refine (wellFormed_or_breaks t).resolve_right ?_
    rintro ⟨e, he⟩
    cases hg.symm.trans (herror e he)
  · intro h
    obtain ⟨g, -, hg⟩ := hok h
    exact ⟨g, hg⟩
  · intro g hg
    rcases wellFormed_or_breaks t with h | ⟨e, he⟩
    · obtain ⟨g', hdescribes, hg'⟩ := hok h
      exact Except.ok.inj (hg'.symm.trans hg) ▸ hdescribes
    · cases hg.symm.trans (herror e he)
  · intro hbuild
    rcases wellFormed_or_breaks t with h | ⟨e', he'⟩
    · obtain ⟨g, -, hg⟩ := hok h
      cases hbuild.symm.trans hg
    · exact Except.error.inj ((herror e' he').symm.trans hbuild) ▸ he'

def collidingText : GrammarText where
  start := "F"
  rules := [{ predecessor := "F", successor := some "FX" },
    { predecessor := "X", successors := [⟨"F", 0⟩, ⟨"X", 2⟩] },
    { predecessor := " F", successor := some "" }]

theorem build_iff_wellFormed_colliding :
    (∀ r ∈ collidingText.rules, r.WeightsFit) ∧
      collidingText.build = .error (.invalidRule "F" .repeatedPredecessor) := by
  have hF : Word.parse collidingText.declared "F" = [.plain "F"] := by cbv
  have hX : Word.parse collidingText.declared "X" = [.plain "X"] := by cbv
  have hspace : Word.parse collidingText.declared " F" = [.plain "F"] := by cbv
  have hfit : ∀ r ∈ collidingText.rules, r.WeightsFit := by
    simp only [collidingText, List.forall_mem_cons]
    refine ⟨fun _ => rfl, fun _ => rfl, fun _ => rfl, List.forall_mem_nil _⟩
  have hwell : ∀ r ∈ collidingText.rules, r.WellFormed collidingText.declared := by
    have hweights : (∀ s ∈ [(⟨"F", 0⟩ : WeightedText), ⟨"X", 2⟩], s.Valid) ∧
        ∃ s ∈ [(⟨"F", 0⟩ : WeightedText), ⟨"X", 2⟩], 0 < s.weight := by
      simp only [WeightedText.Valid]
      decide +kernel
    simp only [collidingText, List.forall_mem_cons]
    exact ⟨⟨⟨_, hF⟩, by simp, by simp⟩, ⟨⟨_, hX⟩, by simp, fun _ => hweights⟩,
      ⟨⟨_, hspace⟩, by simp, by simp⟩, List.forall_mem_nil _⟩
  have hsplit : collidingText.rules = [⟨"F", some "FX", []⟩, ⟨"X", none, [⟨"F", 0⟩, ⟨"X", 2⟩]⟩] ++
      ⟨" F", some "", []⟩ :: [] := rfl
  refine ⟨hfit, ((build_iff_wellFormed collidingText hfit).2.2 _).mpr (.repeated hwell hsplit ?_ ?_ ?_)⟩
  all_goals simp [RuleText.symbols, hF, hX, hspace, Letter.symbol]

end GrammarText

end LSystem
