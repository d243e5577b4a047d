import LSystem.Proofs.Derivation.WordLimit
import LSystem.Proofs.Grammar.Adding

/-! # Rules that matter

A derivation looks rules up by the symbols of its words and learns nothing else about them. The
order in which rules were collected therefore leaves no trace, and neither does a rule for a symbol
that no word has before the last.
-/

namespace LSystem

variable {σ : Type} [Source σ]

namespace RuleSet

def AgreeOn (rs rs' : RuleSet) (w : Word) : Prop := ∀ l ∈ w, rs'.get? l.symbol = rs.get? l.symbol

variable {rs rs' : RuleSet} {r : Rule} {rules : List Rule} {w : Word} {s : σ} {n : ℕ}

section Lookup

theorem WellIndexed.get?_eq_of_perm (h : rs.WellIndexed) (h' : rs'.WellIndexed)
    (hperm : rs.toList.Perm rs'.toList) (symbol : String) : rs'.get? symbol = rs.get? symbol := by
  refine Option.ext fun r => ?_
  rw [h'.get?_eq_some_iff, h.get?_eq_some_iff, hperm.mem_iff]

theorem WellIndexed.of_add (h : rs.WellIndexed) (hadd : rs.add r = .ok rs') :
    rs'.WellIndexed ∧ rs'.toList = rs.toList ++ [r] := by
  have hr : r.symbol ∉ rs.symbols := by
    intro hmem
    cases hadd.symm.trans (add_of_mem h hmem)
  obtain ⟨rs'', hadd', hindex, hlist⟩ := add_of_not_mem h hr
  obtain rfl := Except.ok.inj (hadd'.symm.trans hadd)
  exact ⟨hindex, hlist⟩

theorem WellIndexed.get?_add_of_ne (h : rs.WellIndexed) (hadd : rs.add r = .ok rs')
    {symbol : String} (hne : symbol ≠ r.symbol) : rs'.get? symbol = rs.get? symbol := by
  obtain ⟨h', hlist⟩ := h.of_add hadd
  refine Option.ext fun r' => ?_
  rw [h'.get?_eq_some_iff, h.get?_eq_some_iff, hlist, List.mem_append, List.mem_singleton]
  constructor
  · rintro ⟨hr' | rfl, hsymbol⟩
    · exact ⟨hr', hsymbol⟩
    · exact absurd hsymbol.symm hne
  · rintro ⟨hr', hsymbol⟩
    exact ⟨.inl hr', hsymbol⟩

end Lookup

section Run

theorem expand_congr {l : Letter} (h : rs'.get? l.symbol = rs.get? l.symbol) :
    rs'.expand (σ := σ) l = rs.expand l := by
  rw [expand, expand, h]

theorem AgreeOn.grow_eq (h : rs.AgreeOn rs' w) : rs'.grow (σ := σ) w = rs.grow w := by
  induction w with
  | nil => rfl
  | cons l w ih =>
    obtain ⟨hl, hw⟩ := List.forall_mem_cons.mp h
    rw [grow_cons, grow_cons, expand_congr hl, ih hw]

theorem generation_eq_of_agreeOn (h : ∀ k < n, rs.AgreeOn rs' (rs.generation w s k).1) :
    rs'.generation w s n = rs.generation w s n := by
  induction n with
  | zero => rfl
  | succ n ih =>
    rw [generation_succ, generation_succ, ih fun k hk => h k (Nat.lt_succ_of_lt hk),
      (h n (Nat.lt_succ_self n)).grow_eq]

end Run

end RuleSet

namespace Grammar

/-- The same axiom and the same limit. The rules may differ, and so may what is declared. -/
structure Alike (g g' : Grammar) : Prop where
  start : g'.start = g.start
  wordLimit : g'.wordLimit = g.wordLimit

variable {g g' : Grammar} {s : σ} {depth : ℕ}

theorem Alike.fits_iff (h : g.Alike g') {w : Word} : g'.Fits w ↔ g.Fits w := by
  rw [Fits, Fits, h.wordLimit]

/-- Grammars that go through the same words derive the same. -/
theorem Alike.run_derive_eq (h : g.Alike g')
    (hrun : ∀ k ≤ depth, g'.unlimited s k = g.unlimited s k) :
    (g'.derive depth).run.run s = (g.derive depth).run.run s := by
  have hends := ends_derive g s depth
  generalize (g.derive depth).run.run s = ending at hends ⊢
  cases hends with
  | complete hd hf =>
    have hf' : ∀ k ≤ depth, g'.Fits (g'.unlimited s k).1 := by
      intro k hk
      rw [h.fits_iff, hrun k hk]
      exact hf k hk
    have hwords : ((List.range (depth + 1)).map fun k => (g'.unlimited s k).1) =
        (List.range (depth + 1)).map fun k => (g.unlimited s k).1 := by
      refine List.map_congr_left fun k hk => ?_
      rw [hrun k (Nat.le_of_lt_succ (List.mem_range.mp hk))]
    rw [run_derive_of_fits hd hf', hwords, hrun depth le_rfl]
  | @tooLong k limit hd hk =>
    have hk' : g'.FirstExcess s depth k limit := by
      refine ⟨hk.le_depth, h.wordLimit.trans hk.wordLimit, ?_, fun j hj => ?_⟩
      · rw [hrun k hk.le_depth]
        exact hk.exceeds
      · rw [hrun j (Nat.le_trans (Nat.le_of_lt hj) hk.le_depth)]
        exact hk.least j hj
    rw [run_derive_of_firstExcess hd hk', hrun k hk.le_depth]
  | tooDeep hd hstart =>
    rw [run_derive_of_overflow hd (h.fits_iff.mpr (h.start ▸ hstart))]

theorem Alike.run_derive_eq_of_agreeOn (h : g.Alike g')
    (hrules : ∀ k < depth, g.rules.AgreeOn g'.rules (g.unlimited s k).1) :
    (g'.derive depth).run.run s = (g.derive depth).run.run s := by
  refine h.run_derive_eq fun k hk => ?_
  rw [unlimited, unlimited, h.start]
  exact RuleSet.generation_eq_of_agreeOn fun j hj => hrules j (Nat.lt_of_lt_of_le hj hk)

open RuleSet (ofRules putAll)

/-- Rules with different symbols may be collected in any order, and a rule may be added whose symbol
no word has up to the last generation but one: the derivation ends in the same way and leaves the
same source, whatever the limit is. -/
theorem run_derive_relevant :
    (∀ rules rules' : List Rule, (rules.map Rule.symbol).Nodup → rules.Perm rules' →
      ∃ rs rs', ofRules rules = .ok rs ∧ ofRules rules' = .ok rs' ∧
        ∀ g g' : Grammar, g.rules = rs → g'.rules = rs' → g.Alike g' →
          ∀ {σ : Type} [Source σ] (depth : ℕ) (s : σ),
            (g'.derive depth).run.run s = (g.derive depth).run.run s) ∧
    ∀ (rules : List Rule) (r : Rule) (g g' : Grammar),
      g.rules = (putAll rules).2 → g.rules.add r = .ok g'.rules → g.Alike g' →
        ∀ {σ : Type} [Source σ] (depth : ℕ) (s : σ),
          (∀ k < depth, ∀ l ∈ (g.unlimited s k).1, l.symbol ≠ r.symbol) →
            (g'.derive depth).run.run s = (g.derive depth).run.run s := by
  constructor
  · intro rules rules' hnodup hperm
    obtain ⟨rs, hrs, hindex, rfl⟩ := RuleSet.ofRules_of_nodup hnodup
    obtain ⟨rs', hrs', hindex', rfl⟩ :=
      RuleSet.ofRules_of_nodup ((hperm.map Rule.symbol).nodup_iff.mp hnodup)
    refine ⟨rs, rs', hrs, hrs', ?_⟩
    rintro g g' rfl rfl hg σ _ depth s
    exact hg.run_derive_eq_of_agreeOn fun k _ l _ => hindex.get?_eq_of_perm hindex' hperm l.symbol
  · intro rules r g g' hrules hadd hg σ _ depth s hinert
    have hindex : g.rules.WellIndexed := hrules ▸ (RuleSet.putAll_spec rules).1
    exact hg.run_derive_eq_of_agreeOn fun k hk l hl => hindex.get?_add_of_ne hadd (hinert k hk l hl)

section Algae

theorem run_derive_relevant_algae :
    let cell : Letter := .plain "A"
    let bud : Letter := .plain "B"
    let grows : Rule := .deterministic cell [cell, bud]
    let buds : Rule := ⟨bud, .chosen ⟨[([cell], 1), ([], 3)]⟩⟩
    let g : RuleSet → Grammar := inferred .empty [cell]
    let s := KeyStream.ofSeed 0
    ([grows, buds].map Rule.symbol).Nodup ∧ [grows, buds].Perm [buds, grows] ∧
      (∃ rs rs', ofRules [grows, buds] = .ok rs ∧ ofRules [buds, grows] = .ok rs' ∧
        ((g rs').derive 4).run.run s = ((g rs).derive 4).run.run s) ∧
      ∃ rs, (putAll [grows]).2.add buds = .ok rs ∧
        (∀ k < 1, ∀ l ∈ ((g (putAll [grows]).2).unlimited s k).1, l.symbol ≠ buds.symbol) ∧
        ((g rs).derive 1).run.run s = ((g (putAll [grows]).2).derive 1).run.run s := by
  intro cell bud grows buds g s
  have halike : ∀ rs rs', (g rs).Alike (g rs') := fun rs rs' => ⟨rfl, rfl⟩
  have hnodup : ([grows, buds].map Rule.symbol).Nodup := by decide
  have hperm : [grows, buds].Perm [buds, grows] := .swap ..
  obtain ⟨horder, hadded⟩ := run_derive_relevant
  refine ⟨hnodup, hperm, ?_, ?_⟩
  · obtain ⟨rs, rs', hrs, hrs', hsame⟩ := horder _ _ hnodup hperm
    exact ⟨rs, rs', hrs, hrs', hsame (g rs) (g rs') rfl rfl (halike rs rs') 4 s⟩
  · have hgrows : ([grows].map Rule.symbol).Nodup := by decide
    obtain ⟨rs, hrs, hindex, hlist⟩ := RuleSet.ofRules_of_nodup hgrows
    obtain rfl := Except.ok.inj ((RuleSet.ofRules_eq_putAll hgrows).symm.trans hrs)
    have hbuds : buds.symbol ∉ (putAll [grows]).2.symbols := by
      rw [RuleSet.symbols, hlist]
      decide
    obtain ⟨rs, hadd, -, -⟩ := RuleSet.add_of_not_mem hindex hbuds
    have hinert : ∀ k < 1, ∀ l ∈ ((g (putAll [grows]).2).unlimited s k).1,
        l.symbol ≠ buds.symbol := by
      intro k hk l hl
      obtain rfl := Nat.lt_one_iff.mp hk
      obtain rfl := List.mem_singleton.mp hl
      decide
    exact ⟨rs, hadd, hinert,
      hadded [grows] buds (g (putAll [grows]).2) (g rs) rfl hadd (halike _ rs) 1 s hinert⟩

end Algae

end Grammar

end LSystem
