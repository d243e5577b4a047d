import Mathlib.Data.Fintype.Sets
import Mathlib.Data.Matrix.Mul
import LSystem.Proofs.Derivation.Closure
import LSystem.Proofs.Derivation.Composition
import LSystem.Proofs.Derivation.Concatenation

/-! # Growth

Where no rule chooses, how often each symbol is written for a letter depends on the symbol of the
letter alone. These numbers form a matrix, and one generation multiplies the counts of the symbols
by it: the counts of a later word, and with them its length, come from a power of the matrix.
-/

namespace LSystem

open Matrix

abbrev Alphabet.Symbol (a : Alphabet) : Type := { s : String // s ∈ a.symbols }

/-- How often each symbol of the alphabet stands in a word. -/
def Alphabet.counts (a : Alphabet) (w : Word) : a.Symbol → ℕ := fun s => w.countSymbol s

section Counts

variable {a : Alphabet} {l : Letter} {u v w : Word}

@[simp] theorem counts_nil : a.counts [] = 0 := rfl

@[simp] theorem counts_append : a.counts (u ++ v) = a.counts u + a.counts v := by
  ext s
  exact List.countP_append

theorem counts_singleton (hl : l.symbol ∈ a) : a.counts [l] = Pi.single ⟨l.symbol, hl⟩ 1 := by
  ext ⟨s, hs⟩
  by_cases h : l.symbol = s
  · subst h
    simp [Alphabet.counts, Word.countSymbol]
  · simp [Alphabet.counts, Word.countSymbol, h, Ne.symm h]

theorem length_eq_sum_counts (hw : a.Spells w) : w.length = ∑ s, a.counts w s := by
  induction w with
  | nil => simp
  | cons l w ih =>
    obtain ⟨hl, hw⟩ := List.forall_mem_cons.mp hw
    rw [← List.singleton_append, counts_append, counts_singleton hl]
    simp [Finset.sum_add_distrib, ← ih hw, Nat.add_comm]

end Counts

namespace Grammar

variable {g : Grammar} {l : Letter} {w : Word}

/-- How often a symbol, which names the row, is written for another, which names the column: in the
word of its rule, or once for itself when it has none. -/
def growth (g : Grammar) : Matrix g.alphabet.Symbol g.alphabet.Symbol ℕ :=
  .of fun s t =>
    match g.rules.get? t with
    | some r => (r.written 0).countSymbol s
    | none => if s = t then 1 else 0

def grownCounts (g : Grammar) (n : ℕ) : g.alphabet.Symbol → ℕ :=
  g.growth ^ n *ᵥ g.alphabet.counts g.start

/-- A column of the matrix counts what replaces the letters with its symbol. -/
theorem counts_replacement (hl : l.symbol ∈ g.alphabet) :
    g.alphabet.counts (g.rules.replacement 0 l) = g.growth.col ⟨l.symbol, hl⟩ := by
  ext s
  simp only [growth, col_apply, of_apply, RuleSet.replacement]
  cases g.rules.get? l.symbol with
  | some r => rfl
  | none => simp [counts_singleton hl, Pi.single_apply]

theorem counts_rewrite (hw : g.alphabet.Spells w) :
    g.alphabet.counts (g.rules.rewrite w) = g.growth *ᵥ g.alphabet.counts w := by
  induction w with
  | nil => simp
  | cons l w ih =>
    obtain ⟨hl, hw⟩ := List.forall_mem_cons.mp hw
    rw [RuleSet.rewrite_cons, counts_append, counts_replacement hl, ih hw,
      ← List.singleton_append (l := w), counts_append, counts_singleton hl, mulVec_add,
      mulVec_single_one]

section Deterministic

variable {σ : Type} [Source σ] (h : g.isStochastic = false)
include h

theorem unlimited_succ_of_not_stochastic (s : σ) (n : ℕ) :
    (g.unlimited s (n + 1)).1 = g.rules.rewrite (g.unlimited s n).1 := by
  rw [unlimited, RuleSet.generation_succ, RuleSet.run_grow_eq_rewrite h]
  rfl

theorem counts_unlimited (hg : g.Closed) (s : σ) (n : ℕ) :
    g.alphabet.counts (g.unlimited s n).1 = g.grownCounts n := by
  induction n with
  | zero => simp [unlimited, grownCounts]
  | succ n ih =>
    rw [unlimited_succ_of_not_stochastic h, counts_rewrite (hg.spells_unlimited s n), ih,
      grownCounts, mulVec_mulVec, ← pow_succ', grownCounts]

theorem length_unlimited (hg : g.Closed) (s : σ) (n : ℕ) :
    (g.unlimited s n).1.length = ∑ t, g.grownCounts n t := by
  rw [length_eq_sum_counts (hg.spells_unlimited s n), counts_unlimited h hg]

end Deterministic

variable {σ : Type} [Source σ]

theorem exists_run_derive_eq_ok_iff (g : Grammar) (s : σ) (depth : ℕ) :
    (∃ ws r, (g.derive depth).run.run s = (.ok ws, r)) ↔
      depth < maxWords ∧ ∀ n ≤ depth, g.Fits (g.unlimited s n).1 := by
  constructor
  · rintro ⟨ws, r, hrun⟩
    have hends := ends_derive g s depth
    rw [hrun] at hends
    cases hends with
    | complete hd hf => exact ⟨hd, hf⟩
  · rintro ⟨hd, hf⟩
    exact ⟨_, _, run_derive_of_fits hd hf⟩

/-- The counts of the symbols in the words that a grammar derives without a choice are those of the
axiom under powers of the growth matrix, and their sums are the lengths of the words. So the limit
can be compared with the sums before anything is derived. -/
theorem derive_growth {g : Grammar} (hmade : Made g) (h : g.isStochastic = false) (s : σ) :
    (∀ n (t : g.alphabet.Symbol), (g.unlimited s n).1.countSymbol t = g.grownCounts n t) ∧
    (∀ n, (g.unlimited s n).1.length = ∑ t, g.grownCounts n t) ∧
    (∀ depth ws r, (g.derive depth).run.run s = (.ok ws, r) →
      ws.length = depth + 1 ∧ ∀ n ≤ depth, ws[n]? = some (g.unlimited s n).1) ∧
    ∀ depth, (∃ ws r, (g.derive depth).run.run s = (.ok ws, r)) ↔
      depth < maxWords ∧
        ∀ limit, g.wordLimit = some limit → ∀ n ≤ depth, ∑ t, g.grownCounts n t ≤ limit := by
  have hlength : ∀ n, (g.unlimited s n).1.length = ∑ t, g.grownCounts n t :=
    length_unlimited h hmade.closed s
  refine ⟨fun n => congrFun (counts_unlimited h hmade.closed s n), hlength, ?_, fun depth => ?_⟩
  · intro depth ws r hrun
    obtain ⟨-, rfl, -⟩ := of_run_derive_eq_ok hrun
    exact ⟨by simp [words], fun n hn => by simp [words, Nat.lt_succ_of_le hn]⟩
  · rw [exists_run_derive_eq_ok_iff]
    simp only [Fits, hlength]
    exact and_congr_right fun _ => ⟨fun hf limit hl n hn => hf n hn limit hl,
      fun hf n hn limit hl => hf limit hl n hn⟩

section Algae

open RuleSet

def pond : Grammar := (inferred .empty [cell] algae).withWordLimit (some 3)

theorem derive_growth_pond :
    let s := KeyStream.ofSeed 0
    Made pond ∧ pond.isStochastic = false ∧
      (∃ a : pond.alphabet.Symbol, a = "A" ∧ pond.grownCounts 3 a = 3) ∧
      ∑ t, pond.grownCounts 2 t = 3 ∧ ∑ t, pond.grownCounts 3 t = 5 ∧
      (∃ ws r, (pond.derive 2).run.run s = (.ok ws, r)) ∧
      ¬ ∃ ws r, (pond.derive 3).run.run s = (.ok ws, r) := by
  intro s
  have hmade : Made pond := .withWordLimit _ (.inferred ..)
  have hrun : ∀ n, (pond.unlimited s n).1 = algae.rewrite^[n] [cell] := fun n => by
    rw [unlimited]
    exact congrArg Prod.fst (generation_eq_iterate isStochastic_algae ..)
  obtain ⟨hcounts, hlength, -, hderive⟩ := derive_growth hmade rfl s
  have hsum : ∀ n, ∑ t, pond.grownCounts n t = (algae.rewrite^[n] [cell]).length := fun n => by
    rw [← hrun, hlength]
  have hA : "A" ∈ pond.alphabet.symbols := by decide +kernel
  refine ⟨hmade, rfl, ⟨⟨"A", hA⟩, rfl, ?_⟩, by simp [hsum], by simp [hsum],
    (hderive 2).mpr ⟨by decide, ?_⟩, ?_⟩
  · have hthird : (pond.unlimited s 3).1 = [cell, bud, cell, cell, bud] := by simp [hrun]
    rw [← hcounts, hthird]
    rfl
  · rintro limit ⟨⟩ n hn
    obtain rfl | rfl | rfl : n = 0 ∨ n = 1 ∨ n = 2 := by omega
    all_goals exact (hsum _).trans_le (by simp)
  · rw [hderive 3]
    rintro ⟨-, hsums⟩
    have hle : ∑ t, pond.grownCounts 3 t ≤ 3 := hsums 3 rfl 3 le_rfl
    simp [hsum] at hle

def lone : Grammar := (inferred .empty [cell] .empty).withWordLimit (some 1)

/-- Where no table can hold the words a derivation fails, though none of them is too long. -/
theorem derive_lone_overflow :
    let depth := 2 ^ 63 - 1
    Made lone ∧ lone.isStochastic = false ∧ lone.wordLimit = some 1 ∧
      (∀ n ≤ depth, ∑ t, lone.grownCounts n t ≤ 1) ∧
      ¬ ∃ ws r, (lone.derive depth).run.run (KeyStream.ofSeed 0) = (.ok ws, r) := by
  intro depth
  have hmade : Made lone := .withWordLimit _ (.inferred ..)
  refine ⟨hmade, rfl, rfl, fun n _ => ?_, ?_⟩
  · rw [← length_unlimited rfl hmade.closed (KeyStream.ofSeed 0), unlimited]
    exact (congrArg (List.length ∘ Prod.fst) (generation_empty ..)).le
  · rw [exists_run_derive_eq_ok_iff]
    rintro ⟨hd, -⟩
    exact absurd hd (by decide)

end Algae

end Grammar

end LSystem
