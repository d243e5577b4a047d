import Mathlib.Logic.Function.Iterate
import LSystem.Proofs.Derivation.Choices

/-! # Concatenation

A word grows as its parts do, one after the other. Where no rule chooses, what a letter becomes
depends neither on the source nor on the letters around it, and so over the generations a word is
the concatenation of what its letters become.
-/

namespace LSystem

variable {σ τ ρ : Type} [Source σ] [Source τ] [Source ρ]

namespace RuleSet

variable {rs : RuleSet} {l : Letter}

section Parts

theorem run_grow_append (rs : RuleSet) (u v : Word) (s : σ) :
    (rs.grow (u ++ v)).run s =
      (((rs.grow u).run s).1 ++ ((rs.grow v).run ((rs.grow u).run s).2).1,
        ((rs.grow v).run ((rs.grow u).run s).2).2) := by
  induction u generalizing s with
  | nil => rfl
  | cons l u ih => simp only [List.cons_append, run_grow_cons, ih, List.append_assoc]

theorem run_grow_singleton_of_get?_eq_none (h : rs.get? l.symbol = none) (s : σ) :
    (rs.grow [l]).run s = ([l], s) := by
  have hl : rs.expand (σ := σ) l = pure [l] := by rw [expand, h]
  rw [run_grow_cons, hl]
  rfl

theorem generation_singleton_of_get?_eq_none (h : rs.get? l.symbol = none) (s : σ) (n : ℕ) :
    rs.generation [l] s n = ([l], s) := by
  induction n with
  | zero => rfl
  | succ n ih => rw [generation_succ, ih, run_grow_singleton_of_get?_eq_none h]

end Parts

section Rewrite

/-- A word with every letter replaced, where no replacement is left to chance. -/
def rewrite (rs : RuleSet) (w : Word) : Word := w.flatMap (rs.replacement 0)

@[simp] theorem rewrite_nil (rs : RuleSet) : rs.rewrite [] = [] := rfl

@[simp] theorem rewrite_cons (rs : RuleSet) (l : Letter) (w : Word) :
    rs.rewrite (l :: w) = rs.replacement 0 l ++ rs.rewrite w := List.flatMap_cons

@[simp] theorem rewrite_append (rs : RuleSet) (u v : Word) :
    rs.rewrite (u ++ v) = rs.rewrite u ++ rs.rewrite v := List.flatMap_append

theorem iterate_rewrite_nil (rs : RuleSet) (n : ℕ) : rs.rewrite^[n] [] = [] :=
  Function.iterate_fixed rs.rewrite_nil n

theorem iterate_rewrite_append (rs : RuleSet) (n : ℕ) (u v : Word) :
    rs.rewrite^[n] (u ++ v) = rs.rewrite^[n] u ++ rs.rewrite^[n] v := by
  induction n generalizing u v with
  | zero => rfl
  | succ n ih => simp only [Function.iterate_succ_apply, rewrite_append, ih]

theorem iterate_rewrite_eq_flatMap (rs : RuleSet) (n : ℕ) (w : Word) :
    rs.rewrite^[n] w = w.flatMap fun l => rs.rewrite^[n] [l] := by
  induction w with
  | nil => exact rs.iterate_rewrite_nil n
  | cons l w ih =>
    rw [← List.singleton_append, iterate_rewrite_append, ih, List.flatMap_append,
      List.flatMap_singleton]

variable (h : rs.isStochastic = false)
include h

theorem run_grow_eq_rewrite (w : Word) (s : σ) : (rs.grow w).run s = (rs.rewrite w, s) := by
  induction w with
  | nil => rfl
  | cons l w ih => rw [run_grow_cons, run_expand_of_not_chance (not_isChance h l), ih, rewrite_cons]

/-- Without rules that choose, the generations are the powers of one rewriting. -/
theorem generation_eq_iterate (w : Word) (s : σ) (n : ℕ) :
    rs.generation w s n = (rs.rewrite^[n] w, s) := by
  induction n with
  | zero => rfl
  | succ n ih => rw [generation_succ, ih, run_grow_eq_rewrite h, Function.iterate_succ_apply']

end Rewrite

end RuleSet

open Grammar (maxWords)

theorem Grammar.run_derive_of_unlimited {g : Grammar} (hg : g.wordLimit = none) {depth : ℕ}
    (hd : depth < maxWords) (s : σ) :
    (g.derive depth).run.run s =
      (.ok ((List.range (depth + 1)).map fun n => (g.unlimited s n).1), (g.unlimited s depth).2) :=
  run_derive_of_fits hd fun k _ limit hlimit => by rw [hg] at hlimit; cases hlimit

/-- Growing a word is growing its parts, the second with the source that the first leaves. Without
rules that choose, a word of any generation is the concatenation of those that its parts become,
down to the single letters, of which one without a rule stays what it is. An unlimited derivation
lists these words. -/
theorem RuleSet.grows_by_parts (rs : RuleSet) :
    (∀ {σ : Type} [Source σ] (u v : Word) (s : σ),
      (rs.grow (u ++ v)).run s =
        let (u', r) := (rs.grow u).run s
        let (v', r') := (rs.grow v).run r
        (u' ++ v', r')) ∧
    (rs.isStochastic = false →
      ∀ {σ τ ρ : Type} [Source σ] [Source τ] [Source ρ] (s : σ) (t : τ) (r : ρ) (n : ℕ),
        (∀ u v, (rs.generation (u ++ v) s n).1 =
          (rs.generation u t n).1 ++ (rs.generation v r n).1) ∧
        ∀ w, (rs.generation w s n).1 = w.flatMap fun l => (rs.generation [l] t n).1) ∧
    (∀ l, rs.get? l.symbol = none →
      ∀ {σ : Type} [Source σ] (s : σ) (n : ℕ), rs.generation [l] s n = ([l], s)) ∧
    ∀ g : Grammar, g.rules = rs → g.wordLimit = none → ∀ depth < maxWords,
      ∀ {σ : Type} [Source σ] (s : σ), ∃ ws r, (g.derive depth).run.run s = (.ok ws, r) ∧
        ws.length = depth + 1 ∧
        ∀ n ≤ depth, ws[n]? = some (rs.generation g.start s n).1 := by
  refine ⟨rs.run_grow_append, ?_, fun l hl => generation_singleton_of_get?_eq_none hl, ?_⟩
  · intro h σ τ ρ _ _ _ s t r n
    simp only [generation_eq_iterate h]
    exact ⟨rs.iterate_rewrite_append n, rs.iterate_rewrite_eq_flatMap n⟩
  · rintro g rfl hg depth hd σ _ s
    refine ⟨_, _, Grammar.run_derive_of_unlimited hg hd s, by simp, fun n hn => ?_⟩
    rw [List.getElem?_map, List.getElem?_range (Nat.lt_succ_of_le hn)]
    rfl

namespace RuleSet

section Algae

def cell : Letter := .plain "A"

def bud : Letter := .plain "B"

def knot : Letter := .node "A knot" ⟨⟨0, 0⟩, ⟨1, 0⟩⟩ ⟨⟨1, 0⟩, ⟨0, 1⟩⟩ "base"

def algae : RuleSet where
  rules := #[.deterministic cell [cell, bud], .deterministic bud [cell]]
  index := ((∅ : Std.HashMap String Nat).insert cell.symbol 0).insert bud.symbol 1

theorem get?_algae (s : String) : algae.get? s =
    if s = "A" then some (.deterministic cell [cell, bud])
    else if s = "B" then some (.deterministic bud [cell]) else none := by
  simp only [get?, algae, Std.HashMap.getElem?_insert, cell, bud, Letter.symbol]
  split_ifs <;> simp_all

theorem isStochastic_algae : algae.isStochastic = false := rfl

@[simp] theorem replacement_cell (u : UInt64) : algae.replacement u cell = [cell, bud] := by
  simp [replacement, get?_algae, cell, Letter.symbol, Rule.written, Rule.deterministic]

@[simp] theorem replacement_bud (u : UInt64) : algae.replacement u bud = [cell] := by
  simp [replacement, get?_algae, bud, Letter.symbol, Rule.written, Rule.deterministic]

theorem grows_by_parts_algae :
    let s := KeyStream.ofSeed 0
    let g := Grammar.inferred .empty [cell, knot, bud] algae
    algae.isStochastic = false ∧ algae.get? knot.symbol = none ∧ 3 < maxWords ∧
      ∃ ws r, (g.derive 3).run.run s = (.ok ws, r) ∧
        ws[3]? = some [cell, bud, cell, cell, bud, knot, cell, bud, cell] := by
  intro s g
  have hknot : algae.get? knot.symbol = none := get?_algae _
  have hd : 3 < maxWords := by decide
  obtain ⟨-, hparts, hsame, hderive⟩ := grows_by_parts algae
  obtain ⟨ws, r, hrun, -, hwords⟩ := hderive g rfl rfl 3 hd s
  have hcell : (algae.generation [cell] s 3).1 = [cell, bud, cell, cell, bud] := by
    simp [generation_eq_iterate isStochastic_algae]
  have hbud : (algae.generation [bud] s 3).1 = [cell, bud, cell] := by
    simp [generation_eq_iterate isStochastic_algae]
  refine ⟨rfl, hknot, hd, ws, r, hrun, ?_⟩
  rw [hwords 3 le_rfl, (hparts rfl s s s 3).2]
  simp [g, Grammar.inferred, hcell, hbud, hsame knot hknot s 3]

end Algae

end RuleSet

end LSystem
