import LSystem.Proofs.Derivation.WordLimit

/-! # Choices

One word of the source is taken for each letter whose symbol has a rule with weighted alternatives,
in reading order, and decides what replaces this letter and nothing else. What a derivation does with
a source is therefore settled by as many of its words as there are such letters in all generations
but the last.
-/

namespace LSystem

variable {σ τ : Type} [Source σ] [Source τ]

section Drawn

theorem drawn_add (m n : Nat) (s : σ) :
    drawn (m + n) s =
      ((drawn m s).1 ++ (drawn n (drawn m s).2).1, (drawn n (drawn m s).2).2) := by
  induction m generalizing s with
  | zero => rw [Nat.zero_add]; rfl
  | succ m ih =>
    rw [Nat.succ_add]
    simp only [drawn, ih, List.cons_append]

theorem length_drawn (n : Nat) (s : σ) : (drawn n s).1.length = n := by
  induction n generalizing s with
  | zero => rfl
  | succ n ih => exact congrArg (· + 1) (ih (Source.next s).2)

/-- Two sources begin with the same `n` words. -/
def Agree (n : Nat) (s : σ) (t : τ) : Prop := (drawn n s).1 = (drawn n t).1

theorem agree_add {m n : Nat} {s : σ} {t : τ} :
    Agree (m + n) s t ↔ Agree m s t ∧ Agree n (drawn m s).2 (drawn m t).2 := by
  unfold Agree
  rw [drawn_add, drawn_add]
  constructor
  · intro h
    exact List.append_inj h (by rw [length_drawn, length_drawn])
  · rintro ⟨h, h'⟩
    rw [h, h']

theorem Agree.of_le {m n : Nat} {s : σ} {t : τ} (h : Agree n s t) (hmn : m ≤ n) : Agree m s t := by
  obtain ⟨k, rfl⟩ := Nat.exists_eq_add_of_le hmn
  exact (agree_add.mp h).1

end Drawn

def Rule.written (r : Rule) (u : UInt64) : Word :=
  match r.successor with
  | .fixed w => w
  | .chosen l => l.outcome u

theorem Rule.run_successorWord (r : Rule) (s : σ) :
    r.successorWord.run s =
      if r.isStochastic then (r.written (Source.next s).1, (Source.next s).2)
      else (r.written 0, s) := by
  unfold successorWord isStochastic written
  cases r.successor <;> rfl

theorem Rule.written_eq {r : Rule} (h : ¬ r.isStochastic) (u v : UInt64) :
    r.written u = r.written v := by
  unfold isStochastic at h
  unfold written
  cases hs : r.successor with
  | fixed w => rfl
  | chosen l => rw [hs] at h; exact absurd rfl h

namespace RuleSet

def isChance (rs : RuleSet) (l : Letter) : Bool := (rs.get? l.symbol).any Rule.isStochastic

def choices (rs : RuleSet) (w : Word) : Nat := w.countP rs.isChance

def replacement (rs : RuleSet) (u : UInt64) (l : Letter) : Word :=
  match rs.get? l.symbol with
  | some r => r.written u
  | none => [l]

/-- The pieces replace the letters of a word, with choices made from `us` in reading order. -/
structure Replaces (rs : RuleSet) (us : List UInt64) (w : Word) (pieces : List Word) : Prop where
  length_eq : pieces.length = w.length
  /-- A choice is made from the word of `us` that has as many before it as there are letters before
  this one that are replaced by chance. -/
  chance : ∀ (k : Nat) (l : Letter), w[k]? = some l → rs.isChance l →
    ∃ u, us[rs.choices (w.take k)]? = some u ∧ pieces[k]? = some (rs.replacement u l)
  certain : ∀ (k : Nat) (l : Letter) (u : UInt64), w[k]? = some l → ¬ rs.isChance l →
    pieces[k]? = some (rs.replacement u l)

variable {rs : RuleSet} {us : List UInt64} {u : UInt64} {l : Letter} {w : Word}
  {ps qs : List Word} {s : σ} {t : τ}

theorem choices_cons (rs : RuleSet) (l : Letter) (w : Word) :
    rs.choices (l :: w) = rs.choices w + if rs.isChance l then 1 else 0 :=
  List.countP_cons

section Letter

theorem replacement_eq (h : ¬ rs.isChance l) (u v : UInt64) :
    rs.replacement u l = rs.replacement v l := by
  unfold isChance at h
  unfold replacement
  cases hr : rs.get? l.symbol with
  | none => rfl
  | some r =>
    rw [hr] at h
    exact Rule.written_eq h u v

theorem run_expand_of_chance (h : rs.isChance l) (s : σ) :
    (rs.expand l).run s = (rs.replacement (Source.next s).1 l, (Source.next s).2) := by
  unfold isChance at h
  unfold expand replacement
  cases hr : rs.get? l.symbol with
  | none => rw [hr] at h; cases h
  | some r =>
    rw [hr] at h
    exact (r.run_successorWord s).trans (if_pos h)

theorem run_expand_of_not_chance (h : ¬ rs.isChance l) (s : σ) :
    (rs.expand l).run s = (rs.replacement 0 l, s) := by
  unfold isChance at h
  unfold expand replacement
  cases hr : rs.get? l.symbol with
  | none => rfl
  | some r =>
    rw [hr] at h
    exact (r.run_successorWord s).trans (if_neg h)

end Letter

section Word

theorem replaces_nil : rs.Replaces [] [] [] where
  length_eq := rfl
  chance := nofun
  certain := nofun

theorem Replaces.cons (h : rs.Replaces us w ps) (u : UInt64) (l : Letter) :
    rs.Replaces ((if rs.isChance l then [u] else []) ++ us) (l :: w)
      (rs.replacement u l :: ps) where
  length_eq := congrArg (· + 1) h.length_eq
  chance := by
    intro k l' hk hl'
    cases k with
    | zero =>
      cases hk
      rw [if_pos hl']
      exact ⟨u, rfl, rfl⟩
    | succ k =>
      obtain ⟨v, hv, hp⟩ := h.chance k l' hk hl'
      refine ⟨v, ?_, hp⟩
      rw [List.take_succ_cons, choices_cons]
      split <;> exact hv
  certain := by
    intro k l' v hk hl'
    cases k with
    | zero =>
      cases hk
      rw [replacement_eq hl' v u]
      rfl
    | succ k => exact h.certain k l' v hk hl'

theorem Replaces.eq (hp : rs.Replaces us w ps) (hq : rs.Replaces us w qs) : ps = qs := by
  apply List.ext_getElem?
  intro k
  cases hk : w[k]? with
  | none =>
    have hlen := List.getElem?_eq_none_iff.mp hk
    rw [List.getElem?_eq_none (hp.length_eq ▸ hlen), List.getElem?_eq_none (hq.length_eq ▸ hlen)]
  | some l =>
    by_cases hl : rs.isChance l
    · obtain ⟨u, hu, hpk⟩ := hp.chance k l hk hl
      obtain ⟨v, hv, hqk⟩ := hq.chance k l hk hl
      obtain rfl := Option.some.inj (hu.symm.trans hv)
      rw [hpk, hqk]
    · rw [hp.certain k l 0 hk hl, hq.certain k l 0 hk hl]

/-- Replacing the letters of a word takes one word of the source for each that is replaced by
chance. -/
theorem run_grow (rs : RuleSet) (w : Word) (s : σ) :
    ∃ ps, rs.Replaces (drawn (rs.choices w) s).1 w ps ∧
      (rs.grow w).run s = (ps.flatten, (drawn (rs.choices w) s).2) := by
  induction w generalizing s with
  | nil => exact ⟨[], replaces_nil, rfl⟩
  | cons l w ih =>
    rw [run_grow_cons, choices_cons]
    by_cases hl : rs.isChance l
    · obtain ⟨ps, hps, hrun⟩ := ih (Source.next s).2
      have hcons := hps.cons (Source.next s).1 l
      rw [if_pos hl] at hcons
      rw [run_expand_of_chance hl, if_pos hl, hrun]
      exact ⟨_, hcons, rfl⟩
    · obtain ⟨ps, hps, hrun⟩ := ih s
      have hcons := hps.cons 0 l
      rw [if_neg hl] at hcons
      rw [run_expand_of_not_chance hl, if_neg hl, hrun]
      exact ⟨_, hcons, rfl⟩

theorem run_grow_congr (h : Agree (rs.choices w) s t) :
    (rs.grow w).run t = (((rs.grow w).run s).1, (drawn (rs.choices w) t).2) := by
  obtain ⟨ps, hps, hs⟩ := run_grow rs w s
  obtain ⟨qs, hqs, ht⟩ := run_grow rs w t
  rw [← h] at hqs
  rw [ht, hs, hps.eq hqs]

end Word

section Generations

/-- How many words of the source the first `n` generations take. -/
def taken (rs : RuleSet) (w : Word) (s : σ) (n : Nat) : Nat :=
  ((List.range n).map fun k => rs.choices (rs.generation w s k).1).sum

theorem taken_succ (rs : RuleSet) (w : Word) (s : σ) (n : Nat) :
    rs.taken w s (n + 1) = rs.taken w s n + rs.choices (rs.generation w s n).1 := by
  simp [taken, List.range_succ]

theorem taken_mono {m n : Nat} (h : m ≤ n) : rs.taken w s m ≤ rs.taken w s n := by
  induction h with
  | refl => exact Nat.le_refl _
  | step _ ih => exact Nat.le_trans ih (taken_succ rs w s _ ▸ Nat.le_add_right _ _)

theorem source_generation (rs : RuleSet) (w : Word) (s : σ) (n : Nat) :
    (rs.generation w s n).2 = (drawn (rs.taken w s n) s).2 := by
  induction n with
  | zero => rfl
  | succ n ih =>
    obtain ⟨ps, -, hrun⟩ := run_grow rs (rs.generation w s n).1 (rs.generation w s n).2
    rw [generation_succ, hrun, taken_succ, drawn_add, ih]

theorem generation_congr {n : Nat} (h : Agree (rs.taken w s n) s t) :
    rs.generation w t n = ((rs.generation w s n).1, (drawn (rs.taken w s n) t).2) := by
  induction n with
  | zero => rfl
  | succ n ih =>
    rw [taken_succ] at h ⊢
    obtain ⟨hn, hlast⟩ := agree_add.mp h
    rw [← source_generation] at hlast
    rw [generation_succ, generation_succ, ih hn, run_grow_congr hlast, drawn_add]

end Generations

section Certain

variable (h : rs.isStochastic = false)
include h

theorem not_isChance (l : Letter) : ¬ rs.isChance l := by
  intro hl
  unfold isChance at hl
  cases hr : rs.get? l.symbol with
  | none => rw [hr] at hl; cases hl
  | some r =>
    rw [hr] at hl
    exact List.any_eq_false.mp h r (mem_of_get? hr) hl

theorem choices_eq_zero (w : Word) : rs.choices w = 0 :=
  List.countP_eq_zero.mpr fun l _ => not_isChance h l

theorem taken_eq_zero (w : Word) (s : σ) (n : Nat) : rs.taken w s n = 0 := by
  induction n with
  | zero => rfl
  | succ n ih => rw [taken_succ, ih, choices_eq_zero h]

end Certain

end RuleSet

namespace Grammar

variable {g : Grammar} {depth : Nat} {s : σ} {t : τ}

/-- How a derivation ends depends on the source through the words of the generations only. -/
theorem run_derive_congr (h : ∀ k ≤ depth, (g.unlimited t k).1 = (g.unlimited s k).1) :
    ((g.derive depth).run.run t).1 = ((g.derive depth).run.run s).1 := by
  generalize hend : (g.derive depth).run.run s = ending
  have hends := ends_derive g s depth
  rw [hend] at hends
  cases hends with
  | complete hd hf =>
    rw [run_derive_of_fits hd fun k hk => h k hk ▸ hf k hk]
    refine congrArg Except.ok (List.map_congr_left fun k hk => ?_)
    exact h k (Nat.le_of_lt_succ (List.mem_range.mp hk))
  | @tooLong k limit hd hk =>
    have hword := h k hk.le_depth
    have hk' : g.FirstExcess t depth k limit := by
      refine ⟨hk.le_depth, hk.wordLimit, hword ▸ hk.exceeds, fun j hj => ?_⟩
      rw [h j (Nat.le_trans (Nat.le_of_lt hj) hk.le_depth)]
      exact hk.least j hj
    rw [run_derive_of_firstExcess hd hk', hword]
  | tooDeep hd hstart => rw [run_derive_of_overflow hd hstart]

theorem sum_choices_unlimited (g : Grammar) (s : σ) (depth : Nat) :
    ((((List.range (depth + 1)).map fun k => (g.unlimited s k).1).dropLast).map
      g.rules.choices).sum = g.rules.taken g.start s depth := by
  rw [List.range_succ, List.map_append, List.map_singleton, List.dropLast_concat, List.map_map]
  rfl

theorem run_derive_of_not_stochastic (h : g.isStochastic = false) (depth : Nat) (s : σ) :
    ((g.derive depth).run.run s).2 = s := by
  have hsource : ∀ n, (g.unlimited s n).2 = s := by
    intro n
    rw [unlimited, RuleSet.source_generation, RuleSet.taken_eq_zero h]
    rfl
  have hends := ends_derive g s depth
  generalize (g.derive depth).run.run s = ending at hends
  cases hends with
  | complete => exact hsource depth
  | tooLong => exact hsource _
  | tooDeep => rfl

theorem run_derive_congr_of_not_stochastic (h : g.isStochastic = false) (depth : Nat) (s : σ)
    (t : τ) : ((g.derive depth).run.run t).1 = ((g.derive depth).run.run s).1 := by
  apply run_derive_congr
  intro k _
  have hagree : Agree (g.rules.taken g.start s k) s t := by
    rw [RuleSet.taken_eq_zero h]
    rfl
  rw [unlimited, RuleSet.generation_congr hagree]
  rfl

theorem run_derive_of_agree {ws : List Word} {r : σ}
    (hd : (g.derive depth).run.run s = (.ok ws, r)) {n : Nat}
    (hn : n = (ws.dropLast.map g.rules.choices).sum) :
    r = (drawn n s).2 ∧
      ∀ t : τ, Agree n s t → (g.derive depth).run.run t = (.ok ws, (drawn n t).2) := by
  have hends := ends_derive g s depth
  rw [hd] at hends
  cases hends with
  | complete hdepth hf =>
    rw [sum_choices_unlimited] at hn
    subst hn
    refine ⟨RuleSet.source_generation .., fun t ht => ?_⟩
    have hword : ∀ k ≤ depth, (g.unlimited t k).1 = (g.unlimited s k).1 := by
      intro k hk
      rw [unlimited, RuleSet.generation_congr (ht.of_le (RuleSet.taken_mono hk))]
      rfl
    have hwords : ((List.range (depth + 1)).map fun k => (g.unlimited t k).1) =
        (List.range (depth + 1)).map fun k => (g.unlimited s k).1 :=
      List.map_congr_left fun k hk => hword k (Nat.le_of_lt_succ (List.mem_range.mp hk))
    have hsource : (g.unlimited t depth).2 = (drawn (g.rules.taken g.start s depth) t).2 := by
      rw [unlimited, RuleSet.generation_congr ht]
    rw [run_derive_of_fits hdepth fun k hk => hword k hk ▸ hf k hk, hwords, hsource]

/-- Growing a word takes one word of the source for each letter that is replaced by chance, which
decides the replacement of this letter alone. A derivation that succeeds takes as many as there are
such letters in its words but the last, depends on these alone, and without a rule that chooses it
takes none. -/
theorem run_derive_choices (rs : RuleSet) (g : Grammar) :
    (∀ {σ : Type} [Source σ] (w : Word) (s : σ), ∃ pieces,
      rs.Replaces (drawn (rs.choices w) s).1 w pieces ∧
        (rs.grow w).run s = (pieces.flatten, (drawn (rs.choices w) s).2)) ∧
    (∀ {σ τ : Type} [Source σ] [Source τ] (depth : Nat) (s r : σ) (ws : List Word),
      (g.derive depth).run.run s = (.ok ws, r) →
        let n := (ws.dropLast.map g.rules.choices).sum
        r = (drawn n s).2 ∧
          ∀ t : τ, Agree n s t → (g.derive depth).run.run t = (.ok ws, (drawn n t).2)) ∧
    (g.isStochastic = false →
      (∀ {σ : Type} [Source σ] (depth : Nat) (s : σ), ((g.derive depth).run.run s).2 = s) ∧
      (∀ {σ τ : Type} [Source σ] [Source τ] (depth : Nat) (s : σ) (t : τ),
        ((g.derive depth).run.run t).1 = ((g.derive depth).run.run s).1) ∧
      ∀ (depth : Nat) (seed seed' : UInt64),
        g.deriveSeeded depth seed' = g.deriveSeeded depth seed) := by
  refine ⟨fun w s => RuleSet.run_grow rs w s, fun depth s r ws hd => run_derive_of_agree hd rfl,
    fun h => ⟨run_derive_of_not_stochastic h, run_derive_congr_of_not_stochastic h, ?_⟩⟩
  intro depth seed seed'
  exact run_derive_congr_of_not_stochastic h depth _ _

end Grammar

end LSystem
