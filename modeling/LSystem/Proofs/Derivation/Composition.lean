import LSystem.Proofs.Derivation.WordLimit

/-! # Derivations in two parts

The generations after the first `m` are those of the word and the source that these leave. A
derivation of `m + n` generations is therefore one of `m` followed by one of `n` that starts anew
from the last word, with its generations counted on.
-/

namespace LSystem

variable {σ : Type} [Source σ]

theorem RuleSet.generation_add (rs : RuleSet) (w : Word) (s : σ) (m n : Nat) :
    rs.generation w s (m + n) =
      rs.generation (rs.generation w s m).1 (rs.generation w s m).2 n := by
  induction n with
  | zero => rfl
  | succ n ih => rw [← Nat.add_assoc, generation_succ, ih, ← generation_succ]

namespace Grammar

def withStart (g : Grammar) (w : Word) : Grammar := { g with start := w }

def after (g : Grammar) (s : σ) (m : Nat) : Grammar := g.withStart (g.unlimited s m).1

variable {g : Grammar} {s r : σ} {m n k limit : Nat} {ws : List Word}

theorem unlimited_add (g : Grammar) (s : σ) (m n : Nat) :
    g.unlimited s (m + n) = (g.after s m).unlimited (g.unlimited s m).2 n :=
  g.rules.generation_add g.start s m n

section Words

/-- The words of the run up to a generation. -/
def words (g : Grammar) (s : σ) (n : Nat) : List Word :=
  (List.range (n + 1)).map fun k => (g.unlimited s k).1

theorem getLast?_words (g : Grammar) (s : σ) (n : Nat) :
    (g.words s n).getLast? = some (g.unlimited s n).1 := by
  rw [words, List.range_succ, List.map_append, List.map_singleton, List.getLast?_concat]

/-- The words of a longer run are those of its two parts, the word where they meet only once. -/
theorem words_add (g : Grammar) (s : σ) (m n : Nat) :
    g.words s (m + n) = g.words s m ++ ((g.after s m).words (g.unlimited s m).2 n).tail := by
  have htail : ((g.after s m).words (g.unlimited s m).2 n).tail =
      (List.range n).map fun k => (g.unlimited s (m + 1 + k)).1 := by
    rw [words, List.range_succ_eq_map, List.map_cons, List.tail_cons, List.map_map]
    refine List.map_congr_left fun k _ => ?_
    rw [Function.comp, ← unlimited_add, Nat.succ_eq_add_one, Nat.add_assoc, Nat.add_comm 1 k]
  have hrange : List.range (m + n + 1) = List.range (m + 1) ++ (List.range n).map (m + 1 + ·) := by
    rw [Nat.add_right_comm, List.range_add]
  rw [htail, words, words, hrange, List.map_append, List.map_map]
  rfl

theorem prefix_words_add (g : Grammar) (s : σ) (m n : Nat) :
    g.words s m <+: g.words s (m + n) :=
  words_add g s m n ▸ List.prefix_append _ _

end Words

section Parts

theorem FirstExcess.of_le {depth : Nat} (h : g.FirstExcess s m k limit) (hm : m ≤ depth) :
    g.FirstExcess s depth k limit :=
  { h with le_depth := Nat.le_trans h.le_depth hm }

theorem fits_add (hm : ∀ k ≤ m, g.Fits (g.unlimited s k).1)
    (hn : ∀ k ≤ n, (g.after s m).Fits ((g.after s m).unlimited (g.unlimited s m).2 k).1) :
    ∀ k ≤ m + n, g.Fits (g.unlimited s k).1 := by
  intro k hk
  rcases Nat.le_total k m with hkm | hmk
  · exact hm k hkm
  · obtain ⟨j, rfl⟩ := Nat.exists_eq_add_of_le hmk
    rw [unlimited_add]
    exact hn j (Nat.le_of_add_le_add_left hk)

theorem FirstExcess.add (hm : ∀ k ≤ m, g.Fits (g.unlimited s k).1)
    (h : (g.after s m).FirstExcess (g.unlimited s m).2 n k limit) :
    g.FirstExcess s (m + n) (m + k) limit where
  le_depth := Nat.add_le_add_left h.le_depth m
  wordLimit := h.wordLimit
  exceeds := unlimited_add g s m k ▸ h.exceeds
  least := by
    intro j hj
    rcases Nat.le_total j m with hjm | hmj
    · exact hm j hjm limit h.wordLimit
    · obtain ⟨i, rfl⟩ := Nat.exists_eq_add_of_le hmj
      rw [unlimited_add]
      exact h.least i (Nat.lt_of_add_lt_add_left hj)

theorem run_derive_add_of_error {e : SketchError} (hd : m + n < maxWords)
    (h : (g.derive m).run.run s = (.error e, r)) :
    (g.derive (m + n)).run.run s = (.error e, r) := by
  have hends := ends_derive g s m
  rw [h] at hends
  cases hends with
  | tooLong _ hk => exact run_derive_of_firstExcess (.inr hd) (hk.of_le (Nat.le_add_right m n))
  | tooDeep hm _ => exact absurd hd (Nat.not_lt.mpr (Nat.le_trans hm (Nat.le_add_right m n)))

theorem of_run_derive_eq_ok (h : (g.derive m).run.run s = (.ok ws, r)) :
    (∀ k ≤ m, g.Fits (g.unlimited s k).1) ∧ ws = g.words s m ∧ r = (g.unlimited s m).2 := by
  have hends := ends_derive g s m
  rw [h] at hends
  cases hends with
  | complete _ hf => exact ⟨hf, rfl, rfl⟩

theorem run_derive_add_of_ok {vs : List Word} {r' : σ} (hd : m + n < maxWords)
    (hm : ∀ k ≤ m, g.Fits (g.unlimited s k).1)
    (h : ((g.after s m).derive n).run.run (g.unlimited s m).2 = (.ok vs, r')) :
    (g.derive (m + n)).run.run s = (.ok (g.words s m ++ vs.tail), r') := by
  obtain ⟨hn, rfl, rfl⟩ := of_run_derive_eq_ok h
  rw [run_derive_of_fits hd (fits_add hm hn), ← words_add, ← unlimited_add]
  rfl

/-- The axiom of the second part has been checked before, so only a later word of it is refused. -/
theorem run_derive_add_of_error_after {e : SketchError} {r' : σ} (hd : m + n < maxWords)
    (hm : ∀ k ≤ m, g.Fits (g.unlimited s k).1)
    (h : ((g.after s m).derive n).run.run (g.unlimited s m).2 = (.error e, r')) :
    ∃ k length limit, 0 < k ∧ e = .wordLimitExceeded k length limit ∧
      (g.derive (m + n)).run.run s = (.error (.wordLimitExceeded (m + k) length limit), r') := by
  have hends := ends_derive (g.after s m) (g.unlimited s m).2 n
  rw [h] at hends
  cases hends with
  | @tooLong k limit _ hk =>
    have hpos : 0 < k := by
      refine Nat.pos_of_ne_zero ?_
      rintro rfl
      exact absurd hk.exceeds (Nat.not_lt.mpr (hm m (Nat.le_refl m) limit hk.wordLimit))
    refine ⟨k, _, limit, hpos, rfl, ?_⟩
    rw [run_derive_of_firstExcess (.inr hd) (hk.add hm), unlimited_add]
  | tooDeep hn _ => exact absurd hd (Nat.not_lt.mpr (Nat.le_trans hn (Nat.le_add_left n m)))

end Parts

/-- A derivation of `m + n` generations is one of `m` followed by one of `n` from the last word,
as long as a table can have all of its words. -/
theorem run_derive_add (g : Grammar) (s : σ) (m n : Nat) :
    (m + n < maxWords →
      (∀ e r, (g.derive m).run.run s = (.error e, r) →
        (g.derive (m + n)).run.run s = (.error e, r)) ∧
      ∀ ws r, (g.derive m).run.run s = (.ok ws, r) →
        ∃ w, ws.getLast? = some w ∧
          (∀ vs r', ((g.withStart w).derive n).run.run r = (.ok vs, r') →
            (g.derive (m + n)).run.run s = (.ok (ws ++ vs.tail), r')) ∧
          ∀ e r', ((g.withStart w).derive n).run.run r = (.error e, r') →
            ∃ k length limit, 0 < k ∧ e = .wordLimitExceeded k length limit ∧
              (g.derive (m + n)).run.run s =
                (.error (.wordLimitExceeded (m + k) length limit), r')) ∧
    (maxWords ≤ m + n →
      (g.Fits g.start → (g.derive (m + n)).run.run s = (.error (.overflow .depth), s)) ∧
      (¬ g.Fits g.start → (g.derive (m + n)).run.run s = (g.derive m).run.run s)) ∧
    ∀ seed ws ws', g.deriveSeeded m seed = .ok ws → g.deriveSeeded (m + n) seed = .ok ws' →
      ws <+: ws' := by
  refine ⟨fun hd => ⟨fun e r => run_derive_add_of_error hd, ?_⟩, fun hd => ⟨?_, ?_⟩, ?_⟩
  · intro ws r h
    obtain ⟨hm, rfl, rfl⟩ := of_run_derive_eq_ok h
    exact ⟨(g.unlimited s m).1, getLast?_words g s m, fun vs r' => run_derive_add_of_ok hd hm,
      fun e r' => run_derive_add_of_error_after hd hm⟩
  · intro hfits
    exact run_derive_of_overflow hd hfits
  · intro hfits
    obtain ⟨limit, hlimit, hlt⟩ := exists_of_not_fits hfits
    have hk : ∀ depth, g.FirstExcess s depth 0 limit := fun depth =>
      ⟨Nat.zero_le depth, hlimit, hlt, nofun⟩
    rw [run_derive_of_firstExcess (.inl rfl) (hk (m + n)),
      run_derive_of_firstExcess (.inl rfl) (hk m)]
  · intro seed ws ws' h h'
    obtain ⟨-, rfl, -⟩ := of_run_derive_eq_ok (Prod.ext h rfl)
    obtain ⟨-, rfl, -⟩ := of_run_derive_eq_ok (Prod.ext h' rfl)
    exact prefix_words_add g _ m n

section Doubling

theorem run_derive_add_doubling :
    let s := KeyStream.ofSeed 0
    let g := doubling (some 3)
    let f := Letter.plain "F"
    1 + 2 < maxWords ∧ (g.derive 1).run.run s = (.ok [[f], [f, f]], s) ∧
      ((g.withStart [f, f]).derive 2).run.run s = (.error (.wordLimitExceeded 1 4 3), s) ∧
      (g.derive (1 + 2)).run.run s = (.error (.wordLimitExceeded (1 + 1) 4 3), s) := by
  intro s g f
  have hd : 1 + 2 < maxWords := by decide
  have hfirst : (g.derive 1).run.run s = (.ok [[f], [f, f]], s) := by
    have hfits : ∀ k ≤ 1, g.Fits (g.unlimited s k).1 := by
      rintro k hk limit ⟨⟩
      have hle : 2 ^ k ≤ 2 ^ 1 := Nat.pow_le_pow_right (by decide) hk
      rw [unlimited_doubling, List.length_replicate]
      omega
    rw [run_derive_of_fits (by decide) hfits]
    simp only [g, unlimited_doubling]
    rfl
  have hsecond : ((g.withStart [f, f]).derive 2).run.run s =
      (.error (.wordLimitExceeded 1 4 3), s) := by
    have hgrow : (g.withStart [f, f]).unlimited s 1 = (.replicate 4 f, s) :=
      run_grow_doubling (some 3) 2 s
    have hk : (g.withStart [f, f]).FirstExcess s 2 1 3 := by
      refine ⟨by decide, rfl, by simp [hgrow], fun j hj => ?_⟩
      obtain rfl := Nat.lt_one_iff.mp hj
      decide
    rw [run_derive_of_firstExcess (.inr (by decide)) hk, hgrow]
    rfl
  obtain ⟨w, hw, -, herror⟩ := ((run_derive_add g s 1 2).1 hd).2 _ _ hfirst
  obtain rfl : [f, f] = w := Option.some.inj hw
  obtain ⟨k, length, limit, -, he, hrun⟩ := herror _ _ hsecond
  cases he
  exact ⟨hd, hfirst, hsecond, hrun⟩

theorem run_derive_add_doubling_overflow :
    let s := KeyStream.ofSeed 0
    let g := doubling (some 1)
    let n := 2 ^ 63 - 2
    (g.derive 1).run.run s = (.error (.wordLimitExceeded 1 2 1), s) ∧
      (g.derive (1 + n)).run.run s = (.error (.overflow .depth), s) ∧
      (g.derive (1 + n)).run.run s ≠ (g.derive 1).run.run s := by
  intro s g n
  have hfirst : (g.derive 1).run.run s = (.error (.wordLimitExceeded 1 2 1), s) := by
    have hk : g.FirstExcess s 1 1 1 := by
      refine ⟨le_rfl, rfl, by simp [g, unlimited_doubling], fun j hj => ?_⟩
      obtain rfl := Nat.lt_one_iff.mp hj
      simp [g, unlimited_doubling]
    rw [run_derive_of_firstExcess (.inr (by decide)) hk]
    simp only [g, unlimited_doubling]
    rfl
  have hwhole : (g.derive (1 + n)).run.run s = (.error (.overflow .depth), s) := rfl
  refine ⟨hfirst, hwhole, ?_⟩
  rw [hfirst, hwhole]
  intro h
  cases congrArg Prod.fst h

end Doubling

end Grammar

end LSystem
