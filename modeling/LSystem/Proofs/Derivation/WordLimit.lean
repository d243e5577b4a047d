import Mathlib.Algebra.Ring.Nat
import Mathlib.Data.Nat.Find
import LSystem.Proofs.Derivation.Generations

/-! # Derivations under a word limit

A derivation is the run without a limit, up to the first word that is longer than the limit. It
gives all words of the run or names the first that is too long, and either way leaves the source
where the run leaves it after the last word that was made.
-/

namespace LSystem.Grammar

variable {σ : Type} [Source σ]

/-- The word of a generation when there is no limit, and the source that is left after it. -/
def unlimited (g : Grammar) (s : σ) (n : Nat) : Word × σ := g.rules.generation g.start s n

/-- The word of generation `k` is the first that is longer than the limit. -/
structure FirstExcess (g : Grammar) (s : σ) (depth k limit : Nat) : Prop where
  le_depth : k ≤ depth
  wordLimit : g.wordLimit = some limit
  exceeds : limit < (g.unlimited s k).1.length
  least : ∀ j < k, (g.unlimited s j).1.length ≤ limit

variable {g : Grammar} {s : σ} {depth k limit : Nat}

theorem FirstExcess.fits (h : g.FirstExcess s depth k limit) {j : Nat} (hj : j < k) :
    g.Fits (g.unlimited s j).1 := by
  intro l hl
  obtain rfl : limit = l := Option.some.inj (h.wordLimit.symm.trans hl)
  exact h.least j hj

theorem fits_or_firstExcess (g : Grammar) (s : σ) (depth : Nat) :
    (∀ k ≤ depth, g.Fits (g.unlimited s k).1) ∨ ∃ k limit, g.FirstExcess s depth k limit := by
  by_cases h : ∀ k ≤ depth, g.Fits (g.unlimited s k).1
  · exact .inl h
  · right
    simp only [Classical.not_forall] at h
    obtain ⟨m, hm, hexceeds⟩ := h
    obtain ⟨limit, hlimit, hlt⟩ := exists_of_not_fits hexceeds
    have hex : ∃ k, limit < (g.unlimited s k).1.length := ⟨m, hlt⟩
    refine ⟨Nat.find hex, limit, Nat.le_trans (Nat.find_le hlt) hm, hlimit, Nat.find_spec hex, ?_⟩
    intro j hj
    exact Nat.not_lt.mp (Nat.find_min hex hj)

theorem run_derive_of_fits (hd : depth < maxWords)
    (h : ∀ k ≤ depth, g.Fits (g.unlimited s k).1) :
    (g.derive depth).run.run s =
      (.ok ((List.range (depth + 1)).map fun k => (g.unlimited s k).1),
        (g.unlimited s depth).2) := by
  have hstart : g.checkLength 0 g.start = .ok () := checkLength_of_fits (h 0 (Nat.zero_le _))
  have hdepth : checkDepth depth = .ok () := if_pos hd
  have hrest := run_deriveFrom_of_fits (n := 0) fun k hk => h (k + 1) hk
  rw [derive, run_liftM_bind_of_ok hstart, run_liftM_bind_of_ok hdepth, run_bind_of_ok hrest,
    List.range_succ_eq_map, List.map_cons, List.map_map]
  rfl

/-- The table of words is made after the axiom has been checked. -/
theorem run_derive_of_firstExcess (hd : k = 0 ∨ depth < maxWords)
    (h : g.FirstExcess s depth k limit) :
    (g.derive depth).run.run s =
      (.error (.wordLimitExceeded k (g.unlimited s k).1.length limit), (g.unlimited s k).2) := by
  cases k with
  | zero =>
    have hstart := checkLength_of_lt (n := 0) h.wordLimit h.exceeds
    exact run_liftM_bind_of_error hstart
  | succ k =>
    have hstart : g.checkLength 0 g.start = .ok () := checkLength_of_fits (h.fits (Nat.succ_pos k))
    have hdepth : checkDepth depth = .ok () := if_pos (hd.resolve_left (Nat.succ_ne_zero k))
    have hrest := run_deriveFrom_of_lt (n := 0) (s := s) h.le_depth h.wordLimit
      (fun j hj => h.fits (Nat.succ_lt_succ hj)) h.exceeds
    rw [derive, run_liftM_bind_of_ok hstart, run_liftM_bind_of_ok hdepth, run_bind_of_error hrest,
      Nat.zero_add]
    rfl

theorem run_derive_of_overflow (hd : maxWords ≤ depth) (h : g.Fits g.start) :
    (g.derive depth).run.run s = (.error (.overflow .depth), s) := by
  have hstart : g.checkLength 0 g.start = .ok () := checkLength_of_fits h
  have hdepth : checkDepth depth = .error (.overflow .depth) := if_neg (Nat.not_lt.mpr hd)
  rw [derive, run_liftM_bind_of_ok hstart, run_liftM_bind_of_error hdepth]

inductive Ends (g : Grammar) (s : σ) (depth : Nat) : Except SketchError (List Word) × σ → Prop
  | complete : depth < maxWords → (∀ k ≤ depth, g.Fits (g.unlimited s k).1) →
      Ends g s depth
        (.ok ((List.range (depth + 1)).map fun k => (g.unlimited s k).1), (g.unlimited s depth).2)
  | tooLong {k limit : Nat} : k = 0 ∨ depth < maxWords → g.FirstExcess s depth k limit →
      Ends g s depth
        (.error (.wordLimitExceeded k (g.unlimited s k).1.length limit), (g.unlimited s k).2)
  | tooDeep : maxWords ≤ depth → g.Fits g.start → Ends g s depth (.error (.overflow .depth), s)

theorem ends_derive (g : Grammar) (s : σ) (depth : Nat) :
    g.Ends s depth ((g.derive depth).run.run s) := by
  rcases Nat.lt_or_ge depth maxWords with hd | hd
  · rcases fits_or_firstExcess g s depth with hf | ⟨k, limit, hk⟩
    · rw [run_derive_of_fits hd hf]
      exact .complete hd hf
    · rw [run_derive_of_firstExcess (.inr hd) hk]
      exact .tooLong (.inr hd) hk
  · by_cases hstart : g.Fits g.start
    · rw [run_derive_of_overflow hd hstart]
      exact .tooDeep hd hstart
    · obtain ⟨limit, hlimit, hlt⟩ := exists_of_not_fits hstart
      have hk : g.FirstExcess s depth 0 limit := ⟨Nat.zero_le _, hlimit, hlt, nofun⟩
      rw [run_derive_of_firstExcess (.inl rfl) hk]
      exact .tooLong (.inl rfl) hk

theorem run_finalWord {r : σ} {o : Except SketchError (List Word)}
    (h : (g.derive depth).run.run s = (o, r)) :
    (g.finalWord depth).run.run s = (o.map fun ws => ws.getLast?.getD [], r) := by
  cases o with
  | ok ws => rw [finalWord, run_bind_of_ok h]; rfl
  | error e => rw [finalWord, run_bind_of_error h]; rfl

theorem run_finalWord_of_fits (hd : depth < maxWords)
    (h : ∀ k ≤ depth, g.Fits (g.unlimited s k).1) :
    (g.finalWord depth).run.run s = (.ok (g.unlimited s depth).1, (g.unlimited s depth).2) := by
  rw [run_finalWord (run_derive_of_fits hd h), Except.map, List.range_succ, List.map_append,
    List.map_singleton, List.getLast?_concat, Option.getD_some]

theorem run_finalWord_eq_error_iff {e : SketchError} {r : σ} :
    (g.finalWord depth).run.run s = (.error e, r) ↔ (g.derive depth).run.run s = (.error e, r) := by
  constructor
  · intro h
    obtain ⟨o, r', ho⟩ : ∃ o r', (g.derive depth).run.run s = (o, r') := ⟨_, _, rfl⟩
    rw [run_finalWord ho] at h
    rw [ho]
    cases o with
    | ok ws => cases h
    | error e' => cases h; rfl
  · intro h
    exact run_finalWord h

/-- A derivation gives the words of the run without a limit when all of them fit, names the first
that does not, and has no other error than a depth that no table of words allows. -/
theorem run_derive_iff (g : Grammar) (s : σ) (depth : Nat) :
    (∀ ws r, (g.derive depth).run.run s = (.ok ws, r) ↔
      depth < maxWords ∧ (∀ k ≤ depth, g.Fits (g.unlimited s k).1) ∧
        ws = (List.range (depth + 1)).map (fun k => (g.unlimited s k).1) ∧
        r = (g.unlimited s depth).2) ∧
    (∀ k n limit r, (g.derive depth).run.run s = (.error (.wordLimitExceeded k n limit), r) ↔
      (k = 0 ∨ depth < maxWords) ∧ g.FirstExcess s depth k limit ∧
        n = (g.unlimited s k).1.length ∧ r = (g.unlimited s k).2) ∧
    (∀ e r, (∀ k n limit, e ≠ .wordLimitExceeded k n limit) →
      ((g.derive depth).run.run s = (.error e, r) ↔
        maxWords ≤ depth ∧ g.Fits g.start ∧ e = .overflow .depth ∧ r = s)) ∧
    (∀ w r, (g.finalWord depth).run.run s = (.ok w, r) ↔
      depth < maxWords ∧ (∀ k ≤ depth, g.Fits (g.unlimited s k).1) ∧
        w = (g.unlimited s depth).1 ∧ r = (g.unlimited s depth).2) ∧
    (∀ e r, (g.finalWord depth).run.run s = (.error e, r) ↔
      (g.derive depth).run.run s = (.error e, r)) := by
  have hends := ends_derive g s depth
  refine ⟨?_, ?_, ?_, ?_, fun e r => run_finalWord_eq_error_iff⟩
  · intro ws r
    constructor
    · intro h
      rw [h] at hends
      cases hends with
      | complete hd hf => exact ⟨hd, hf, rfl, rfl⟩
    · rintro ⟨hd, hf, rfl, rfl⟩
      exact run_derive_of_fits hd hf
  · intro k n limit r
    constructor
    · intro h
      rw [h] at hends
      cases hends with
      | tooLong hd hk => exact ⟨hd, hk, rfl, rfl⟩
    · rintro ⟨hd, hk, rfl, rfl⟩
      exact run_derive_of_firstExcess hd hk
  · intro e r he
    constructor
    · intro h
      rw [h] at hends
      cases hends with
      | tooLong _ _ => exact absurd rfl (he _ _ _)
      | tooDeep hd hstart => exact ⟨hd, hstart, rfl, rfl⟩
    · rintro ⟨hd, hstart, rfl, rfl⟩
      exact run_derive_of_overflow hd hstart
  · intro w r
    constructor
    · intro h
      generalize hrun : (g.derive depth).run.run s = ending at hends
      cases hends with
      | complete hd hf =>
        rw [run_finalWord_of_fits hd hf] at h
        cases h
        exact ⟨hd, hf, rfl, rfl⟩
      | tooLong _ _ => rw [run_finalWord hrun] at h; cases h
      | tooDeep _ _ => rw [run_finalWord hrun] at h; cases h
    · rintro ⟨hd, hf, rfl, rfl⟩
      exact run_finalWord_of_fits hd hf

section Doubling

def doubling (limit : Option Nat) : Grammar :=
  let f := Letter.plain "F"
  { inferred .empty [f] ⟨#[.deterministic f [f, f]], (∅ : Std.HashMap String Nat).insert "F" 0⟩ with
    wordLimit := limit }

theorem run_grow_doubling (limit : Option Nat) (n : Nat) (s : σ) :
    ((doubling limit).rules.grow (.replicate n (.plain "F"))).run s =
      (.replicate (2 * n) (.plain "F"), s) := by
  have hF : (doubling limit).rules.expand (σ := σ) (.plain "F") =
      pure [.plain "F", .plain "F"] := by
    simp [RuleSet.expand, RuleSet.get?, doubling, inferred, Letter.symbol, Rule.successorWord,
      Rule.deterministic]
  induction n with
  | zero => rfl
  | succ n ih =>
    rw [List.replicate_succ, RuleSet.grow_cons, hF, pure_bind, StateT.run_bind, ih]
    rfl

theorem unlimited_doubling (limit : Option Nat) (s : σ) (n : Nat) :
    (doubling limit).unlimited s n = (.replicate (2 ^ n) (.plain "F"), s) := by
  induction n with
  | zero => rfl
  | succ n ih =>
    rw [unlimited] at ih ⊢
    rw [RuleSet.generation_succ, ih, run_grow_doubling, Nat.pow_succ']

theorem run_derive_doubling :
    ((doubling (some 3)).derive 3).run.run (KeyStream.ofSeed 0) =
      (.error (.wordLimitExceeded 2 4 3), KeyStream.ofSeed 0) := by
  have hk : (doubling (some 3)).FirstExcess (KeyStream.ofSeed 0) 3 2 3 := by
    refine ⟨by decide, rfl, by simp [unlimited_doubling], fun j hj => ?_⟩
    have hle : 2 ^ j ≤ 2 ^ 1 := Nat.pow_le_pow_right (by decide) (Nat.le_of_lt_succ hj)
    simp only [unlimited_doubling, List.length_replicate]
    omega
  refine ((run_derive_iff _ _ _).2.1 _ _ _ _).mpr ⟨.inr (by decide), hk, ?_⟩
  simp [unlimited_doubling]

theorem run_derive_doubling_overflow :
    let s := KeyStream.ofSeed 0
    let depth := 2 ^ 63 - 1
    (doubling (some 1)).FirstExcess s depth 1 1 ∧
      ((doubling (some 1)).derive depth).run.run s = (.error (.overflow .depth), s) ∧
      ((doubling (some 1)).derive depth).run.run s ≠
        (.error (.wordLimitExceeded 1 ((doubling (some 1)).unlimited s 1).1.length 1),
          ((doubling (some 1)).unlimited s 1).2) := by
  intro s depth
  have hk : (doubling (some 1)).FirstExcess s depth 1 1 := by
    refine ⟨by decide, rfl, by simp [unlimited_doubling], fun j hj => ?_⟩
    obtain rfl := Nat.lt_one_iff.mp hj
    simp [unlimited_doubling]
  have hrun : ((doubling (some 1)).derive depth).run.run s = (.error (.overflow .depth), s) := rfl
  refine ⟨hk, hrun, ?_⟩
  intro h
  rw [hrun] at h
  have herror := Except.error.inj (congrArg Prod.fst h)
  cases herror

end Doubling

end LSystem.Grammar
