import Mathlib.Data.List.Induction
import Mathlib.Data.List.Nodup
import LSystem.Proofs.Derivation.Generations

/-! # Collecting rules

The index of a rule set finds each rule at its place and nothing else, so no two rules have the same
symbol. Rules are collected in order until the first whose symbol has a rule.
-/

namespace LSystem

theorem exists_first_repeat {α β : Type} {f : α → List β} {xs : List α}
    (hf : ∀ x ∈ xs, ∃ b, f x = [b]) (h : ¬ (xs.flatMap f).Nodup) :
    ∃ pre x post b, xs = pre ++ x :: post ∧ (pre.flatMap f).Nodup ∧ f x = [b] ∧
      b ∈ pre.flatMap f := by
  induction xs using List.reverseRecOn with
  | nil => exact absurd .nil h
  | append_singleton xs x ih =>
    by_cases hxs : (xs.flatMap f).Nodup
    · obtain ⟨b, hb⟩ := hf x (List.mem_append_right _ List.mem_cons_self)
      refine ⟨xs, x, [], b, rfl, hxs, hb, ?_⟩
      by_contra hmem
      refine h ?_
      rw [List.flatMap_append, List.flatMap_singleton, hb, List.nodup_append_comm]
      exact List.nodup_cons.mpr ⟨hmem, hxs⟩
    · obtain ⟨pre, y, post, b, rfl, hpre, hb, hmem⟩ :=
        ih (fun y hy => hf y (List.mem_append_left _ hy)) hxs
      exact ⟨pre, y, post ++ [x], b, by simp, hpre, hb, hmem⟩

namespace RuleSet

def symbols (rs : RuleSet) : List String := rs.toList.map Rule.symbol

/-- The index leads to a place exactly when the rule there has the symbol. -/
def WellIndexed (rs : RuleSet) : Prop :=
  ∀ (s : String) (i : Nat), rs.index[s]? = some i ↔ ∃ r, rs.rules[i]? = some r ∧ r.symbol = s

variable {rs : RuleSet} {r : Rule} {rules : List Rule}

theorem wellIndexed_empty : empty.WellIndexed := by
  intro s i
  simp [empty]

namespace WellIndexed

theorem contains_iff (h : rs.WellIndexed) (s : String) :
    rs.index.contains s ↔ s ∈ rs.symbols := by
  rw [Std.HashMap.contains_eq_isSome_getElem?, Option.isSome_iff_exists, symbols, toList]
  simp only [h s, List.mem_map, Array.mem_toList_iff, Array.mem_iff_getElem?]
  constructor
  · rintro ⟨i, r, hr, rfl⟩
    exact ⟨r, ⟨i, hr⟩, rfl⟩
  · rintro ⟨r, ⟨i, hr⟩, rfl⟩
    exact ⟨i, r, hr, rfl⟩

theorem nodup_symbols (h : rs.WellIndexed) : rs.symbols.Nodup := by
  rw [List.nodup_iff_getElem?_ne_getElem?]
  intro i j hij hj heq
  obtain ⟨r, hr⟩ : ∃ r, rs.rules[j]? = some r :=
    ⟨_, Array.getElem?_eq_getElem (by simpa [symbols, toList] using hj)⟩
  simp only [symbols, toList, List.getElem?_map, Array.getElem?_toList, hr, Option.map_some,
    Option.map_eq_some_iff] at heq
  have hi := (h r.symbol i).mpr heq
  have hj := (h r.symbol j).mpr ⟨r, hr, rfl⟩
  exact Nat.ne_of_lt hij (Option.some.inj (hi.symm.trans hj))

theorem push (h : rs.WellIndexed) (hr : r.symbol ∉ rs.symbols) :
    WellIndexed ⟨rs.rules.push r, rs.index.insert r.symbol rs.rules.size⟩ := by
  intro s i
  rw [Std.HashMap.getElem?_insert, Array.getElem?_push]
  by_cases hs : r.symbol = s
  · subst hs
    have hold : ∀ r', rs.rules[i]? = some r' → r'.symbol ≠ r.symbol := by
      intro r' hr' heq
      refine hr (heq ▸ List.mem_map_of_mem ?_)
      exact Array.mem_toList_iff.mpr (Array.mem_of_getElem? hr')
    by_cases hi : i = rs.rules.size
    · simp [hi]
    · simpa [hi, eq_comm] using hold
  · by_cases hi : i = rs.rules.size
    · simp [hs, hi, h s]
    · simp [hs, hi, h s]

end WellIndexed

theorem add_of_not_mem (h : rs.WellIndexed) (hr : r.symbol ∉ rs.symbols) :
    ∃ rs', rs.add r = .ok rs' ∧ rs'.WellIndexed ∧ rs'.toList = rs.toList ++ [r] := by
  have hcontains : ¬ rs.index.contains r.symbol := (h.contains_iff _).not.mpr hr
  refine ⟨_, if_neg hcontains, h.push hr, ?_⟩
  simp [toList]

theorem add_of_mem (h : rs.WellIndexed) (hr : r.symbol ∈ rs.symbols) :
    rs.add r = .error (.invalidRule r.symbol .repeatedPredecessor) :=
  if_pos ((h.contains_iff _).mpr hr)

theorem foldlM_add_of_nodup (h : rs.WellIndexed)
    (hrules : ((rs.toList ++ rules).map Rule.symbol).Nodup) :
    ∃ rs', rules.foldlM add rs = .ok rs' ∧ rs'.WellIndexed ∧ rs'.toList = rs.toList ++ rules := by
  induction rules generalizing rs with
  | nil => exact ⟨rs, rfl, h, by simp⟩
  | cons r rules ih =>
    have hr : r.symbol ∉ rs.symbols := by
      rw [List.map_append, List.map_cons, List.nodup_middle, List.nodup_cons] at hrules
      exact fun hmem => hrules.1 (List.mem_append_left _ hmem)
    obtain ⟨rs', hadd, h', hlist⟩ := add_of_not_mem h hr
    rw [List.append_cons, ← hlist] at hrules
    obtain ⟨rs'', hrest, h'', hlist'⟩ := ih h' hrules
    refine ⟨rs'', ?_, h'', by rw [hlist', hlist, ← List.append_cons]⟩
    rw [List.foldlM_cons, hadd]
    exact hrest

theorem ofRules_of_nodup (h : (rules.map Rule.symbol).Nodup) :
    ∃ rs, ofRules rules = .ok rs ∧ rs.WellIndexed ∧ rs.toList = rules :=
  foldlM_add_of_nodup wellIndexed_empty h

/-- The first rule whose symbol has a rule decides the error. -/
theorem ofRules_of_repeat {pre post : List Rule} (hrules : rules = pre ++ r :: post)
    (hpre : (pre.map Rule.symbol).Nodup) (hr : r.symbol ∈ pre.map Rule.symbol) :
    ofRules rules = .error (.invalidRule r.symbol .repeatedPredecessor) := by
  obtain ⟨rs, hrs, hindex, hlist⟩ := ofRules_of_nodup hpre
  have hmem : r.symbol ∈ rs.symbols := by
    rw [symbols, hlist]
    exact hr
  rw [ofRules] at hrs
  rw [hrules, ofRules, List.foldlM_append, hrs]
  change rs.add r >>= _ = _
  rw [add_of_mem hindex hmem]
  rfl

end RuleSet

end LSystem
