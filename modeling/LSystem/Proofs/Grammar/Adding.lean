import LSystem.Proofs.Derivation.Generations
import LSystem.Proofs.Grammar.RuleSets

/-! # Adding rules one by one

A set that is held is changed in place. After any number of rules, refused ones among them, it has
the accepted ones in their order and its index finds them. A rule is refused exactly when one with
its symbol was accepted before, and then nothing has been written.
-/

namespace LSystem.RuleSet

variable {rs : RuleSet} {rules : List Rule} {r : Rule} {s : String} {e : SketchError}

section Put

/-- Adds a rule to the set that is held. Its symbol is looked up before anything is written. -/
def put (r : Rule) : ExceptT SketchError (StateM RuleSet) Unit := do
  if (← get).index.contains r.symbol then throw (.invalidRule r.symbol .repeatedPredecessor)
  modify fun rs => { rs with index := rs.index.insert r.symbol rs.rules.size }
  modify fun rs => { rs with rules := rs.rules.push r }

theorem run_put (r : Rule) (rs : RuleSet) :
    (put r).run.run rs =
      match rs.add r with
      | .ok rs' => (.ok (), rs')
      | .error e => (.error e, rs) := by
  have hget : (get : ExceptT SketchError (StateM RuleSet) RuleSet).run.run rs = (.ok rs, rs) := rfl
  rw [put, run_bind_of_ok hget, add]
  split_ifs with h
  · rfl
  · rfl

theorem run_put_of_mem (h : rs.WellIndexed) (hr : r.symbol ∈ rs.symbols) :
    (put r).run.run rs = (.error (.invalidRule r.symbol .repeatedPredecessor), rs) := by
  rw [run_put, add_of_mem h hr]

theorem run_put_of_not_mem (h : rs.WellIndexed) (hr : r.symbol ∉ rs.symbols) :
    ∃ rs', rs.add r = .ok rs' ∧ (put r).run.run rs = (.ok (), rs') ∧ rs'.WellIndexed ∧
      rs'.toList = rs.toList ++ [r] := by
  obtain ⟨rs', hadd, h', hlist⟩ := add_of_not_mem h hr
  exact ⟨rs', hadd, by rw [run_put, hadd], h', hlist⟩

/-- The answers to rules that are put in a new set one after the other, and the set they leave. -/
def putAll (rules : List Rule) : List (Except SketchError Unit) × RuleSet :=
  (rules.mapM fun r => (put r).run).run empty

def accepted (rules : List Rule) : List Rule :=
  ((rules.zip (putAll rules).1).filter fun call => call.2.isOk).map Prod.fst

theorem putAll_concat (rules : List Rule) (r : Rule) :
    putAll (rules ++ [r]) =
      ((putAll rules).1 ++ [((put r).run.run (putAll rules).2).1],
        ((put r).run.run (putAll rules).2).2) := by
  rw [putAll, List.mapM_append]
  rfl

theorem length_putAll (rules : List Rule) : (putAll rules).1.length = rules.length := by
  induction rules using List.reverseRecOn with
  | nil => rfl
  | append_singleton rules r ih => simp [putAll_concat, ih]

theorem accepted_concat (rules : List Rule) (r : Rule) :
    accepted (rules ++ [r]) =
      accepted rules ++ if ((put r).run.run (putAll rules).2).1.isOk then [r] else [] := by
  rw [accepted, putAll_concat, List.zip_append (length_putAll rules).symm, List.filter_append,
    List.map_append]
  congr 1
  cases hok : ((put r).run.run (putAll rules).2).1.isOk <;> simp [hok]

theorem putAll_spec (rules : List Rule) :
    (putAll rules).2.WellIndexed ∧ (putAll rules).2.toList = accepted rules := by
  induction rules using List.reverseRecOn with
  | nil => exact ⟨wellIndexed_empty, rfl⟩
  | append_singleton rules r ih =>
    obtain ⟨hindex, hlist⟩ := ih
    rw [accepted_concat, putAll_concat]
    by_cases hr : r.symbol ∈ (putAll rules).2.symbols
    · rw [run_put_of_mem hindex hr]
      exact ⟨hindex, hlist.trans (List.append_nil _).symm⟩
    · obtain ⟨rs', -, hput, hindex', hlist'⟩ := run_put_of_not_mem hindex hr
      rw [hput, ← hlist]
      exact ⟨hindex', hlist'⟩

theorem symbols_putAll (rules : List Rule) :
    (putAll rules).2.symbols = (accepted rules).map Rule.symbol := by
  rw [symbols, (putAll_spec rules).2]

end Put

section Lookup

theorem WellIndexed.lt_size (h : rs.WellIndexed) {i : Nat} (hi : rs.index[s]? = some i) :
    i < rs.size := by
  obtain ⟨r, hr, -⟩ := (h s i).mp hi
  exact (Array.getElem?_eq_some_iff.mp hr).1

theorem WellIndexed.get?_eq_some_iff (h : rs.WellIndexed) :
    rs.get? s = some r ↔ r ∈ rs.toList ∧ r.symbol = s := by
  rw [get?, Option.bind_eq_some_iff, toList, Array.mem_toList_iff, Array.mem_iff_getElem?]
  constructor
  · rintro ⟨i, hi, hr⟩
    obtain ⟨r', hr', hs⟩ := (h s i).mp hi
    obtain rfl := Option.some.inj (hr'.symm.trans hr)
    exact ⟨⟨i, hr⟩, hs⟩
  · rintro ⟨⟨i, hr⟩, hs⟩
    exact ⟨i, (h s i).mpr ⟨r, hr, hs⟩, hr⟩

end Lookup

section Rules

/-- Rules with different symbols make the set that putting them one by one leaves. -/
theorem ofRules_eq_putAll (h : (rules.map Rule.symbol).Nodup) :
    ofRules rules = .ok (putAll rules).2 := by
  induction rules using List.reverseRecOn with
  | nil => rfl
  | append_singleton rules r ih =>
    rw [List.map_append, List.map_singleton, List.nodup_append_comm] at h
    obtain ⟨hr, hrules⟩ := List.nodup_cons.mp h
    obtain ⟨rs, hrs, hindex, hlist⟩ := ofRules_of_nodup hrules
    obtain rfl := Except.ok.inj ((ih hrules).symm.trans hrs)
    obtain ⟨rs', hadd, hput, -, -⟩ := run_put_of_not_mem hindex (by rwa [symbols, hlist])
    rw [ofRules] at hrs
    rw [putAll_concat, hput, ofRules, List.foldlM_append, hrs]
    change (putAll rules).2.add r >>= pure = .ok rs'
    rw [hadd]
    rfl

theorem exists_repeat_of_not_nodup (h : ¬ (rules.map Rule.symbol).Nodup) :
    ∃ pre r post, rules = pre ++ r :: post ∧ (pre.map Rule.symbol).Nodup ∧
      r.symbol ∈ pre.map Rule.symbol := by
  have hmap : ∀ rules : List Rule, rules.map Rule.symbol = rules.flatMap fun r => [r.symbol] :=
    fun rules => List.map_eq_flatMap
  rw [hmap] at h
  obtain ⟨pre, r, post, b, hrules, hpre, hb, hmem⟩ :=
    exists_first_repeat (fun r _ => ⟨r.symbol, rfl⟩) h
  obtain rfl := List.singleton_inj.mp hb
  exact ⟨pre, r, post, hrules, hmap pre ▸ hpre, hmap pre ▸ hmem⟩

theorem ofRules_eq_ok_iff : (∃ rs, ofRules rules = .ok rs) ↔ (rules.map Rule.symbol).Nodup := by
  constructor
  · rintro ⟨rs, hrs⟩
    by_contra h
    obtain ⟨pre, r, post, hrules, hpre, hr⟩ := exists_repeat_of_not_nodup h
    cases hrs.symm.trans (ofRules_of_repeat hrules hpre hr)
  · intro h
    exact ⟨_, ofRules_eq_putAll h⟩

theorem ofRules_eq_error_iff : ofRules rules = .error e ↔
    ∃ pre r post, rules = pre ++ r :: post ∧ (pre.map Rule.symbol).Nodup ∧
      r.symbol ∈ pre.map Rule.symbol ∧ e = .invalidRule r.symbol .repeatedPredecessor := by
  constructor
  · intro he
    have hrepeat : ¬ (rules.map Rule.symbol).Nodup := fun h => by
      cases he.symm.trans (ofRules_eq_putAll h)
    obtain ⟨pre, r, post, hrules, hpre, hr⟩ := exists_repeat_of_not_nodup hrepeat
    have he' := he.symm.trans (ofRules_of_repeat hrules hpre hr)
    exact ⟨pre, r, post, hrules, hpre, hr, Except.error.inj he'⟩
  · rintro ⟨pre, r, post, hrules, hpre, hr, rfl⟩
    exact ofRules_of_repeat hrules hpre hr

end Rules

/-- What a set represents that rules were put in, refused ones among them, and how it answers the
next one; and when rules make a set together. -/
theorem putAll_represents (rules : List Rule) :
    let rs := (putAll rules).2
    (∀ (s : String) (i : Nat),
      rs.index[s]? = some i ↔ ∃ r, rs.rules[i]? = some r ∧ r.symbol = s) ∧
    (∀ (s : String) (i : Nat), rs.index[s]? = some i → i < rs.size) ∧
    rs.symbols.Nodup ∧
    (∀ s r, rs.get? s = some r ↔ r ∈ rs.toList ∧ r.symbol = s) ∧
    rs.toList = accepted rules ∧
    (∀ r : Rule, (put r).run.run rs =
      if r.symbol ∈ (accepted rules).map Rule.symbol then
        (.error (.invalidRule r.symbol .repeatedPredecessor), rs)
      else (.ok (), (putAll (rules ++ [r])).2)) ∧
    ((∃ rs', ofRules rules = .ok rs') ↔ (rules.map Rule.symbol).Nodup) ∧
    ((rules.map Rule.symbol).Nodup → ofRules rules = .ok rs) ∧
    ∀ e, ofRules rules = .error e ↔
      ∃ pre r post, rules = pre ++ r :: post ∧ (pre.map Rule.symbol).Nodup ∧
        r.symbol ∈ pre.map Rule.symbol ∧ e = .invalidRule r.symbol .repeatedPredecessor := by
  intro rs
  obtain ⟨hindex, hlist⟩ := putAll_spec rules
  refine ⟨hindex, fun s i => hindex.lt_size, hindex.nodup_symbols,
    fun s r => hindex.get?_eq_some_iff, hlist, fun r => ?_, ofRules_eq_ok_iff,
    ofRules_eq_putAll, fun e => ofRules_eq_error_iff⟩
  rw [← symbols_putAll, putAll_concat]
  split_ifs with hr
  · exact run_put_of_mem hindex hr
  · obtain ⟨rs', -, hput, -, -⟩ := run_put_of_not_mem hindex hr
    rw [hput]

end LSystem.RuleSet
