import LSystem.Proofs.Turtle.Brackets

/-! # Matching brackets

Two commands match when the first saves, the second returns, and what stands between them is nested.
Deleting the matching pairs with all that they enclose, the brackets that match nothing and the
ignored commands leaves moves and turns. What is deleted depends on what follows only through a
return that closes a group.
-/

namespace LSystem

namespace Command

def strides : Command → Bool
  | .draw | .move => true
  | _ => false

/-- The command moves or turns the turtle by itself. -/
def isMotion : Command → Bool
  | .draw | .move | .turnLeft | .turnRight | .turnAround => true
  | .push | .pop | .ignore => false

end Command

namespace Brackets

variable {cs ds as us : List Command} {c : Command} {d i j k : Nat}

section Nested

theorem Covered.of_prefix (h : Covered d cs) (hp : ds <+: cs) : Covered d ds :=
  fun v hv => h v (hv.trans hp)

theorem covered_append (h : Nested cs) : Covered 0 (cs ++ ds) ↔ Covered 0 ds := by
  constructor
  · intro hd v hv
    have hcv := hd (cs ++ v) ((List.prefix_append_right_inj cs).mpr hv)
    rw [List.count_append, List.count_append, h.closed] at hcv
    omega
  · rintro hd v ⟨r, hr⟩
    rcases List.append_eq_append_iff.mp hr with ⟨x, rfl, -⟩ | ⟨y, rfl, rfl⟩
    · exact h.covered v (List.prefix_append v x)
    · have hy := hd y (List.prefix_append y r)
      rw [List.count_append, List.count_append, h.closed]
      omega

theorem nested_nil : Nested [] := ⟨covered_nil, rfl⟩

theorem Nested.append (h : Nested cs) (hd : Nested ds) : Nested (cs ++ ds) where
  covered := (covered_append h).mpr hd.covered
  closed := by rw [List.count_append, List.count_append, h.closed, hd.closed]

theorem nested_singleton (hpush : c ≠ .push) (hpop : c ≠ .pop) : Nested [c] where
  covered := covered_cons.mpr ⟨fun h => absurd h hpop, covered_nil⟩
  closed := by simp [hpush, hpop]

theorem Nested.enclose (h : Nested cs) : Nested (.push :: (cs ++ [.pop])) where
  covered := by
    rintro v hv
    cases v with
    | nil => simp
    | cons c v =>
      obtain ⟨rfl, hv'⟩ := List.cons_prefix_cons.mp hv
      rcases List.prefix_concat_iff.mp hv' with rfl | hv'
      · simp [h.closed]
      · have hcv := h.covered v hv'
        rw [List.count_cons_self, List.count_cons_of_ne (by decide)]
        omega
  closed := by simp [h.closed]

theorem not_nested_of_open (h : Covered 0 us) : ¬ Nested (as ++ .push :: us) := by
  intro hn
  have has := hn.covered as (List.prefix_append as _)
  have hus := h us (List.prefix_refl us)
  have hclosed := hn.closed
  rw [List.count_append, List.count_append, List.count_cons_self,
    List.count_cons_of_ne (by decide)] at hclosed
  omega

end Nested

/-- The command at `i` saves the turtle to which the command at `j` returns. -/
structure Matches (cs : List Command) (i j : Nat) : Prop where
  lt : i < j
  push : cs[i]? = some .push
  pop : cs[j]? = some .pop
  nested : Nested ((cs.take j).drop (i + 1))

instance (cs : List Command) (i j : Nat) : Decidable (Matches cs i j) :=
  decidable_of_iff
    (i < j ∧ cs[i]? = some .push ∧ cs[j]? = some .pop ∧ Nested ((cs.take j).drop (i + 1)))
    ⟨fun ⟨h, h₁, h₂, h₃⟩ => ⟨h, h₁, h₂, h₃⟩, fun ⟨h, h₁, h₂, h₃⟩ => ⟨h, h₁, h₂, h₃⟩⟩

/-- The places that are deleted. -/
inductive Deleted (cs : List Command) (k : Nat) : Prop
  | ignored : cs[k]? = some .ignore → Deleted cs k
  | group {i j : Nat} : Matches cs i j → i ≤ k → k ≤ j → Deleted cs k
  | unmatchedPop : cs[k]? = some .pop → (∀ i, ¬ Matches cs i k) → Deleted cs k
  | openPush : cs[k]? = some .push → (∀ j, ¬ Matches cs k j) → Deleted cs k

/-- Moves and turns are deleted inside of matching brackets only, and all else is deleted. -/
theorem deleted_iff (hk : cs[k]? = some c) :
    Deleted cs k ↔ c.isMotion = false ∨ ∃ i < k, ∃ j < cs.length, k < j ∧ Matches cs i j := by
  constructor
  · intro h
    cases h with
    | ignored hc =>
      left
      rw [Option.some.inj (hk.symm.trans hc)]
      rfl
    | @group i j hm hi hj =>
      rcases Nat.lt_or_eq_of_le hi with hi | rfl
      · rcases Nat.lt_or_eq_of_le hj with hj | rfl
        · exact .inr ⟨i, hi, j, (List.getElem?_eq_some_iff.mp hm.pop).1, hj, hm⟩
        · left
          rw [Option.some.inj (hk.symm.trans hm.pop)]
          rfl
      · left
        rw [Option.some.inj (hk.symm.trans hm.push)]
        rfl
    | unmatchedPop hc _ | openPush hc _ =>
      left
      rw [Option.some.inj (hk.symm.trans hc)]
      rfl
  · rintro (hc | ⟨i, hi, j, -, hj, hm⟩)
    · cases c with
      | draw | move | turnLeft | turnRight | turnAround => cases hc
      | ignore => exact .ignored hk
      | push =>
        by_cases hm : ∃ j, Matches cs k j
        · obtain ⟨j, hm⟩ := hm
          exact .group hm (Nat.le_refl k) (Nat.le_of_lt hm.lt)
        · exact .openPush hk fun j hj => hm ⟨j, hj⟩
      | pop =>
        by_cases hm : ∃ i, Matches cs i k
        · obtain ⟨i, hm⟩ := hm
          exact .group hm (Nat.le_of_lt hm.lt) (Nat.le_refl k)
        · exact .unmatchedPop hk fun i hi => hm ⟨i, hi⟩
    · exact .group hm (Nat.le_of_lt hi) (Nat.le_of_lt hj)

theorem not_deleted_of_length_le (h : cs.length ≤ k) : ¬ Deleted cs k := by
  have hnone : cs[k]? = none := List.getElem?_eq_none h
  rintro (hc | ⟨hm, -, hj⟩ | ⟨hc, -⟩ | ⟨hc, -⟩)
  · rw [hnone] at hc; cases hc
  · have := (List.getElem?_eq_some_iff.mp hm.pop).1
    omega
  · rw [hnone] at hc; cases hc
  · rw [hnone] at hc; cases hc

instance (cs : List Command) (k : Nat) : Decidable (Deleted cs k) :=
  match hk : cs[k]? with
  | some _ => decidable_of_iff _ (deleted_iff hk).symm
  | none => isFalse (not_deleted_of_length_le (List.getElem?_eq_none_iff.mp hk))

section Append

theorem matches_append (hj : j < cs.length) : Matches (cs ++ ds) i j ↔ Matches cs i j := by
  have hpop : (cs ++ ds)[j]? = cs[j]? := List.getElem?_append_left hj
  have htake : (cs ++ ds).take j = cs.take j := List.take_append_of_le_length (Nat.le_of_lt hj)
  constructor
  · rintro ⟨hlt, hpush, hp, hn⟩
    rw [List.getElem?_append_left (Nat.lt_trans hlt hj)] at hpush
    exact ⟨hlt, hpush, hpop ▸ hp, htake ▸ hn⟩
  · rintro ⟨hlt, hpush, hp, hn⟩
    rw [← List.getElem?_append_left (Nat.lt_trans hlt hj)] at hpush
    exact ⟨hlt, hpush, hpop.symm ▸ hp, htake.symm ▸ hn⟩

/-- What is deleted at a place is settled by the beginning of the list up to where no group that
encloses the place ends later. -/
theorem deleted_append (hk : k < cs.length)
    (hends : ∀ i j, Matches (cs ++ ds) i j → i < k → j < cs.length) :
    Deleted (cs ++ ds) k ↔ Deleted cs k := by
  have hc : cs[k]? = some cs[k] := List.getElem?_eq_getElem hk
  have hc' : (cs ++ ds)[k]? = some cs[k] := (List.getElem?_append_left hk).trans hc
  rw [deleted_iff hc, deleted_iff hc']
  refine or_congr_right ?_
  constructor
  · rintro ⟨i, hi, j, -, hj, hm⟩
    have hlt := hends i j hm hi
    exact ⟨i, hi, j, hlt, hj, (matches_append hlt).mp hm⟩
  · rintro ⟨i, hi, j, hlt, hj, hm⟩
    exact ⟨i, hi, j, List.length_append ▸ Nat.lt_add_right _ hlt, hj, (matches_append hlt).mpr hm⟩

theorem deleted_concat (hk : k < cs.length) (h : ∀ i, ¬ Matches (cs ++ [c]) i cs.length) :
    Deleted (cs ++ [c]) k ↔ Deleted cs k := by
  refine deleted_append hk fun i j hm _ => ?_
  have hj := (List.getElem?_eq_some_iff.mp hm.pop).1
  rw [List.length_append, List.length_singleton] at hj
  refine Nat.lt_of_le_of_ne (Nat.le_of_lt_succ hj) ?_
  rintro rfl
  exact h i hm

theorem not_matches_concat (hc : c ≠ .pop) : ¬ Matches (cs ++ [c]) i cs.length := by
  intro hm
  have hpop := hm.pop
  rw [List.getElem?_concat_length] at hpop
  exact hc (Option.some.inj hpop)

theorem matches_concat_pop :
    Matches (cs ++ [.pop]) i cs.length ↔
      ∃ as us, cs = as ++ .push :: us ∧ as.length = i ∧ Nested us := by
  constructor
  · rintro ⟨hlt, hpush, -, hn⟩
    rw [List.getElem?_append_left hlt] at hpush
    rw [List.take_left' rfl] at hn
    obtain ⟨hi, hpush⟩ := List.getElem?_eq_some_iff.mp hpush
    refine ⟨cs.take i, cs.drop (i + 1), ?_, List.length_take_of_le (Nat.le_of_lt hi), hn⟩
    rw [← hpush, List.getElem_cons_drop, List.take_append_drop]
  · rintro ⟨as, us, rfl, rfl, hn⟩
    refine ⟨?_, ?_, List.getElem?_concat_length, ?_⟩
    · simp
    · simp
    · rw [List.take_left' rfl]
      simpa using hn

theorem Matches.end_lt (hm : Matches (as ++ .push :: us ++ [.pop]) i j) (hu : Nested us)
    (hi : i < as.length) : j < as.length := by
  refine Nat.lt_of_not_le fun hj => ?_
  obtain ⟨n, rfl⟩ := Nat.exists_eq_add_of_le hj
  obtain ⟨hlen, -⟩ := List.getElem?_eq_some_iff.mp hm.pop
  cases n with
  | zero =>
    have hpop := hm.pop
    simp at hpop
  | succ n =>
    have hn : n ≤ us.length := by simp at hlen; omega
    have htake : (as ++ Command.push :: us ++ [Command.pop]).take (as.length + (n + 1)) =
        as ++ .push :: us.take n := by
      rw [List.append_assoc, List.cons_append, List.take_length_add_append, List.take_succ_cons,
        List.take_append_of_le_length hn]
    have hnested := hm.nested
    rw [htake, List.drop_append_of_le_length hi] at hnested
    exact not_nested_of_open (hu.covered.of_prefix (List.take_prefix n us)) hnested

theorem deleted_group_left (hu : Nested us) (hk : k < as.length) :
    Deleted (as ++ .push :: us ++ [.pop]) k ↔ Deleted as k := by
  rw [List.append_assoc]
  refine deleted_append hk fun i j hm hi => ?_
  rw [← List.append_assoc] at hm
  exact hm.end_lt hu (Nat.lt_trans hi hk)

theorem deleted_group (hu : Nested us) (hk : as.length ≤ k)
    (hk' : k ≤ (as ++ .push :: us).length) : Deleted (as ++ .push :: us ++ [.pop]) k :=
  .group (matches_concat_pop.mpr ⟨as, us, rfl, rfl, hu⟩) hk hk'

end Append

end Brackets

end LSystem
