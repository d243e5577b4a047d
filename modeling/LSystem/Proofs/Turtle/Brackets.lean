import LSystem.Turtle.Command

/-! # Brackets

Saving and returning are the brackets of a list of commands; all other commands are skipped. With
`d` turtles saved beforehand a list is covered when it never returns with nothing saved: no prefix
returns more than `d` times oftener than it saves. It is nested when it is covered with nothing
saved beforehand and returns as often as it saves.
-/

namespace LSystem

namespace Command

def depthAfter (d : Nat) : Command → Nat
  | .push => d + 1
  | .pop => d - 1
  | _ => d

theorem depthAfter_add {d : Nat} {c : Command} (h : c = .pop → 0 < d) :
    c.depthAfter d + (if c == .pop then 1 else 0) = d + (if c == .push then 1 else 0) := by
  cases c with
  | pop => have := h rfl; simp [depthAfter]; omega
  | _ => simp [depthAfter]

end Command

namespace Brackets

variable {d : Nat} {c : Command} {cs : List Command}

/-- No prefix returns more often than the saved turtles allow. -/
def Covered (d : Nat) (cs : List Command) : Prop :=
  ∀ v, v <+: cs → v.count .pop ≤ d + v.count .push

/-- The brackets match, one by one and inside each other. -/
structure Nested (cs : List Command) : Prop where
  covered : Covered 0 cs
  closed : cs.count .pop = cs.count .push

theorem covered_nil : Covered d [] := by
  intro v hv
  simp [List.prefix_nil.mp hv]

theorem Covered.pos_of_pop (h : Covered d (c :: cs)) (hc : c = .pop) : 0 < d := by
  subst hc
  have hv := h [.pop] (List.prefix_append [.pop] cs)
  have hd : 1 ≤ d := by simpa using hv
  exact hd

theorem Covered.tail (h : Covered d (c :: cs)) : Covered (c.depthAfter d) cs := by
  intro v hv
  have hcv := h (c :: v) (List.cons_prefix_cons.mpr ⟨rfl, hv⟩)
  have hd := Command.depthAfter_add h.pos_of_pop
  rw [List.count_cons, List.count_cons] at hcv
  omega

theorem covered_cons :
    Covered d (c :: cs) ↔ (c = .pop → 0 < d) ∧ Covered (c.depthAfter d) cs := by
  constructor
  · intro h
    exact ⟨h.pos_of_pop, h.tail⟩
  · rintro ⟨hc, h⟩ v hv
    cases v with
    | nil => simp
    | cons c' v =>
      obtain ⟨rfl, hv'⟩ := List.cons_prefix_cons.mp hv
      have ht := h v hv'
      have hd := Command.depthAfter_add hc
      rw [List.count_cons, List.count_cons]
      omega

instance decidableCovered : (d : Nat) → (cs : List Command) → Decidable (Covered d cs)
  | _, [] => isTrue covered_nil
  | d, c :: cs =>
    have := decidableCovered (c.depthAfter d) cs
    decidable_of_iff _ covered_cons.symm

instance (cs : List Command) : Decidable (Nested cs) :=
  decidable_of_iff (Covered 0 cs ∧ cs.count .pop = cs.count .push)
    ⟨fun ⟨h, h'⟩ => ⟨h, h'⟩, fun ⟨h, h'⟩ => ⟨h, h'⟩⟩

end Brackets

end LSystem
