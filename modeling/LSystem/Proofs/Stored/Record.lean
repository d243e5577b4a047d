import Mathlib
import LSystem.Stored.Record

/-! # Reading what was written

A value whose floats are all finite is read back from what it is written as. Of a record only some
fields may be kept; the optional ones that are not kept take their defaults.
-/

namespace LSystem

/-- A type whose values are read back as they were written. -/
class Written (α : Type) [Stored α] where
  /-- Every float of the value is finite, and every count is one of 64 bits. -/
  Storable : α → Prop
  ofJson?_toJson {x : α} : Storable x → ofJson? (toJson x) = some x

export Written (Storable ofJson?_toJson)

section Simple

instance : Written Bool where
  Storable _ := True
  ofJson?_toJson _ := rfl

instance : Written String where
  Storable _ := True
  ofJson?_toJson _ := rfl

theorem natural?_natCast {greatest n : ℕ} (h : n ≤ greatest) :
    natural? greatest (.integer n) = some n := by
  simp [natural?, h]

instance : Written UInt8 where
  Storable _ := True
  ofJson?_toJson {n} _ := by
    have h : natural? 0xff (.integer n.toNat) = some n.toNat :=
      natural?_natCast (Nat.le_of_lt_succ n.toNat_lt)
    simp [toJson, ofJson?, h]

instance : Written UInt32 where
  Storable _ := True
  ofJson?_toJson {n} _ := by
    have h : natural? 0xffffffff (.integer n.toNat) = some n.toNat :=
      natural?_natCast (Nat.le_of_lt_succ n.toNat_lt)
    simp [toJson, ofJson?, h]

instance : Written UInt64 where
  Storable _ := True
  ofJson?_toJson {n} _ := by
    have h : natural? 0xffffffffffffffff (.integer n.toNat) = some n.toNat :=
      natural?_natCast (Nat.le_of_lt_succ n.toNat_lt)
    simp [toJson, ofJson?, h]

instance : Written Nat where
  Storable n := n ≤ 0xffffffffffffffff
  ofJson?_toJson h := natural?_natCast h

instance : Written Float32 where
  Storable x := x.isFinite
  ofJson?_toJson {x} h := by simp [toJson, ofJson?, h]

instance : Written Float where
  Storable x := x.isFinite
  ofJson?_toJson {x} h := by simp [toJson, ofJson?, h]

end Simple

section Composite

variable {α : Type} [Stored α]

theorem ofJson?_array {items : List Json} {xs : List α}
    (h : List.Forall₂ (fun v x => ofJson? v = some x) items xs) :
    ofJson? (.array items) = some xs := by
  change items.mapM ofJson? = some xs
  induction h with
  | nil => rfl
  | cons hv _ ih => simp [List.mapM_cons, hv, ih]

instance [Written α] : Written (List α) where
  Storable xs := ∀ x ∈ xs, Storable x
  ofJson?_toJson {xs} h := by
    apply ofJson?_array
    rw [List.forall₂_map_left_iff, List.forall₂_same]
    intro x hx
    exact ofJson?_toJson (h x hx)

/-- A type none of whose values is written as the absence of one. -/
class Present (α : Type) [Stored α] : Prop where
  ofJson?_null : (ofJson? .null : Option α) = none

instance : Present String := ⟨rfl⟩

instance : Present UInt64 := ⟨rfl⟩

theorem ofJson?_some {v : Json} {x : α} [Present α] (h : ofJson? v = some x) :
    ofJson? v = some (some x) := by
  cases v with
  | null =>
    rw [Present.ofJson?_null] at h
    cases h
  | _ => simp [ofJson?, h]

instance [Written α] [Present α] : Written (Option α) where
  Storable o := ∀ x ∈ o, Storable x
  ofJson?_toJson {o} h := by
    cases o with
    | none => rfl
    | some x => exact ofJson?_some (ofJson?_toJson (h x rfl))

end Composite

namespace Json

/-- Drops the members of an object that are not kept. -/
def keep (kept : String → Bool) : Json → Json
  | .object members => .object (members.filter fun m => m.1.all kept)
  | v => v

def within (name : String) (f : Json → Json) : Json → Json
  | .object members => .object (members.map fun m => if m.1 = some name then (m.1, f m.2) else m)
  | v => v

def each (f : ℕ → Json → Json) : Json → Json
  | .array items => .array (items.mapIdx f)
  | v => v

theorem keep_record (members : List (String × Json)) (kept : String → Bool) :
    (record members).keep kept = record (members.filter fun m => kept m.1) := by
  simp [keep, record, List.filter_map, Function.comp_def]

@[simp] theorem keep_all (v : Json) : v.keep (fun _ => true) = v := by
  cases v with
  | object members =>
    have hall : members.filter (fun m => m.1.all fun _ => true) = members := by
      rw [List.filter_eq_self]
      rintro ⟨_ | _, _⟩ - <;> rfl
    rw [keep, hall]
  | _ => rfl

end Json

/-- Items that are changed in place are read as the changed values. -/
theorem ofJson?_each {α : Type} [Stored α] {xs : List α} {f : ℕ → Json → Json} {g : ℕ → α → α}
    (h : ∀ i, ∀ x ∈ xs, ofJson? (f i (toJson x)) = some (g i x)) :
    ofJson? ((toJson xs).each f) = some (xs.mapIdx g) := by
  apply ofJson?_array
  rw [List.forall₂_iff_get]
  constructor
  · simp
  · intro i _ hi
    rw [List.length_mapIdx] at hi
    simpa using h i xs[i] (List.getElem_mem hi)

namespace Fields

variable {α β : Type} [Stored α] {members : List (String × Json)} {names : List String}
  {kept : String → Bool} {name : String} {v : Json} {x default : α} {y : β}

theorem lookup_filter (kept : String → Bool) (name : String) :
    (members.filter fun m => kept m.1).lookup name =
      if kept name then members.lookup name else none := by
  induction members with
  | nil => simp
  | cons m ms ih =>
    rcases eq_or_ne name m.1 with rfl | hne
    · cases hm : kept m.1 <;> simp [hm, ih, List.lookup]
    · cases hm : kept m.1 <;> simp [hm, ih, List.lookup, beq_false_of_ne hne]

theorem read_record {f : Fields → Option β} (h : members.map Prod.fst = names) (hn : names.Nodup)
    (hf : f ⟨members⟩ = some y) : (of? names (.record members)).bind f = some y := by
  subst h
  rw [of?_record (fun m hm => List.mem_map_of_mem hm) hn]
  exact hf

theorem read_required {f : α → Option β} (h : members.lookup name = some v)
    (hv : ofJson? v = some x) (hf : f x = some y) :
    (required ⟨members⟩ name).bind f = some y := by
  simp [required, h, hv, hf]

theorem read_kept {f : Fields → Option β} (h : members.map Prod.fst = names) (hn : names.Nodup)
    (hf : f ⟨members.filter fun m => kept m.1⟩ = some y) :
    (of? names ((Json.record members).keep kept)).bind f = some y := by
  subst h
  rw [Json.keep_record, of?_record]
  · exact hf
  · intro m hm
    exact List.mem_map_of_mem (List.mem_of_mem_filter hm)
  · exact hn.sublist (List.filter_sublist.map Prod.fst)

theorem read_optional {f : α → Option β} (h : members.lookup name = some v)
    (hv : ofJson? v = some x) (hf : f (if kept name then x else default) = some y) :
    (optional ⟨members.filter fun m => kept m.1⟩ name default).bind f = some y := by
  rw [optional]
  simp only [lookup_filter, h]
  cases hk : kept name <;> simpa [hk, hv] using hf

end Fields

end LSystem
