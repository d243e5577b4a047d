import LSystem.Json.Value

/-! # Stored values

Reading and writing values as JSON. A record is written as an object with its fields in order. It is
read from an object, where unknown fields are ignored and no known one may be repeated, or from an
array of its fields in order.
-/

namespace LSystem

class Stored (α : Type) where
  toJson : α → Json
  ofJson? : Json → Option α

export Stored (toJson ofJson?)

structure Fields where
  members : List (String × Json)

namespace Fields

def of? (names : List String) : Json → Option Fields
  | .array items => if items.length ≤ names.length then some ⟨names.zip items⟩ else none
  | .object members => do
    let members ← members.mapM fun m => m.1.map (·, m.2)
    let known := members.filter fun m => m.1 ∈ names
    if (known.map Prod.fst).Nodup then some ⟨known⟩ else none
  | _ => none

theorem of?_record {names : List String} {members : List (String × Json)}
    (h : ∀ m ∈ members, m.1 ∈ names) (hn : (members.map Prod.fst).Nodup) :
    of? names (.record members) = some ⟨members⟩ := by
  have hm : (members.map fun m => (some m.1, m.2)).mapM
      (fun (m : Literal × Json) => m.1.map (·, m.2)) = some members := by
    induction members with
    | nil => rfl
    | cons m ms ih =>
      have := ih (fun m hm => h m (List.mem_cons_of_mem _ hm)) (List.nodup_cons.mp hn).2
      simp [List.mapM_cons, this]
  have hf : members.filter (fun m => m.1 ∈ names) = members :=
    List.filter_eq_self.mpr fun m hm => by simpa using h m hm
  simp only [of?, Json.record]
  rw [hm]
  simp [hf, hn]

variable {α : Type} [Stored α]

def required (f : Fields) (name : String) : Option α := (f.members.lookup name).bind ofJson?

def optional (f : Fields) (name : String) (default : α) : Option α :=
  match f.members.lookup name with
  | some v => ofJson? v
  | none => some default

end Fields

/-- The value of a name in a table of names. The name stands alone, or is the only key of an object
with the value `null`. -/
def named? {α : Type} (table : List (String × α)) : Json → Option α
  | .text (some s) => table.lookup s
  | .object [(some s, .null)] => table.lookup s
  | _ => none

instance : Stored Bool where
  toJson := .bool
  ofJson?
    | .bool b => some b
    | _ => none

instance : Stored String where
  toJson := .string
  ofJson?
    | .text s => s
    | _ => none

def natural? (greatest : Nat) : Json → Option Nat
  | .integer n => if 0 ≤ n ∧ n ≤ greatest then some n.toNat else none
  | _ => none

instance : Stored UInt8 where
  toJson n := .integer n.toNat
  ofJson? v := (natural? 0xff v).map UInt8.ofNat

instance : Stored UInt32 where
  toJson n := .integer n.toNat
  ofJson? v := (natural? 0xffffffff v).map UInt32.ofNat

instance : Stored UInt64 where
  toJson n := .integer n.toNat
  ofJson? v := (natural? 0xffffffffffffffff v).map UInt64.ofNat

instance : Stored Nat where
  toJson n := .integer n
  ofJson? := natural? 0xffffffffffffffff

/-- A single is read from an integer directly, and from any other number through a double, which
has to be finite. -/
instance : Stored Float32 where
  toJson x := if x.isFinite then .single x else .null
  ofJson?
    | .single x => some x
    | .integer n => some (Single.ofInt n)
    | .decimal d => d.toSingle?
    | _ => none

def finite? (x : Float) : Option Float := if x.isFinite then some x else none

instance : Stored Float where
  toJson x := if x.isFinite then .double x else .null
  ofJson?
    | .double x => some x
    | .integer n => some (Float.ofInt n)
    | .decimal d => finite? d.toFloat
    | _ => none

instance {α : Type} [Stored α] : Stored (List α) where
  toJson xs := .array (xs.map toJson)
  ofJson?
    | .array items => items.mapM ofJson?
    | _ => none

instance {α : Type} [Stored α] : Stored (Option α) where
  toJson
    | some x => toJson x
    | none => .null
  ofJson?
    | .null => some none
    | v => (ofJson? v).map some

end LSystem
