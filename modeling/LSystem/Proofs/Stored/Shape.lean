import LSystem.Stored.Shape
import LSystem.Proofs.Stored.Record

/-! # Letters and shapes read back -/

namespace LSystem

open Fields (read_record read_required)
open Option (bind_eq_some_iff)

instance : Written (Point Float32) where
  Storable p := Storable p.x ∧ Storable p.y
  ofJson?_toJson := by
    rintro p ⟨hx, hy⟩
    refine bind_eq_some_iff.mpr ⟨p.x, ofJson?_toJson hx, ?_⟩
    exact bind_eq_some_iff.mpr ⟨p.y, ofJson?_toJson hy, rfl⟩

instance : Written Color where
  Storable _ := True
  ofJson?_toJson {c} _ := by
    refine bind_eq_some_iff.mpr ⟨c.red, ofJson?_toJson trivial, ?_⟩
    refine bind_eq_some_iff.mpr ⟨c.green, ofJson?_toJson trivial, ?_⟩
    exact bind_eq_some_iff.mpr ⟨c.blue, ofJson?_toJson trivial, rfl⟩

instance : Written Hand where
  Storable _ := True
  ofJson?_toJson {h} _ := by cases h <;> rfl

instance : Written Anchor where
  Storable p := Storable p.point ∧ Storable p.direction
  ofJson?_toJson := by
    rintro p ⟨hpoint, hdirection⟩
    apply read_record (by simp) (by simp)
    apply read_required rfl (ofJson?_toJson hpoint)
    exact read_required rfl (ofJson?_toJson hdirection) rfl

instance : Written Letter where
  Storable
    | .plain _ | .edge _ _ => True
    | .node _ entry exit _ => Storable entry ∧ Storable exit
  ofJson?_toJson {l} h := by
    cases l with
    | plain s => rfl
    | edge s hand =>
      apply read_record (by simp) (by simp)
      apply read_required rfl (ofJson?_toJson trivial)
      exact read_required rfl (ofJson?_toJson trivial) rfl
    | node s entry exit frame =>
      obtain ⟨hentry, hexit⟩ := h
      apply read_record (by simp) (by simp)
      apply read_required rfl (ofJson?_toJson trivial)
      apply read_required rfl (ofJson?_toJson hentry)
      apply read_required rfl (ofJson?_toJson hexit)
      exact read_required rfl (ofJson?_toJson trivial) rfl

instance : Written Turtle where
  Storable t := Storable t.position ∧ Storable t.heading
  ofJson?_toJson := by
    rintro t ⟨hposition, hheading⟩
    apply read_record (by simp) (by simp)
    apply read_required rfl (ofJson?_toJson hposition)
    apply read_required rfl (ofJson?_toJson hheading)
    exact read_required rfl (ofJson?_toJson trivial) rfl

instance : Written Segment where
  Storable s := Storable s.start ∧ Storable s.stop
  ofJson?_toJson := by
    rintro s ⟨hstart, hstop⟩
    apply read_record (by simp) (by simp)
    apply read_required rfl (ofJson?_toJson hstart)
    apply read_required rfl (ofJson?_toJson hstop)
    exact read_required rfl (ofJson?_toJson trivial) rfl

instance : Written (Transform Float32) where
  Storable t := Storable t.origin ∧ Storable t.scale
  ofJson?_toJson := by
    rintro t ⟨horigin, hscale⟩
    apply read_record (by simp) (by simp)
    apply read_required rfl (ofJson?_toJson horigin)
    apply read_required rfl (ofJson?_toJson hscale)
    exact read_required rfl (ofJson?_toJson trivial) rfl

end LSystem
