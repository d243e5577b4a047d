import LSystem.Proofs.Binary.Remainder
import LSystem.Proofs.Turtle.Frame

/-! # Headings

Every turn keeps the heading of the turtle from zero to below a full turn, and saving and returning
do not change a heading. The sum of a heading and an angle never overflows, as a heading is much
smaller than the last digit of the greatest angle.
-/

namespace LSystem

open Float.Model (Format)
open Binary (OnGrid Yields)
open Binary.MachineNumber
open Single (lt_zero_iff ofNat_zero zero_le_iff)

/-- A heading as it is kept. -/
structure IsHeading (h : Float32) : Prop where
  isFinite : h.isFinite
  nonneg : 0 ≤ h
  lt : h < 360

section Normal

variable {h x angle : Float32}

theorem fullTurn_spec : IsFinite (360 : Float32) ∧ value (360 : Float32) = 360 :=
  Single.ofNat_spec (n := 360) (by decide)

theorem isFinite_halfTurn : IsFinite (180 : Float32) :=
  (Single.ofNat_spec (n := 180) (by decide)).1

theorem lt_fullTurn_iff (hx : IsFinite x) : x < 360 ↔ value x < 360 := by
  rw [lt_iff hx fullTurn_spec.1, fullTurn_spec.2]

theorem fullTurn_le_iff (hx : IsFinite x) : 360 ≤ x ↔ 360 ≤ value x := by
  rw [le_iff fullTurn_spec.1 hx, fullTurn_spec.2]

theorem isHeading_iff : IsHeading h ↔ IsFinite h ∧ 0 ≤ value h ∧ value h < 360 := by
  constructor
  · rintro ⟨hfinite, hnonneg, hlt⟩
    exact ⟨hfinite, (zero_le_iff hfinite).mp hnonneg, (lt_fullTurn_iff hfinite).mp hlt⟩
  · rintro ⟨hfinite, hnonneg, hlt⟩
    exact ⟨hfinite, (zero_le_iff hfinite).mpr hnonneg, (lt_fullTurn_iff hfinite).mpr hlt⟩

theorem isHeading_zero : IsHeading 0 := by
  rw [isHeading_iff]
  refine ⟨ofNat_zero.1, ofNat_zero.2.ge, ?_⟩
  exact ofNat_zero.2.trans_lt (by norm_num)

theorem raise_spec (hx : IsFinite x) (hlow : -360 < value x) :
    IsFinite (if x < 0 then x + 360 else x) ∧ 0 ≤ value (if x < 0 then x + 360 else x) := by
  split_ifs with hneg
  · replace hneg := (lt_zero_iff hx).mp hneg
    have hsum := yields_add hx fullTurn_spec.1
    rw [fullTurn_spec.2] at hsum
    have hgrid : OnGrid .binary32 360 := by
      rw [← fullTurn_spec.2]
      exact onGrid_value (360 : Float32)
    have hbound : |value x + 360| ≤ 360 := by
      rw [abs_le]
      constructor <;> linarith
    have hlt : (360 : ℚ) < 2 ^ (Format.binary32.exponentBias + 1) := by
      rw [← fullTurn_spec.2]
      exact (le_abs_self _).trans_lt (abs_value_lt (360 : Float32))
    have hfinite := hsum.isFinite hgrid hlt hbound
    exact ⟨hfinite, (hsum.rounds hfinite).nonneg (by linarith)⟩
  · exact ⟨hx, not_lt.mp fun h => hneg ((lt_zero_iff hx).mpr h)⟩

theorem isHeading_normalizeDegrees (hx : IsFinite x) : IsHeading (normalizeDegrees x) := by
  obtain ⟨hfinite, hlt, -, -⟩ := Single.remainder_spec (n := 360) (by decide) (by decide) hx
  obtain ⟨hfinite', hnonneg⟩ := raise_spec hfinite (abs_lt.mp hlt).1
  simp only [normalizeDegrees]
  generalize (if Single.remainder x 360 < 0 then Single.remainder x 360 + 360
    else Single.remainder x 360) = r at hfinite' hnonneg ⊢
  -- a remainder just below zero is rounded to the full turn itself when it is moved up
  split_ifs with hturn
  · exact isHeading_zero
  · rw [fullTurn_le_iff hfinite', not_le] at hturn
    exact isHeading_iff.mpr ⟨hfinite', hnonneg, hturn⟩

/-- A full turn is less than half a unit of the last digit of the greatest angle. -/
theorem IsHeading.isFinite_add (hh : IsHeading h) (hangle : IsFinite angle) :
    IsFinite (h + angle) := by
  obtain ⟨hfinite, hnonneg, hlt⟩ := isHeading_iff.mp hh
  have hsum := yields_add hfinite hangle
  rw [add_comm] at hsum
  refine hsum.isFinite_add (onGrid_value angle) (abs_value_le angle) ?_
  calc 2 * |value h| < 2 * 360 := by
        rw [abs_of_nonneg hnonneg]
        linarith
    _ < 2 ^ (104 : ℤ) := by norm_num

end Normal

/-- The interpreters with a valid gait, whatever becomes of their commands afterwards. -/
inductive Interpreter.Configured : Interpreter → Prop
  | plain {g : Gait} {i : Interpreter} : Interpreter.plain g = .ok i → Configured i
  | standard {g : Gait} {i : Interpreter} : Interpreter.standard g = .ok i → Configured i
  | assign {i : Interpreter} (symbol : String) (c : Command) :
      Configured i → Configured { i with table := i.table.assign symbol c }
  | replace {i : Interpreter} (table : CommandTable) :
      Configured i → Configured { i with table := table }
  | populate {i : Interpreter} : Configured i → Configured i.populate

namespace Walk

structure Headed (w : Walk) : Prop where
  turtle : IsHeading w.turtle.heading
  saved : ∀ t ∈ w.saved, IsHeading t.heading

variable {g : Gait} {w : Walk}

theorem Headed.turn {angle : Float32} (h : w.Headed) (hangle : IsFinite angle) :
    (w.turn angle).Headed where
  turtle := isHeading_normalizeDegrees (h.turtle.isFinite_add hangle)
  saved := h.saved

theorem Headed.step (h : w.Headed) (hg : g.turnAngle.isFinite) (c : Command) :
    (w.step g c).Headed := by
  cases c with
  | draw | move | ignore => exact ⟨h.turtle, h.saved⟩
  | turnLeft => exact h.turn hg
  | turnRight => exact h.turn (isFinite_neg hg)
  | turnAround => exact h.turn isFinite_halfTurn
  | push => exact ⟨h.turtle, List.forall_mem_cons.mpr ⟨h.turtle, h.saved⟩⟩
  | pop =>
    cases hs : w.saved with
    | nil =>
      simp only [Walk.step, hs]
      exact ⟨h.turtle, by simp⟩
    | cons t rest =>
      have hsaved := h.saved
      simp only [hs, List.forall_mem_cons] at hsaved
      simp only [Walk.step, hs]
      exact ⟨hsaved.1, hsaved.2⟩

theorem headed_begin {t : Turtle} (ht : t.heading.isFinite) :
    (begin (Interpreter.ready t)).Headed where
  turtle := isHeading_normalizeDegrees ht
  saved _ hmem := absurd hmem List.not_mem_nil

end Walk

namespace Gait

theorem isFinite_turnAngle {g : Gait} (h : g.validate = .ok ()) : g.turnAngle.isFinite := by
  rw [validate] at h
  split_ifs at h with hstep hangle
  simpa using hangle

end Gait

namespace Interpreter

variable {g : Gait} {i : Interpreter} {t : Turtle}

theorem plain_eq_ok_iff : plain g = .ok i ↔ g.validate = .ok () ∧ ⟨g, []⟩ = i := by
  rw [plain]
  cases g.validate <;> simp [bind, Except.bind, pure, Except.pure]

theorem standard_eq_ok_iff :
    standard g = .ok i ↔ g.validate = .ok () ∧ populate ⟨g, []⟩ = i := by
  rw [standard, plain]
  cases g.validate <;> simp [bind, Except.bind, pure, Except.pure]

theorem Configured.isFinite_turnAngle (h : Configured i) : i.gait.turnAngle.isFinite := by
  induction h with
  | plain h =>
    obtain ⟨hg, rfl⟩ := plain_eq_ok_iff.mp h
    exact Gait.isFinite_turnAngle hg
  | standard h =>
    obtain ⟨hg, rfl⟩ := standard_eq_ok_iff.mp h
    exact Gait.isFinite_turnAngle hg
  | assign symbol c h ih => exact ih
  | replace table h ih => exact ih
  | populate h ih => exact ih

theorem headed_resume {walk : Walk} (h : walk.Headed) (hi : i.gait.turnAngle.isFinite) (w : Word) :
    (i.resume walk w).Headed := by
  induction w generalizing walk with
  | nil => exact h
  | cons l w ih => exact ih (h.step hi (i.command l))

theorem headed_walk (hi : Configured i) (ht : t.heading.isFinite) (w : Word) :
    (i.walk w t).Headed :=
  headed_resume (Walk.headed_begin ht) hi.isFinite_turnAngle w

/-- Before and after every letter the heading of the turtle is as it is kept, and so is that of every
saved one, however large the angle of the turns is. -/
theorem headings_canonical (hi : Configured i) (ht : t.heading.isFinite) (w : Word) :
    (∀ k, IsHeading (i.walk (w.take k) t).turtle.heading ∧
      ∀ saved ∈ (i.walk (w.take k) t).saved, IsHeading saved.heading) ∧
    IsHeading (i.interpret w t).finalState.heading := by
  constructor
  · intro k
    have hwalk := headed_walk hi ht (w.take k)
    exact ⟨hwalk.turtle, hwalk.saved⟩
  · exact (headed_walk hi ht w).turtle

theorem headings_canonical_greatest :
    let i := populate ⟨⟨1, .ofBits 0x7F7FFFFF⟩, []⟩
    let t : Turtle := ⟨⟨0, 0⟩, .ofBits 0x80000001, true⟩
    let w : Word := ["+", "[", "-", "|", "]", "]", "+"].map .plain
    Interpreter.standard ⟨1, .ofBits 0x7F7FFFFF⟩ = .ok i ∧ t.heading.isFinite ∧
      (∀ k, IsHeading (i.walk (w.take k) t).turtle.heading ∧
        ∀ saved ∈ (i.walk (w.take k) t).saved, IsHeading saved.heading) ∧
      IsHeading (i.interpret w t).finalState.heading := by
  have hi : Interpreter.standard ⟨1, .ofBits 0x7F7FFFFF⟩ =
      .ok (populate ⟨⟨1, .ofBits 0x7F7FFFFF⟩, []⟩) := rfl
  exact ⟨hi, rfl, headings_canonical (.standard hi) rfl _⟩

end Interpreter

end LSystem
