import LSystem.Proofs.Turtle.Heading
import LSystem.Proofs.Turtle.Path

/-! # Turns in whole degrees

A heading in whole degrees is a small number, and so is its sum with an angle that is not too large:
no turn rounds anything. The heading at the end of a word is therefore the sum of the turns on its
path, less whole circles, however long the word is.
-/

namespace LSystem

open Single (Whole)

section Normal

variable {x angle : Float32} {a n : ℤ}

theorem whole_fullTurn : Whole 360 (360 : Float32) := Whole.ofNat (k := 360) (by decide)

theorem whole_halfTurn : Whole 180 (180 : Float32) := Whole.ofNat (k := 180) (by decide)

theorem lt_zero_iff_of_whole (hx : Whole n x) : x < 0 ↔ n < 0 := by
  have hlt := Single.lt_zero_iff hx.isFinite
  rw [hx.value_eq] at hlt
  exact hlt.trans (by norm_cast)

theorem fullTurn_le_iff_of_whole (hx : Whole n x) : 360 ≤ x ↔ 360 ≤ n := by
  rw [fullTurn_le_iff hx.isFinite, hx.value_eq]
  norm_cast

theorem whole_normalizeDegrees (hx : Whole n x) : Whole (n % 360) (normalizeDegrees x) := by
  obtain ⟨r, k, hr, hlt, rfl⟩ := hx.remainder (n := 360) (by decide) (by decide)
  obtain ⟨hlow, hhigh⟩ := abs_lt.mp hlt
  push_cast at hlow hhigh
  simp only [normalizeDegrees, lt_zero_iff_of_whole hr]
  by_cases hneg : r < 0
  · have hsum := hr.add whole_fullTurn (by rw [abs_le]; omega)
    have hbelow : ¬ 360 ≤ r + 360 := by omega
    have hmod : (r + k * (360 : ℕ)) % 360 = r + 360 := by push_cast; omega
    rw [if_pos hneg, if_neg ((fullTurn_le_iff_of_whole hsum).not.mpr hbelow), hmod]
    exact hsum
  · have hbelow : ¬ 360 ≤ r := by omega
    have hmod : (r + k * (360 : ℕ)) % 360 = r := by push_cast; omega
    rw [if_neg hneg, if_neg ((fullTurn_le_iff_of_whole hr).not.mpr hbelow), hmod]
    exact hr

theorem Turtle.whole_heading_turn {t : Turtle} (ht : Whole (n % 360) t.heading)
    (hangle : Whole a angle) (ha : |a| ≤ 2 ^ 22) :
    Whole ((n + a) % 360) (t.turn angle).heading := by
  have hbound : |n % 360 + a| ≤ 2 ^ 24 := by
    rw [abs_le] at ha ⊢
    omega
  rw [← Int.emod_add_emod]
  exact whole_normalizeDegrees (ht.add hangle hbound)

end Normal

namespace Brackets

def Enclosed (cs : List Command) (k : ℕ) : Prop := ∃ i < k, ∃ j < cs.length, k < j ∧ Matches cs i j

instance (cs : List Command) (k : ℕ) : Decidable (Enclosed cs k) :=
  inferInstanceAs (Decidable (∃ i < k, ∃ j < cs.length, _))

/-- How often a command is given outside of all matching brackets. -/
def countOutside (cs : List Command) (c : Command) : ℕ :=
  cs.zipIdx.countP fun p => p.1 = c ∧ ¬ Enclosed cs p.2

end Brackets

def turning (a : ℤ) (count : Command → ℕ) : ℤ :=
  a * (count .turnLeft - count .turnRight) + 180 * count .turnAround

def Command.degrees (a : ℤ) : Command → ℤ
  | .turnLeft => a
  | .turnRight => -a
  | .turnAround => 180
  | _ => 0

theorem turning_concat (a : ℤ) (cs : List Command) (c : Command) :
    turning a (cs ++ [c]).count = turning a cs.count + c.degrees a := by
  cases c <;> simp [turning, Command.degrees] <;> ring

namespace Interpreter

open Brackets

variable {i : Interpreter} {t : Turtle} {a h : ℤ} {v w : Word} {c : Command}

/-- A move or a turn stands on the path as often as outside of all branches. -/
theorem count_commands_path (hc : c.isMotion) (w : Word) :
    (i.commands (i.path w)).count c = countOutside (i.commands w) c := by
  have hzip : (i.commands w).zipIdx = w.zipIdx.map (Prod.map i.command id) := List.zipIdx_map ..
  rw [countOutside, hzip, List.countP_map, commands, path, List.map_map, List.count,
    List.countP_map, List.countP_filter]
  refine List.countP_congr fun p hp => ?_
  have hk : (i.commands w)[p.2]? = some (i.command p.1) := by
    rw [commands, List.getElem?_map, List.mem_zipIdx_iff_getElem?.mp hp]
    rfl
  have hdel := deleted_iff hk
  simp only [Function.comp_apply, Prod.map_fst, Prod.map_snd, id_eq, Bool.and_eq_true, beq_iff_eq,
    decide_eq_true_eq]
  refine and_congr_right fun hpc => ?_
  rw [hdel, hpc, hc, or_iff_right Bool.true_eq_false.mp]
  rfl

theorem whole_heading_step {walk : Walk} (hc : c.isMotion) (ha : Whole a i.gait.turnAngle)
    (hbound : |a| ≤ 2 ^ 22) (hwalk : Whole (h % 360) walk.turtle.heading) :
    Whole ((h + c.degrees a) % 360) (walk.step i.gait c).turtle.heading := by
  cases c with
  | push | pop | ignore => cases hc
  | draw | move =>
    simpa only [Command.degrees, add_zero, Walk.step, Walk.advance, Turtle.advance] using hwalk
  | turnLeft => exact Turtle.whole_heading_turn hwalk ha hbound
  | turnRight => exact Turtle.whole_heading_turn hwalk ha.neg ((abs_neg a).trans_le hbound)
  | turnAround =>
    have hhalf : |(180 : ℤ)| ≤ 2 ^ 22 := by decide
    exact Turtle.whole_heading_turn hwalk whole_halfTurn hhalf

theorem whole_heading_walk (hmotion : ∀ l ∈ v, (i.command l).isMotion)
    (ha : Whole a i.gait.turnAngle) (hbound : |a| ≤ 2 ^ 22) (hh : Whole h t.heading) :
    Whole ((h + turning a (i.commands v).count) % 360) (i.walk v t).turtle.heading := by
  induction v using List.reverseRecOn with
  | nil =>
    have hnone : turning a (i.commands []).count = 0 := by simp [turning, commands]
    rw [hnone, add_zero]
    exact whole_normalizeDegrees hh
  | append_singleton v l ih =>
    have hcommands : i.commands (v ++ [l]) = i.commands v ++ [i.command l] := commands_append v [l]
    rw [walk_concat, hcommands, turning_concat, ← add_assoc]
    exact whole_heading_step (hmotion l (by simp)) ha hbound
      (ih fun l hl => hmotion l (List.mem_append_left _ hl))

/-- With a turn of `a` degrees and a start at `h` degrees the heading at the end of a word is `h`
and all turns outside of matching brackets, less whole circles. -/
theorem whole_heading_interpret (ha : Whole a i.gait.turnAngle) (hbound : |a| ≤ 2 ^ 22)
    (hh : Whole h t.heading) (w : Word) :
    Whole ((h + turning a (countOutside (i.commands w))) % 360)
      (i.interpret w t).finalState.heading := by
  have hpath := whole_heading_walk (fun l => isMotion_of_mem_path (w := w)) ha hbound hh
  have hcount : turning a (i.commands (i.path w)).count =
      turning a (countOutside (i.commands w)) := by
    simp only [turning, count_commands_path (c := .turnLeft) rfl,
      count_commands_path (c := .turnRight) rfl, count_commands_path (c := .turnAround) rfl]
  rw [turtle_path, hcount] at hpath
  exact hpath

theorem whole_heading_interpret_brackets :
    let i := populate ⟨⟨10, 4194304⟩, []⟩
    let t : Turtle := ⟨⟨0, 0⟩, -4194303, true⟩
    let w : Word := [.plain "]", .plain "+", .plain "[", .plain "-", .plain "[", .plain "|",
      .plain "]", .plain "]", .plain "|", .plain "F", .plain "[", .plain "+"]
    Whole 125 (i.interpret w t).finalState.heading := by
  have ha : Whole 4194304 (4194304 : Float32) := Whole.ofNat (k := 4194304) (by decide)
  have hh : Whole (-4194303) (-4194303 : Float32) :=
    (Whole.ofNat (k := 4194303) (by decide)).neg
  have hbound : |(4194304 : ℤ)| ≤ 2 ^ 22 := by decide
  exact whole_heading_interpret (i := populate ⟨⟨10, 4194304⟩, []⟩)
    (t := ⟨⟨0, 0⟩, -4194303, true⟩) ha hbound hh
    [.plain "]", .plain "+", .plain "[", .plain "-", .plain "[", .plain "|", .plain "]",
      .plain "]", .plain "|", .plain "F", .plain "[", .plain "+"]

end Interpreter

end LSystem
