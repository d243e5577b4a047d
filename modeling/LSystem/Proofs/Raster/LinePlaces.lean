import Mathlib.Algebra.Order.Ring.Abs
import Mathlib.Data.Rat.Cast.Order
import Mathlib.Tactic.FieldSimp
import Mathlib.Tactic.Ring
import Mathlib.Tactic.Linarith
import LSystem.Raster.Line

/-! # The places of a line in closed form

A line takes one step along its longer axis from each place to the next. After `k` of them it has
advanced `k * extent / longer` units along an axis, rounded to the nearest whole number; on the
longer axis these are `k`. The drift is determined by the units advanced on both axes, and a step is
taken along an axis exactly when the advance on it grows.
-/

namespace LSystem

def toward (a b : Int) (n : Nat) : Int := a + (b - a).sign * n

theorem toward_zero (a b : Int) : toward a b 0 = a := by
  simp [toward]

theorem toward_natAbs (a b : Int) : toward a b (b - a).natAbs = b := by
  rw [toward, Int.sign_mul_natAbs]
  omega

theorem toward_succ {a b : Int} (h : a ≠ b) (n : Nat) :
    toward a b (n + 1) = toward a b n + if a < b then 1 else -1 := by
  have hs : (b - a).sign = if a < b then 1 else -1 := by
    split
    · exact Int.sign_eq_one_of_pos (by omega)
    · exact Int.sign_eq_neg_one_of_neg (by omega)
  rw [toward, toward, hs]
  push_cast
  ring

theorem toward_between {a b : Int} {n : Nat} (h : n ≤ (b - a).natAbs) :
    min a b ≤ toward a b n ∧ toward a b n ≤ max a b := by
  rw [toward]
  rcases Int.lt_trichotomy (b - a) 0 with hlt | heq | hgt
  · rw [Int.sign_eq_neg_one_of_neg hlt]
    omega
  · rw [heq, Int.sign_zero]
    omega
  · rw [Int.sign_eq_one_of_pos hgt]
    omega

theorem toward_inj {a b : Int} (h : a ≠ b) {m n : Nat} (hmn : toward a b m = toward a b n) :
    m = n := by
  have hs : (b - a).sign ≠ 0 := fun h0 => h (by have := Int.sign_eq_zero_iff_zero.mp h0; omega)
  have := Int.eq_of_mul_eq_mul_left hs (Int.add_left_cancel hmn)
  exact_mod_cast this

namespace Line

variable (l : Line)

def longer : Nat := max (l.stop.x - l.start.x).natAbs (l.stop.y - l.start.y).natAbs

def shorter : Nat := min (l.stop.x - l.start.x).natAbs (l.stop.y - l.start.y).natAbs

/-- The units advanced on an axis after `k` steps along the longer axis: the whole number nearest to
`k * extent / longer`, a half going up. -/
def advance (extent k : Nat) : Nat := (2 * k * extent + l.longer) / (2 * l.longer)

def advanceX (k : Nat) : Nat := l.advance (l.stop.x - l.start.x).natAbs k

def advanceY (k : Nat) : Nat := l.advance (l.stop.y - l.start.y).natAbs k

def centre (k : Nat) : Cell where
  x := toward l.start.x l.stop.x (l.advanceX k)
  y := toward l.start.y l.stop.y (l.advanceY k)

/-- The place at the cell after `k` steps. The drift goes down by the height for every unit along
`x` and up by the width for every unit along `y`. -/
def place (k : Nat) : Cursor where
  cell := l.centre k
  drift := l.width - l.height - l.advanceX k * l.height + l.advanceY k * l.width

variable {l} {e f k : Nat}

section Advance

@[simp] theorem advance_zero : l.advance e 0 = 0 := by
  rcases Nat.eq_zero_or_pos l.longer with h | h
  · simp [advance, h]
  · simp [advance]
    omega

theorem advance_longer (hk : k ≤ l.longer) : l.advance l.longer k = k := by
  rcases Nat.eq_zero_or_pos l.longer with h | h
  · have hk0 : k = 0 := by omega
    rw [hk0, advance_zero]
  · rw [advance, Nat.mul_right_comm, Nat.mul_add_div (by omega), Nat.div_eq_of_lt (by omega),
      Nat.add_zero]

theorem advance_end (h : e ≤ l.longer) : l.advance e l.longer = e := by
  rcases Nat.eq_zero_or_pos l.longer with h0 | hpos
  · have he : e = 0 := by omega
    rw [h0, he, advance_zero]
  · rw [advance, Nat.mul_add_div (by omega), Nat.div_eq_of_lt (by omega), Nat.add_zero]

theorem advance_le_succ : l.advance e k ≤ l.advance e (k + 1) := by
  refine Nat.div_le_div_right (Nat.add_le_add_right ?_ _)
  exact Nat.mul_le_mul_right _ (by omega)

theorem advance_mono {j : Nat} (h : j ≤ k) : l.advance e j ≤ l.advance e k := by
  induction h with
  | refl => exact Nat.le_refl _
  | step _ ih => exact Nat.le_trans ih advance_le_succ

theorem advance_le (he : e ≤ l.longer) (hk : k ≤ l.longer) : l.advance e k ≤ e :=
  (advance_mono hk).trans_eq (advance_end he)

theorem advance_succ_le (he : e ≤ l.longer) (hk : k < l.longer) :
    l.advance e (k + 1) ≤ l.advance e k + 1 := by
  calc l.advance e (k + 1)
      ≤ (2 * k * e + l.longer + 2 * l.longer) / (2 * l.longer) := by
        refine Nat.div_le_div_right ?_
        rw [Nat.mul_add, Nat.add_mul]
        omega
    _ = l.advance e k + 1 := Nat.add_div_right _ (by omega)

theorem mul_advance_le : 2 * l.longer * l.advance e k ≤ 2 * k * e + l.longer :=
  Nat.mul_div_le _ _

theorem lt_mul_advance (h : 0 < l.longer) :
    2 * k * e < 2 * l.longer * l.advance e k + l.longer := by
  have := Nat.lt_mul_div_succ (2 * k * e + l.longer) (show 0 < 2 * l.longer by omega)
  rw [Nat.mul_add] at this
  unfold advance
  omega

theorem advance_lt_succ_iff (h : 0 < l.longer) :
    l.advance e k < l.advance e (k + 1) ↔
      2 * l.longer * l.advance e k + l.longer ≤ 2 * k * e + 2 * e := by
  rw [← Nat.succ_le_iff, advance.eq_1 l e (k + 1), Nat.le_div_iff_mul_le (by omega)]
  have h₁ : (l.advance e k + 1) * (2 * l.longer) = 2 * l.longer * l.advance e k + 2 * l.longer := by
    ring
  have h₂ : 2 * (k + 1) * e = 2 * k * e + 2 * e := by ring
  rw [Nat.succ_eq_add_one, h₁, h₂]
  omega

/-- The advance on an axis grows exactly when the drift allows a step along it. For the other axis
the drift has the opposite sign. -/
theorem advance_lt_succ_iff_drift (hmax : max e f = l.longer) (hk : k < l.longer) :
    l.advance e k < l.advance e (k + 1) ↔
      -(f : Int) ≤ 2 * (e - f - l.advance e k * f + l.advance f k * e) := by
  have hpos : 0 < l.longer := Nat.zero_lt_of_lt hk
  rcases Nat.le_total f e with h | h
  · -- on the longer axis every step is taken
    obtain rfl : e = l.longer := by omega
    have hlt : (2 * k * f : Int) < 2 * l.longer * l.advance f k + l.longer := by
      exact_mod_cast lt_mul_advance hpos
    have hle : (f : Int) ≤ l.longer := Int.ofNat_le.mpr h
    rw [advance_longer hk, advance_longer (Nat.le_of_lt hk)]
    simp only [Nat.lt_succ_self, true_iff]
    linarith
  · obtain rfl : f = l.longer := by omega
    rw [advance_longer (Nat.le_of_lt hk), advance_lt_succ_iff hpos, ← Int.ofNat_le]
    push_cast
    constructor <;> intro <;> linarith

end Advance

section Place

theorem width_le_longer : (l.stop.x - l.start.x).natAbs ≤ l.longer := Nat.le_max_left ..

theorem height_le_longer : (l.stop.y - l.start.y).natAbs ≤ l.longer := Nat.le_max_right ..

theorem movesX_place (hk : k < l.longer) :
    l.movesX (l.place k) ↔ l.advanceX k < l.advanceX (k + 1) := by
  unfold advanceX
  rw [advance_lt_succ_iff_drift (f := (l.stop.y - l.start.y).natAbs) rfl hk, movesX,
    decide_eq_true_eq]
  rfl

theorem movesY_place (hk : k < l.longer) :
    l.movesY (l.place k) ↔ l.advanceY k < l.advanceY (k + 1) := by
  have hmax : max (l.stop.y - l.start.y).natAbs (l.stop.x - l.start.x).natAbs = l.longer :=
    Nat.max_comm ..
  unfold advanceY
  rw [advance_lt_succ_iff_drift hmax hk, movesY, decide_eq_true_eq]
  simp only [place, width, height, advanceX, advanceY]
  constructor <;> intro <;> linarith

theorem advanceX_succ (hk : k < l.longer) :
    l.advanceX (k + 1) = l.advanceX k + if l.movesX (l.place k) then 1 else 0 := by
  have hle : l.advanceX k ≤ l.advanceX (k + 1) := advance_le_succ
  have hsucc : l.advanceX (k + 1) ≤ l.advanceX k + 1 := advance_succ_le width_le_longer hk
  simp only [movesX_place hk]
  split <;> omega

theorem advanceY_succ (hk : k < l.longer) :
    l.advanceY (k + 1) = l.advanceY k + if l.movesY (l.place k) then 1 else 0 := by
  have hle : l.advanceY k ≤ l.advanceY (k + 1) := advance_le_succ
  have hsucc : l.advanceY (k + 1) ≤ l.advanceY k + 1 := advance_succ_le height_le_longer hk
  simp only [movesY_place hk]
  split <;> omega

theorem ne_of_advance_lt {a b : Int} (he : (b - a).natAbs ≤ l.longer) (hk : k < l.longer)
    (h : l.advance (b - a).natAbs k < l.advance (b - a).natAbs (k + 1)) : a ≠ b := by
  rintro rfl
  have hle : l.advance (a - a).natAbs (k + 1) ≤ (a - a).natAbs := advance_le he hk
  omega

theorem next_place (hk : k < l.longer) : l.next (l.place k) = l.place (k + 1) := by
  have hx : (l.next (l.place k)).cell.x = (l.place (k + 1)).cell.x := by
    change (if l.movesX (l.place k) then toward _ _ _ + l.stepX else toward _ _ _) = toward _ _ _
    rw [advanceX_succ hk]
    split
    · rename_i hm
      rw [toward_succ (ne_of_advance_lt width_le_longer hk ((movesX_place hk).mp hm)), stepX]
    · rfl
  have hy : (l.next (l.place k)).cell.y = (l.place (k + 1)).cell.y := by
    change (if l.movesY (l.place k) then toward _ _ _ + l.stepY else toward _ _ _) = toward _ _ _
    rw [advanceY_succ hk]
    split
    · rename_i hm
      rw [toward_succ (ne_of_advance_lt height_le_longer hk ((movesY_place hk).mp hm)), stepY]
    · rfl
  have hd : (l.next (l.place k)).drift = (l.place (k + 1)).drift := by
    simp only [next, place.eq_1 l (k + 1), advanceX_succ hk, advanceY_succ hk]
    rw [place.eq_1 l k]
    split <;> split <;> push_cast <;> ring
  calc l.next (l.place k)
      = ⟨⟨(l.next (l.place k)).cell.x, (l.next (l.place k)).cell.y⟩, (l.next (l.place k)).drift⟩ :=
        rfl
    _ = l.place (k + 1) := by rw [hx, hy, hd]

theorem place_zero : l.place 0 = l.cursor := by
  simp [place, centre, cursor, advanceX, advanceY, toward_zero]

theorem centre_longer : l.centre l.longer = l.stop := by
  simp only [centre, advanceX, advanceY, advance_end width_le_longer, advance_end height_le_longer,
    toward_natAbs]

theorem centre_inj {j : Nat} (hj : j ≤ l.longer) (hk : k ≤ l.longer)
    (h : l.centre j = l.centre k) : j = k := by
  obtain ⟨hx, hy⟩ := Cell.mk.injEq .. ▸ h
  rcases Nat.eq_zero_or_pos l.longer with h0 | hpos
  · omega
  -- the cells differ on the longer axis
  rcases Nat.le_total (l.stop.y - l.start.y).natAbs (l.stop.x - l.start.x).natAbs with hle | hle
  · have hl : (l.stop.x - l.start.x).natAbs = l.longer := (Nat.max_eq_left hle).symm
    have hne : l.start.x ≠ l.stop.x := by omega
    have hadv := toward_inj hne hx
    rwa [advanceX, advanceX, hl, advance_longer hj, advance_longer hk] at hadv
  · have hl : (l.stop.y - l.start.y).natAbs = l.longer := (Nat.max_eq_right hle).symm
    have hne : l.start.y ≠ l.stop.y := by omega
    have hadv := toward_inj hne hy
    rwa [advanceY, advanceY, hl, advance_longer hj, advance_longer hk] at hadv

theorem centre_eq_stop_iff (hk : k ≤ l.longer) : l.centre k = l.stop ↔ k = l.longer := by
  constructor
  · intro h
    exact centre_inj hk (Nat.le_refl _) (h.trans centre_longer.symm)
  · rintro rfl
    exact centre_longer

/-- The loop goes through the places in order and stops by itself at the end of the line. -/
theorem cursorsFrom_place (n : Nat) (hk : k ≤ l.longer) :
    l.cursorsFrom n (l.place k) = (List.range' k (min n (l.longer + 1 - k))).map l.place := by
  induction n generalizing k with
  | zero => simp [cursorsFrom]
  | succ n ih =>
    have hmin : min (n + 1) (l.longer + 1 - k) = min n (l.longer - k) + 1 := by omega
    rw [cursorsFrom, hmin, List.range'_succ, List.map_cons]
    congr 1
    split
    · rename_i hstop
      have hend : k = l.longer := (centre_eq_stop_iff hk).mp hstop
      simp [hend]
    · rename_i hstop
      have hlt : k < l.longer :=
        Nat.lt_of_le_of_ne hk fun h => hstop ((centre_eq_stop_iff hk).mpr h)
      rw [next_place hlt, ih hlt, Nat.add_sub_add_right]

theorem cursorsFrom_cursor {n : Nat} (hn : l.longer < n) :
    l.cursorsFrom n l.cursor = (List.range (l.longer + 1)).map l.place := by
  rw [← place_zero, cursorsFrom_place n (Nat.zero_le _), Nat.sub_zero, Nat.min_eq_right hn,
    List.range_eq_range']

theorem cursors_eq : l.cursors = (List.range (l.longer + 1)).map l.place :=
  cursorsFrom_cursor (Nat.lt_succ_self l.longer)

theorem cells_eq : l.cells = (List.range (l.longer + 1)).map l.centre := by
  rw [cells, cursors_eq, List.map_map]
  rfl

end Place

section Drift

theorem drift_bounds (hf : f ≤ l.longer) :
    -(l.longer : Int) ≤ 2 * (l.longer - f - k * f + l.advance f k * l.longer) ∧
      2 * (l.longer - f - k * f + l.advance f k * l.longer : Int) ≤ 3 * l.longer := by
  rcases Nat.eq_zero_or_pos l.longer with h | hpos
  · have hf0 : f = 0 := by omega
    simp [h, hf0]
  · have hf' : (f : Int) ≤ l.longer := Int.ofNat_le.mpr hf
    have hlow : (2 * k * f : Int) < 2 * l.longer * l.advance f k + l.longer := by
      exact_mod_cast lt_mul_advance hpos
    have hhigh : (2 * l.longer * l.advance f k : Int) ≤ 2 * k * f + l.longer := by
      exact_mod_cast mul_advance_le
    constructor <;> linarith

theorem drift_place_bounds (hk : k ≤ l.longer) :
    -3 * (l.longer : Int) ≤ 2 * (l.place k).drift ∧ 2 * (l.place k).drift ≤ 3 * l.longer := by
  rw [place, advanceX, advanceY, width, height]
  rcases Nat.le_total (l.stop.y - l.start.y).natAbs (l.stop.x - l.start.x).natAbs with hle | hle
  · have hl : (l.stop.x - l.start.x).natAbs = l.longer := (Nat.max_eq_left hle).symm
    have hd := drift_bounds (k := k) (height_le_longer (l := l))
    rw [hl, advance_longer hk]
    constructor <;> linarith
  · have hl : (l.stop.y - l.start.y).natAbs = l.longer := (Nat.max_eq_right hle).symm
    have hd := drift_bounds (k := k) (width_le_longer (l := l))
    rw [hl, advance_longer hk]
    constructor <;> linarith

end Drift

section Shape

theorem natAbs_toward_succ_sub_le (a b : Int) (n : Nat) :
    (toward a b (n + 1) - toward a b n).natAbs ≤ 1 := by
  by_cases h : a = b
  · simp [toward, h]
  · rw [toward_succ h]
    split <;> omega

theorem natAbs_toward_advance_le {a b : Int} (he : e ≤ l.longer) (hk : k < l.longer) :
    (toward a b (l.advance e (k + 1)) - toward a b (l.advance e k)).natAbs ≤ 1 := by
  have hle : l.advance e k ≤ l.advance e (k + 1) := advance_le_succ
  have hsucc := advance_succ_le he hk
  rcases Nat.lt_or_ge (l.advance e k) (l.advance e (k + 1)) with hlt | hge
  · have hadv : l.advance e (k + 1) = l.advance e k + 1 := by omega
    rw [hadv]
    exact natAbs_toward_succ_sub_le a b _
  · have hadv : l.advance e (k + 1) = l.advance e k := by omega
    simp [hadv]

theorem abs_advance_sub_le (e k : Nat) :
    |(l.advance e k : ℚ) - k * e / l.longer| ≤ 1 / 2 := by
  rcases Nat.eq_zero_or_pos l.longer with h | hpos
  · simp [advance, h]
  · have hpos' : (0 : ℚ) < l.longer := by exact_mod_cast hpos
    have hlow : (2 * k * e : ℚ) < 2 * l.longer * l.advance e k + l.longer := by
      exact_mod_cast lt_mul_advance hpos
    have hhigh : (2 * l.longer * l.advance e k : ℚ) ≤ 2 * k * e + l.longer := by
      exact_mod_cast mul_advance_le
    have heq : (l.advance e k : ℚ) - k * e / l.longer =
        (2 * l.longer * l.advance e k - 2 * k * e) / (2 * l.longer) := by
      field_simp
    rw [heq, abs_le, le_div_iff₀ (by linarith), div_le_iff₀ (by linarith)]
    constructor <;> linarith

/-- On each axis a place is within half a unit of the ideal line. -/
theorem abs_toward_advance_sub_le (a b : Int) (k : Nat) :
    |(toward a b (l.advance (b - a).natAbs k) : ℚ) - (a + (b - a) * k / l.longer)| ≤ 1 / 2 := by
  have hsign : (b - a : ℚ) = (b - a).sign * ((b - a).natAbs : ℚ) := by
    rw [← Int.cast_sub, ← Int.cast_natCast (b - a).natAbs, ← Int.cast_mul, Int.sign_mul_natAbs]
  have hone : |((b - a).sign : ℚ)| ≤ 1 := by
    rcases Int.lt_trichotomy (b - a) 0 with h | h | h
    · simp [Int.sign_eq_neg_one_of_neg h]
    · simp [h]
    · simp [Int.sign_eq_one_of_pos h]
  have heq : (toward a b (l.advance (b - a).natAbs k) : ℚ) - (a + (b - a) * k / l.longer) =
      (b - a).sign * (l.advance (b - a).natAbs k - k * (b - a).natAbs / l.longer) := by
    rw [hsign, toward]
    push_cast
    ring
  rw [heq, abs_mul]
  calc |((b - a).sign : ℚ)| * |(l.advance (b - a).natAbs k : ℚ) - k * (b - a).natAbs / l.longer|
      ≤ 1 * (1 / 2) :=
        mul_le_mul hone (abs_advance_sub_le _ k) (abs_nonneg _) zero_le_one
    _ = 1 / 2 := one_mul _

end Shape

end Line

end LSystem
