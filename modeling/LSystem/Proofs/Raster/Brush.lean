import LSystem.Raster.Drawing

/-! # The brush

A brush paints the pixels of the canvas that are inside of its square, wherever it stands, and
no others. The painted runs are cut to the canvas first, so that the rows of pixels do not run into
each other.
-/

namespace LSystem

/-- On one axis, the brush of a size covers `p` when it stands at `center`. -/
def Reaches (size : Nat) (center : Int) (p : Nat) : Prop :=
  center - ((size - 1) / 2 : Nat) ≤ p ∧ p ≤ center + (size / 2 : Nat)

instance (size : Nat) (center : Int) (p : Nat) : Decidable (Reaches size center p) :=
  inferInstanceAs (Decidable (_ ∧ _))

def Cell.Brushes (size : Nat) (cell : Cell) (x y : Nat) : Prop :=
  Reaches size cell.x x ∧ Reaches size cell.y y

instance (size : Nat) (cell : Cell) (x y : Nat) : Decidable (cell.Brushes size x y) :=
  inferInstanceAs (Decidable (_ ∧ _))

theorem Pen.size_pos (p : Pen) : 0 < p.size := Nat.le_max_right p.width 1

section Span

variable {size side p : Nat} {center : Int}

theorem brushSpan_le (h : 0 < (brushSpan size center side).count) :
    (brushSpan size center side).first + (brushSpan size center side).count ≤ side := by
  simp only [brushSpan] at h ⊢
  omega

/-- Of the pixels on the canvas, cutting the brush to it loses none. -/
theorem mem_brushSpan (hsize : 0 < size) (hp : p < side) :
    (brushSpan size center side).first ≤ p ∧
        p < (brushSpan size center side).first + (brushSpan size center side).count ↔
      Reaches size center p := by
  simp only [brushSpan, Reaches]
  omega

end Span

section Pixels

variable {color : Color} {i n k : Nat} {pixels : Array Color}

theorem getElem?_paintRun (hk : k < pixels.size) :
    (paintRun color i n pixels)[k]? = if i ≤ k ∧ k < i + n then some color else pixels[k]? := by
  induction n generalizing i pixels with
  | zero =>
    rw [paintRun, if_neg]
    omega
  | succ n ih =>
    rw [paintRun, ih (by rwa [Array.size_setIfInBounds]), Array.getElem?_setIfInBounds]
    by_cases hik : i = k
    · rw [if_neg (by omega), if_pos hik, if_pos (hik ▸ hk), if_pos (by omega)]
    · rw [if_neg hik]
      exact ite_congr (propext (by omega)) (fun _ => rfl) (fun _ => rfl)

theorem getElem?_paintRows {width run : Nat} (hk : k < pixels.size) :
    (paintRows color width run i n pixels)[k]? =
      if ∃ r < n, i + r * width ≤ k ∧ k < i + r * width + run then some color else pixels[k]? := by
  induction n generalizing i pixels with
  | zero => simp [paintRows]
  | succ n ih =>
    have hrow : ∀ r, i + (r + 1) * width = i + width + r * width := fun r => by
      rw [Nat.succ_mul, Nat.add_comm _ width, Nat.add_assoc]
    simp only [paintRows, ih (size_paintRun .. ▸ hk), getElem?_paintRun hk,
      Nat.exists_lt_succ_left, hrow, Nat.zero_mul, Nat.add_zero]
    split <;> simp [*]

theorem row_le {width a b p : Nat} (ha : a * width ≤ p) (hb : p < b * width + width) : a ≤ b := by
  refine Nat.le_of_lt_succ (Nat.lt_of_mul_lt_mul_right (a := width) ?_)
  rw [Nat.succ_mul]
  omega

theorem exists_row_iff {width x y first run top : Nat} (hx : x < width)
    (hrun : 0 < run → first + run ≤ width) :
    (∃ r < n, top * width + first + r * width ≤ y * width + x ∧
        y * width + x < top * width + first + r * width + run) ↔
      (first ≤ x ∧ x < first + run) ∧ top ≤ y ∧ y < top + n := by
  constructor
  · rintro ⟨r, hr, hlow, hhigh⟩
    have hle := hrun (by omega)
    have hmul : (top + r) * width = top * width + r * width := Nat.add_mul ..
    -- the run is in row `top + r`, and so is the pixel
    have hfrom : (top + r) * width ≤ y * width + x := by omega
    have hto : y * width + x < (top + r) * width + width := by omega
    have hy : y = top + r :=
      Nat.le_antisymm (row_le (Nat.le_add_right _ x) hto) (row_le hfrom (Nat.add_lt_add_left hx _))
    subst hy
    omega
  · rintro ⟨hmem, hlow, hhigh⟩
    obtain ⟨r, rfl⟩ := Nat.exists_eq_add_of_le hlow
    refine ⟨r, by omega, ?_⟩
    rw [Nat.add_mul]
    omega

end Pixels

namespace Canvas

variable {c : Canvas} {color : Color} {size x y : Nat} {cell : Cell}

/-- A stamp paints what the brush covers and leaves all other pixels. -/
theorem pixel?_stamp (hsize : 0 < size) (hx : x < c.width) (hy : y < c.height) :
    (c.stamp color size cell).pixel? x y =
      if cell.Brushes size x y then some color else c.pixel? x y := by
  have hxy : x < c.width ∧ y < c.height := ⟨hx, hy⟩
  rw [pixel?, pixel?, if_pos hxy, width_stamp, height_stamp, if_pos hxy]
  simp only [stamp]
  rw [getElem?_paintRows (c.size_pixels ▸ index_lt hx hy)]
  refine ite_congr (propext ?_) (fun _ => rfl) (fun _ => rfl)
  rw [exists_row_iff hx brushSpan_le, mem_brushSpan hsize hx, mem_brushSpan hsize hy]
  rfl

end Canvas

end LSystem
