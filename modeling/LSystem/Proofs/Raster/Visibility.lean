import LSystem.Proofs.Geometry.ExactClipping
import LSystem.Proofs.Raster.Painting

/-! # What clipping leaves visible

Over the rationals the cells of a line stay within one unit of the line: half a unit is lost where
the ends are rounded, and another half where the line of cells leaves the ideal one between them.
The room around the canvas is one unit more than half a brush, so a line whose cells a brush carries
onto the canvas has a point in the padded box, and clipping rejects only what nobody would see.
-/

namespace LSystem

theorem abs_roundRat_sub_le (q : ℚ) : |(roundRat q : ℚ) - q| ≤ 1 / 2 := by
  unfold roundRat
  rw [abs_le]
  split_ifs
  · have hlow := Rat.lt_floor_add_one (q + 1 / 2)
    have hhigh := Rat.floor_le (q + 1 / 2)
    push_cast at hlow
    constructor <;> linarith
  · have hlow := Rat.lt_floor_add_one (1 / 2 - q)
    have hhigh := Rat.floor_le (1 / 2 - q)
    push_cast at hlow ⊢
    constructor <;> linarith

/-- On each axis the cell is at most `r` away from the point. -/
structure Cell.Near (r : ℚ) (c : Cell) (p : Point ℚ) : Prop where
  x : |(c.x : ℚ) - p.x| ≤ r
  y : |(c.y : ℚ) - p.y| ≤ r

theorem Point.near_toCell (p : Point ℚ) : p.toCell.Near (1 / 2) p :=
  ⟨abs_roundRat_sub_le p.x, abs_roundRat_sub_le p.y⟩

section Cells

variable {a b : Point ℚ} {l : Line} {c : Cell} {x y u v r t : ℚ}

theorem abs_between_sub_le (hx : |x - u| ≤ r) (hy : |y - v| ≤ r) (hzero : 0 ≤ t) (hone : t ≤ 1) :
    |(x + (y - x) * t) - (u + (v - u) * t)| ≤ r := by
  calc |(x + (y - x) * t) - (u + (v - u) * t)| = |(x - u) * (1 - t) + (y - v) * t| := by ring_nf
    _ ≤ |(x - u) * (1 - t)| + |(y - v) * t| := abs_add_le _ _
    _ = |x - u| * (1 - t) + |y - v| * t := by
      rw [abs_mul, abs_mul, abs_of_nonneg (sub_nonneg.mpr hone), abs_of_nonneg hzero]
    _ ≤ r * (1 - t) + r * t :=
      add_le_add (mul_le_mul_of_nonneg_right hx (sub_nonneg.mpr hone))
        (mul_le_mul_of_nonneg_right hy hzero)
    _ = r := by ring

theorem abs_sub_between_le_one {n : ℚ} (hn : |n - (x + (y - x) * t)| ≤ 1 / 2)
    (hx : |x - u| ≤ 1 / 2) (hy : |y - v| ≤ 1 / 2) (hzero : 0 ≤ t) (hone : t ≤ 1) :
    |n - (u + (v - u) * t)| ≤ 1 := by
  calc |n - (u + (v - u) * t)|
      ≤ |n - (x + (y - x) * t)| + |(x + (y - x) * t) - (u + (v - u) * t)| := abs_sub_le _ _ _
    _ ≤ 1 / 2 + 1 / 2 := add_le_add hn (abs_between_sub_le hx hy hzero hone)
    _ = 1 := add_halves 1

/-- A cell of a line between rounded points is within one unit of the line between the points. -/
theorem exists_near_of_mem_cells (hstart : l.start.Near (1 / 2) a) (hstop : l.stop.Near (1 / 2) b)
    (hc : c ∈ l.cells) : ∃ p ∈ a.segment b, c.Near 1 p := by
  obtain ⟨k, hk⟩ := List.mem_iff_getElem?.mp hc
  have hlt : k < l.cells.length := (List.getElem?_eq_some_iff.mp hk).1
  rw [l.straight_cells.length_eq] at hlt
  have hle : (k : ℚ) ≤ l.longer := by exact_mod_cast Nat.le_of_lt_succ hlt
  have hzero : (0 : ℚ) ≤ k / l.longer := by positivity
  have hone : (k : ℚ) / l.longer ≤ 1 := div_le_one_of_le₀ hle (Nat.cast_nonneg _)
  obtain ⟨hx, hy⟩ := l.straight_cells.near k c hk
  rw [mul_div_assoc] at hx hy
  exact ⟨a.along b (k / l.longer), Set.mem_image_of_mem _ ⟨hzero, hone⟩,
    abs_sub_between_le_one hx hstart.x hstop.x hzero hone,
    abs_sub_between_le_one hy hstart.y hstop.y hzero hone⟩

end Cells

section Padding

variable {width height size side p x y : ℕ} {center : ℤ} {q : ℚ} {c : Cell} {point : Point ℚ}

theorem padded_of_reaches (hp : p < side) (h : Reaches size center p)
    (hq : |(center : ℚ) - q| ≤ 1) :
    -((size : ℚ) / 2 + 1) ≤ q ∧ q ≤ side - 1 + ((size : ℚ) / 2 + 1) := by
  have hlow : -(size : ℤ) ≤ 2 * center := by
    unfold Reaches at h
    omega
  have hhigh : 2 * center ≤ 2 * side - 2 + size := by
    unfold Reaches at h
    omega
  have hlow' : -(size : ℚ) ≤ 2 * center := by exact_mod_cast hlow
  have hhigh' : 2 * (center : ℚ) ≤ 2 * side - 2 + size := by exact_mod_cast hhigh
  obtain ⟨h₁, h₂⟩ := abs_le.mp hq
  constructor <;> linarith

theorem mem_region_paddedBox : point ∈ (paddedBox width height size).region ↔
    (-((size : ℚ) / 2 + 1) ≤ point.x ∧ point.x ≤ width - 1 + ((size : ℚ) / 2 + 1)) ∧
      -((size : ℚ) / 2 + 1) ≤ point.y ∧ point.y ≤ height - 1 + ((size : ℚ) / 2 + 1) := by
  have hregion : point ∈ (paddedBox width height size).region ↔
      (-((size : ℚ) / (2 : ℕ) + (1 : ℕ)) ≤ point.x ∧
        point.x ≤ width - (1 : ℕ) + ((size : ℚ) / (2 : ℕ) + (1 : ℕ))) ∧
      -((size : ℚ) / (2 : ℕ) + (1 : ℕ)) ≤ point.y ∧
        point.y ≤ height - (1 : ℕ) + ((size : ℚ) / (2 : ℕ) + (1 : ℕ)) := Iff.rfl
  rw [hregion, Nat.cast_one, Nat.cast_ofNat]

theorem mem_region_of_brushes (hx : x < width) (hy : y < height) (hc : c.Brushes size x y)
    (hnear : c.Near 1 point) : point ∈ (paddedBox width height size).region :=
  mem_region_paddedBox.mpr ⟨padded_of_reaches hx hc.1 hnear.x, padded_of_reaches hy hc.2 hnear.y⟩

theorem abs_le_of_padded (hside : side < 2 ^ 32) (hsize : size < 2 ^ 32)
    (h : |(center : ℚ) - q| ≤ 1 / 2)
    (hq : -((size : ℚ) / 2 + 1) ≤ q ∧ q ≤ side - 1 + ((size : ℚ) / 2 + 1)) :
    |center| ≤ 2 ^ 33 := by
  have hside' : (side : ℚ) < 2 ^ 32 := by exact_mod_cast hside
  have hsize' : (size : ℚ) < 2 ^ 32 := by exact_mod_cast hsize
  have hpos : (0 : ℚ) ≤ side := Nat.cast_nonneg _
  obtain ⟨hlow, hhigh⟩ := abs_le.mp h
  have habs : |(center : ℚ)| ≤ 2 ^ 33 := by
    rw [abs_le]
    constructor <;> linarith [hq.1, hq.2]
  exact_mod_cast habs

theorem abs_toCell_le (hwidth : width < 2 ^ 32) (hheight : height < 2 ^ 32) (hsize : size < 2 ^ 32)
    (h : point ∈ (paddedBox width height size).region) :
    |point.toCell.x| ≤ 2 ^ 33 ∧ |point.toCell.y| ≤ 2 ^ 33 := by
  obtain ⟨hx, hy⟩ := mem_region_paddedBox.mp h
  exact ⟨abs_le_of_padded hwidth hsize point.near_toCell.x hx,
    abs_le_of_padded hheight hsize point.near_toCell.y hy⟩

end Padding

section Clip

variable {width height size x y : ℕ} {a b start stop : Point ℚ} {l : Line} {c : Cell}

theorem exists_cut_of_lineBetween (h : lineBetween width height size a b = some l) :
    ∃ start stop, (paddedBox width height size).Cut a b start stop ∧
      l = ⟨start.toCell, stop.toCell⟩ := by
  obtain ⟨⟨start, stop⟩, hclip, hl⟩ := Option.map_eq_some_iff.mp h
  exact ⟨start, stop, Box.cut_of_clip hclip, hl.symm⟩

theorem Box.Cut.ends_mem {box : Box ℚ} (h : box.Cut a b start stop) :
    start ∈ box.region ∧ stop ∈ box.region := by
  have hsubset : start.segment stop ⊆ box.region := h.segment_eq ▸ Set.inter_subset_right
  constructor
  · exact hsubset ⟨0, ⟨le_rfl, zero_le_one⟩, Point.along_zero _ _⟩
  · exact hsubset ⟨1, ⟨zero_le_one, le_rfl⟩, Point.along_one _ _⟩

theorem exists_near_of_lineBetween (h : lineBetween width height size a b = some l)
    (hc : c ∈ l.cells) : ∃ p ∈ a.segment b, c.Near 1 p := by
  obtain ⟨start, stop, hcut, rfl⟩ := exists_cut_of_lineBetween h
  obtain ⟨p, hp, hnear⟩ := exists_near_of_mem_cells start.near_toCell stop.near_toCell hc
  rw [hcut.segment_eq] at hp
  exact ⟨p, hp.1, hnear⟩

/-- No number on the cells of a clipped line leaves the 64-bit range. -/
theorem representable_of_lineBetween (hwidth : width < 2 ^ 32) (hheight : height < 2 ^ 32)
    (hsize : size < 2 ^ 32) (h : lineBetween width height size a b = some l) :
    l.Representable size := by
  obtain ⟨start, stop, hcut, rfl⟩ := exists_cut_of_lineBetween h
  obtain ⟨hstart, hstop⟩ := hcut.ends_mem
  obtain ⟨hax, hay⟩ := abs_toCell_le hwidth hheight hsize hstart
  obtain ⟨hbx, hby⟩ := abs_toCell_le hwidth hheight hsize hstop
  have hfits : ∀ n : ℤ, |n| ≤ 2 ^ 33 → brushFits size n := by
    intro n hn
    rw [abs_le] at hn
    simp only [brushFits, Bool.and_eq_true, Single.fitsWord_iff, Single.minWord, Single.maxWord]
    omega
  refine Line.representable_of_short ?_ ⟨hfits _ hax, hfits _ hay⟩ ⟨hfits _ hbx, hfits _ hby⟩
  rw [abs_le] at hax hay hbx hby
  simp only [Line.longer, Single.maxWord]
  omega

/-- A line that clipping rejects is nowhere near enough for the brush to reach the canvas. -/
theorem not_brushes_of_clip_eq_none (h : (paddedBox width height size).clip a b = none)
    (hc : c ∈ Line.cells ⟨a.toCell, b.toCell⟩) (hx : x < width) (hy : y < height) :
    ¬ c.Brushes size x y := by
  intro hbrush
  obtain ⟨p, hp, hnear⟩ := exists_near_of_mem_cells a.near_toCell b.near_toCell hc
  have hempty := Box.clip_eq_none_iff.mp h
  exact Set.notMem_empty p (hempty ▸ ⟨hp, mem_region_of_brushes hx hy hbrush hnear⟩)

end Clip

namespace Canvas

variable {c : Canvas} {p : Pen} {cells : List Cell}

theorem stamps_eq_self (h : ∀ cell ∈ cells, ∀ x < c.width, ∀ y < c.height,
    ¬ cell.Brushes p.size x y) (x y : ℕ) : (c.stamps p cells).pixel? x y = c.pixel? x y := by
  by_cases hxy : x < c.width ∧ y < c.height
  · rw [pixel?_stamps hxy.1 hxy.2, if_neg]
    rintro ⟨cell, hcell, hbrush⟩
    exact h cell hcell x hxy.1 y hxy.2 hbrush
  · rw [pixel?, pixel?, width_stamps, height_stamps, if_neg hxy, if_neg hxy]

/-- A line that is not rejected is stamped close to itself, and the cells of one that is rejected,
were they stamped without clipping, would not show on the canvas. -/
theorem clipping_loses_nothing (c : Canvas) (p : Pen) (a b : Point ℚ) :
    (∀ l, lineBetween c.width c.height p.size a b = some l →
      (∀ cell ∈ l.cells, ∃ q ∈ a.segment b, cell.Near 1 q) ∧
      (c.width < 2 ^ 32 → c.height < 2 ^ 32 → p.width < 2 ^ 32 →
        c.trace p l = .ok (c.stamps p l.cells))) ∧
    ((paddedBox c.width c.height p.size).clip a b = none →
      (∀ cell ∈ Line.cells ⟨a.toCell, b.toCell⟩, ∀ x < c.width, ∀ y < c.height,
        ¬ cell.Brushes p.size x y) ∧
      ∀ x y, (c.stamps p (Line.cells ⟨a.toCell, b.toCell⟩)).pixel? x y = c.pixel? x y) := by
  refine ⟨fun l hl => ⟨fun cell hcell => exists_near_of_lineBetween hl hcell,
    fun hwidth hheight hpen => ?_⟩, fun hnone => ?_⟩
  · have hsize : p.size < 2 ^ 32 := max_lt hpen (by norm_num)
    exact trace_eq_ok c (representable_of_lineBetween hwidth hheight hsize hl)
  · have hunseen : ∀ cell ∈ Line.cells ⟨a.toCell, b.toCell⟩, ∀ x < c.width, ∀ y < c.height,
        ¬ cell.Brushes p.size x y := fun cell hcell x hx y hy =>
      not_brushes_of_clip_eq_none hnone hcell hx hy
    exact ⟨hunseen, stamps_eq_self hunseen⟩

theorem clipping_loses_nothing_corner :
    let c := blank 10 10 ⟨255, 255, 255⟩
    let p : Pen := ⟨⟨0, 0, 0⟩, 1⟩
    let a : Point ℚ := ⟨-4, 1⟩
    let b : Point ℚ := ⟨1, -4⟩
    let u : Point ℚ := ⟨-4, 1 / 2⟩
    let v : Point ℚ := ⟨1 / 2, -4⟩
    (lineBetween 10 10 1 a b = some ⟨⟨-2, -2⟩, ⟨-2, -2⟩⟩ ∧
      (∃ q ∈ a.segment b, Cell.Near 1 ⟨-2, -2⟩ q) ∧
      c.trace p ⟨⟨-2, -2⟩, ⟨-2, -2⟩⟩ = .ok (c.stamps p (Line.cells ⟨⟨-2, -2⟩, ⟨-2, -2⟩⟩))) ∧
    (paddedBox 10 10 1).clip u v = none ∧
      ∀ x y, (c.stamps p (Line.cells ⟨⟨-4, 1⟩, ⟨1, -4⟩⟩)).pixel? x y = c.pixel? x y := by
  intro c p a b u v
  have hline : lineBetween 10 10 1 a b = some ⟨⟨-2, -2⟩, ⟨-2, -2⟩⟩ := by decide +kernel
  have hnone : (paddedBox 10 10 1).clip u v = none :=
    Option.isNone_iff_eq_none.mp (by decide +kernel)
  have hcells : Line.mk u.toCell v.toCell = ⟨⟨-4, 1⟩, ⟨1, -4⟩⟩ := by decide +kernel
  obtain ⟨hnear, htrace⟩ := (clipping_loses_nothing c p a b).1 _ hline
  refine ⟨⟨hline, ?_, ?_⟩, hnone, ?_⟩
  · exact hnear _ (by decide +kernel)
  · exact htrace (by decide) (by decide) (by decide)
  · rw [← hcells]
    exact ((clipping_loses_nothing c p u v).2 hnone).2

end Canvas

end LSystem
