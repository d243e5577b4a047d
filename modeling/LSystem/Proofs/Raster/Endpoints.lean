import LSystem.Proofs.Raster.Clipping
import LSystem.Proofs.Raster.Painting

/-! # The ends of a line

A line between two points of the canvas is not cut. Both ends satisfy each condition of clipping
with room to spare, and rounding keeps the order of different numbers: a bound from below is stored
as no more than zero and a bound from above as no less than one, if it is a number at all. The line
is then stamped from the pixel of its start to the pixel of its end, and a brush covers the pixel it
is on.
-/

namespace LSystem

open Binary.MachineNumber

namespace Interval

variable {p q low high a b : Float32}

/-- A condition that both ends of the line satisfy takes away nothing. -/
theorem restrict_whole (hp : IsFinite p) (hq : IsFinite q) (hnonneg : 0 ≤ value q)
    (hle : value p ≤ value q) : whole.restrict p q = some whole := by
  have hwhole := valid_whole
  have hfirst : value (whole : Interval Float32).first = 0 := Single.ofNat_zero.2
  have hlast : value (whole : Interval Float32).last = 1 := Single.ofNat_one.2
  rcases lt_trichotomy (value p) 0 with hneg | hzero | hpos
  · have hyields := yields_div hq hp hneg.ne
    have hquotient : value q / value p ≤ 0 := div_nonpos_of_nonneg_of_nonpos hnonneg hneg.le
    rw [restrict_of_neg hp hneg, if_neg, if_neg]
    · exact not_lt_of_le hyields hwhole.isFinite_first (hquotient.trans hfirst.ge)
    · exact not_lt_of_le hyields hwhole.isFinite_last
        (hquotient.trans (zero_le_one.trans hlast.ge))
  · rw [restrict_of_zero hp hzero, if_neg]
    rw [Single.lt_zero_iff hq]
    exact hnonneg.not_gt
  · have hyields := yields_div hq hp hpos.ne'
    have hquotient : 1 ≤ value q / value p := (one_le_div hpos).mpr hle
    rw [restrict_of_pos hp hpos, if_neg, if_neg]
    · exact not_lt_of_ge hyields hwhole.isFinite_last (hlast.le.trans hquotient)
    · exact not_lt_of_ge hyields hwhole.isFinite_first
        (hfirst.le.trans (zero_le_one.trans hquotient))

/-- A coordinate between the sides of a box. -/
structure Between (low high x : Float32) : Prop where
  moderate : Moderate 0 x
  low_lt : value low < value x
  lt_high : value x < value high

theorem restrict_whole_of_between (hlow : Moderate 0 low) (hhigh : Moderate 0 high)
    (ha : Between low high a) (hb : Between low high b) :
    whole.restrict (-(b - a)) (a - low) = some whole ∧
      whole.restrict (b - a) (high - a) = some whole := by
  have hd := (hb.moderate.sub (Nat.zero_le _) ha.moderate).1.isFinite
  have hbelow := (ha.moderate.sub (Nat.zero_le _) hlow).1.isFinite
  have habove := (hhigh.sub (Nat.zero_le _) ha.moderate).1.isFinite
  have hrounds := (yields_sub hb.moderate.isFinite ha.moderate.isFinite).rounds hd
  have hrounds₁ := (yields_sub ha.moderate.isFinite hlow.isFinite).rounds hbelow
  have hrounds₂ := (yields_sub hhigh.isFinite ha.moderate.isFinite).rounds habove
  constructor
  · refine restrict_whole (isFinite_neg hd) hbelow
      (hrounds₁.nonneg (sub_nonneg.mpr ha.low_lt.le)) ?_
    rw [value_neg]
    exact hrounds.neg.mono hrounds₁ (by linarith [hb.low_lt])
  · refine restrict_whole hd habove (hrounds₂.nonneg (sub_nonneg.mpr ha.lt_high.le)) ?_
    exact hrounds.mono hrounds₂ (sub_lt_sub_right hb.lt_high _)

end Interval

theorem Box.clip_eq_self {box : Box Float32} {a b : Point Float32} (ha : a.isFinite)
    (hb : b.isFinite)
    (hx : Interval.whole.restrict (-(b.x - a.x)) (a.x - box.low.x) = some Interval.whole ∧
      Interval.whole.restrict (b.x - a.x) (box.high.x - a.x) = some Interval.whole)
    (hy : Interval.whole.restrict (-(b.y - a.y)) (a.y - box.low.y) = some Interval.whole ∧
      Interval.whole.restrict (b.y - a.y) (box.high.y - a.y) = some Interval.whole) :
    box.clip a b = some (a, b) := by
  have hends : (a.isFinite && b.isFinite) = true := by rw [ha, hb]; rfl
  have hstart : ¬ ((0 : ℕ) : Float32) < (Interval.whole : Interval Float32).first :=
    (Single.zero_lt_iff Single.ofNat_zero.1).not.mpr Single.ofNat_zero.2.le.not_gt
  have hstop : ¬ (Interval.whole : Interval Float32).last < ((1 : ℕ) : Float32) :=
    (lt_iff Single.ofNat_one.1 Single.ofNat_one.1).not.mpr (lt_irrefl _)
  rw [clip, if_pos hends]
  simp only [Point.sub_x, Point.sub_y, hx.1, hx.2, hy.1, hy.2, Option.bind_eq_bind,
    Option.bind_some, if_neg hstart, if_neg hstop]
  rfl

/-- The point is one of numbers and rounds to a pixel of a canvas. -/
structure Point.Occupies (width height : ℕ) (p : Point Float32) (x y : ℕ) : Prop where
  isFinite : p.isFinite
  toCell_eq : p.toCell = ⟨x, y⟩
  lt_width : x < width
  lt_height : y < height

section Pixel

variable {width height size side n x y : ℕ} {low high r : Float32} {p : Point Float32}

theorem between_of_round (hside : side ≤ 16384) (hn : n < side) (hr : IsFinite r)
    (h : Single.round r = n) (hlow : value low ≤ -1) (hhigh : (side : ℚ) ≤ value high) :
    Interval.Between low high r := by
  have hsmall : |value r| ≤ 2 ^ 62 := Single.abs_value_le_of_round hr (by rw [h, abs_le]; omega)
  have hnear := Single.abs_round_sub_le hr hsmall
  rw [h, Int.cast_natCast] at hnear
  obtain ⟨hbelow, habove⟩ := abs_le.mp hnear
  have hzero : (0 : ℚ) ≤ n := Nat.cast_nonneg n
  have hlast : (n : ℚ) + 1 ≤ side := by exact_mod_cast hn
  have hside' : (side : ℚ) ≤ 16384 := by exact_mod_cast hside
  have hpow : (16384 : ℚ) + 1 ≤ 2 ^ (22 + 0) := by norm_num
  refine ⟨⟨hr, abs_le.mpr ⟨?_, ?_⟩⟩, ?_, ?_⟩ <;> linarith

theorem Point.Occupies.between (hwidth : width ≤ 16384) (hheight : height ≤ 16384)
    (hsize : size ≤ 256) (h : p.Occupies width height x y) :
    let box : Box Float32 := paddedBox width height size
    Interval.Between box.low.x box.high.x p.x ∧ Interval.Between box.low.y box.high.y p.y := by
  obtain ⟨hlx, hly, hhx, hhy⟩ := value_paddedBox hwidth hheight hsize
  obtain ⟨hfx, hfy⟩ := Bool.and_eq_true_iff.mp h.isFinite
  obtain ⟨hx, hy⟩ := Cell.mk.inj h.toCell_eq
  have hpad : (0 : ℚ) ≤ (size : ℚ) / (2 : ℕ) := by positivity
  have hlow : -((size : ℚ) / (2 : ℕ) + (1 : ℕ)) ≤ -1 := by
    push_cast
    linarith
  have hhigh : ∀ k : ℕ, (k : ℚ) ≤ k - (1 : ℕ) + ((size : ℚ) / (2 : ℕ) + (1 : ℕ)) := by
    intro k
    push_cast
    linarith
  constructor
  · exact between_of_round hwidth h.lt_width hfx hx (hlx.trans_le hlow)
      ((hhigh width).trans_eq hhx.symm)
  · exact between_of_round hheight h.lt_height hfy hy (hly.trans_le hlow)
      ((hhigh height).trans_eq hhy.symm)

theorem brushes_self (size x y : ℕ) : Cell.Brushes size ⟨x, y⟩ x y := by
  simp only [Cell.Brushes, Reaches]
  omega

end Pixel

namespace Canvas

variable {a b : Point Float32} {x₀ y₀ x₁ y₁ : ℕ}

/-- Clipping returns two points of the canvas bit for bit, the line ends at the pixel of the second
one, and the pixels of both have the colour of the pen then. -/
theorem drawLine_paints_ends (canvas : Canvas) (p : Pen) (hwidth : canvas.width ≤ 16384)
    (hheight : canvas.height ≤ 16384) (hpen : p.width ≤ 256)
    (ha : a.Occupies canvas.width canvas.height x₀ y₀)
    (hb : b.Occupies canvas.width canvas.height x₁ y₁) :
    let l : Line := ⟨⟨x₀, y₀⟩, ⟨x₁, y₁⟩⟩
    (paddedBox canvas.width canvas.height p.size).clip a b = some (a, b) ∧
      l.cells.getLast? = some l.stop ∧
      ∃ drawn, canvas.drawLine p a b = .ok drawn ∧ drawn = canvas.stamps p l.cells ∧
        drawn.pixel? x₀ y₀ = some p.color ∧ drawn.pixel? x₁ y₁ = some p.color := by
  intro l
  have hsize : p.size ≤ 256 := max_le hpen (by norm_num)
  obtain ⟨hx, hy⟩ := sides_paddedBox (Nat.zero_le _) hwidth hheight hsize
  obtain ⟨hax, hay⟩ := ha.between hwidth hheight hsize
  obtain ⟨hbx, hby⟩ := hb.between hwidth hheight hsize
  have hclip : (paddedBox canvas.width canvas.height p.size).clip a b = some (a, b) :=
    Box.clip_eq_self ha.isFinite hb.isFinite
      (Interval.restrict_whole_of_between hx.moderate_low hx.moderate_high hax hbx)
      (Interval.restrict_whole_of_between hy.moderate_low hy.moderate_high hay hby)
  have hline : lineBetween canvas.width canvas.height p.size a b = some l := by
    simp only [lineBetween, hclip, Option.map_some, ha.toCell_eq, hb.toCell_eq, l]
  have hdraw : canvas.drawLine p a b = .ok (canvas.stamps p l.cells) := by
    rw [drawLine_eq_trace canvas p hline]
    exact trace_eq_ok canvas (short_of_lineBetween (Nat.zero_le _) hwidth hheight hsize
      ⟨hax.moderate, hay.moderate⟩ ⟨hbx.moderate, hby.moderate⟩ hline).2
  have hpainted : ∀ x y : ℕ, x < canvas.width → y < canvas.height → ⟨x, y⟩ ∈ l.cells →
      (canvas.stamps p l.cells).pixel? x y = some p.color := by
    intro x y hx hy hmem
    rw [pixel?_stamps hx hy, if_pos ⟨_, hmem, brushes_self p.size x y⟩]
  exact ⟨hclip, l.straight_cells.getLast_eq, _, hdraw, rfl,
    hpainted x₀ y₀ ha.lt_width ha.lt_height (List.mem_of_head? l.straight_cells.head_eq),
    hpainted x₁ y₁ hb.lt_width hb.lt_height (List.mem_of_getLast? l.straight_cells.getLast_eq)⟩

theorem drawLine_paints_ends_upright :
    let canvas := blank 10 10 ⟨255, 255, 255⟩
    let p : Pen := ⟨⟨0, 0, 0⟩, 256⟩
    let a : Point Float32 := ⟨1e-45, 9.25⟩
    let b : Point Float32 := ⟨0, -0.375⟩
    (a.Occupies 10 10 0 9 ∧ b.Occupies 10 10 0 0) ∧
      (paddedBox 10 10 256).clip a b = some (a, b) ∧
      ∃ drawn, canvas.drawLine p a b = .ok drawn ∧
        drawn.pixel? 0 9 = some ⟨0, 0, 0⟩ ∧ drawn.pixel? 0 0 = some ⟨0, 0, 0⟩ := by
  intro canvas p a b
  have ha : a.Occupies 10 10 0 9 :=
    ⟨by decide +kernel, by decide +kernel, by decide, by decide⟩
  have hb : b.Occupies 10 10 0 0 :=
    ⟨by decide +kernel, by decide +kernel, by decide, by decide⟩
  obtain ⟨hclip, -, drawn, hdrawn, -, hstart, hstop⟩ :=
    drawLine_paints_ends canvas p (by decide) (by decide) (by decide) ha hb
  exact ⟨⟨ha, hb⟩, hclip, drawn, hdrawn, hstart, hstop⟩

end Canvas

end LSystem
