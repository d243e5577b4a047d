import LSystem.Proofs.Raster.LineTrace
import LSystem.Proofs.Raster.Restriction

/-! # Clipped lines

The part of a line that is left near the canvas, computed in single precision. The parameters of the
ends are off by the rounding of a quotient and the coordinates by that of a difference, a product
and a sum. All of these are in proportion to the coordinates of the line, so a line from not too far
away is cut close to the box and its cells are few; from far enough away it is not cut at all.
-/

namespace LSystem

open Float.Model (Format)
open Binary (OnGrid Rounds Yields)
open Binary.MachineNumber
open Single (Half)

theorem Box.exists_of_clip {K : Type} [Scalar K] {box : Box K} {a b start stop : Point K}
    (h : box.clip a b = some (start, stop)) :
    ∃ i j k l, Interval.whole.restrict (-(b.x - a.x)) (a.x - box.low.x) = some i ∧
      i.restrict (b.x - a.x) (box.high.x - a.x) = some j ∧
      j.restrict (-(b.y - a.y)) (a.y - box.low.y) = some k ∧
      k.restrict (b.y - a.y) (box.high.y - a.y) = some l ∧
      start = (if ((0 : ℕ) : K) < l.first then a + (b - a).scale l.first else a) ∧
      stop = if l.last < ((1 : ℕ) : K) then a + (b - a).scale l.last else b := by
  rw [clip] at h
  split_ifs at h
  simp only [Option.bind_eq_bind, Option.bind_eq_some_iff] at h
  obtain ⟨i, hi, j, hj, k, hk, l, hl, h⟩ := h
  obtain ⟨rfl, rfl⟩ := Prod.mk.inj (Option.some.inj h)
  exact ⟨i, j, k, l, hi, hj, hk, hl, rfl, rfl⟩

/-- A coordinate at most `r` outside of the range between two numbers. -/
structure NearSpan (low high r : ℚ) (x : Float32) : Prop where
  isFinite : IsFinite x
  low_le : low - r ≤ value x
  le_high : value x ≤ high + r

structure Point.Near (box : Box ℚ) (r : ℚ) (p : Point Float32) : Prop where
  x : NearSpan box.low.x box.high.x r p.x
  y : NearSpan box.low.y box.high.y r p.y

section Axis

variable {n : ℕ} {low high a b t : Float32} {i j k : Interval Float32}

/-- The sides of a box along an axis. Moved out, they are still stored as they are. -/
structure Sides (n : ℕ) (low high : Float32) : Prop where
  moderate_low : Moderate n low
  moderate_high : Moderate n high
  onGrid_low : OnGrid .binary32 (value low - 2 ^ n)
  onGrid_high : OnGrid .binary32 (value high + 2 ^ n)

/-- The line from `a` in the direction that is computed for `b` stays between the sides at the
parameters that are left, up to the rounding of the conditions. -/
def Keeps (n : ℕ) (low high a b : Float32) (i : Interval Float32) : Prop :=
  ∀ t, value i.first ≤ t → t ≤ value i.last →
    value low - 3 * 2 ^ n / 4 ≤ value a + value (b - a) * t ∧
      value a + value (b - a) * t ≤ value high + 3 * 2 ^ n / 4

theorem Keeps.narrow (h : Keeps n low high a b i) (hij : i.Narrows j) : Keeps n low high a b j :=
  fun t ht ht' => h t (hij.first.trans ht) (ht'.trans hij.last)

theorem keeps_of_restrict (hn : n ≤ 22) (hs : Sides n low high) (ha : Moderate n a)
    (hb : Moderate n b) (hi : i.Valid) (hj : i.restrict (-(b - a)) (a - low) = some j)
    (hk : j.restrict (b - a) (high - a) = some k) : i.Narrows k ∧ Keeps n low high a b k := by
  obtain ⟨hd, -⟩ := hb.sub hn ha
  obtain ⟨hbelow, hbelow'⟩ := ha.sub hn hs.moderate_low
  obtain ⟨habove, habove'⟩ := hs.moderate_high.sub hn ha
  obtain ⟨hij, hlow⟩ := Interval.restrict_spec hi hd.neg hbelow.isFinite hj
  obtain ⟨hjk, hhigh⟩ := Interval.restrict_spec hij.valid hd habove.isFinite hk
  refine ⟨hij.trans hjk, fun t ht ht' => ?_⟩
  have h₁ := hlow t (hjk.first.trans ht) (ht'.trans hjk.last)
  have h₂ := hhigh t ht ht'
  rw [value_neg] at h₁
  obtain ⟨-, h₃⟩ := abs_le.mp hbelow'
  obtain ⟨-, h₄⟩ := abs_le.mp habove'
  constructor <;> linarith

theorem near_of_part (hn : n ≤ 22) (hs : Sides n low high) (ha : Moderate n a)
    (hb : Moderate n b) (ht : IsFinite t) (hzero : 0 ≤ value t) (hone : value t ≤ 1)
    (hlow : value low - 3 * 2 ^ n / 4 ≤ value a + value (b - a) * value t)
    (hhigh : value a + value (b - a) * value t ≤ value high + 3 * 2 ^ n / 4) :
    NearSpan (value low) (value high) (2 ^ n) (a + (b - a) * t) := by
  obtain ⟨hm, hm'⟩ := (hb.sub hn ha).1.mul hn ht hzero hone
  obtain ⟨hm₁, hm₂⟩ := abs_le.mp hm'
  have hsum : Yields .binary32 _ _ := yields_add ha.isFinite hm.isFinite
  have hfinite : IsFinite (a + (b - a) * t) := by
    refine hsum.isFinite (g := 2 ^ (24 + n)) ?_ ?_ ?_
    · rw [← zpow_natCast]
      refine .two_zpow ?_
      have hmin : Format.binary32.minExponent = -149 := rfl
      omega
    · refine pow_lt_pow_right₀ (by norm_num) ?_
      have hbias : Format.binary32.exponentBias = 127 := rfl
      omega
    · calc |value a + value ((b - a) * t)| ≤ |value a| + |value ((b - a) * t)| := abs_add_le _ _
        _ ≤ 2 ^ (23 + n) + 2 ^ (23 + n) := by
          refine add_le_add (ha.abs_le.trans ?_) hm.abs_le
          exact pow_le_pow_right₀ (by norm_num) (by omega)
        _ = 2 ^ (24 + n) := by ring
  have hrounds := hsum.rounds hfinite
  exact ⟨hfinite, hrounds.ge hs.onGrid_low (by linarith),
    hrounds.le hs.onGrid_high (by linarith)⟩

theorem Keeps.near_start (hn : n ≤ 22) (hs : Sides n low high) (ha : Moderate n a)
    (hb : Moderate n b) (hi : i.Valid) (h : Keeps n low high a b i) :
    NearSpan (value low) (value high) (2 ^ n)
      (if Float32.ofNat 0 < i.first then a + (b - a) * i.first else a) := by
  obtain ⟨hlow, hhigh⟩ := h (value i.first) le_rfl hi.ordered
  split_ifs with hfirst
  · exact near_of_part hn hs ha hb hi.isFinite_first hi.nonneg (hi.ordered.trans hi.le_one) hlow
      hhigh
  · rw [Single.zero_lt_iff hi.isFinite_first, not_lt] at hfirst
    rw [le_antisymm hfirst hi.nonneg, mul_zero, add_zero] at hlow hhigh
    have hunit : (0 : ℚ) < 2 ^ n := by positivity
    exact ⟨ha.isFinite, by linarith, by linarith⟩

theorem Keeps.near_stop (hn : n ≤ 22) (hs : Sides n low high) (ha : Moderate n a)
    (hb : Moderate n b) (hi : i.Valid) (h : Keeps n low high a b i) :
    NearSpan (value low) (value high) (2 ^ n)
      (if i.last < Float32.ofNat 1 then a + (b - a) * i.last else b) := by
  obtain ⟨hlow, hhigh⟩ := h (value i.last) hi.ordered le_rfl
  split_ifs with hlast
  · exact near_of_part hn hs ha hb hi.isFinite_last (hi.nonneg.trans hi.ordered) hi.le_one hlow
      hhigh
  · rw [lt_iff hi.isFinite_last Single.ofNat_one.1, Single.ofNat_one.2, not_lt] at hlast
    -- the end itself differs from the last point by the rounding of the difference
    rw [le_antisymm hi.le_one hlast, mul_one] at hlow hhigh
    obtain ⟨hd₁, hd₂⟩ := abs_le.mp (hb.sub hn ha).2
    exact ⟨hb.isFinite, by linarith, by linarith⟩

end Axis

section Padding

variable {n size side : ℕ} {x y : Float32} {k m : ℤ} {q : ℚ}

theorem moderate_of_half (hx : Half m x) (hm : |m| ≤ 2 ^ 17) : Moderate n x where
  isFinite := hx.isFinite
  abs_le := by
    have hm' : |(m : ℚ)| ≤ 2 ^ 17 := by exact_mod_cast hm
    rw [hx.value_eq, abs_div, abs_two]
    calc |(m : ℚ)| / 2 ≤ 2 ^ 17 := by linarith [abs_nonneg (m : ℚ)]
      _ ≤ 2 ^ (22 + n) := pow_le_pow_right₀ (by norm_num) (by omega)

def padding (size : ℕ) : Float32 := Float32.ofNat size / Float32.ofNat 2 + Float32.ofNat 1

def farSide (side size : ℕ) : Float32 := Float32.ofNat side - Float32.ofNat 1 + padding size

theorem half_padding (hsize : size ≤ 256) : Half (size + 2) (padding size) :=
  (Half.ofNat_div_two (by omega)).add (.ofNat (k := 1) (by decide)) (by rw [abs_le]; omega)

theorem half_farSide (hsize : size ≤ 256) (hside : side ≤ 16384) :
    Half (2 * side - 2 + (size + 2)) (farSide side size) :=
  ((Half.ofNat (by omega)).sub (.ofNat (k := 1) (by decide)) (by rw [abs_le]; omega)).add
    (half_padding hsize) (by rw [abs_le]; omega)

theorem sides_of_half (hn : n ≤ 22) (hx : Half k x) (hy : Half m y) (hk : |k| ≤ 2 ^ 17)
    (hm : |m| ≤ 2 ^ 17) : Sides n x y := by
  have hpow : (2 : ℤ) ^ n ≤ 2 ^ 22 := pow_le_pow_right₀ (by norm_num) hn
  have hpos : (0 : ℤ) < 2 ^ n := by positivity
  rw [abs_le] at hk hm
  have hlow := hx.onGrid_add (k := -2 ^ n) (by rw [abs_le]; omega)
  have hhigh := hy.onGrid_add (k := 2 ^ n) (by rw [abs_le]; omega)
  push_cast at hlow hhigh
  rw [← sub_eq_add_neg] at hlow
  exact ⟨moderate_of_half hx (abs_le.mpr hk), moderate_of_half hy (abs_le.mpr hm), hlow, hhigh⟩

end Padding

section Clip

variable {n width height size : ℕ} {a b start stop : Point Float32}

/-- A point of numbers of moderate magnitude. -/
structure Point.Moderate (n : ℕ) (p : Point Float32) : Prop where
  x : LSystem.Moderate n p.x
  y : LSystem.Moderate n p.y

theorem value_paddedBox (hwidth : width ≤ 16384) (hheight : height ≤ 16384) (hsize : size ≤ 256) :
    let box : Box ℚ := paddedBox width height size
    let stored : Box Float32 := paddedBox width height size
    value stored.low.x = box.low.x ∧ value stored.low.y = box.low.y ∧
      value stored.high.x = box.high.x ∧ value stored.high.y = box.high.y := by
  have hlow : value (-padding size) = -((size : ℚ) / (2 : ℕ) + (1 : ℕ)) := by
    rw [(half_padding hsize).neg.value_eq]
    push_cast
    ring
  have hhigh : ∀ side ≤ 16384, value (farSide side size) =
      (side : ℚ) - (1 : ℕ) + ((size : ℚ) / (2 : ℕ) + (1 : ℕ)) := by
    intro side hside
    rw [(half_farSide hsize hside).value_eq]
    push_cast
    ring
  exact ⟨hlow, hlow, hhigh width hwidth, hhigh height hheight⟩

theorem sides_paddedBox (hn : n ≤ 22) (hwidth : width ≤ 16384) (hheight : height ≤ 16384)
    (hsize : size ≤ 256) :
    let stored : Box Float32 := paddedBox width height size
    Sides n stored.low.x stored.high.x ∧ Sides n stored.low.y stored.high.y := by
  have hsides : ∀ side ≤ 16384, Sides n (-padding size) (farSide side size) := fun side hside =>
    sides_of_half hn (half_padding hsize).neg (half_farSide hsize hside) (by rw [abs_le]; omega)
      (by rw [abs_le]; omega)
  exact ⟨hsides width hwidth, hsides height hheight⟩

theorem near_of_clip (hn : n ≤ 22) (hwidth : width ≤ 16384) (hheight : height ≤ 16384)
    (hsize : size ≤ 256) (ha : a.Moderate n) (hb : b.Moderate n)
    (h : (paddedBox width height size).clip a b = some (start, stop)) :
    start.Near (paddedBox width height size) (2 ^ n) ∧
      stop.Near (paddedBox width height size) (2 ^ n) := by
  obtain ⟨hx, hy⟩ := sides_paddedBox hn hwidth hheight hsize
  obtain ⟨hlx, hly, hhx, hhy⟩ := value_paddedBox hwidth hheight hsize
  obtain ⟨i, j, k, l, hi, hj, hk, hl, hstart, hstop⟩ := Box.exists_of_clip h
  obtain ⟨hij, hkeeps⟩ := keeps_of_restrict hn hx ha.x hb.x Interval.valid_whole hi hj
  obtain ⟨hjl, hkeeps'⟩ := keeps_of_restrict hn hy ha.y hb.y hij.valid hk hl
  have hkeeps := hkeeps.narrow hjl
  have hsx := hkeeps.near_start hn hx ha.x hb.x hjl.valid
  have hsy := hkeeps'.near_start hn hy ha.y hb.y hjl.valid
  have htx := hkeeps.near_stop hn hx ha.x hb.x hjl.valid
  have hty := hkeeps'.near_stop hn hy ha.y hb.y hjl.valid
  rw [hlx, hhx] at hsx htx
  rw [hly, hhy] at hsy hty
  refine ⟨⟨?_, ?_⟩, ⟨?_, ?_⟩⟩
  · rw [hstart, apply_ite Point.x]
    exact hsx
  · rw [hstart, apply_ite Point.y]
    exact hsy
  · rw [hstop, apply_ite Point.x]
    exact htx
  · rw [hstop, apply_ite Point.y]
    exact hty

end Clip

section Cells

variable {n side size : ℕ} {x y : Float32}

def NearAxis (n side size : ℕ) (x : Float32) : Prop :=
  NearSpan (-((size : ℚ) / 2 + 1)) (side - 1 + ((size : ℚ) / 2 + 1)) (2 ^ n) x

namespace NearAxis

theorem round_bounds (hn : n ≤ 22) (hside : side ≤ 16384) (hsize : size ≤ 256)
    (hx : NearAxis n side size x) :
    -((size : ℚ) / 2 + 1) - 2 ^ n - 1 / 2 ≤ Single.round x ∧
      (Single.round x : ℚ) ≤ side - 1 + ((size : ℚ) / 2 + 1) + 2 ^ n + 1 / 2 := by
  have hpow : (2 : ℚ) ^ n ≤ 2 ^ 22 := pow_le_pow_right₀ (by norm_num) hn
  have hpos : (0 : ℚ) < 2 ^ n := by positivity
  have hside' : (side : ℚ) ≤ 16384 := by exact_mod_cast hside
  have hsize' : (size : ℚ) ≤ 256 := by exact_mod_cast hsize
  have hside₀ : (0 : ℚ) ≤ side := by positivity
  have hsize₀ : (0 : ℚ) ≤ size := by positivity
  obtain ⟨hfinite, hlow, hhigh⟩ := hx
  have hsmall : |value x| ≤ 2 ^ 62 := by
    rw [abs_le]
    constructor <;> linarith
  obtain ⟨h₁, h₂⟩ := abs_le.mp (Single.abs_round_sub_le hfinite hsmall)
  constructor <;> linarith

/-- A brush fits at the cell of the coordinate. -/
theorem brushFits_round (hn : n ≤ 22) (hside : side ≤ 16384) (hsize : size ≤ 256)
    (hx : NearAxis n side size x) : brushFits size (Single.round x) := by
  obtain ⟨hlow, hhigh⟩ := hx.round_bounds hn hside hsize
  have hpow : (2 : ℚ) ^ n ≤ 2 ^ 22 := pow_le_pow_right₀ (by norm_num) hn
  have hside' : (side : ℚ) ≤ 16384 := by exact_mod_cast hside
  have hsize' : (size : ℚ) ≤ 256 := by exact_mod_cast hsize
  have hlow' : (-2 ^ 23 : ℚ) ≤ Single.round x := by linarith
  have hhigh' : (Single.round x : ℚ) ≤ 2 ^ 23 := by linarith
  have hbelow : (-2 ^ 23 : ℤ) ≤ Single.round x := by exact_mod_cast hlow'
  have habove : Single.round x ≤ (2 ^ 23 : ℤ) := by exact_mod_cast hhigh'
  simp only [brushFits, Bool.and_eq_true, Single.fitsWord_iff, Single.minWord, Single.maxWord]
  omega

theorem natAbs_round_sub_le (hn : n ≤ 22) (hside : side ≤ 16384) (hsize : size ≤ 256)
    (hx : NearAxis n side size x) (hy : NearAxis n side size y) :
    (Single.round y - Single.round x).natAbs ≤ side + size + 2 * 2 ^ n + 2 := by
  obtain ⟨hx₁, hx₂⟩ := hx.round_bounds hn hside hsize
  obtain ⟨hy₁, hy₂⟩ := hy.round_bounds hn hside hsize
  have hdistance : |(Single.round y - Single.round x : ℚ)| ≤ side + size + 2 * 2 ^ n + 2 := by
    rw [abs_le]
    constructor <;> linarith
  zify
  exact_mod_cast hdistance

end NearAxis

end Cells

namespace Canvas

variable {n width height size : ℕ} {a b : Point Float32} {l : Line}

theorem short_of_lineBetween (hn : n ≤ 22) (hwidth : width ≤ 16384) (hheight : height ≤ 16384)
    (hsize : size ≤ 256) (ha : a.Moderate n) (hb : b.Moderate n)
    (h : lineBetween width height size a b = some l) :
    l.longer ≤ max width height + size + 2 * 2 ^ n + 2 ∧ l.Representable size := by
  obtain ⟨⟨start, stop⟩, hclip, hl⟩ := Option.map_eq_some_iff.mp h
  obtain rfl : l = ⟨start.toCell, stop.toCell⟩ := hl.symm
  obtain ⟨hstart, hstop⟩ := near_of_clip hn hwidth hheight hsize ha hb hclip
  have hstart_x : NearAxis n width size start.x := hstart.x
  have hstart_y : NearAxis n height size start.y := hstart.y
  have hstop_x : NearAxis n width size stop.x := hstop.x
  have hstop_y : NearAxis n height size stop.y := hstop.y
  have hlonger : Line.longer ⟨start.toCell, stop.toCell⟩ ≤
      max width height + size + 2 * 2 ^ n + 2 := by
    refine max_le ((hstart_x.natAbs_round_sub_le hn hwidth hsize hstop_x).trans ?_)
      ((hstart_y.natAbs_round_sub_le hn hheight hsize hstop_y).trans ?_) <;> gcongr
    · exact le_max_left ..
    · exact le_max_right ..
  refine ⟨hlonger, Line.representable_of_short ?_
    ⟨hstart_x.brushFits_round hn hwidth hsize, hstart_y.brushFits_round hn hheight hsize⟩
    ⟨hstop_x.brushFits_round hn hwidth hsize, hstop_y.brushFits_round hn hheight hsize⟩⟩
  have hpow : 2 ^ n ≤ 2 ^ 22 := Nat.pow_le_pow_right (by norm_num) hn
  have hmax : max width height ≤ 16384 := max_le hwidth hheight
  rw [Single.maxWord]
  omega

/-- A line from not too far away is cut to what is close to the padded box, so few cells are stamped
and none of the numbers on the way leaves the 64-bit range. Up to `2 ^ 22` the line is cut to within
one unit of the box, and each doubling of its coordinates doubles the distance. -/
theorem drawLine_near_box (canvas : Canvas) (p : Pen) (a b : Point Float32) {n : ℕ} (hn : n ≤ 22)
    (hwidth : canvas.width ≤ 16384) (hheight : canvas.height ≤ 16384) (hp : p.width ≤ 256)
    (ha : a.Moderate n) (hb : b.Moderate n) :
    (∀ start stop,
        (paddedBox canvas.width canvas.height p.size).clip a b = some (start, stop) →
        start.Near (paddedBox canvas.width canvas.height p.size) (2 ^ n) ∧
          stop.Near (paddedBox canvas.width canvas.height p.size) (2 ^ n)) ∧
      (∀ l, lineBetween canvas.width canvas.height p.size a b = some l →
        l.cells.length ≤ max canvas.width canvas.height + p.size + 2 * 2 ^ n + 3 ∧
          l.Representable p.size) ∧
      ∃ drawn, canvas.drawLine p a b = .ok drawn := by
  have hsize : p.size ≤ 256 := max_le hp (by norm_num)
  have hshort : ∀ l, lineBetween canvas.width canvas.height p.size a b = some l →
      l.longer ≤ max canvas.width canvas.height + p.size + 2 * 2 ^ n + 2 ∧
        l.Representable p.size :=
    fun l => short_of_lineBetween hn hwidth hheight hsize ha hb
  refine ⟨fun start stop => near_of_clip hn hwidth hheight hsize ha hb, fun l hl => ?_, ?_⟩
  · obtain ⟨hlonger, hrepresentable⟩ := hshort l hl
    rw [l.straight_cells.length_eq]
    exact ⟨Nat.succ_le_succ hlonger, hrepresentable⟩
  · cases hline : lineBetween canvas.width canvas.height p.size a b with
    | none => exact ⟨canvas, by rw [drawLine, hline]⟩
    | some l => exact ⟨_, (drawLine_eq_trace canvas p hline).trans
        (trace_eq_ok canvas (hshort l hline).2)⟩

theorem drawLine_near_box_million :
    (∃ l, lineBetween 10 10 1
        ⟨-Float32.ofNat 1000000, Float32.ofNat 5⟩ ⟨Float32.ofNat 1000000, Float32.ofNat 5⟩ = some l ∧
        l.cells.length ≤ 16 ∧ l.Representable 1) ∧
      ∃ drawn, (blank 10 10 ⟨255, 255, 255⟩).drawLine ⟨⟨0, 0, 0⟩, 1⟩
        ⟨-Float32.ofNat 1000000, Float32.ofNat 5⟩ ⟨Float32.ofNat 1000000, Float32.ofNat 5⟩ =
          .ok drawn := by
  have hmillion : Moderate 0 (Float32.ofNat 1000000) := by
    obtain ⟨hfinite, hvalue⟩ := Single.ofNat_spec (n := 1000000) (by decide)
    exact ⟨hfinite, by rw [hvalue]; norm_num⟩
  have hfive : Moderate 0 (Float32.ofNat 5) := moderate_of_half (Single.Half.ofNat (by decide)) (by decide)
  have hminus : Moderate 0 (-Float32.ofNat 1000000) :=
    ⟨isFinite_neg hmillion.isFinite, by rw [value_neg, abs_neg]; exact hmillion.abs_le⟩
  obtain ⟨-, hline, hdrawn⟩ := drawLine_near_box (blank 10 10 ⟨255, 255, 255⟩) ⟨⟨0, 0, 0⟩, 1⟩
    ⟨-Float32.ofNat 1000000, Float32.ofNat 5⟩ ⟨Float32.ofNat 1000000, Float32.ofNat 5⟩ (n := 0)
    (by decide) (by decide) (by decide) (by decide) ⟨hminus, hfive⟩ ⟨hmillion, hfive⟩
  have hsome : (lineBetween 10 10 1 (⟨-Float32.ofNat 1000000, Float32.ofNat 5⟩ : Point Float32)
      ⟨Float32.ofNat 1000000, Float32.ofNat 5⟩).isSome := by
    decide +kernel
  obtain ⟨l, hl⟩ := Option.isSome_iff_exists.mp hsome
  exact ⟨⟨l, hl, hline l hl⟩, hdrawn⟩

/-- From far away the difference of the ends is infinite: one end is not cut at all, and the other is
not a number. -/
theorem drawLine_infinite :
    (⟨-3e38, 5⟩ : Point Float32).isFinite ∧ (⟨3e38, 5⟩ : Point Float32).isFinite ∧
      (∃ start stop, (paddedBox 10 10 1).clip (⟨-3e38, 5⟩ : Point Float32) ⟨3e38, 5⟩ =
        some (start, stop) ∧ start.x = -3e38 ∧ stop.x.isFinite = false) ∧
      (blank 10 10 ⟨255, 255, 255⟩).drawLine ⟨⟨0, 0, 0⟩, 1⟩ ⟨-3e38, 5⟩ ⟨3e38, 5⟩ =
        .error (.overflow .coordinate) := by
  have hclip : ((paddedBox 10 10 1).clip (⟨-3e38, 5⟩ : Point Float32) ⟨3e38, 5⟩).map
      (fun (start, stop) => (start.x, stop.x.isFinite)) = some (-3e38, false) := by
    decide +kernel
  have hline : lineBetween 10 10 1 (⟨-3e38, 5⟩ : Point Float32) ⟨3e38, 5⟩ =
      some ⟨⟨Single.minWord, 5⟩, ⟨0, 5⟩⟩ := by
    decide +kernel
  refine ⟨by decide +kernel, by decide +kernel, ?_, ?_⟩
  · obtain ⟨⟨start, stop⟩, hsome, hends⟩ := Option.map_eq_some_iff.mp hclip
    obtain ⟨hstart, hstop⟩ := Prod.mk.inj hends
    exact ⟨start, stop, hsome, hstart, hstop⟩
  · rw [drawLine_eq_trace (blank 10 10 ⟨255, 255, 255⟩) ⟨⟨0, 0, 0⟩, 1⟩ hline, trace_eq_error]
    rintro ⟨hextent, -⟩
    exact absurd hextent (by decide +kernel)

end Canvas

end LSystem
