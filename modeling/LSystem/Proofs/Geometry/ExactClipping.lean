import LSystem.Geometry.Box
import Mathlib.Analysis.Convex.Segment
import Mathlib.Tactic.Linarith
import Mathlib.Tactic.Ring

/-! # Clipping without rounding

Over the rationals a line is clipped exactly. The parameters that are left after each condition are
those that satisfy it and all the conditions before, so a range that has become empty stays empty
and the line misses the box; otherwise the two ends that are returned have between them just what
the line and the box have in common.
-/

namespace LSystem

namespace Point

/-- The point of the line from `a` towards `b` at a parameter. -/
def along (a b : Point ℚ) (t : ℚ) : Point ℚ :=
  ⟨a.x + (b.x - a.x) * t, a.y + (b.y - a.y) * t⟩

def segment (a b : Point ℚ) : Set (Point ℚ) := a.along b '' Set.Icc 0 1

variable {a b : Point ℚ} {t u : ℚ}

@[simp] theorem along_zero (a b : Point ℚ) : a.along b 0 = a := by
  simp [along]

@[simp] theorem along_one (a b : Point ℚ) : a.along b 1 = b := by
  simp [along]

theorem along_along (a b : Point ℚ) (t u v : ℚ) :
    (a.along b t).along (a.along b u) v = a.along b (t + v * (u - t)) := by
  simp only [along, mk.injEq]
  constructor <;> ring

theorem segment_along (h : t ≤ u) :
    (a.along b t).segment (a.along b u) = a.along b '' Set.Icc t u := by
  have hbetween : (fun v => t + v • (u - t)) '' Set.Icc (0 : ℚ) 1 = Set.Icc t u := by
    rw [← segment_eq_image', segment_eq_Icc h]
  rw [← hbetween, Set.image_image]
  exact Set.image_congr fun v _ => along_along a b t u v

end Point

namespace Interval

variable {i : Interval ℚ} {p q : ℚ}

theorem restrict_rat_of_neg (hp : p < 0) : i.restrict p q =
    if i.last < q / p then none else some ⟨max i.first (q / p), i.last⟩ := by
  rw [max_def_lt]
  exact if_pos hp

theorem restrict_rat_of_pos (hp : 0 < p) : i.restrict p q =
    if q / p < i.first then none else some ⟨i.first, min (q / p) i.last⟩ := by
  rw [min_def_lt]
  exact (if_neg hp.not_gt).trans (if_pos hp)

theorem restrict_rat_of_zero (hp : p = 0) :
    i.restrict p q = if q < 0 then none else some i :=
  (if_neg hp.not_lt).trans (if_neg hp.not_gt)

/-- The parameters that are left are those of a set, and there are none only if it is empty. -/
def Leaves (s : Set ℚ) : Option (Interval ℚ) → Prop
  | none => s = ∅
  | some i => i.first ≤ i.last ∧ s = Set.Icc i.first i.last

variable {s : Set ℚ} {o : Option (Interval ℚ)}

/-- A condition keeps those of the parameters left that satisfy it. -/
theorem Leaves.restrict (h : Leaves s o) (p q : ℚ) :
    Leaves (s ∩ {t | p * t ≤ q}) (o.bind (·.restrict p q)) := by
  cases o with
  | none =>
    obtain rfl : s = ∅ := h
    exact Set.empty_inter _
  | some i =>
    obtain ⟨hi, rfl⟩ := h
    rw [Option.bind_some]
    rcases lt_trichotomy p 0 with hp | hp | hp
    · -- a bound from below
      have hset : Set.Icc i.first i.last ∩ {t | p * t ≤ q} =
          Set.Icc (max i.first (q / p)) i.last := by
        ext t
        simp only [Set.mem_inter_iff, Set.mem_Icc, Set.mem_ofPred_eq, max_le_iff,
          div_le_iff_of_neg' hp]
        tauto
      rw [restrict_rat_of_neg hp, hset]
      split_ifs with hr
      · exact Set.Icc_eq_empty (not_le.mpr (lt_max_of_lt_right hr))
      · exact ⟨max_le hi (not_lt.mp hr), rfl⟩
    · -- the line runs along the side
      rw [restrict_rat_of_zero hp]
      simp only [hp, zero_mul]
      split_ifs with hq
      · exact Set.eq_empty_of_forall_notMem fun t ht => hq.not_ge ht.2
      · exact ⟨hi, Set.inter_eq_left.mpr fun t _ => not_lt.mp hq⟩
    · -- a bound from above
      have hset : Set.Icc i.first i.last ∩ {t | p * t ≤ q} =
          Set.Icc i.first (min (q / p) i.last) := by
        ext t
        simp only [Set.mem_inter_iff, Set.mem_Icc, Set.mem_ofPred_eq, le_min_iff, le_div_iff₀' hp]
        tauto
      rw [restrict_rat_of_pos hp, hset]
      split_ifs with hr
      · exact Set.Icc_eq_empty (not_le.mpr (min_lt_of_left_lt hr))
      · exact ⟨le_min (not_lt.mp hr) hi, rfl⟩

end Interval

namespace Box

def region (box : Box ℚ) : Set (Point ℚ) :=
  {p | (box.low.x ≤ p.x ∧ p.x ≤ box.high.x) ∧ box.low.y ≤ p.y ∧ p.y ≤ box.high.y}

def remaining (box : Box ℚ) (a b : Point ℚ) : Option (Interval ℚ) :=
  ((((some Interval.whole).bind
    (·.restrict (-(b.x - a.x)) (a.x - box.low.x))).bind
    (·.restrict (b.x - a.x) (box.high.x - a.x))).bind
    (·.restrict (-(b.y - a.y)) (a.y - box.low.y))).bind
    (·.restrict (b.y - a.y) (box.high.y - a.y))

def ends (a b : Point ℚ) (i : Interval ℚ) : Point ℚ × Point ℚ :=
  (if 0 < i.first then a.along b i.first else a, if i.last < 1 then a.along b i.last else b)

theorem clip_eq_map (box : Box ℚ) (a b : Point ℚ) :
    box.clip a b = (box.remaining a b).map (ends a b) := by
  rw [remaining, Option.map_eq_bind]
  simp only [Option.bind_assoc]
  exact if_pos rfl

variable {box : Box ℚ} {a b start stop : Point ℚ} {i : Interval ℚ}

theorem along_mem_region (t : ℚ) : a.along b t ∈ box.region ↔
    (-(b.x - a.x) * t ≤ a.x - box.low.x ∧ (b.x - a.x) * t ≤ box.high.x - a.x) ∧
      -(b.y - a.y) * t ≤ a.y - box.low.y ∧ (b.y - a.y) * t ≤ box.high.y - a.y := by
  refine and_congr (and_congr ?_ ?_) (and_congr ?_ ?_) <;>
    constructor <;> intro h <;> simp only [Point.along] at * <;> linarith

theorem leaves_remaining (box : Box ℚ) (a b : Point ℚ) :
    Interval.Leaves (Set.Icc 0 1 ∩ Set.preimage (a.along b) box.region) (box.remaining a b) := by
  have hwhole : Interval.Leaves (Set.Icc 0 1) (some Interval.whole) := ⟨zero_le_one, rfl⟩
  have hsides := (((hwhole.restrict (-(b.x - a.x)) (a.x - box.low.x)).restrict
    (b.x - a.x) (box.high.x - a.x)).restrict (-(b.y - a.y)) (a.y - box.low.y)).restrict
    (b.y - a.y) (box.high.y - a.y)
  have hset : Set.Icc 0 1 ∩ Set.preimage (a.along b) box.region =
      (((Set.Icc 0 1 ∩ {t | -(b.x - a.x) * t ≤ a.x - box.low.x}) ∩
        {t | (b.x - a.x) * t ≤ box.high.x - a.x}) ∩
        {t | -(b.y - a.y) * t ≤ a.y - box.low.y}) ∩ {t | (b.y - a.y) * t ≤ box.high.y - a.y} := by
    ext t
    simp only [Set.mem_inter_iff, Set.mem_preimage, along_mem_region, Set.mem_ofPred_eq, and_assoc]
  rw [hset]
  exact hsides

theorem mem_of_remaining (h : box.remaining a b = some i) : i.first ≤ i.last ∧
    ∀ t, t ∈ Set.Icc i.first i.last ↔ (0 ≤ t ∧ t ≤ 1) ∧ a.along b t ∈ box.region := by
  have hleft := leaves_remaining box a b
  rw [h] at hleft
  obtain ⟨hle, hset⟩ := hleft
  refine ⟨hle, fun t => ?_⟩
  rw [← hset]
  rfl

/-- An end that is kept as it is lies at the parameter of that end. -/
theorem ends_eq (hzero : 0 ≤ i.first) (hone : i.last ≤ 1) :
    ends a b i = (a.along b i.first, a.along b i.last) := by
  refine Prod.ext ?_ ?_
  · change (if 0 < i.first then a.along b i.first else a) = a.along b i.first
    split_ifs with hpos
    · rfl
    · rw [le_antisymm (not_lt.mp hpos) hzero, Point.along_zero]
  · change (if i.last < 1 then a.along b i.last else b) = a.along b i.last
    split_ifs with hlt
    · rfl
    · rw [le_antisymm hone (not_lt.mp hlt), Point.along_one]

theorem clip_eq_none_iff : box.clip a b = none ↔ a.segment b ∩ box.region = ∅ := by
  have h := leaves_remaining box a b
  rw [clip_eq_map, Option.map_eq_none_iff, Point.segment, ← Set.image_inter_preimage,
    Set.image_eq_empty]
  cases hr : box.remaining a b with
  | none =>
    rw [hr] at h
    exact iff_of_true rfl h
  | some i =>
    rw [hr] at h
    obtain ⟨hi, hset⟩ := h
    rw [hset]
    exact iff_of_false (Option.some_ne_none i) (Set.nonempty_Icc.mpr hi).ne_empty

/-- What is returned for a line that meets the box. -/
structure Cut (box : Box ℚ) (a b start stop : Point ℚ) : Prop where
  ordered : ∃ t u, 0 ≤ t ∧ t ≤ u ∧ u ≤ 1 ∧ start = a.along b t ∧ stop = a.along b u
  segment_eq : start.segment stop = a.segment b ∩ box.region
  start_eq : a ∈ box.region → start = a
  stop_eq : b ∈ box.region → stop = b

theorem cut_of_clip (h : box.clip a b = some (start, stop)) : box.Cut a b start stop := by
  rw [clip_eq_map, Option.map_eq_some_iff] at h
  obtain ⟨i, hi, hends⟩ := h
  obtain ⟨hle, hmem⟩ := mem_of_remaining hi
  obtain ⟨⟨hzero, -⟩, -⟩ := (hmem _).mp (Set.left_mem_Icc.mpr hle)
  obtain ⟨⟨-, hone⟩, -⟩ := (hmem _).mp (Set.right_mem_Icc.mpr hle)
  rw [ends_eq hzero hone] at hends
  obtain ⟨rfl, rfl⟩ := Prod.mk.inj hends
  refine ⟨⟨i.first, i.last, hzero, hle, hone, rfl, rfl⟩, ?_, fun ha => ?_, fun hb => ?_⟩
  · rw [Point.segment_along hle, Point.segment, ← Set.image_inter_preimage]
    congr 1
    ext t
    exact hmem t
  · have hfirst := (hmem 0).mpr ⟨⟨le_rfl, zero_le_one⟩, by rwa [Point.along_zero]⟩
    rw [le_antisymm hfirst.1 hzero, Point.along_zero]
  · have hlast := (hmem 1).mpr ⟨⟨zero_le_one, le_rfl⟩, by rwa [Point.along_one]⟩
    rw [le_antisymm hone hlast.2, Point.along_one]

/-- Clipping returns nothing just for a line that misses the box, and of any other line what it has
in common with the box. -/
theorem clip_exact (box : Box ℚ) (a b : Point ℚ) :
    (box.clip a b = none ↔ a.segment b ∩ box.region = ∅) ∧
      ∀ start stop, box.clip a b = some (start, stop) → box.Cut a b start stop :=
  ⟨clip_eq_none_iff, fun _ _ => cut_of_clip⟩

theorem clip_exact_crossing :
    let box : Box ℚ := ⟨⟨0, 0⟩, ⟨10, 10⟩⟩
    box.clip ⟨-10, 5⟩ ⟨20, 5⟩ = some (⟨0, 5⟩, ⟨10, 5⟩) ∧
      Point.segment ⟨0, 5⟩ ⟨10, 5⟩ = Point.segment ⟨-10, 5⟩ ⟨20, 5⟩ ∩ box.region := by
  intro box
  have hends : (box.clip ⟨-10, 5⟩ ⟨20, 5⟩).map (fun (p, q) => ((p.x, p.y), q.x, q.y)) =
      some ((0, 5), 10, 5) := by
    decide +kernel
  obtain ⟨⟨⟨_, _⟩, _, _⟩, hclip, hends⟩ := Option.map_eq_some_iff.mp hends
  cases hends
  exact ⟨hclip, ((clip_exact box _ _).2 _ _ hclip).segment_eq⟩

end Box

end LSystem
