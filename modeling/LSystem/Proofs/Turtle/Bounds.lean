import LSystem.Turtle.Interpretation
import LSystem.Proofs.Binary.Extended

/-! # The bounds of a drawing

The bounds touch an end of a drawn segment on each side and leave none outside. They grow by one
segment after the other, and least and greatest coordinates are all that is kept of the segments, so
neither their order matters nor what is travelled with the pen up.
-/

namespace LSystem

open Binary.MachineNumber

section Coordinates

variable {x y : Float32} {S T : Set Float32}

theorem Single.beq_of_le_of_le (hx : IsNumber x) (hy : IsNumber y) (hxy : x ≤ y) (hyx : y ≤ x) :
    x == y := by
  have hbeq : (x == y) = ((digits x).compare (digits y) == some .eq) := rfl
  rw [hbeq, compare_digits hx hy, compare_eq_iff_eq.mpr (hx.extended_eq hy hxy hyx)]
  rfl

theorem Single.beq_of_isLeast (hS : ∀ z ∈ S, IsNumber z) (hx : IsLeast S x) (hy : IsLeast S y) :
    x == y :=
  beq_of_le_of_le (hS x hx.1) (hS y hy.1) (hx.2 hy.1) (hy.2 hx.1)

theorem Single.beq_of_isGreatest (hS : ∀ z ∈ S, IsNumber z) (hx : IsGreatest S x)
    (hy : IsGreatest S y) : x == y :=
  beq_of_le_of_le (hS x hx.1) (hS y hy.1) (hy.2 hx.1) (hx.2 hy.1)

theorem Scalar.isLeast_least (hS : ∀ z ∈ S, IsNumber z) (hT : ∀ z ∈ T, IsNumber z)
    (hx : IsLeast S x) (hy : IsLeast T y) : IsLeast (S ∪ T) (Scalar.least x y) := by
  rw [Scalar.least]
  split_ifs with h
  · exact isLeast_union hS hT hx hy ((hS x hx.1).le_of_lt (hT y hy.1) h)
  · rw [Set.union_comm]
    exact isLeast_union hT hS hy hx ((hS x hx.1).le_of_not_lt (hT y hy.1) h)

theorem Scalar.isGreatest_greatest (hS : ∀ z ∈ S, IsNumber z) (hT : ∀ z ∈ T, IsNumber z)
    (hx : IsGreatest S x) (hy : IsGreatest T y) : IsGreatest (S ∪ T) (Scalar.greatest x y) := by
  rw [Scalar.greatest]
  split_ifs with h
  · exact isGreatest_union hS hT hx hy ((hT y hy.1).le_of_lt (hS x hx.1) h)
  · rw [Set.union_comm]
    exact isGreatest_union hT hS hy hx ((hT y hy.1).le_of_not_lt (hS x hx.1) h)

end Coordinates

structure Point.IsNumber (p : Point Float32) : Prop where
  x : p.x.isNaN = false
  y : p.y.isNaN = false

namespace Box

variable {b c : Box Float32} {ps qs : Set (Point Float32)} {p q : Point Float32}

/-- The least box around points: every side of it touches one, and none is outside. -/
structure IsHull (b : Box Float32) (ps : Set (Point Float32)) : Prop where
  left : IsLeast (Point.x '' ps) b.low.x
  bottom : IsLeast (Point.y '' ps) b.low.y
  right : IsGreatest (Point.x '' ps) b.high.x
  top : IsGreatest (Point.y '' ps) b.high.y

theorem isNumber_of_mem_image_x (hps : ∀ p ∈ ps, p.IsNumber) :
    ∀ x ∈ Point.x '' ps, IsNumber x := by
  rintro _ ⟨p, hp, rfl⟩
  exact (hps p hp).x

theorem isNumber_of_mem_image_y (hps : ∀ p ∈ ps, p.IsNumber) :
    ∀ y ∈ Point.y '' ps, IsNumber y := by
  rintro _ ⟨p, hp, rfl⟩
  exact (hps p hp).y

theorem isHull_singleton (hp : p.IsNumber) : IsHull ⟨p, p⟩ {p} := by
  constructor <;> rw [Set.image_singleton]
  · exact IsNumber.isLeast_singleton hp.x
  · exact IsNumber.isLeast_singleton hp.y
  · exact IsNumber.isGreatest_singleton hp.x
  · exact IsNumber.isGreatest_singleton hp.y

theorem IsHull.union (hb : b.IsHull ps) (hc : c.IsHull qs) (hps : ∀ p ∈ ps, p.IsNumber)
    (hqs : ∀ q ∈ qs, q.IsNumber) : (b.union c).IsHull (ps ∪ qs) := by
  have hpx := isNumber_of_mem_image_x hps
  have hpy := isNumber_of_mem_image_y hps
  have hqx := isNumber_of_mem_image_x hqs
  have hqy := isNumber_of_mem_image_y hqs
  constructor <;> rw [Set.image_union]
  · exact Scalar.isLeast_least hpx hqx hb.left hc.left
  · exact Scalar.isLeast_least hpy hqy hb.bottom hc.bottom
  · exact Scalar.isGreatest_greatest hpx hqx hb.right hc.right
  · exact Scalar.isGreatest_greatest hpy hqy hb.top hc.top

theorem isHull_spanning (h : ∀ r ∈ ({p, q} : Set (Point Float32)), r.IsNumber) :
    (spanning p q).IsHull {p, q} := by
  have hunion : spanning p q = union ⟨p, p⟩ ⟨q, q⟩ := rfl
  have hp := isHull_singleton (h p (.inl rfl))
  have hq := isHull_singleton (h q (.inr rfl))
  rw [Set.insert_eq] at h ⊢
  rw [hunion]
  exact hp.union hq (fun r hr => h r (.inl hr)) fun r hr => h r (.inr hr)

theorem IsHull.beq (hb : b.IsHull ps) (hc : c.IsHull ps) (hps : ∀ p ∈ ps, p.IsNumber) :
    b == c := by
  have hx := isNumber_of_mem_image_x hps
  have hy := isNumber_of_mem_image_y hps
  have hleft := Single.beq_of_isLeast hx hb.left hc.left
  have hbottom := Single.beq_of_isLeast hy hb.bottom hc.bottom
  have hright := Single.beq_of_isGreatest hx hb.right hc.right
  have htop := Single.beq_of_isGreatest hy hb.top hc.top
  have hbeq : (b == c) = ((b.low.x == c.low.x && b.low.y == c.low.y) &&
      (b.high.x == c.high.x && b.high.y == c.high.y)) := rfl
  rw [hbeq, hleft, hbottom, hright, htop]
  rfl

end Box

def Segment.endpoints (ss : List Segment) : Set (Point Float32) :=
  {p | ∃ s ∈ ss, p = s.start ∨ p = s.stop}

open Segment (endpoints)

section Ends

variable {s : Segment} {ss ss' : List Segment} {b : Box Float32} {ps : Set (Point Float32)}

theorem endpoints_nil : endpoints [] = ∅ := by
  simp [endpoints]

theorem endpoints_cons : endpoints (s :: ss) = {s.start, s.stop} ∪ endpoints ss := by
  ext p
  simp [endpoints]

theorem endpoints_perm (h : ss.Perm ss') : endpoints ss = endpoints ss' := by
  simp only [endpoints, h.mem_iff]

theorem Box.isHull_foldl (hb : b.IsHull ps) (hps : ∀ p ∈ ps, p.IsNumber)
    (hss : ∀ p ∈ endpoints ss, p.IsNumber) :
    (ss.foldl (fun b s => b.union (.spanning s.start s.stop)) b).IsHull (ps ∪ endpoints ss) := by
  induction ss generalizing b ps with
  | nil => simpa [endpoints_nil] using hb
  | cons s ss ih =>
    rw [endpoints_cons] at hss ⊢
    have hs := fun p hp => hss p (.inl hp)
    rw [List.foldl_cons, ← Set.union_assoc]
    refine ih (hb.union (isHull_spanning hs) hps hs) ?_ fun p hp => hss p (.inr hp)
    rintro p (hp | hp)
    · exact hps p hp
    · exact hs p hp

end Ends

namespace Interpretation

variable {r r' : Interpretation} {b : Box Float32}

theorem bounds_eq_none_iff_drawn : r.bounds = none ↔ r.drawn = [] := by
  rw [bounds]
  cases r.drawn <;> simp

theorem bounds_eq_none_iff : r.bounds = none ↔ ∀ s ∈ r.segments, s.drawn = false := by
  rw [bounds_eq_none_iff_drawn, drawn, List.filter_eq_nil_iff]
  simp only [Bool.not_eq_true]

theorem isHull_bounds (hnum : ∀ p ∈ endpoints r.drawn, p.IsNumber) (hb : r.bounds = some b) :
    b.IsHull (endpoints r.drawn) := by
  rw [bounds] at hb
  cases hr : r.drawn with
  | nil => simp [hr] at hb
  | cons s ss =>
    rw [hr, endpoints_cons] at hnum
    simp only [hr, Option.some.injEq] at hb
    have hs := fun p hp => hnum p (.inl hp)
    rw [← hb, endpoints_cons]
    exact Box.isHull_foldl (Box.isHull_spanning hs) hs fun p hp => hnum p (.inr hp)

theorem bounds_drawn (r : Interpretation) : { r with segments := r.drawn }.bounds = r.bounds := by
  have hdrawn : { r with segments := r.drawn }.drawn = r.drawn := by
    simp only [drawn, List.filter_filter, Bool.and_self]
  rw [bounds, bounds, hdrawn]

theorem beq_bounds_of_perm (hnum : ∀ p ∈ endpoints r.drawn, p.IsNumber)
    (hperm : r'.drawn.Perm r.drawn) : r'.bounds == r.bounds := by
  have hsame := endpoints_perm hperm
  have hnone : r'.bounds = none ↔ r.bounds = none := by
    rw [bounds_eq_none_iff_drawn, bounds_eq_none_iff_drawn, ← List.length_eq_zero_iff,
      hperm.length_eq, List.length_eq_zero_iff]
  cases hb : r.bounds with
  | none => rw [hnone.mpr hb]; rfl
  | some b =>
    cases hb' : r'.bounds with
    | none => rw [hnone.mp hb'] at hb; cases hb
    | some b' =>
      have hhull := isHull_bounds (hsame ▸ hnum) hb'
      exact (hsame ▸ hhull).beq (isHull_bounds hnum hb) hnum

/-- The bounds are the least box around what is drawn, whatever else is travelled and in whatever
order it is drawn. -/
theorem bounds_least (r : Interpretation) (hnum : ∀ p ∈ endpoints r.drawn, p.IsNumber) :
    (r.bounds = none ↔ ∀ s ∈ r.segments, s.drawn = false) ∧
    (∀ b, r.bounds = some b → b.IsHull (endpoints r.drawn)) ∧
    { r with segments := r.drawn }.bounds = r.bounds ∧
    ∀ r' : Interpretation, r'.drawn.Perm r.drawn → r'.bounds == r.bounds :=
  ⟨bounds_eq_none_iff, fun _ => isHull_bounds hnum, bounds_drawn r,
    fun _ => beq_bounds_of_perm hnum⟩

theorem bounds_least_unending :
    let r : Interpretation := ⟨[⟨⟨0, 0⟩, ⟨10, 0⟩, true⟩, ⟨⟨10, 0⟩, ⟨0 / 0, 1000⟩, false⟩,
      ⟨⟨3, 5⟩, ⟨3, -1 / 0⟩, true⟩], .home, [], 0⟩
    let b : Box Float32 := ⟨⟨0, -1 / 0⟩, ⟨10, 5⟩⟩
    r.bounds = some b ∧ b.IsHull (endpoints r.drawn) := by
  have hnum : ∀ p ∈ endpoints [⟨⟨0, 0⟩, ⟨10, 0⟩, true⟩, ⟨⟨3, 5⟩, ⟨3, -1 / 0⟩, true⟩],
      p.IsNumber := by
    rw [endpoints_cons, endpoints_cons, endpoints_nil]
    rintro p ((rfl | rfl) | (rfl | rfl) | hp)
    · exact ⟨rfl, rfl⟩
    · exact ⟨rfl, rfl⟩
    · exact ⟨rfl, rfl⟩
    · exact ⟨rfl, rfl⟩
    · cases hp
  have hbounds := bounds_least ⟨[⟨⟨0, 0⟩, ⟨10, 0⟩, true⟩, ⟨⟨10, 0⟩, ⟨0 / 0, 1000⟩, false⟩,
    ⟨⟨3, 5⟩, ⟨3, -1 / 0⟩, true⟩], .home, [], 0⟩ hnum
  exact ⟨rfl, hbounds.2.1 _ rfl⟩

end Interpretation

end LSystem
