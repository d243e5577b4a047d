import LSystem.Proofs.Raster.Brush
import LSystem.Proofs.Raster.LineTrace

/-! # Painting

A canvas that lines and segments are drawn on shows, at every pixel, the colour of the last line that
covers it. Which pixels a line covers depends on the size of the brush and on nothing that was
painted before.
-/

namespace LSystem

inductive Shape
  | line (a b : Point Float32)
  | segment (s : Segment)

namespace Shape

def ends? (t : Transform Float32) : Shape → Option (Point Float32 × Point Float32)
  | .line a b => some (a, b)
  | .segment s => if s.drawn then some (t.apply s.start, t.apply s.stop) else none

/-- The line of cells that a brush of a size is stamped on, none either when it is cut away. -/
def line? (width height : Nat) (t : Transform Float32) (size : Nat) (s : Shape) : Option Line :=
  (s.ends? t).bind fun (a, b) => lineBetween width height size a b

/-- The pixels of the canvas that the brush covers at some cell of the line. -/
def Covers (width height : Nat) (t : Transform Float32) (size : Nat) (s : Shape) (x y : Nat) :
    Prop :=
  x < width ∧ y < height ∧
    ∃ l ∈ s.line? width height t size, ∃ cell ∈ l.cells, cell.Brushes size x y

instance (width height : Nat) (t : Transform Float32) (size : Nat) (s : Shape) (x y : Nat) :
    Decidable (s.Covers width height t size x y) :=
  inferInstanceAs (Decidable (_ ∧ _ ∧ ∃ l ∈ _, ∃ cell ∈ _, _))

end Shape

structure Stroke where
  pen : Pen
  shape : Shape

namespace Stroke

variable (width height : Nat) (t : Transform Float32)

def Covers (s : Stroke) (x y : Nat) : Prop := s.shape.Covers width height t s.pen.size x y

instance (s : Stroke) (x y : Nat) : Decidable (s.Covers width height t x y) :=
  inferInstanceAs (Decidable (s.shape.Covers ..))

/-- No number computed along the line leaves the 64-bit range. -/
def Fits (s : Stroke) : Prop :=
  ∀ l ∈ s.shape.line? width height t s.pen.size, l.Representable s.pen.size

variable {width height t} in
theorem fits_of_eq_some {s : Stroke} {l : Line}
    (hl : s.shape.line? width height t s.pen.size = some l) (h : l.Representable s.pen.size) :
    s.Fits width height t := by
  intro l' hl'
  exact Option.some.inj (hl.symm.trans hl') ▸ h

def draw (canvas : Canvas) (s : Stroke) : Except SketchError Canvas :=
  match s.shape with
  | .line a b => canvas.drawLine s.pen a b
  | .segment segment => canvas.drawSegment t s.pen segment

end Stroke

inductive DrawCall
  | line (p : Pen) (a b : Point Float32)
  | segment (p : Pen) (s : Segment)
  | segments (p : Pen) (ss : List Segment)

namespace DrawCall

def strokes : DrawCall → List Stroke
  | .line p a b => [⟨p, .line a b⟩]
  | .segment p s => [⟨p, .segment s⟩]
  | .segments p ss => ss.map fun s => ⟨p, .segment s⟩

def run (t : Transform Float32) (canvas : Canvas) : DrawCall → Except SketchError Canvas
  | .line p a b => canvas.drawLine p a b
  | .segment p s => canvas.drawSegment t p s
  | .segments p ss => (canvas.drawAll t p ss).map Prod.fst

end DrawCall

namespace Canvas

variable {c : Canvas} {t : Transform Float32} {p : Pen} {s : Stroke} {strokes : List Stroke}
  {cells : List Cell} {x y : Nat}

section Stamps

@[simp] theorem width_stamps : (c.stamps p cells).width = c.width := by
  induction cells generalizing c with
  | nil => rfl
  | cons cell cells ih => exact ih

@[simp] theorem height_stamps : (c.stamps p cells).height = c.height := by
  induction cells generalizing c with
  | nil => rfl
  | cons cell cells ih => exact ih

theorem pixel?_stamps (hx : x < c.width) (hy : y < c.height) :
    (c.stamps p cells).pixel? x y =
      if ∃ cell ∈ cells, cell.Brushes p.size x y then some p.color else c.pixel? x y := by
  induction cells generalizing c with
  | nil => simp [stamps]
  | cons cell cells ih =>
    have hs : c.stamps p (cell :: cells) = (c.stamp p.color p.size cell).stamps p cells := rfl
    rw [hs, ih (c := c.stamp p.color p.size cell) hx hy, pixel?_stamp p.size_pos hx hy]
    simp only [List.exists_mem_cons_iff]
    by_cases hcell : cell.Brushes p.size x y <;> simp [hcell]

end Stamps

section Paint

def paint (t : Transform Float32) (c : Canvas) (s : Stroke) : Canvas :=
  match s.shape.line? c.width c.height t s.pen.size with
  | some l => c.stamps s.pen l.cells
  | none => c

@[simp] theorem width_paint : (c.paint t s).width = c.width := by
  unfold paint
  split <;> simp

@[simp] theorem height_paint : (c.paint t s).height = c.height := by
  unfold paint
  split <;> simp

theorem pixel?_paint (hx : x < c.width) (hy : y < c.height) :
    (c.paint t s).pixel? x y =
      if s.Covers c.width c.height t x y then some s.pen.color else c.pixel? x y := by
  unfold paint
  split
  · rename_i l hl
    simp [pixel?_stamps hx hy, Stroke.Covers, Shape.Covers, hl, hx, hy]
  · rename_i hl
    simp [Stroke.Covers, Shape.Covers, hl]

@[simp] theorem width_foldl_paint : (strokes.foldl (paint t) c).width = c.width := by
  induction strokes generalizing c with
  | nil => rfl
  | cons s strokes ih => exact ih.trans width_paint

@[simp] theorem height_foldl_paint : (strokes.foldl (paint t) c).height = c.height := by
  induction strokes generalizing c with
  | nil => rfl
  | cons s strokes ih => exact ih.trans height_paint

theorem pixel?_foldl_paint (hx : x < c.width) (hy : y < c.height) :
    (strokes.foldl (paint t) c).pixel? x y =
      ((strokes.findRev? fun s => s.Covers c.width c.height t x y).map fun s => s.pen.color).or
        (c.pixel? x y) := by
  -- the strokes after the first one see a canvas of the same size, so they cover the same pixels
  induction strokes generalizing c with
  | nil => rfl
  | cons s strokes ih =>
    rw [List.foldl_cons, ih (c := c.paint t s) (by simpa using hx) (by simpa using hy),
      pixel?_paint hx hy, width_paint, height_paint, List.findRev?]
    cases strokes.findRev? fun s => s.Covers c.width c.height t x y with
    | some s' => rfl
    | none => by_cases hs : s.Covers c.width c.height t x y <;> simp [hs]

end Paint

section Draw

theorem draw_eq (c : Canvas) (s : Stroke) :
    s.draw t c = match s.shape.line? c.width c.height t s.pen.size with
      | some l => c.trace s.pen l
      | none => .ok c := by
  obtain ⟨pen, shape⟩ := s
  cases shape with
  | line a b => rfl
  | segment segment =>
    cases hd : segment.drawn with
    | true =>
      simp only [Stroke.draw, drawSegment, Shape.line?, Shape.ends?, hd, if_true, Option.bind_some]
      rfl
    | false => simp [Stroke.draw, drawSegment, Shape.line?, Shape.ends?, hd]

theorem draw_eq_ok (h : s.Fits c.width c.height t) : s.draw t c = .ok (c.paint t s) := by
  rw [draw_eq, paint]
  split
  · rename_i l hl
    exact trace_eq_ok c (h l hl)
  · rfl

theorem draw_eq_error (h : ¬ s.Fits c.width c.height t) :
    s.draw t c = .error (.overflow .coordinate) := by
  rw [draw_eq]
  simp only [Stroke.Fits, not_forall] at h
  obtain ⟨l, hl, hfits⟩ := h
  rw [hl]
  exact trace_eq_error c hfits

theorem foldlM_draw_eq_ok (h : ∀ s ∈ strokes, s.Fits c.width c.height t) :
    strokes.foldlM (Stroke.draw t) c = .ok (strokes.foldl (paint t) c) := by
  induction strokes generalizing c with
  | nil => rfl
  | cons s strokes ih =>
    obtain ⟨hs, hrest⟩ := List.forall_mem_cons.mp h
    rw [List.foldlM_cons, draw_eq_ok hs]
    exact ih (by simpa using hrest)

theorem foldlM_draw_eq_error (h : ∃ s ∈ strokes, ¬ s.Fits c.width c.height t) :
    strokes.foldlM (Stroke.draw t) c = .error (.overflow .coordinate) := by
  induction strokes generalizing c with
  | nil => simp at h
  | cons s strokes ih =>
    rw [List.foldlM_cons]
    by_cases hs : s.Fits c.width c.height t
    · rw [draw_eq_ok hs]
      refine ih ?_
      simpa [hs] using h
    · rw [draw_eq_error hs]
      rfl

end Draw

section Calls

theorem foldlM_drawAndCount (n : Nat) (ss : List Segment) :
    ss.foldlM (drawAndCount t p) (c, n) =
      (c.drawSegments t p ss).map fun c => (c, n + countDrawn ss) := by
  induction ss generalizing c n with
  | nil => rfl
  | cons s ss ih =>
    have hrest : c.drawSegments t p (s :: ss) =
        c.drawSegment t p s >>= fun c => c.drawSegments t p ss := rfl
    rw [List.foldlM_cons, hrest, drawAndCount, countDrawn, List.countP_cons]
    by_cases hs : s.drawn
    · simp only [if_pos hs]
      cases c.drawSegment t p s with
      | error e => rfl
      | ok c' =>
        refine (ih (n + 1)).trans ?_
        simp only [Nat.add_right_comm]
        rfl
    · have hd : c.drawSegment t p s = .ok c := if_neg hs
      simp only [if_neg hs, hd]
      exact ih n

/-- Drawing and counting in one go is drawing one by one, and counting. -/
theorem drawAll_eq (c : Canvas) (t : Transform Float32) (p : Pen) (ss : List Segment) :
    c.drawAll t p ss = (c.drawSegments t p ss).map fun c => (c, countDrawn ss) := by
  rw [drawAll, foldlM_drawAndCount]
  simp only [Nat.zero_add]

theorem run_eq (c : Canvas) (call : DrawCall) :
    call.run t c = call.strokes.foldlM (Stroke.draw t) c := by
  cases call with
  | line p a b => exact (bind_pure _).symm
  | segment p s => exact (bind_pure _).symm
  | segments p ss =>
    rw [DrawCall.run, drawAll_eq, DrawCall.strokes, List.foldlM_map]
    have hfst : ∀ r : Except SketchError Canvas,
        (r.map fun c => (c, countDrawn ss)).map Prod.fst = r := fun r => by cases r <;> rfl
    exact hfst _

theorem foldlM_run (c : Canvas) (calls : List DrawCall) :
    calls.foldlM (DrawCall.run t) c =
      (calls.flatMap DrawCall.strokes).foldlM (Stroke.draw t) c := by
  induction calls generalizing c with
  | nil => rfl
  | cons call calls ih =>
    rw [List.flatMap_cons, List.foldlM_append, List.foldlM_cons, run_eq]
    exact bind_congr fun c => ih c

theorem eq_blank_of_create {width height : Nat} {background : Color}
    (h : create width height background = .ok c) : c = blank width height background := by
  unfold create at h
  split at h
  · exact (Except.ok.inj h).symm
  · cases h

/-- From a canvas of one colour, every pixel shows the colour of the last stroke that covers it,
unless a number on the way leaves the 64-bit range. -/
theorem run_shows_last (width height : Nat) (background : Color) (t : Transform Float32)
    (calls : List DrawCall) :
    let strokes := calls.flatMap DrawCall.strokes
    (∀ c, create width height background = .ok c →
      ((∀ s ∈ strokes, s.Fits width height t) →
        ∃ painted, calls.foldlM (DrawCall.run t) c = .ok painted ∧
          painted.width = width ∧ painted.height = height ∧
          ∀ x < width, ∀ y < height, painted.pixel? x y =
            some (((strokes.findRev? fun s => s.Covers width height t x y).map
              fun s => s.pen.color).getD background)) ∧
      ((∃ s ∈ strokes, ¬ s.Fits width height t) →
        calls.foldlM (DrawCall.run t) c = .error (.overflow .coordinate))) ∧
    ∀ (c : Canvas) (p : Pen) (ss : List Segment), c.drawAll t p ss =
      (ss.foldlM (fun c s => drawSegment c t p s) c).map fun c => (c, ss.countP Segment.drawn) := by
  intro strokes
  refine ⟨fun c hc => ?_, fun c p ss => drawAll_eq c t p ss⟩
  obtain rfl := eq_blank_of_create hc
  constructor
  · intro hfits
    refine ⟨strokes.foldl (paint t) (blank width height background), ?_, ?_, ?_, ?_⟩
    · rw [foldlM_run]
      exact foldlM_draw_eq_ok hfits
    · rw [width_foldl_paint]
      rfl
    · rw [height_foldl_paint]
      rfl
    · intro x hx y hy
      rw [pixel?_foldl_paint hx hy, pixel?_blank hx hy, Option.or_some]
      rfl
  · intro hover
    rw [foldlM_run]
    exact foldlM_draw_eq_error hover

theorem run_shows_last_crossing :
    let t : Transform Float32 := .identity
    let calls : List DrawCall :=
      [.line ⟨⟨0, 0, 0⟩, 1⟩ ⟨0, 1⟩ ⟨4, 1⟩,
        .segments ⟨⟨255, 0, 0⟩, 2⟩ [⟨⟨2, 0⟩, ⟨2, 2⟩, true⟩, ⟨⟨2, 2⟩, ⟨0, 0⟩, false⟩]]
    ∃ painted, calls.foldlM (DrawCall.run t) (blank 5 3 ⟨255, 255, 255⟩) = .ok painted ∧
      painted.pixel? 1 1 = some ⟨0, 0, 0⟩ ∧ painted.pixel? 3 1 = some ⟨255, 0, 0⟩ ∧
      painted.pixel? 0 0 = some ⟨255, 255, 255⟩ := by
  intro t calls
  have hthin : Stroke.Fits 5 3 t ⟨⟨⟨0, 0, 0⟩, 1⟩, .line ⟨0, 1⟩ ⟨4, 1⟩⟩ := by
    have hline : Shape.line? 5 3 t 1 (.line ⟨0, 1⟩ ⟨4, 1⟩) = some ⟨⟨0, 1⟩, ⟨4, 1⟩⟩ := by
      decide +kernel
    exact Stroke.fits_of_eq_some hline
      (Line.representable_of_short (by decide) (by decide) (by decide))
  have hthick : Stroke.Fits 5 3 t ⟨⟨⟨255, 0, 0⟩, 2⟩, .segment ⟨⟨2, 0⟩, ⟨2, 2⟩, true⟩⟩ := by
    have hline : Shape.line? 5 3 t 2 (.segment ⟨⟨2, 0⟩, ⟨2, 2⟩, true⟩) =
        some ⟨⟨2, 0⟩, ⟨2, 2⟩⟩ := by
      decide +kernel
    exact Stroke.fits_of_eq_some hline
      (Line.representable_of_short (by decide) (by decide) (by decide))
  have hback : Stroke.Fits 5 3 t ⟨⟨⟨255, 0, 0⟩, 2⟩, .segment ⟨⟨2, 2⟩, ⟨0, 0⟩, false⟩⟩ := by
    rintro l ⟨⟩
  obtain ⟨painted, hrun, -, -, hpixel⟩ :=
    ((run_shows_last 5 3 ⟨255, 255, 255⟩ t calls).1 _ rfl).1 (by
      simp only [calls, List.flatMap_cons, List.flatMap_nil, DrawCall.strokes, List.map_cons,
        List.map_nil, List.append_nil, List.singleton_append, List.forall_mem_cons]
      exact ⟨hthin, hthick, hback, fun s hs => absurd hs List.not_mem_nil⟩)
  exact ⟨painted, hrun, (hpixel 1 (by decide) 1 (by decide)).trans (by decide +kernel),
    (hpixel 3 (by decide) 1 (by decide)).trans (by decide +kernel),
    (hpixel 0 (by decide) 0 (by decide)).trans (by decide +kernel)⟩

end Calls

end Canvas

end LSystem
