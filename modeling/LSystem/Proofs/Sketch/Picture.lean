import LSystem.Sketch.Rendering
import LSystem.Proofs.Derivation.Composition
import LSystem.Proofs.Raster.Painting
import LSystem.Proofs.Turtle.Tally

/-! # Pictures

A picture shows the last word of a derivation. The settings are refused first and the derivation
after them; beyond these only a coordinate that leaves the 64-bit range can stop it. The report is
read off the commands of the word, and the canvas has no colours but the two of the settings.
-/

namespace LSystem

def CommandTable.standard : CommandTable := .assignAll [] standardPairs

def Report.ofCommands (cs : List Command) : Report where
  letters := cs.length
  segments := cs.count .draw + cs.count .move
  drawn := cs.count .draw
  unmatchedPops := Brackets.unmatchedPops cs
  openBranches := (Brackets.openPushes cs).length

theorem Shape.drawn_of_line? {width height size : Nat} {t : Transform Float32} {s : Segment}
    {l : Line} (h : (Shape.segment s).line? width height t size = some l) : s.drawn := by
  obtain ⟨ends, hends, -⟩ := Option.bind_eq_some_iff.mp h
  rw [Shape.ends?] at hends
  split_ifs at hends with hd
  exact hd

namespace RenderSettings

variable (s : RenderSettings) (w : Word)

def interpreter : Interpreter := ⟨s.gait, .standard⟩

def segments : List Segment := (s.interpreter.interpret w s.start).segments

def placement : Transform Float32 := s.transform (s.interpreter.interpret w s.start).bounds

def strokes : List Stroke := (s.segments w).map fun segment => ⟨s.pen, .segment segment⟩

/-- No number computed along a line of the picture leaves the 64-bit range. -/
def Fits : Prop :=
  ∀ stroke ∈ s.strokes w, stroke.Fits s.width.toNat s.height.toNat (s.placement w)

def blank : Canvas := .blank s.width.toNat s.height.toNat s.background

def painted : Canvas := (s.strokes w).foldl (Canvas.paint (s.placement w)) s.blank

variable {s w}

section Validation

theorem validate_gait (h : s.validate = .ok ()) : s.gait.validate = .ok () := by
  simp only [validate] at h
  split_ifs at h
  exact h

theorem standard_eq_ok (h : s.validate = .ok ()) :
    Interpreter.standard s.gait = .ok s.interpreter := by
  rw [Interpreter.standard, Interpreter.plain, validate_gait h]
  rfl

end Validation

section Paint

theorem drawSegments_eq (c : Canvas) (t : Transform Float32) :
    c.drawSegments t s.pen (s.segments w) = (s.strokes w).foldlM (Stroke.draw t) c := by
  rw [strokes, List.foldlM_map]
  rfl

theorem drawAll_eq_ok (h : s.Fits w) :
    s.blank.drawAll (s.placement w) s.pen (s.segments w) =
      .ok (s.painted w, countDrawn (s.segments w)) := by
  rw [Canvas.drawAll_eq, drawSegments_eq, Canvas.foldlM_draw_eq_ok (c := s.blank) h]
  rfl

theorem drawAll_eq_error (h : ¬ s.Fits w) :
    s.blank.drawAll (s.placement w) s.pen (s.segments w) = .error (.overflow .coordinate) := by
  simp only [Fits, not_forall] at h
  obtain ⟨stroke, hmem, hfits⟩ := h
  rw [Canvas.drawAll_eq, drawSegments_eq,
    Canvas.foldlM_draw_eq_error (c := s.blank) ⟨stroke, hmem, hfits⟩]
  rfl

theorem not_drawn_of_count_eq_zero (h : (s.interpreter.commands w).count .draw = 0) :
    ∀ segment ∈ s.segments w, ¬ segment.drawn :=
  List.countP_eq_zero.mp ((s.interpreter.countDrawn_segments w s.start).trans h)

theorem fits_of_count_eq_zero (h : (s.interpreter.commands w).count .draw = 0) : s.Fits w := by
  rintro stroke hstroke l hl
  obtain ⟨segment, hsegment, rfl⟩ := List.mem_map.mp hstroke
  exact absurd (Shape.drawn_of_line? hl) (not_drawn_of_count_eq_zero h segment hsegment)

theorem width_painted : (s.painted w).width = s.width.toNat := Canvas.width_foldl_paint

theorem height_painted : (s.painted w).height = s.height.toNat := Canvas.height_foldl_paint

variable {x y : Nat}

theorem pixel?_painted (hx : x < s.width.toNat) (hy : y < s.height.toNat) :
    (s.painted w).pixel? x y = some s.background ∨
      (s.painted w).pixel? x y = some s.lineColor ∧ ∃ segment ∈ s.segments w, segment.drawn := by
  have hpixel : (s.painted w).pixel? x y = _ := Canvas.pixel?_foldl_paint (c := s.blank) hx hy
  rw [blank, Canvas.pixel?_blank hx hy, ← blank, List.findRev?_eq_find?_reverse] at hpixel
  rw [hpixel]
  cases hlast : (s.strokes w).reverse.find? fun stroke =>
      stroke.Covers s.blank.width s.blank.height (s.placement w) x y with
  | none => exact .inl rfl
  | some stroke =>
    have hmem := List.mem_reverse.mp (List.mem_of_find?_eq_some hlast)
    obtain ⟨segment, hsegment, rfl⟩ := List.mem_map.mp hmem
    have hcovers := List.find?_some hlast
    obtain ⟨-, -, l, hl, -⟩ := of_decide_eq_true hcovers
    exact .inr ⟨rfl, segment, hsegment, Shape.drawn_of_line? hl⟩

end Paint

end RenderSettings

namespace Grammar

variable {g : Grammar} {s : RenderSettings} {ws : List Word} {w : Word}

theorem draw_of_validate_error {e : SketchError} (h : s.validate = .error e) :
    g.draw s = .error e := by
  rw [draw, h]
  rfl

theorem draw_of_derive_error {e : SketchError} (hs : s.validate = .ok ())
    (h : g.deriveSeeded s.depth.toNat s.seed = .error e) : g.draw s = .error e := by
  rw [draw, hs, h]
  rfl

/-- Behind the two checks everything is decided by the strokes. -/
theorem draw_eq (hs : s.validate = .ok ()) (hws : g.deriveSeeded s.depth.toNat s.seed = .ok ws)
    (hw : ws.getLast? = some w) :
    g.draw s = (s.blank.drawAll (s.placement w) s.pen (s.segments w)).map fun (canvas, drawn) =>
      ⟨canvas, s.placement w,
        { letters := w.length
          segments := (s.segments w).length
          drawn
          unmatchedPops := (s.interpreter.interpret w s.start).unmatchedPops
          openBranches := (s.interpreter.interpret w s.start).openBranches }⟩ := by
  rw [draw, hs, hws, RenderSettings.standard_eq_ok hs]
  simp only [bind, Except.bind, hw, Option.getD_some]
  rfl

theorem draw_of_fits (hs : s.validate = .ok ())
    (hws : g.deriveSeeded s.depth.toNat s.seed = .ok ws) (hw : ws.getLast? = some w)
    (hfits : s.Fits w) :
    g.draw s = .ok ⟨s.painted w, s.placement w, .ofCommands (s.interpreter.commands w)⟩ := by
  rw [draw_eq hs hws hw, RenderSettings.drawAll_eq_ok hfits, Report.ofCommands,
    Interpreter.length_commands, RenderSettings.segments, Interpreter.length_segments,
    Interpreter.countDrawn_segments, Interpreter.interpret, Interpreter.unmatchedPops_walk,
    Interpreter.length_saved_walk]
  rfl

theorem draw_of_not_fits (hs : s.validate = .ok ())
    (hws : g.deriveSeeded s.depth.toNat s.seed = .ok ws) (hw : ws.getLast? = some w)
    (hfits : ¬ s.Fits w) : g.draw s = .error (.overflow .coordinate) := by
  rw [draw_eq hs hws hw, RenderSettings.drawAll_eq_error hfits]
  rfl

theorem exists_getLast?_of_deriveSeeded {depth : Nat} {seed : UInt64}
    (h : g.deriveSeeded depth seed = .ok ws) : ∃ w, ws.getLast? = some w := by
  obtain ⟨-, rfl, -⟩ := of_run_derive_eq_ok (Prod.ext h rfl)
  exact ⟨_, getLast?_words g _ depth⟩

/-- A picture shows the last word of the derivation in two colours and reports its commands. The
settings are refused before the derivation, and nothing else is refused unless a coordinate leaves
the 64-bit range. -/
theorem draw_shows_last_word (g : Grammar) (s : RenderSettings) :
    (∀ e, s.validate = .error e → g.draw s = .error e) ∧
    (∀ e, s.validate = .ok () → g.deriveSeeded s.depth.toNat s.seed = .error e →
      g.draw s = .error e) ∧
    (s.validate = .ok () → Interpreter.standard s.gait = .ok ⟨s.gait, .standard⟩) ∧
    ∀ ws, s.validate = .ok () → g.deriveSeeded s.depth.toNat s.seed = .ok ws →
      ∃ w, ws.getLast? = some w ∧
        (s.Fits w → ∃ r, g.draw s = .ok r ∧
          r.report = .ofCommands (w.map CommandTable.standard.command) ∧
          r.canvas.width = s.width.toNat ∧ r.canvas.height = s.height.toNat ∧
          (∀ x < s.width.toNat, ∀ y < s.height.toNat,
            r.canvas.pixel? x y = some s.background ∨ r.canvas.pixel? x y = some s.lineColor) ∧
          (r.report.drawn = 0 → ∀ x < s.width.toNat, ∀ y < s.height.toNat,
            r.canvas.pixel? x y = some s.background)) ∧
        (¬ s.Fits w → g.draw s = .error (.overflow .coordinate)) := by
  refine ⟨fun e => draw_of_validate_error, fun e => draw_of_derive_error,
    RenderSettings.standard_eq_ok, fun ws hs hws => ?_⟩
  obtain ⟨w, hw⟩ := exists_getLast?_of_deriveSeeded hws
  refine ⟨w, hw, fun hfits => ?_, draw_of_not_fits hs hws hw⟩
  refine ⟨_, draw_of_fits hs hws hw hfits, rfl, RenderSettings.width_painted,
    RenderSettings.height_painted, fun x hx y hy => ?_, fun hdrawn x hx y hy => ?_⟩
  · rcases RenderSettings.pixel?_painted (w := w) hx hy with h | ⟨h, -⟩
    · exact .inl h
    · exact .inr h
  · rcases RenderSettings.pixel?_painted (w := w) hx hy with h | ⟨-, segment, hsegment, hd⟩
    · exact h
    · exact absurd hd (RenderSettings.not_drawn_of_count_eq_zero hdrawn segment hsegment)

theorem draw_shows_last_word_moves :
    let w : Word := [.plain "f", .plain "]", .plain "[", .plain "f"]
    let g : Grammar := .inferred .empty w .empty
    let s : RenderSettings := { depth := 1 }
    s.validate = .ok () ∧ g.deriveSeeded s.depth.toNat s.seed = .ok [w, w] ∧ s.Fits w ∧
      ∃ r, g.draw s = .ok r ∧ r.report = ⟨4, 2, 0, [1], 1⟩ ∧
        ∀ x < 800, ∀ y < 800, r.canvas.pixel? x y = some ⟨255, 255, 255⟩ := by
  intro w g s
  have hs : s.validate = .ok () := by decide +kernel
  have hgeneration : ∀ r : KeyStream, ∀ k, g.unlimited r k = (w, r) :=
    RuleSet.generation_empty w
  have hws : g.deriveSeeded s.depth.toNat s.seed = .ok [w, w] := by
    have hfits : ∀ r : KeyStream, ∀ k ≤ s.depth.toNat, g.Fits (g.unlimited r k).1 := by
      rintro r k - limit ⟨⟩
    rw [deriveSeeded, run_derive_of_fits (by decide) (hfits _)]
    simp only [hgeneration]
    rfl
  have hfits : s.Fits w := RenderSettings.fits_of_count_eq_zero (by decide)
  obtain ⟨w', hw', hdraw, -⟩ := (draw_shows_last_word g s).2.2.2 _ hs hws
  obtain rfl : w = w' := Option.some.inj hw'
  obtain ⟨r, hr, hreport, -, -, -, hblank⟩ := hdraw hfits
  have hreport' : r.report = ⟨4, 2, 0, [1], 1⟩ := hreport.trans (by decide)
  exact ⟨hs, hws, hfits, r, hr, hreport', hblank (congrArg Report.drawn hreport')⟩

end Grammar

end LSystem
