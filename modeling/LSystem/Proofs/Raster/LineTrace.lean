import Mathlib.Data.List.Nodup
import Mathlib.Data.List.Range
import LSystem.Proofs.Raster.LinePlaces
import LSystem.Raster.Drawing

/-! # Stamping along a line

A brush is stamped on the cells of a line one by one, from its start to its end, as long as no
number computed on the way leaves the 64-bit range. None does on a line whose length is at most a
third of the greatest number of that range and at whose ends the brush fits.
-/

namespace LSystem

namespace Line

/-- The cells are those of the ideal line, rounded to the grid of steps along its longer axis. -/
structure Straight (l : Line) (cells : List Cell) : Prop where
  length_eq : cells.length = l.longer + 1
  wide : ∀ k ≤ l.longer, (l.stop.y - l.start.y).natAbs ≤ (l.stop.x - l.start.x).natAbs →
    cells[k]? = some ⟨toward l.start.x l.stop.x k, toward l.start.y l.stop.y
      ((2 * k * l.shorter + l.longer) / (2 * l.longer))⟩
  tall : ∀ k ≤ l.longer, (l.stop.x - l.start.x).natAbs ≤ (l.stop.y - l.start.y).natAbs →
    cells[k]? = some ⟨toward l.start.x l.stop.x
      ((2 * k * l.shorter + l.longer) / (2 * l.longer)), toward l.start.y l.stop.y k⟩
  head_eq : cells.head? = some l.start
  getLast_eq : cells.getLast? = some l.stop
  nodup : cells.Nodup
  adjacent : cells.IsChain fun c d => (d.x - c.x).natAbs ≤ 1 ∧ (d.y - c.y).natAbs ≤ 1
  near : ∀ (k : Nat) (c : Cell), cells[k]? = some c →
    |(c.x - (l.start.x + (l.stop.x - l.start.x) * k / l.longer) : ℚ)| ≤ 1 / 2 ∧
    |(c.y - (l.start.y + (l.stop.y - l.start.y) * k / l.longer) : ℚ)| ≤ 1 / 2

variable (l : Line)

theorem getElem?_cells {k : Nat} (hk : k ≤ l.longer) : l.cells[k]? = some (l.centre k) := by
  rw [cells_eq, List.getElem?_map, List.getElem?_range (Nat.lt_succ_of_le hk), Option.map_some]

theorem straight_cells : l.Straight l.cells where
  length_eq := by rw [cells_eq, List.length_map, List.length_range]
  wide := by
    intro k hk hle
    have hl : l.longer = (l.stop.x - l.start.x).natAbs := Nat.max_eq_left hle
    have hs : l.shorter = (l.stop.y - l.start.y).natAbs := Nat.min_eq_right hle
    rw [getElem?_cells l hk, centre, advanceX, ← hl, advance_longer hk, hs]
    rfl
  tall := by
    intro k hk hle
    have hl : l.longer = (l.stop.y - l.start.y).natAbs := Nat.max_eq_right hle
    have hs : l.shorter = (l.stop.x - l.start.x).natAbs := Nat.min_eq_left hle
    rw [getElem?_cells l hk, centre, advanceY, ← hl, advance_longer hk, hs]
    rfl
  head_eq := by
    rw [cells_eq, List.range_succ_eq_map]
    simp [centre, advanceX, advanceY, toward_zero]
  getLast_eq := by
    rw [cells_eq, List.range_succ, List.map_append, List.map_singleton, List.getLast?_concat,
      centre_longer]
  nodup := by
    rw [cells_eq]
    refine List.Nodup.map_on ?_ List.nodup_range
    intro j hj k hk h
    exact centre_inj (Nat.le_of_lt_succ (List.mem_range.mp hj))
      (Nat.le_of_lt_succ (List.mem_range.mp hk)) h
  adjacent := by
    rw [cells_eq, List.isChain_map, List.isChain_range_succ]
    intro k hk
    exact ⟨natAbs_toward_advance_le width_le_longer hk,
      natAbs_toward_advance_le height_le_longer hk⟩
  near := by
    intro k c hc
    obtain ⟨hk, hk'⟩ := List.getElem?_eq_some_iff.mp hc
    rw [cells_eq, List.length_map, List.length_range] at hk
    rw [getElem?_cells l (Nat.le_of_lt_succ hk)] at hc
    obtain rfl := Option.some.inj hc
    exact ⟨abs_toward_advance_sub_le _ _ k, abs_toward_advance_sub_le _ _ k⟩

/-- No number computed along the line leaves the 64-bit range, with a brush of a size on it. -/
structure Representable (size : Nat) : Prop where
  extent : l.extentFits
  places : ∀ k ≤ l.longer, l.placeFits size (l.place k)

variable {l} {size : Nat} {k : Nat}

theorem brushFits_between {a b c : Int} (ha : brushFits size a) (hb : brushFits size b)
    (hmin : min a b ≤ c) (hmax : c ≤ max a b) : brushFits size c := by
  simp only [brushFits, Bool.and_eq_true, Single.fitsWord_iff] at ha hb ⊢
  omega

theorem fitsWord_of_brushFits {c : Int} (h : brushFits size c) : Single.fitsWord c := by
  simp only [brushFits, Bool.and_eq_true, Single.fitsWord_iff] at h ⊢
  omega

theorem fitsWord_of_bounds {n : Int} (hlong : 3 * l.longer ≤ Single.maxWord)
    (hlow : -3 * (l.longer : Int) ≤ n) (hhigh : n ≤ 3 * l.longer) : Single.fitsWord n := by
  rw [Single.fitsWord_iff]
  simp only [Single.minWord, Single.maxWord] at hlong ⊢
  omega

theorem centre_brushFits (hstart : brushFits size l.start.x ∧ brushFits size l.start.y)
    (hstop : brushFits size l.stop.x ∧ brushFits size l.stop.y) (hk : k ≤ l.longer) :
    brushFits size (l.centre k).x ∧ brushFits size (l.centre k).y := by
  have hx := toward_between (advance_le (l := l) width_le_longer hk)
  have hy := toward_between (advance_le (l := l) height_le_longer hk)
  exact ⟨brushFits_between hstart.1 hstop.1 hx.1 hx.2, brushFits_between hstart.2 hstop.2 hy.1 hy.2⟩

theorem stepFits_place (hlong : 3 * l.longer ≤ Single.maxWord) (hk : k < l.longer)
    (hnext : brushFits size (l.centre (k + 1)).x ∧ brushFits size (l.centre (k + 1)).y) :
    l.stepFits (l.place k) := by
  have hd := drift_place_bounds (Nat.le_of_lt hk)
  have hd' := drift_place_bounds (show k + 1 ≤ l.longer from hk)
  have hh : 0 ≤ l.height ∧ l.height ≤ l.longer :=
    ⟨Int.natCast_nonneg _, Int.ofNat_le.mpr height_le_longer⟩
  rw [stepFits, next_place hk]
  simp only [Bool.and_eq_true]
  refine ⟨⟨⟨⟨fitsWord_of_bounds hlong hd.1 hd.2, ?_⟩, ?_⟩, ?_⟩, ?_⟩
  · -- a step along the first axis is only taken when the drift is large enough
    by_cases hm : l.movesX (l.place k)
    · have hm' : -l.height ≤ 2 * (l.place k).drift := of_decide_eq_true hm
      rw [Bool.or_eq_true]
      right
      exact fitsWord_of_bounds hlong (by omega) (by omega)
    · simp [hm]
  · exact fitsWord_of_bounds hlong (by omega) (by omega)
  · exact fitsWord_of_brushFits hnext.1
  · exact fitsWord_of_brushFits hnext.2

theorem representable_of_short (hlong : 3 * l.longer ≤ Single.maxWord)
    (hstart : brushFits size l.start.x ∧ brushFits size l.start.y)
    (hstop : brushFits size l.stop.x ∧ brushFits size l.stop.y) : l.Representable size where
  extent := by
    have hx := width_le_longer (l := l)
    have hy := height_le_longer (l := l)
    simp only [extentFits, Bool.and_eq_true, width, height]
    refine ⟨⟨⟨?_, ?_⟩, ?_⟩, ?_⟩ <;> exact fitsWord_of_bounds hlong (by omega) (by omega)
  places := by
    intro k hk
    obtain ⟨hx, hy⟩ := centre_brushFits hstart hstop hk
    simp only [placeFits, Bool.and_eq_true, Bool.or_eq_true, beq_iff_eq]
    refine ⟨⟨hx, hy⟩, ?_⟩
    rcases Nat.lt_or_eq_of_le hk with hlt | rfl
    · exact Or.inr (stepFits_place hlong hlt (centre_brushFits hstart hstop hlt))
    · exact Or.inl centre_longer

end Line

namespace Canvas

def stamps (canvas : Canvas) (p : Pen) (cells : List Cell) : Canvas :=
  cells.foldl (fun canvas cell => canvas.stamp p.color p.size cell) canvas

variable {l : Line} {p : Pen}

theorem foldlM_stampAt (cs : List Cursor) (canvas : Canvas) :
    cs.foldlM (stampAt l p) canvas =
      if ∀ c ∈ cs, l.placeFits p.size c then .ok (canvas.stamps p (cs.map Cursor.cell))
      else .error (.overflow .coordinate) := by
  induction cs generalizing canvas with
  | nil => simp [stamps, pure, Except.pure]
  | cons c cs ih =>
    rw [List.foldlM_cons, stampAt]
    by_cases hc : l.placeFits p.size c
    · rw [if_pos hc]
      simp only [List.forall_mem_cons, hc, true_and]
      exact ih _
    · rw [if_neg hc, if_neg fun h => hc (h c List.mem_cons_self)]
      rfl

theorem trace_eq_ok (canvas : Canvas) (h : l.Representable p.size) :
    canvas.trace p l = .ok (canvas.stamps p l.cells) := by
  rw [trace, if_pos h.extent, Line.visit_eq, foldlM_stampAt, if_pos]
  · rfl
  · rw [Line.cursors_eq, List.forall_mem_map]
    intro k hk
    exact h.places k (Nat.le_of_lt_succ (List.mem_range.mp hk))

theorem trace_eq_error (canvas : Canvas) (h : ¬ l.Representable p.size) :
    canvas.trace p l = .error (.overflow .coordinate) := by
  rw [trace]
  split
  · rename_i hext
    rw [Line.visit_eq, foldlM_stampAt, if_neg]
    intro hall
    refine h ⟨hext, fun k hk => hall _ ?_⟩
    rw [Line.cursors_eq]
    exact List.mem_map_of_mem (List.mem_range.mpr (Nat.lt_succ_of_le hk))
  · rfl

theorem drawLine_eq_trace (canvas : Canvas) (p : Pen) {a b : Point Float32}
    (h : lineBetween canvas.width canvas.height p.size a b = some l) :
    canvas.drawLine p a b = canvas.trace p l := by
  rw [drawLine, h]

/-- The loop ends by itself after the cells of the ideal line, and the brush is stamped on exactly
these unless a number on the way leaves the 64-bit range. -/
theorem trace_line (canvas : Canvas) (p : Pen) (l : Line) :
    l.Straight l.cells ∧
      (∀ n, l.longer < n → l.cursorsFrom n l.cursor = l.cursors) ∧
      (l.Representable p.size → canvas.trace p l = .ok (canvas.stamps p l.cells)) ∧
      (¬ l.Representable p.size → canvas.trace p l = .error (.overflow .coordinate)) ∧
      (3 * l.longer ≤ Single.maxWord → brushFits p.size l.start.x ∧ brushFits p.size l.start.y →
        brushFits p.size l.stop.x ∧ brushFits p.size l.stop.y → l.Representable p.size) := by
  refine ⟨l.straight_cells, ?_, trace_eq_ok canvas, trace_eq_error canvas,
    Line.representable_of_short⟩
  intro n hn
  rw [Line.cursorsFrom_cursor hn, Line.cursors_eq]

theorem drawLine_overflow :
    lineBetween 10 10 1 (⟨-1e30, 5⟩ : Point Float32) ⟨5e18, 5⟩ =
        some ⟨⟨0, 5⟩, ⟨4999999990253223936, 5⟩⟩ ∧
      Line.extentFits ⟨⟨0, 5⟩, ⟨4999999990253223936, 5⟩⟩ ∧
      (blank 10 10 ⟨255, 255, 255⟩).drawLine ⟨⟨0, 0, 0⟩, 1⟩ ⟨-1e30, 5⟩ ⟨5e18, 5⟩ =
        .error (.overflow .coordinate) := by
  have hline : lineBetween 10 10 1 (⟨-1e30, 5⟩ : Point Float32) ⟨5e18, 5⟩ =
      some ⟨⟨0, 5⟩, ⟨4999999990253223936, 5⟩⟩ := by
    decide +kernel
  refine ⟨hline, by decide +kernel, ?_⟩
  rw [drawLine_eq_trace (blank 10 10 ⟨255, 255, 255⟩) ⟨⟨0, 0, 0⟩, 1⟩ hline, trace_eq_error]
  rintro ⟨-, hplaces⟩
  have hfirst := hplaces 0 (Nat.zero_le _)
  rw [Line.place_zero] at hfirst
  exact absurd hfirst (by decide +kernel)

end Canvas

end LSystem
