import LSystem.Raster.Transform
import LSystem.Proofs.Geometry.ExactClipping

/-! # Fitting a box

The scale of a fitted box is the greatest one at which both of its extents stay in their rooms. An
extent that is zero stays in any room, so it sets no scale, and the other extent fills its room
then. Both axes are centred, hence an extent that stays in its room stays inside the margins.
-/

namespace LSystem

namespace Box

def middle (box : Box ℚ) : Point ℚ :=
  ⟨(box.low.x + box.high.x) / 2, (box.low.y + box.high.y) / 2⟩

def insideMargins (width height : ℕ) (margin : ℚ) : Box ℚ :=
  ⟨Point.diagonal margin, ⟨width - 1 - margin, height - 1 - margin⟩⟩

end Box

namespace Transform

section Scale

variable {room extent roomX roomY extentX extentY s : ℚ}

theorem axisScale_of_pos (h : 0 < extent) : axisScale room extent = some (room / extent) :=
  if_pos h

theorem axisScale_of_not_pos (h : ¬ 0 < extent) : axisScale room extent = none :=
  if_neg h

/-- A scale at which both extents stay in their rooms, as great as they allow. -/
structure Fills (roomX roomY extentX extentY s : ℚ) : Prop where
  pos : 0 < s
  le_x : extentX * s ≤ roomX
  le_y : extentY * s ≤ roomY
  tight : 0 < extentX ∨ 0 < extentY →
    0 < extentX ∧ extentX * s = roomX ∨ 0 < extentY ∧ extentY * s = roomY
  eq_one : extentX = 0 → extentY = 0 → s = 1

theorem fills_commonScale (hroomX : 0 < roomX) (hroomY : 0 < roomY) (hx : 0 ≤ extentX)
    (hy : 0 ≤ extentY) : Fills roomX roomY extentX extentY
      (commonScale (axisScale roomX extentX) (axisScale roomY extentY)) := by
  rcases hx.eq_or_lt with rfl | hx <;> rcases hy.eq_or_lt with rfl | hy
  · -- a single point
    rw [axisScale_of_not_pos (lt_irrefl 0), axisScale_of_not_pos (lt_irrefl 0)]
    exact ⟨one_pos, by simpa using hroomX.le, by simpa using hroomY.le, by simp, fun _ _ => rfl⟩
  · rw [axisScale_of_not_pos (lt_irrefl 0), axisScale_of_pos hy]
    have hfull : extentY * (roomY / extentY) = roomY := mul_div_cancel₀ _ hy.ne'
    exact ⟨div_pos hroomY hy, by simpa using hroomX.le, hfull.le, fun _ => .inr ⟨hy, hfull⟩,
      fun _ h => absurd h hy.ne'⟩
  · rw [axisScale_of_not_pos (lt_irrefl 0), axisScale_of_pos hx]
    have hfull : extentX * (roomX / extentX) = roomX := mul_div_cancel₀ _ hx.ne'
    exact ⟨div_pos hroomX hx, hfull.le, by simpa using hroomY.le, fun _ => .inl ⟨hx, hfull⟩,
      fun h => absurd h hx.ne'⟩
  · rw [axisScale_of_pos hx, axisScale_of_pos hy]
    have hleast : commonScale (some (roomX / extentX)) (some (roomY / extentY)) =
        min (roomX / extentX) (roomY / extentY) := (min_def_lt _ _).symm
    rw [hleast]
    refine ⟨lt_min (div_pos hroomX hx) (div_pos hroomY hy),
      (le_div_iff₀' hx).mp (min_le_left _ _), (le_div_iff₀' hy).mp (min_le_right _ _),
      fun _ => ?_, fun h => absurd h hx.ne'⟩
    rcases min_choice (roomX / extentX) (roomY / extentY) with h | h
    · exact .inl ⟨hx, by rw [h, mul_div_cancel₀ _ hx.ne']⟩
    · exact .inr ⟨hy, by rw [h, mul_div_cancel₀ _ hy.ne']⟩

end Scale

section Fit

variable {box : Box ℚ} {width height side : ℕ} {margin low high p s : ℚ} {t : Transform ℚ}

theorem one_le_side (h : 1 ≤ (side : ℚ) - 1 - 2 * margin) (hmargin : 0 ≤ margin) : 1 ≤ side := by
  have hcast : (1 : ℚ) ≤ side := by linarith
  exact_mod_cast hcast

theorem lastPixel_eq (h : 1 ≤ side) : lastPixel side = (side : ℚ) - 1 := by
  have hlast : (lastPixel side : ℚ) = (max side 1 : ℕ) - (1 : ℕ) := rfl
  rw [hlast, Nat.max_eq_left h, Nat.cast_one]

theorem room_eq (h : 1 ≤ (side : ℚ) - 1 - 2 * margin) (hmargin : 0 ≤ margin) :
    room side margin = (side : ℚ) - 1 - 2 * margin := by
  have hroom : room side margin = max ((1 : ℕ) : ℚ) (lastPixel side - (2 : ℕ) * margin) :=
    (max_def_lt _ _).symm
  rw [hroom, lastPixel_eq (one_le_side h hmargin)]
  push_cast
  exact max_eq_right h

theorem apply_fit (p : Point ℚ) :
    (fit box width height margin).apply p =
      ⟨lastPixel width / 2 + (p.x - box.middle.x) * (fit box width height margin).scale,
        lastPixel height / 2 - (p.y - box.middle.y) * (fit box width height margin).scale⟩ := by
  have hx : ∀ c m s : ℚ, c - m * s + p.x * s = c + (p.x - m) * s := fun _ _ _ => by ring
  have hy : ∀ c m s : ℚ, c - -m * s + -p.y * s = c - (p.y - m) * s := fun _ _ _ => by ring
  rw [← hx, ← hy]
  rfl

theorem abs_sub_middle_mul_le (hlow : low ≤ p) (hhigh : p ≤ high) (hs : 0 ≤ s) {room : ℚ}
    (hroom : (high - low) * s ≤ room) : |(p - (low + high) / 2) * s| ≤ room / 2 := by
  have hhalf : |p - (low + high) / 2| ≤ (high - low) / 2 := by
    rw [abs_le]
    constructor <;> linarith
  rw [abs_mul, abs_of_nonneg hs]
  calc |p - (low + high) / 2| * s ≤ (high - low) / 2 * s := mul_le_mul_of_nonneg_right hhalf hs
    _ = (high - low) * s / 2 := by ring
    _ ≤ room / 2 := by linarith

/-- How a transform puts a box inside margins. -/
structure Fitted (box : Box ℚ) (width height : ℕ) (margin : ℚ) (t : Transform ℚ) : Prop where
  inside : ∀ p ∈ box.region, t.apply p ∈ (Box.insideMargins width height margin).region
  middle : t.apply box.middle = ⟨((width : ℚ) - 1) / 2, ((height : ℚ) - 1) / 2⟩
  upside_down : ∀ p q : Point ℚ, p.y < q.y → (t.apply q).y < (t.apply p).y
  tight : box.low.x < box.high.x ∨ box.low.y < box.high.y →
    (box.low.x < box.high.x ∧ ∀ p : Point ℚ,
      (p.x = box.low.x → (t.apply p).x = margin) ∧
      (p.x = box.high.x → (t.apply p).x = width - 1 - margin)) ∨
    (box.low.y < box.high.y ∧ ∀ p : Point ℚ,
      (p.y = box.low.y → (t.apply p).y = height - 1 - margin) ∧
      (p.y = box.high.y → (t.apply p).y = margin))
  /-- No greater scale keeps a box with an extent inside the margins, wherever it is moved. -/
  largest : box.low.x < box.high.x ∨ box.low.y < box.high.y → ∀ u : Transform ℚ,
    t.scale < u.scale → ∃ p ∈ box.region, u.apply p ∉ (Box.insideMargins width height margin).region
  single : box.low = box.high → t.scale = 1 ∧
    t.apply box.low = ⟨((width : ℚ) - 1) / 2, ((height : ℚ) - 1) / 2⟩

theorem fills_scale_fit (hx : box.low.x ≤ box.high.x) (hy : box.low.y ≤ box.high.y)
    (hmargin : 0 ≤ margin) (hwidth : 1 ≤ (width : ℚ) - 1 - 2 * margin)
    (hheight : 1 ≤ (height : ℚ) - 1 - 2 * margin) :
    Fills (width - 1 - 2 * margin) (height - 1 - 2 * margin) (box.high.x - box.low.x)
      (box.high.y - box.low.y) (fit box width height margin).scale := by
  rw [← room_eq hwidth hmargin, ← room_eq hheight hmargin]
  refine fills_commonScale ?_ ?_ (sub_nonneg.mpr hx) (sub_nonneg.mpr hy)
  · rw [room_eq hwidth hmargin]
    linarith
  · rw [room_eq hheight hmargin]
    linarith

theorem apply_sub_apply_x (t : Transform ℚ) (p q : Point ℚ) :
    (t.apply q).x - (t.apply p).x = (q.x - p.x) * t.scale := by
  change t.origin.x + q.x * t.scale - (t.origin.x + p.x * t.scale) = _
  ring

theorem abs_apply_sub_apply_y (t : Transform ℚ) (p q : Point ℚ) :
    |(t.apply q).y - (t.apply p).y| = |(q.y - p.y) * t.scale| := by
  have happly : ∀ r : Point ℚ,
      (t.apply r).y = t.origin.y + (if t.flipY then -r.y else r.y) * t.scale := fun _ => rfl
  rw [happly, happly, add_sub_add_left_eq_sub, ← sub_mul]
  split_ifs
  · rw [abs_mul, abs_mul, neg_sub_neg, abs_sub_comm]
  · rfl

/-- Two coordinates inside margins are not further apart than the room between these. -/
theorem abs_sub_le_room {x y : ℚ} (hx : margin ≤ x ∧ x ≤ side - 1 - margin)
    (hy : margin ≤ y ∧ y ≤ side - 1 - margin) : |y - x| ≤ side - 1 - 2 * margin := by
  rw [abs_le]
  constructor <;> linarith [hx.1, hx.2, hy.1, hy.2]

theorem not_inside_of_lt (hx : box.low.x ≤ box.high.x) (hy : box.low.y ≤ box.high.y)
    (hfills : Fills (width - 1 - 2 * margin) (height - 1 - 2 * margin) (box.high.x - box.low.x)
      (box.high.y - box.low.y) s)
    (hextent : box.low.x < box.high.x ∨ box.low.y < box.high.y) (ht : s < t.scale) :
    ∃ p ∈ box.region, t.apply p ∉ (Box.insideMargins width height margin).region := by
  by_contra! hinside
  obtain ⟨hlowx, hlowy⟩ := hinside box.low ⟨⟨le_rfl, hx⟩, le_rfl, hy⟩
  obtain ⟨hhighx, hhighy⟩ := hinside box.high ⟨⟨hx, le_rfl⟩, hy, le_rfl⟩
  have happart : ∀ {extent room : ℚ}, 0 < extent → extent * s = room → room < |extent * t.scale| :=
    fun {extent room} hpos hroom => by
      calc room = extent * s := hroom.symm
        _ < extent * t.scale := mul_lt_mul_of_pos_left ht hpos
        _ ≤ |extent * t.scale| := le_abs_self _
  rcases hfills.tight (hextent.imp sub_pos.mpr sub_pos.mpr) with ⟨hpos, hroom⟩ | ⟨hpos, hroom⟩
  · have hle := abs_sub_le_room hlowx hhighx
    rw [apply_sub_apply_x] at hle
    exact hle.not_gt (happart hpos hroom)
  · have hle := abs_sub_le_room hlowy hhighy
    rw [abs_apply_sub_apply_y] at hle
    exact hle.not_gt (happart hpos hroom)

theorem eq_middle_of_single (h : box.low = box.high) : box.middle = box.low := by
  rw [Box.middle, ← h, add_self_div_two, add_self_div_two]

theorem apply_fit_of_room (hmargin : 0 ≤ margin) (hwidth : 1 ≤ (width : ℚ) - 1 - 2 * margin)
    (hheight : 1 ≤ (height : ℚ) - 1 - 2 * margin) (p : Point ℚ) :
    (fit box width height margin).apply p =
      ⟨((width : ℚ) - 1) / 2 + (p.x - box.middle.x) * (fit box width height margin).scale,
        ((height : ℚ) - 1) / 2 - (p.y - box.middle.y) * (fit box width height margin).scale⟩ := by
  rw [apply_fit, lastPixel_eq (one_le_side hwidth hmargin),
    lastPixel_eq (one_le_side hheight hmargin)]

theorem inside_of_fills (hfills : Fills (width - 1 - 2 * margin) (height - 1 - 2 * margin)
      (box.high.x - box.low.x) (box.high.y - box.low.y) s) {p : Point ℚ} (hp : p ∈ box.region) :
    (⟨((width : ℚ) - 1) / 2 + (p.x - box.middle.x) * s,
      ((height : ℚ) - 1) / 2 - (p.y - box.middle.y) * s⟩ : Point ℚ) ∈
        (Box.insideMargins width height margin).region := by
  obtain ⟨⟨hlowx, hhighx⟩, hlowy, hhighy⟩ := hp
  obtain ⟨hleft, hright⟩ :=
    abs_le.mp (abs_sub_middle_mul_le hlowx hhighx hfills.pos.le hfills.le_x)
  obtain ⟨hbottom, htop⟩ :=
    abs_le.mp (abs_sub_middle_mul_le hlowy hhighy hfills.pos.le hfills.le_y)
  simp only [Box.region, Box.insideMargins, Box.middle, Point.diagonal, Set.mem_ofPred_eq]
  refine ⟨⟨?_, ?_⟩, ?_, ?_⟩ <;> linarith

/-- A fitted box is inside the margins as a whole, in the middle of the canvas and upside down, and
as large as the margins allow. -/
theorem fitted_fit (hx : box.low.x ≤ box.high.x) (hy : box.low.y ≤ box.high.y)
    (hmargin : 0 ≤ margin) (hwidth : 1 ≤ (width : ℚ) - 1 - 2 * margin)
    (hheight : 1 ≤ (height : ℚ) - 1 - 2 * margin) :
    Fitted box width height margin (fit box width height margin) := by
  have hfills := fills_scale_fit hx hy hmargin hwidth hheight
  have happly : ∀ p, (fit box width height margin).apply p = _ :=
    apply_fit_of_room hmargin hwidth hheight
  have hmiddle : (fit box width height margin).apply box.middle =
      ⟨((width : ℚ) - 1) / 2, ((height : ℚ) - 1) / 2⟩ := by
    rw [happly, sub_self, sub_self, zero_mul, add_zero, sub_zero]
  have hsingle : box.low = box.high → (fit box width height margin).scale = 1 ∧
      (fit box width height margin).apply box.low =
        ⟨((width : ℚ) - 1) / 2, ((height : ℚ) - 1) / 2⟩ := fun h =>
    ⟨hfills.eq_one (by rw [h, sub_self]) (by rw [h, sub_self]), eq_middle_of_single h ▸ hmiddle⟩
  refine ⟨fun p hp => ?_, hmiddle, fun p q hpq => ?_, fun hextent => ?_,
    fun hextent u hu => not_inside_of_lt hx hy hfills hextent hu, hsingle⟩
  · rw [happly]
    exact inside_of_fills hfills hp
  · rw [happly, happly]
    exact sub_lt_sub_left (mul_lt_mul_of_pos_right (sub_lt_sub_right hpq _) hfills.pos) _
  · rcases hfills.tight (hextent.imp sub_pos.mpr sub_pos.mpr) with ⟨hpos, hroom⟩ | ⟨hpos, hroom⟩
    · refine .inl ⟨sub_pos.mp hpos, fun p => ⟨fun hp => ?_, fun hp => ?_⟩⟩ <;>
        rw [happly, hp, Box.middle]
      · linear_combination (-1 / 2) * hroom
      · linear_combination (1 / 2) * hroom
    · refine .inr ⟨sub_pos.mp hpos, fun p => ⟨fun hp => ?_, fun hp => ?_⟩⟩ <;>
        rw [happly, hp, Box.middle]
      · linear_combination (1 / 2) * hroom
      · linear_combination (-1 / 2) * hroom

theorem fitted_fit_wide :
    let box : Box ℚ := ⟨⟨0, 0⟩, ⟨10, 5⟩⟩
    let t := fit box 101 101 10
    Fitted box 101 101 10 t ∧ t.scale = 8 ∧
      ((t.apply ⟨10, 5⟩).x = 90 ∧ (t.apply ⟨10, 5⟩).y = 30) := by
  refine ⟨fitted_fit (by norm_num) (by norm_num) (by norm_num) (by norm_num) (by norm_num), ?_⟩
  decide +kernel

end Fit

end Transform

end LSystem
