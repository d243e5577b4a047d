import LSystem.Proofs.Binary.Grid

/-! # Rounding to the grid

A result is computed as a mantissa with a round and a sticky bit, shifted to the exponent that the
format wants, and rounded there. The two bits say where the exact number lies between one mantissa
and the next, which is enough to round it to the nearest number on the grid.
-/

namespace LSystem.Binary

open Float.Model UnpackedFloat

variable {f : Format} {s : Sign} {q r x y : ℚ} {m n : ℕ} {e k : ℤ}

section Value

def signed (s : Sign) (q : ℚ) : ℚ :=
  match s with
  | .negative => -q
  | .positive => q

def value : UnpackedFloat → ℚ
  | .finite s m e _ => signed s (m * 2 ^ e)
  | _ => 0

theorem signed_apply (s : Sign) (n : ℤ) (q : ℚ) : (s.apply n : ℚ) * q = signed s (n * q) := by
  cases s with
  | negative => simp [Sign.apply, signed]
  | positive => rfl

theorem abs_signed (s : Sign) (q : ℚ) : |signed s q| = |q| := by
  cases s with
  | negative => exact abs_neg q
  | positive => rfl

theorem OnGrid.signed (h : OnGrid f q) (s : Sign) : OnGrid f (signed s q) := by
  cases s with
  | negative => exact h.neg
  | positive => exact h

theorem Rounds.signed (h : Rounds f q r) (s : Sign) : Rounds f (signed s q) (signed s r) := by
  cases s with
  | negative => exact h.neg
  | positive => exact h

end Value

section Mantissa

def low (em : ExtendedMantissa) : ℚ := em.mantissa + if em.roundBit then 1 / 2 else 0

theorem low_of_not_roundBit {em : ExtendedMantissa} (h : em.roundBit = false) :
    low em = em.mantissa := by
  simp [low, h]

theorem low_of_roundBit {em : ExtendedMantissa} (h : em.roundBit = true) :
    low em = em.mantissa + 1 / 2 := by
  simp [low, h]

/-- The mantissa and its round bit are the digits of a number, and the sticky bit says whether there
are more. -/
structure Stands (em : ExtendedMantissa) (y : ℚ) : Prop where
  low_le : low em ≤ y
  lt : y < low em + 1 / 2
  exact_iff : y = low em ↔ em.stickyBit = false

namespace Stands

variable {em : ExtendedMantissa}

theorem of_not_sticky (hsticky : em.stickyBit = false) (h : y = low em) : Stands em y :=
  ⟨h.ge, by linarith, ⟨fun _ => hsticky, fun _ => h⟩⟩

theorem of_sticky (hsticky : em.stickyBit = true) (hlow : low em < y) (hhigh : y < low em + 1 / 2) :
    Stands em y :=
  ⟨hlow.le, hhigh, by simp [hsticky, hlow.ne']⟩

theorem exact (m : ℕ) : Stands (.ofMantissaAndAccuracy m .exact) m := by
  refine .of_not_sticky rfl ?_
  rw [low_of_not_roundBit rfl]
  rfl

theorem mantissa_ofMantissaAndAccuracy (m : ℕ) (acc : Accuracy) :
    (ExtendedMantissa.ofMantissaAndAccuracy m acc).mantissa = m := by
  rcases acc with _ | _ | _ | _ <;> rfl

theorem mantissa_le (h : Stands em y) : em.mantissa ≤ y := by
  refine le_trans ?_ h.low_le
  rw [low]
  split_ifs <;> linarith

theorem lt_mantissa_add_one (h : Stands em y) : y < em.mantissa + 1 := by
  refine h.lt.trans_le ?_
  rw [low]
  split_ifs <;> linarith

theorem shiftRightOne (h : Stands em y) : Stands em.shiftRightOne (y / 2) := by
  have hlow : low em.shiftRightOne = em.mantissa / 2 := by
    have hdigits : (em.mantissa : ℚ) = 2 * (em.mantissa / 2 : ℕ) + (em.mantissa % 2 : ℕ) := by
      exact_mod_cast (Nat.div_add_mod em.mantissa 2).symm
    rw [low, ExtendedMantissa.shiftRightOne, hdigits]
    rcases Nat.mod_two_eq_zero_or_one em.mantissa with hbit | hbit <;> simp [hbit]
    ring
  refine ⟨?_, ?_, ?_⟩
  · rw [hlow]
    linarith [h.mantissa_le]
  · rw [hlow]
    linarith [h.lt_mantissa_add_one]
  · rw [hlow, div_left_inj' (by norm_num)]
    cases hround : em.roundBit with
    | false =>
      have hsticky := h.exact_iff
      rw [low_of_not_roundBit hround] at hsticky
      simpa [ExtendedMantissa.shiftRightOne, hround] using hsticky
    | true =>
      have hle := h.low_le
      rw [low_of_roundBit hround] at hle
      have hne : y ≠ em.mantissa := by
        intro hy
        linarith
      simpa [ExtendedMantissa.shiftRightOne, hround] using hne

theorem shiftRight (h : Stands em y) (n : ℕ) : Stands (em >>> n) (y / 2 ^ n) := by
  induction n with
  | zero => rwa [pow_zero, div_one]
  | succ n ih =>
    rw [pow_succ, ← div_div]
    exact ih.shiftRightOne

/-- The rounded mantissa is a nearest whole number. -/
theorem abs_rounded_sub_le (h : Stands em y) : |(em.roundedMantissa : ℚ) - y| ≤ 1 / 2 := by
  obtain ⟨hle, hlt, hexact⟩ := h
  rcases em with ⟨m, _ | _, sticky⟩
  · rw [low_of_not_roundBit rfl] at hle hlt
    have hround : ExtendedMantissa.roundedMantissa ⟨m, false, sticky⟩ = m := by
      cases sticky <;> rfl
    rw [hround, abs_le]
    constructor <;> linarith
  · rw [low_of_roundBit rfl] at hle hlt hexact
    cases sticky with
    | false =>
      have hround : ExtendedMantissa.roundedMantissa ⟨m, true, false⟩ = m + m % 2 := rfl
      have hbit : ((m % 2 : ℕ) : ℚ) ≤ 1 := by
        exact_mod_cast Nat.lt_succ_iff.mp (Nat.mod_lt m (by norm_num))
      have hpos : (0 : ℚ) ≤ (m % 2 : ℕ) := Nat.cast_nonneg _
      rw [hround, hexact.mpr rfl, Nat.cast_add, abs_le]
      constructor <;> linarith
    | true =>
      have hround : ExtendedMantissa.roundedMantissa ⟨m, true, true⟩ = m + 1 := rfl
      rw [hround, Nat.cast_add, Nat.cast_one, abs_le]
      constructor <;> linarith

end Stands

theorem rounded_bounds (em : ExtendedMantissa) :
    em.mantissa ≤ em.roundedMantissa ∧ em.roundedMantissa ≤ em.mantissa + 1 := by
  rcases em with ⟨m, _ | _, _ | _⟩
  · exact ⟨le_rfl, Nat.le_succ m⟩
  · exact ⟨le_rfl, Nat.le_succ m⟩
  · exact ⟨Nat.le_add_right m _, Nat.add_le_add_left (Nat.le_of_lt_succ (Nat.mod_lt m two_pos)) m⟩
  · exact ⟨Nat.le_succ m, le_rfl⟩

end Mantissa

section Nearest

variable {t : ℚ}

/-- A whole number of units next to the exact number is as near as any number on the grid: finer
numbers are only found below the exact one, and not between. -/
theorem abs_sub_le_of_onGrid (hn : |(n : ℚ) - y| ≤ 1 / 2)
    (hlong : k = f.minExponent ∨ 2 ^ f.mantissaBitsWithoutImplicit ≤ y) (ht : OnGrid f t) :
    |(n : ℚ) * 2 ^ k - y * 2 ^ k| ≤ |t - y * 2 ^ k| := by
  have hunit : (0 : ℚ) < 2 ^ k := by positivity
  have hwhole : ∀ i : ℤ, |(n : ℚ) - y| ≤ |(i : ℚ) - y| := by
    intro i
    by_cases hi : i = n
    · rw [hi, Int.cast_natCast]
    · have hone : (1 : ℚ) ≤ |(i : ℚ) - n| := by
        exact_mod_cast Int.one_le_abs (sub_ne_zero.mpr hi)
      have htriangle := abs_sub_le (i : ℚ) y n
      rw [abs_sub_comm y] at htriangle
      linarith
  rw [← sub_mul, abs_mul, abs_of_pos hunit]
  obtain ⟨i, j, hi, hj, rfl⟩ := ht
  rcases le_or_gt k j with hkj | hjk
  · have hscale : (i : ℚ) * 2 ^ j = (i * 2 ^ (j - k).toNat : ℤ) * 2 ^ k := by
      push_cast
      rw [← zpow_natCast, Int.toNat_of_nonneg (sub_nonneg.mpr hkj), mul_assoc,
        ← zpow_add₀ (by norm_num), sub_add_cancel]
    rw [hscale, ← sub_mul, abs_mul, abs_of_pos hunit]
    exact mul_le_mul_of_nonneg_right (hwhole _) hunit.le
  · have hy := hlong.resolve_left (by omega)
    have hfine : (i : ℚ) * 2 ^ j ≤ 2 ^ f.mantissaBitsWithoutImplicit * 2 ^ k := by
      have hle : (i : ℚ) ≤ 2 ^ f.mantissaBits := by exact_mod_cast (le_abs_self i).trans hi
      calc (i : ℚ) * 2 ^ j ≤ 2 ^ f.mantissaBits * 2 ^ j :=
            mul_le_mul_of_nonneg_right hle (by positivity)
        _ = 2 ^ f.mantissaBitsWithoutImplicit * 2 ^ (j + 1) := by
            rw [mantissaBits_eq, pow_succ, zpow_add_one₀ (by norm_num)]
            ring
        _ ≤ 2 ^ f.mantissaBitsWithoutImplicit * 2 ^ k :=
            mul_le_mul_of_nonneg_left (zpow_le_zpow_right₀ (by norm_num) hjk) (by positivity)
    have hle := hwhole (2 ^ f.mantissaBitsWithoutImplicit)
    push_cast at hle
    rw [abs_sub_comm (2 ^ _), abs_of_nonneg (sub_nonneg.mpr hy)] at hle
    calc |(n : ℚ) - y| * 2 ^ k
        ≤ (y - 2 ^ f.mantissaBitsWithoutImplicit) * 2 ^ k :=
          mul_le_mul_of_nonneg_right hle hunit.le
      _ ≤ -((i : ℚ) * 2 ^ j - y * 2 ^ k) := by linarith
      _ ≤ |(i : ℚ) * 2 ^ j - y * 2 ^ k| := neg_le_abs _

end Nearest

section Place

/-- The exponent that the format wants for a mantissa. -/
def target (f : Format) (m : ℕ) (e : ℤ) : ℤ := f.targetExponent (totalExponent m e)

/-- The mantissa is as long as the format allows, or there is no place below it. -/
structure Canonical (f : Format) (m : ℕ) (e : ℤ) : Prop where
  lt : m < 2 ^ f.mantissaBits
  le : f.minExponent ≤ e
  long : e = f.minExponent ∨ 2 ^ f.mantissaBitsWithoutImplicit ≤ m

/-- No digit is missing below the mantissa that the format has a place for. -/
def Placed (f : Format) (m : ℕ) (e : ℤ) : Prop :=
  e ≤ f.minExponent ∨ 2 ^ f.mantissaBitsWithoutImplicit ≤ m

theorem minExponent_le_target : f.minExponent ≤ target f m e := le_max_right _ _

theorem Placed.le_target (h : Placed f m e) : e ≤ target f m e := by
  rcases h with h | h
  · exact h.trans minExponent_le_target
  · have hlog : f.mantissaBitsWithoutImplicit ≤ m.log2 :=
      (Nat.le_log2 (Nat.ne_of_gt (lt_of_lt_of_le (by positivity) h))).mpr h
    refine le_trans ?_ (le_max_left _ _)
    rw [totalExponent, mantissaBits_eq]
    omega

theorem lt_target (f : Format) (m : ℕ) (e : ℤ) :
    ((m : ℚ) + 1) * 2 ^ e ≤ 2 ^ f.mantissaBits * 2 ^ target f m e := by
  have hlog : (m : ℚ) + 1 ≤ 2 ^ (m.log2 + 1) := by exact_mod_cast Nat.lt_log2_self
  have htarget : totalExponent m e - f.mantissaBits ≤ target f m e := le_max_left _ _
  rw [totalExponent] at htarget
  calc ((m : ℚ) + 1) * 2 ^ e ≤ 2 ^ (m.log2 + 1) * 2 ^ e :=
        mul_le_mul_of_nonneg_right hlog (by positivity)
    _ = 2 ^ ((m.log2 + 1 : ℕ) + e) := by rw [zpow_add₀ (by norm_num), zpow_natCast]
    _ ≤ 2 ^ (f.mantissaBits + target f m e) :=
        zpow_le_zpow_right₀ (by norm_num) (by push_cast; omega)
    _ = 2 ^ f.mantissaBits * 2 ^ target f m e := by
        rw [zpow_add₀ (by norm_num), zpow_natCast]

theorem Placed.target_long (h : Placed f m e) : target f m e = f.minExponent ∨
    2 ^ f.mantissaBitsWithoutImplicit * 2 ^ target f m e ≤ (m : ℚ) * 2 ^ e := by
  rcases max_cases (totalExponent m e - f.mantissaBits) f.minExponent with ⟨htarget, hlt⟩ | ⟨htarget, -⟩
  · right
    have hm : m ≠ 0 := by
      rintro rfl
      have hp := one_lt_mantissaBits f
      have hlog : totalExponent 0 e = 1 + e := by simp [totalExponent]
      rcases h with h | h
      · omega
      · exact absurd h (Nat.not_le.mpr (by positivity))
    have hlog : (2 : ℚ) ^ m.log2 ≤ m := by exact_mod_cast Nat.log2_self_le hm
    have hexponent : f.mantissaBitsWithoutImplicit + target f m e = m.log2 + e := by
      rw [target, Format.targetExponent, htarget, totalExponent, mantissaBits_eq]
      push_cast
      ring
    calc (2 : ℚ) ^ f.mantissaBitsWithoutImplicit * 2 ^ target f m e
        = 2 ^ m.log2 * 2 ^ e := by
          rw [← zpow_natCast, ← zpow_natCast, ← zpow_add₀ (by norm_num), ← zpow_add₀ (by norm_num),
            hexponent]
      _ ≤ m * 2 ^ e := mul_le_mul_of_nonneg_right hlog (by positivity)
  · exact .inl htarget

end Place

section Result

def result (s : Sign) (m : ℕ) (e : ℤ) : UnpackedFloat :=
  if h : m = 0 then .zero s else .finite s m e (Nat.pos_of_ne_zero h)

@[simp] theorem value_result (s : Sign) (m : ℕ) (e : ℤ) :
    value (result s m e) = signed s (m * 2 ^ e) := by
  rw [result]
  split_ifs with h
  · cases s <;> simp [value, signed, h]
  · rfl

/-- Whether the digits of a number are where the format has them. -/
def IsCanonical (f : Format) : UnpackedFloat → Prop
  | .finite _ m e _ => Canonical f m e
  | _ => True

theorem log2_lt_of_lt (h : n < 2 ^ f.mantissaBits) : n.log2 < f.mantissaBits := by
  rcases eq_or_ne n 0 with rfl | hn
  · exact (Nat.zero_lt_one.trans (one_lt_mantissaBits f))
  · exact (Nat.log2_lt hn).mpr h

theorem target_le (h : n < 2 ^ f.mantissaBits) (hk : f.minExponent ≤ k) : target f n k ≤ k := by
  have hlog := log2_lt_of_lt h
  refine max_le ?_ hk
  rw [totalExponent]
  omega

theorem target_two_pow (hk : f.minExponent ≤ k) : target f (2 ^ f.mantissaBits) k = k + 1 := by
  have hlog : totalExponent (2 ^ f.mantissaBits) k - f.mantissaBits = k + 1 := by
    rw [totalExponent, Nat.log2_two_pow]
    ring
  rw [target, Format.targetExponent, hlog, max_eq_left (hk.trans (Int.le_add_one le_rfl))]

theorem shiftToTargetExponent_eq (f : Format) (m : ℕ) (e : ℤ) (acc : Accuracy) :
    shiftToTargetExponent f m e acc =
      (ExtendedMantissa.ofMantissaAndAccuracy m acc >>> (target f m e - e).toNat,
        e + (target f m e - e).toNat) := rfl

/-- A rounded mantissa that has become too long ends in zeros, and is shifted without a loss. -/
theorem shiftToTargetExponent_spec (hn : n ≤ 2 ^ f.mantissaBits) (hk : f.minExponent ≤ k)
    (hlong : k = f.minExponent ∨ 2 ^ f.mantissaBitsWithoutImplicit ≤ n) :
    ∃ em j, shiftToTargetExponent f n k .exact = (em, j) ∧ Canonical f em.mantissa j ∧
      (em.mantissa : ℚ) * 2 ^ j = n * 2 ^ k := by
  rcases hn.lt_or_eq with hlt | rfl
  · have hshift : (target f n k - k).toNat = 0 :=
      Int.toNat_of_nonpos (sub_nonpos.mpr (target_le hlt hk))
    refine ⟨.ofMantissaAndAccuracy n .exact, k, ?_, ⟨hlt, hk, hlong⟩, rfl⟩
    rw [shiftToTargetExponent_eq, hshift, Nat.cast_zero, add_zero]
    rfl
  · have hhalf : 2 ^ f.mantissaBits / 2 = 2 ^ f.mantissaBitsWithoutImplicit := by
      rw [mantissaBits_eq, pow_succ, Nat.mul_div_cancel _ two_pos]
    have hshift : (target f (2 ^ f.mantissaBits) k - k).toNat = 1 := by
      rw [target_two_pow hk, add_sub_cancel_left, Int.toNat_one]
    refine ⟨(ExtendedMantissa.ofMantissaAndAccuracy (2 ^ f.mantissaBits) .exact).shiftRightOne,
      k + 1, ?_, ?_, ?_⟩
    · rw [shiftToTargetExponent_eq, hshift]
      rfl
    · change Canonical f (2 ^ f.mantissaBits / 2) (k + 1)
      rw [hhalf]
      refine ⟨?_, hk.trans (Int.le_add_one le_rfl), .inr le_rfl⟩
      exact Nat.pow_lt_pow_right one_lt_two (by rw [mantissaBits_eq]; exact Nat.lt_succ_self _)
    · change ((2 ^ f.mantissaBits / 2 : ℕ) : ℚ) * 2 ^ (k + 1) = (2 ^ f.mantissaBits : ℕ) * 2 ^ k
      rw [hhalf, mantissaBits_eq, pow_succ, zpow_add_one₀ (by norm_num)]
      push_cast
      ring

/-- A number that is described by a mantissa and two bits is rounded to the nearest on the grid. -/
theorem roundWithAccuracy_eq_result {acc : Accuracy} (s : Sign)
    (h : Stands (.ofMantissaAndAccuracy m acc) y) (hm : Placed f m e) :
    ∃ n k, roundWithAccuracy f s m e acc = result s n k ∧ Canonical f n k ∧
      Rounds f (y * 2 ^ e) (n * 2 ^ k) := by
  -- the exact number in units of the exponent that the format wants
  set shift := (target f m e - e).toNat with hshift
  have htarget : e + shift = target f m e := by
    have := hm.le_target
    omega
  have hunit : (0 : ℚ) < 2 ^ target f m e := by positivity
  have hscale : y / 2 ^ shift * 2 ^ target f m e = y * 2 ^ e := by
    rw [← htarget, zpow_add₀ (by norm_num), zpow_natCast]
    field_simp
  set em := ExtendedMantissa.ofMantissaAndAccuracy m acc >>> shift with hem
  have hstands : Stands em (y / 2 ^ shift) := h.shiftRight shift
  have hlow : (m : ℚ) ≤ y := Stands.mantissa_ofMantissaAndAccuracy m acc ▸ h.mantissa_le
  have hhigh : y < m + 1 := Stands.mantissa_ofMantissaAndAccuracy m acc ▸ h.lt_mantissa_add_one
  have hshort : em.mantissa < 2 ^ f.mantissaBits := by
    have hlt : y / 2 ^ shift * 2 ^ target f m e < 2 ^ f.mantissaBits * 2 ^ target f m e := by
      rw [hscale]
      exact (mul_lt_mul_of_pos_right hhigh (by positivity)).trans_le (lt_target f m e)
    have hlt' := hstands.mantissa_le.trans_lt (lt_of_mul_lt_mul_right hlt hunit.le)
    exact_mod_cast hlt'
  have hlong : target f m e = f.minExponent ∨
      (2 : ℚ) ^ f.mantissaBitsWithoutImplicit ≤ y / 2 ^ shift := by
    refine hm.target_long.imp_right fun hle => ?_
    refine le_of_mul_le_mul_right (hle.trans ?_) hunit
    rw [hscale]
    exact mul_le_mul_of_nonneg_right hlow (by positivity)
  have hlong' : target f m e = f.minExponent ∨
      2 ^ f.mantissaBitsWithoutImplicit ≤ em.roundedMantissa := by
    refine hlong.imp_right fun hle => ?_
    have hlt := hle.trans_lt hstands.lt_mantissa_add_one
    exact (Nat.le_of_lt_succ (by exact_mod_cast hlt)).trans (rounded_bounds em).1
  obtain ⟨em', j, heq, hcanonical, hvalue⟩ := shiftToTargetExponent_spec
    ((rounded_bounds em).2.trans hshort) minExponent_le_target hlong'
  refine ⟨em'.mantissa, j, ?_, hcanonical, ?_⟩
  · rw [roundWithAccuracy, shiftToTargetExponent_eq, ← hshift, ← hem, htarget]
    simp only [heq]
    rfl
  · rw [hvalue, ← hscale]
    refine ⟨⟨em.roundedMantissa, _, ?_, minExponent_le_target, rfl⟩, fun t ht => ?_⟩
    · rw [Nat.abs_cast]
      exact_mod_cast (rounded_bounds em).2.trans hshort
    · exact abs_sub_le_of_onGrid hstands.abs_rounded_sub_le hlong ht

/-- A number in the form of the format, nearest to another. -/
structure Nearest (f : Format) (q : ℚ) (u : UnpackedFloat) : Prop where
  isCanonical : IsCanonical f u
  isFinite : u.isFinite
  rounds : Rounds f q (value u)

theorem nearest_result (s : Sign) (hn : Canonical f n k) (h : Rounds f x (n * 2 ^ k)) :
    Nearest f (signed s x) (result s n k) := by
  refine ⟨?_, ?_, ?_⟩
  · rw [result]
    split_ifs
    · trivial
    · exact hn
  · rw [result]
    split_ifs <;> rfl
  · rw [value_result]
    exact h.signed s

theorem nearest_roundWithAccuracy {acc : Accuracy} (s : Sign)
    (h : Stands (.ofMantissaAndAccuracy m acc) y) (hm : Placed f m e) :
    Nearest f (signed s (y * 2 ^ e)) (roundWithAccuracy f s m e acc) := by
  obtain ⟨n, k, heq, hcanonical, hrounds⟩ := roundWithAccuracy_eq_result s h hm
  rw [heq]
  exact nearest_result s hcanonical hrounds

theorem shiftLeft_mul_zpow (m n : ℕ) (e : ℤ) :
    ((m <<< n : ℕ) : ℚ) * 2 ^ (e - n) = m * 2 ^ e := by
  rw [Nat.shiftLeft_eq, zpow_sub₀ (by norm_num), zpow_natCast]
  push_cast
  field_simp

/-- The missing places of a short mantissa are filled with zeros first. -/
theorem nearest_round (s : Sign) (hm : 0 < m) :
    Nearest f (signed s (m * 2 ^ e)) (UnpackedFloat.round f s m e) := by
  set shift := (e - target f m e).toNat with hshift
  have heq : UnpackedFloat.round f s m e =
      roundWithAccuracy f s (m <<< shift) (e - shift) .exact := rfl
  have hplaced : Placed f (m <<< shift) (e - shift) := by
    rcases max_choice (totalExponent m e - f.mantissaBits) f.minExponent with htarget | htarget
    · right
      have hlong : f.mantissaBitsWithoutImplicit ≤ m.log2 + shift := by
        rw [target, Format.targetExponent, htarget, totalExponent, mantissaBits_eq] at hshift
        omega
      calc 2 ^ f.mantissaBitsWithoutImplicit ≤ 2 ^ (m.log2 + shift) :=
            Nat.pow_le_pow_right two_pos hlong
        _ = 2 ^ m.log2 * 2 ^ shift := pow_add ..
        _ ≤ m * 2 ^ shift := Nat.mul_le_mul_right _ (Nat.log2_self_le hm.ne')
        _ = m <<< shift := (Nat.shiftLeft_eq ..).symm
    · left
      rw [target, Format.targetExponent, htarget] at hshift
      omega
  rw [heq, ← shiftLeft_mul_zpow m shift e]
  exact nearest_roundWithAccuracy s (.exact _) hplaced

theorem nearest_zero (f : Format) (s : Sign) : Nearest f 0 (.zero s) :=
  ⟨trivial, rfl, .self (.zero f)⟩

theorem nearest_normalize (n e : ℤ) (zeroSign : Sign) :
    Nearest f (n * 2 ^ e) (UnpackedFloat.normalize f n e zeroSign) := by
  rcases lt_trichotomy n 0 with hn | rfl | hn
  · have hround := nearest_round (f := f) (e := e) .negative (m := (-n).toNat) (by omega)
    have hcast : (((-n).toNat : ℕ) : ℚ) = -n := by
      exact_mod_cast Int.toNat_of_nonneg (by omega : 0 ≤ -n)
    rw [UnpackedFloat.normalize, compare_lt_iff_lt.mpr hn]
    rwa [hcast, signed, neg_mul, neg_neg] at hround
  · rw [Int.cast_zero, zero_mul]
    exact nearest_zero f zeroSign
  · have hround := nearest_round (f := f) (e := e) .positive (m := n.toNat) (by omega)
    have hcast : ((n.toNat : ℕ) : ℚ) = n := by
      exact_mod_cast Int.toNat_of_nonneg hn.le
    rw [UnpackedFloat.normalize, compare_gt_iff_gt.mpr hn]
    rwa [hcast, signed] at hround

end Result

end LSystem.Binary
