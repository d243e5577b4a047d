import LSystem.Proofs.Random.Weights

/-! # Where a word falls

A word of the source falls on a number from zero to the sum of the weights, the sum excluded. Rounded
to a machine number it may be the sum again, and is for some word exactly when the sum is at most
half the least normal number.
-/

namespace LSystem.Lottery

open Float.Model (Format)
open Float.Model.UnpackedFloat
open Binary (OnGrid Rounds signed unpack_normal)
open Binary.MachineNumber

variable {l : Lottery}

section Unit

def places (u : UInt64) : ℕ := (u >>> 12).toNat

theorem places_lt (u : UInt64) : places u < 2 ^ 52 := by
  have h := u.toNat_lt
  unfold places
  rw [UInt64.toNat_shiftRight, Nat.shiftRight_eq_div_pow]
  exact Nat.div_lt_of_lt_mul h

/-- The bits of a number from one to two: the exponent of one, and the places after it. -/
theorem toBitVec_unit (u : UInt64) :
    ((0x3ff0000000000000 : UInt64) ||| (u >>> 12)).toBitVec =
      packComponents .binary64 .positive (.ofNat _ 1023) (.ofNat _ (2 ^ 52 + places u)) := by
  have hhead : (Sign.positive.toBitVec ++ BitVec.ofNat 11 1023).toNat = 1023 := rfl
  have hmantissa : (BitVec.ofNat 52 (2 ^ 52 + places u)).toNat = places u := by
    rw [BitVec.toNat_ofNat, Nat.add_mod_left, Nat.mod_eq_of_lt (places_lt u)]
  apply BitVec.eq_of_toNat_eq
  calc ((0x3ff0000000000000 : UInt64) ||| (u >>> 12)).toBitVec.toNat
      = 1023 <<< 52 ||| places u := by simp [places]
    _ = (Sign.positive.toBitVec ++ BitVec.ofNat 11 1023).toNat <<< 52 |||
          (BitVec.ofNat 52 (2 ^ 52 + places u)).toNat := by rw [hhead, hmantissa]
    _ = (packComponents .binary64 .positive (.ofNat _ 1023)
          (.ofNat _ (2 ^ 52 + places u))).toNat := (BitVec.toNat_append _ _).symm

theorem digits_unit (u : UInt64) :
    digits (Float.ofBits ((0x3ff0000000000000 : UInt64) ||| (u >>> 12))) =
      .finite .positive (2 ^ 52 + places u) (-52) (Nat.add_pos_left (Nat.two_pow_pos _) _) := by
  rw [digits_ofBits, toBitVec_unit]
  refine unpack_normal (by decide) (by decide) (Nat.le_add_right _ _) ?_
  have h := places_lt u
  change 2 ^ 52 + places u < 2 ^ 53
  omega

theorem unitInterval_spec (u : UInt64) :
    IsFinite (unitInterval u) ∧ value (unitInterval u) = places u / 2 ^ 52 := by
  have hplaces : (places u : ℚ) < 2 ^ 52 := by exact_mod_cast places_lt u
  have hfinite : IsFinite (Float.ofBits ((0x3ff0000000000000 : UInt64) ||| (u >>> 12))) := by
    rw [IsFinite, digits_unit]
    rfl
  have hexact : value (Float.ofBits ((0x3ff0000000000000 : UInt64) ||| (u >>> 12))) -
      value (1 : Float) = places u / 2 ^ 52 := by
    rw [value_one, value, digits_unit, Binary.value, signed, zpow_neg]
    push_cast
    norm_num
    ring
  have hgrid : OnGrid .binary64 (places u / 2 ^ 52) := by
    refine ⟨places u, -52, ?_, by decide, by norm_num [div_eq_mul_inv]⟩
    rw [Nat.abs_cast]
    exact_mod_cast (places_lt u).le.trans (by decide)
  have hsub := yields_sub hfinite isFinite_one
  rw [hexact] at hsub
  refine hsub.exact hgrid ?_
  rw [abs_of_nonneg (by positivity), div_lt_iff₀ (by positivity)]
  exact hplaces.trans_le (le_mul_of_one_le_left (by positivity) (one_le_pow₀ one_le_two))

end Unit

section Level

/-- The number that a word falls on before it is rounded. -/
def exactLevel (l : Lottery) (u : UInt64) : ℚ := places u / 2 ^ 52 * value l.total

theorem exactLevel_nonneg (hpos : 0 ≤ value l.total) (u : UInt64) : 0 ≤ l.exactLevel u := by
  unfold exactLevel
  positivity

/-- No word falls on the sum itself: the last of them stays below it by one part in `2 ^ 52`. -/
theorem exactLevel_le (hpos : 0 ≤ value l.total) (u : UInt64) :
    l.exactLevel u ≤ value l.total - value l.total / 2 ^ 52 := by
  have hplaces : (places u : ℚ) ≤ 2 ^ 52 - 1 := by
    rw [le_sub_iff_add_le]
    exact_mod_cast places_lt u
  calc places u / 2 ^ 52 * value l.total ≤ (2 ^ 52 - 1) / 2 ^ 52 * value l.total := by gcongr
    _ = value l.total - value l.total / 2 ^ 52 := by ring

def lastWord : UInt64 := 0xffffffffffffffff

theorem exactLevel_lastWord (l : Lottery) :
    l.exactLevel lastWord = value l.total - value l.total / 2 ^ 52 := by
  have hplaces : places lastWord = 4503599627370495 := rfl
  unfold exactLevel
  rw [hplaces]
  push_cast
  ring

theorem minExponent_binary64 : Format.binary64.minExponent = -1074 := by decide

theorem two_zpow_small : (2 : ℚ) ^ (-1023 : ℤ) = 2 ^ 51 * 2 ^ (-1074 : ℤ) := by
  rw [← zpow_natCast, ← zpow_add₀ (by norm_num)]
  norm_num

variable (hfinite : IsFinite l.total)
include hfinite

theorem level_spec (hpos : 0 ≤ value l.total) (u : UInt64) :
    IsFinite (l.level u) ∧ Rounds .binary64 (l.exactLevel u) (value (l.level u)) := by
  obtain ⟨hunit, hvalue⟩ := unitInterval_spec u
  have hle : l.exactLevel u ≤ value l.total :=
    (exactLevel_le hpos u).trans (sub_le_self _ (by positivity))
  have hmul := yields_mul hunit hfinite
  rw [hvalue] at hmul
  have hproduct : IsFinite (unitInterval u * l.total) := by
    refine hmul.isFinite (onGrid_value l.total) ((le_abs_self _).trans_lt (abs_value_lt l.total)) ?_
    exact (abs_of_nonneg (exactLevel_nonneg hpos u)).trans_le hle
  have hadd := yields_add hproduct isFinite_zero
  rw [value_zero, add_zero] at hadd
  obtain ⟨hlevel, hexact⟩ := hadd.exact (onGrid_value _) (abs_value_lt _)
  have hrounds : Rounds .binary64 (l.exactLevel u) (value (unitInterval u * l.total)) :=
    hmul.rounds hproduct
  rw [← hexact] at hrounds
  exact ⟨hlevel, hrounds⟩

theorem level_nonneg (hpos : 0 ≤ value l.total) (u : UInt64) : 0 ≤ value (l.level u) :=
  (level_spec hfinite hpos u).2.nonneg (exactLevel_nonneg hpos u)

theorem level_le_total (hpos : 0 ≤ value l.total) (u : UInt64) :
    value (l.level u) ≤ value l.total :=
  (level_spec hfinite hpos u).2.le (onGrid_value l.total)
    ((exactLevel_le hpos u).trans (sub_le_self _ (by positivity)))

theorem level_lt_total (hlarge : 2 ^ (-1023 : ℤ) < value l.total) (u : UInt64) :
    value (l.level u) < value l.total := by
  have hpos : 0 < value l.total := lt_trans (by positivity) hlarge
  obtain ⟨m, e, hm, -, hcanonical, hvalue⟩ := digits_of_pos hfinite hpos
  have hunit : (0 : ℚ) < 2 ^ e := by positivity
  have hlong : 2 ^ 51 < m := by
    rcases hcanonical.long with rfl | hlong
    · rw [hvalue, two_zpow_small, ← minExponent_binary64] at hlarge
      exact_mod_cast lt_of_mul_lt_mul_right hlarge hunit.le
    · exact lt_of_lt_of_le (by decide) hlong
  have hbelow : OnGrid .binary64 ((m - 1 : ℤ) * 2 ^ e) := by
    refine ⟨m - 1, e, ?_, hcanonical.le, rfl⟩
    have hshort : (m : ℤ) < 2 ^ 53 := mod_cast hcanonical.lt
    rw [abs_of_nonneg (by omega)]
    exact (sub_lt_self _ one_pos).le.trans hshort.le
  have hvalue' : value l.total = (m - 1 : ℤ) * 2 ^ e + 2 ^ e := by
    rw [hvalue]
    push_cast
    ring
  -- the last place of a word is more than half a unit of the last digit away
  have hstep : 2 ^ e < value l.total / 2 ^ 51 := by
    rw [lt_div_iff₀ (by positivity), hvalue, mul_comm]
    exact mul_lt_mul_of_pos_right (by exact_mod_cast hlong) hunit
  have hle := exactLevel_le hpos.le u
  exact (level_spec hfinite hpos.le u).2.lt_of_nearer hbelow (by linarith) (by linarith)

theorem digits_total_of_eq (heq : value l.total = 2 ^ (-1023 : ℤ)) :
    digits l.total = .finite .positive 2251799813685248 (-1074) (by decide) := by
  have hpos : 0 < value l.total := heq ▸ by positivity
  obtain ⟨m, e, hm, hdigits, hcanonical, hvalue⟩ := digits_of_pos hfinite hpos
  have hle : Format.binary64.minExponent ≤ e := hcanonical.le
  rw [minExponent_binary64] at hle
  rw [hvalue, two_zpow_small] at heq
  obtain rfl : e = -1074 := by
    rw [← minExponent_binary64]
    refine hcanonical.long.resolve_right fun hlong => absurd heq (ne_of_gt ?_)
    have hlong' : (2 : ℚ) ^ 52 ≤ m := by exact_mod_cast hlong
    calc (2 : ℚ) ^ 51 * 2 ^ (-1074 : ℤ) < 2 ^ 52 * 2 ^ (-1074 : ℤ) :=
          mul_lt_mul_of_pos_right (by norm_num) (by positivity)
      _ ≤ (m : ℚ) * 2 ^ e :=
          mul_le_mul hlong' (zpow_le_zpow_right₀ one_le_two hle) (by positivity) (by positivity)
  obtain rfl : m = 2251799813685248 := by
    have hcancel := mul_right_cancel₀ (by positivity) heq
    norm_num at hcancel
    exact_mod_cast hcancel
  exact hdigits

/-- The last place of a word is halfway between this sum and the number below it, which is odd. -/
theorem digits_level_lastWord (heq : value l.total = 2 ^ (-1023 : ℤ)) :
    digits (l.level lastWord) = digits l.total := by
  have hdigits := digits_total_of_eq hfinite heq
  have hunit : digits (unitInterval lastWord) =
      .finite .positive 9007199254740990 (-53) (by decide) := rfl
  have hmul : mul (format Float) (digits (unitInterval lastWord)) (digits l.total) =
      digits l.total := by
    rw [hunit, hdigits]
    rfl
  have hadd : add (format Float) (digits l.total) (digits (0 : Float)) = digits l.total := by
    rw [hdigits]
    rfl
  unfold level
  rw [digits_add, digits_mul, hmul, unpack_pack_digits, hadd, unpack_pack_digits]

/-- The least sums are so near to the last place of a word that it is rounded to them. -/
theorem level_lastWord (hpos : 0 < value l.total) (hsmall : value l.total ≤ 2 ^ (-1023 : ℤ)) :
    value (l.level lastWord) = value l.total := by
  rcases hsmall.lt_or_eq with hlt | heq
  · rw [two_zpow_small] at hlt
    refine (level_spec hfinite hpos.le lastWord).2.eq_of_near (onGrid_value l.total) ?_
    rw [exactLevel_lastWord, sub_sub_cancel, abs_of_pos (by positivity), minExponent_binary64]
    linarith
  · exact congrArg Binary.value (digits_level_lastWord hfinite heq)

end Level

end LSystem.Lottery
