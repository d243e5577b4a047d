import LSystem.Json.Value

/-! # JSON numbers

Number literals after their sign: a whole part, digits after a point, and a power of ten. Of a long
literal only the leading digits that make a number of 64 bits count. A literal of a whole part alone
that fits in 64 bits is an integer; zero with a sign is not, for integers have no signed zero.
-/

namespace LSystem.Json

def withDigit (n : Nat) (c : Char) : Nat := 10 * n + (c.toNat - '0'.toNat)

def digitsValue (ds : List Char) : Nat := ds.foldl withDigit 0

/-- Appends digits to a number up to the first that would take it beyond 64 bits: the number, and
the digits from that one on. -/
def appendDigits (n : Nat) : List Char → Nat × List Char
  | [] => (n, [])
  | c :: cs =>
    if withDigit n c ≤ 0xffffffffffffffff then appendDigits (withDigit n c) cs else (n, c :: cs)

def scanFraction : List Char → Option (List Char × List Char)
  | '.' :: rest =>
    match rest.takeWhile Char.isDigit with
    | [] => none
    | ds => some (ds, rest.dropWhile Char.isDigit)
  | cs => some ([], cs)

def scanPower (negative : Bool) (cs : List Char) : Option (Option Int × List Char) :=
  match cs.takeWhile Char.isDigit with
  | [] => none
  | ds =>
    let n : Int := digitsValue ds
    some (some (if negative then -n else n), cs.dropWhile Char.isDigit)

def scanExponent : List Char → Option (Option Int × List Char)
  | c :: rest =>
    if c = 'e' || c = 'E' then
      match rest with
      | '-' :: rest => scanPower true rest
      | '+' :: rest => scanPower false rest
      | rest => scanPower false rest
    else some (none, c :: rest)
  | [] => some (none, [])

def integer? (negative : Bool) (n : Nat) : Option Int :=
  if !negative then some n
  else if 0 < n ∧ n ≤ 0x8000000000000000 then some (-n) else none

/-- The value of a literal with the given parts. Each digit of the whole part that does not count
stands for a factor of ten, and digits after the point that do not count are dropped. -/
def numberValue (negative : Bool) (whole fraction : List Char) (power : Option Int) : Json :=
  let (n, longer) := appendDigits 0 whole
  let (m, dropped) := appendDigits n fraction
  let scaled := Json.decimal
    ⟨negative, m, power.getD 0 + longer.length + dropped.length - fraction.length⟩
  if longer.isEmpty && fraction.isEmpty && power.isNone then
    ((integer? negative n).map Json.integer).getD scaled
  else scaled

/-- The literal after its sign, and what follows it. In the whole part no zero stands before another
digit. -/
def scanNumber (negative : Bool) (cs : List Char) : Option (Json × List Char) := do
  let whole := cs.takeWhile Char.isDigit
  if whole.isEmpty || (whole.head? == some '0' && 1 < whole.length) then none
  let (fraction, rest) ← scanFraction (cs.dropWhile Char.isDigit)
  let (power, rest) ← scanExponent rest
  return (numberValue negative whole fraction power, rest)

theorem length_of_scanFraction {cs ds rest : List Char} (h : scanFraction cs = some (ds, rest)) :
    rest.length ≤ cs.length := by
  unfold scanFraction at h
  split at h
  · split at h
    · cases h
    · cases h
      exact Nat.le_trans (List.dropWhile_suffix Char.isDigit).length_le (Nat.le_succ _)
  · cases h
    exact Nat.le_refl _

theorem length_of_scanPower {negative : Bool} {cs rest : List Char} {power : Option Int}
    (h : scanPower negative cs = some (power, rest)) : rest.length ≤ cs.length := by
  unfold scanPower at h
  split at h
  · cases h
  · cases h
    exact (List.dropWhile_suffix Char.isDigit).length_le

theorem length_of_scanExponent {cs rest : List Char} {power : Option Int}
    (h : scanExponent cs = some (power, rest)) : rest.length ≤ cs.length := by
  unfold scanExponent at h
  split at h
  · split at h
    · split at h <;> have := length_of_scanPower h <;> simp_all <;> omega
    · cases h
      exact Nat.le_refl _
  · cases h
    exact Nat.le_refl _

theorem length_of_scanNumber {negative : Bool} {cs rest : List Char} {v : Json}
    (h : scanNumber negative cs = some (v, rest)) : rest.length < cs.length := by
  unfold scanNumber at h
  simp only [Option.pure_def, Option.bind_eq_bind] at h
  split at h
  · cases h
  · rename_i hw
    simp only [Option.bind_eq_some_iff, Prod.exists, Option.some.injEq, Prod.mk.injEq] at h
    obtain ⟨fraction, rest₁, hf, power, rest₂, hp, _, rfl⟩ := h
    have := length_of_scanFraction hf
    have := length_of_scanExponent hp
    have : cs.takeWhile Char.isDigit ≠ [] := by
      intro h; simp [h] at hw
    have : 0 < (cs.takeWhile Char.isDigit).length := List.length_pos_iff.mpr this
    have := congrArg List.length (List.takeWhile_append_dropWhile (p := Char.isDigit) (l := cs))
    simp only [List.length_append] at this
    omega

end LSystem.Json
