import LSystem.Decimal.Shortest

/-! # Laying out numerals

Two ways to write a decimal number: positional throughout, as messages do, and with an exponent for
very large and very small numbers, as documents do. They also differ in how a tie between two
shortest numerals ends: up in messages, even in documents.
-/

namespace LSystem

namespace Decimal

def sign (d : Decimal) : String := if d.negative then "-" else ""

def parts (d : Decimal) : List Char × List Char :=
  let ds := d.digits
  let p := d.point
  if p ≤ 0 then (['0'], List.replicate (-p).toNat '0' ++ ds)
  else (ds.take p.toNat ++ List.replicate d.exponent.toNat '0', ds.drop p.toNat)

def positional (d : Decimal) : String :=
  match d.parts with
  | (whole, []) => d.sign ++ String.ofList whole
  | (whole, fraction) => d.sign ++ String.ofList whole ++ "." ++ String.ofList fraction

def pointed (d : Decimal) : String :=
  match d.parts with
  | (whole, []) => d.sign ++ String.ofList whole ++ ".0"
  | (whole, fraction) => d.sign ++ String.ofList whole ++ "." ++ String.ofList fraction

def scientific (d : Decimal) : String :=
  let fraction := match d.digits.drop 1 with
    | [] => ""
    | ds => "." ++ String.ofList ds
  let power := if d.magnitude < 0 then toString d.magnitude else "+" ++ toString d.magnitude
  d.sign ++ String.ofList (d.digits.take 1) ++ fraction ++ "e" ++ power

/-- The powers of ten of the first digit, `least` included and `bound` excluded, at which a document
writes a number positionally. -/
structure Window where
  least : Int
  bound : Int

def Window.single : Window := ⟨-6, 13⟩

def Window.double : Window := ⟨-5, 16⟩

def windowed (w : Window) (d : Decimal) : String :=
  if d.coefficient = 0 ∨ (w.least ≤ d.magnitude ∧ d.magnitude < w.bound) then d.pointed
  else d.scientific

end Decimal

def Numeral.plain : Numeral → String
  | .notANumber => "NaN"
  | .infinity negative => if negative then "-inf" else "inf"
  | .finite d => d.positional

def plainSingle (x : Float32) : String := (Numeral.ofSingle .up x).plain

def plainDouble (x : Float) : String := (Numeral.ofDouble .up x).plain

example : plainSingle 2097152.25 = "2097152.3" ∧ plainSingle (-5.5) = "-5.5" := by decide +kernel
example : plainDouble 1125899906842624.25 = "1125899906842624.3" := by decide +kernel
example : Decimal.positional ⟨false, 1234567, -1⟩ = "123456.7" := by decide +kernel
example : Decimal.positional ⟨true, 15, -3⟩ = "-0.015" := by decide +kernel
example : Decimal.windowed .single ⟨false, 125, 11⟩ = "1.25e+13" := by decide +kernel
example : Decimal.windowed .double ⟨false, 9, 15⟩ = "9000000000000000.0" := by decide +kernel
example : Decimal.windowed .double ⟨true, 0, 0⟩ = "-0.0" := by decide +kernel

end LSystem
