import Retype.Decimal.Basic

/-!
# Decimal literals

`Decimal.parse?` reads a number from text. The text splits at the first `e` or `E` into a base
and an exponent. The base loses its first point, and the characters behind that point are
counted; what is left of the base, and the exponent, are a sign, if any, and at least one digit.
The exponent and the resulting scale are bounded: the one by 128 bits, the other by 64.

The digits are then freed of trailing zeros, each of which lowers the scale by one
(`Decimal.normalized`): where the lowered scale is within the bound, the literal has the normal
form of the number it writes.
-/

namespace Retype.Decimal

/-- The number that digits write in base ten. -/
def ofDigits (digits : List Char) : Nat :=
  digits.foldl (fun n c => 10 * n + (c.toNat - '0'.toNat)) 0

/-- At least one digit, and nothing else. -/
def natural? (text : List Char) : Option Nat :=
  if text.isEmpty || !text.all Char.isDigit then none else some (ofDigits text)

/-- A sign, if any, and at least one digit. -/
def integer? : List Char → Option Int
  | '+' :: digits => (natural? digits).map fun n => (n : Int)
  | '-' :: digits => (natural? digits).map fun n => -(n : Int)
  | digits => (natural? digits).map fun n => (n : Int)

/-- Exponents are signed words of 128 bits. -/
def exponentBound : Int := 0x80000000000000000000000000000000

/-- The exponent of a literal, read from what follows its base: nothing means 0. -/
def exponent? : List Char → Option Int
  | [] => some 0
  | _ :: text => (integer? text).filter (fits exponentBound)

/-- The base of a literal without its first point, and the number of characters behind the
point. -/
def dropPoint (base : List Char) : List Char × Nat :=
  let whole := base.takeWhile (· != '.')
  let fraction := (base.dropWhile (· != '.')).drop 1
  (whole ++ fraction, fraction.length)

/-- Reads a decimal literal; the result has no trailing zero digit, and its scale is a word. -/
def parse? (text : String) : Option Decimal := do
  let isMark := fun c : Char => c == 'e' || c == 'E'
  let base := text.toList.takeWhile (!isMark ·)
  let exponent ← exponent? (text.toList.dropWhile (!isMark ·))
  let (digits, places) := dropPoint base
  let scale := (places : Int) - exponent
  if fits scaleBound scale then
    let digits ← integer? digits
    return normalized ⟨digits, scale⟩
  else none

end Retype.Decimal
