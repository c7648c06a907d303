import Retype.Decimal.Basic

/-!
# Numbers in plain text

`Decimal.plain` writes a number in full: a minus sign if it is negative, the whole part without
leading zeros (or a single 0), and, if there is a fraction, a point and the fraction without
trailing zeros. There is no exponent, so numerically equal decimals have the same text.

The text is that of the exact normal form. To write the form with a scale of 64 bits,
`Decimal.normalized`, is the same for every text of less than `2 ^ 63` characters, and so for all
that there is room for.
-/

namespace Retype.Decimal

/-- Digits with a point in front of the last `places` of them, filled up with zeros so that at
least one digit stands before the point. -/
def withPoint (digits : List Char) (places : Nat) : List Char :=
  let padded := List.replicate (places + 1 - digits.length) '0' ++ digits
  let whole := padded.length - places
  padded.take whole ++ '.' :: padded.drop whole

/-- The digits of a number in full, with as many places as its scale says. -/
def written (n : Decimal) : String :=
  let digits := Nat.toDigits 10 n.digits.natAbs
  let body :=
    if n.scale ≤ 0 then digits ++ List.replicate (-n.scale).toNat '0'
    else withPoint digits n.scale.toNat
  String.ofList (if n.digits < 0 then '-' :: body else body)

/-- The plain text of a number. -/
def plain (d : Decimal) : String := d.normalize.written

end Retype.Decimal
