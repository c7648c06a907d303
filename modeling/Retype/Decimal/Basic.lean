/-!
# Decimal numbers

A decimal is a whole number of digits and a scale: it denotes `digits * 10 ^ (-scale)`. The same
number has many such forms. `Decimal.normalize` picks the one without a trailing zero digit (and
0 with scale 0), and two decimals are numerically equal exactly when their normal forms agree, so
numbers of any magnitude are compared without writing their zeros out.

Where numbers are read and written, scales are words of 64 bits, and each zero that is trimmed
lowers such a word by one: one step below the least word is the greatest. `Decimal.normalized` is
the normal form with its scale as that word. It is `Decimal.normalize` for every number whose
normal form has a scale within the bound (`wrapped_eq_iff`).
-/

namespace Retype

/-- The number `digits * 10 ^ (-scale)`. -/
structure Decimal where
  digits : Int
  scale : Int
deriving DecidableEq

namespace Decimal

/-- A number without its trailing zeros, and how many there were; 0 has none. -/
def trim (n : Nat) : Nat × Nat :=
  if n = 0 then (0, 0)
  else if n % 10 = 0 then
    let trimmed := trim (n / 10)
    (trimmed.1, trimmed.2 + 1)
  else (n, 0)
termination_by n
decreasing_by omega

/-- The form without trailing zero digits; 0 has scale 0. -/
def normalize (d : Decimal) : Decimal :=
  if d.digits = 0 then ⟨0, 0⟩
  else
    let trimmed := trim d.digits.natAbs
    ⟨d.digits.sign * trimmed.1, d.scale - trimmed.2⟩

/-- Numeric equality. -/
def same (a b : Decimal) : Bool := a.normalize == b.normalize

/-- A whole number. -/
def ofInt (n : Int) : Decimal := normalize ⟨n, 0⟩

/-! ### Scales of 64 bits -/

/-- Scales are signed words of 64 bits. -/
def scaleBound : Int := 0x8000000000000000

/-- Whether a number lies between `-bound` and `bound`, the lower end included. -/
def fits (bound n : Int) : Bool := decide (-bound ≤ n) && decide (n < bound)

theorem fits_iff {bound n : Int} : fits bound n = true ↔ -bound ≤ n ∧ n < bound := by
  simp [fits]

/-- The signed word of 64 bits that differs from a number by a multiple of the number of words. -/
def scaleWord (n : Int) : Int := n.bmod 0x10000000000000000

/-- A number within the bound is its own word. -/
theorem scaleWord_of_fits {n : Int} (h : fits scaleBound n = true) : scaleWord n = n := by
  obtain ⟨low, high⟩ := fits_iff.1 h
  unfold scaleBound at low high
  exact Int.bmod_eq_of_le (by omega) (by omega)

/-- Every word is within the bound. -/
theorem fits_scaleWord (n : Int) : fits scaleBound (scaleWord n) = true := by
  have low := Int.le_bmod (x := n) (m := 0x10000000000000000) (by decide)
  have high := Int.bmod_lt (x := n) (m := 0x10000000000000000) (by decide)
  refine fits_iff.2 ⟨?_, ?_⟩ <;> unfold scaleBound scaleWord <;> omega

/-- The decimal with its scale as a word. -/
def wrapped (d : Decimal) : Decimal := ⟨d.digits, scaleWord d.scale⟩

/-- A decimal stays what it is exactly if its scale is within the bound. -/
theorem wrapped_eq_iff {d : Decimal} : d.wrapped = d ↔ fits scaleBound d.scale = true := by
  refine ⟨fun h => ?_, fun h => by rw [wrapped, scaleWord_of_fits h]⟩
  rw [← h]
  exact fits_scaleWord d.scale

/-- The normal form, its scale as a word. -/
def normalized (d : Decimal) : Decimal := d.normalize.wrapped

end Decimal

end Retype
