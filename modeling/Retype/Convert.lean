import Retype.Conversion.Apply
import Retype.Conversion.Explain

/-!
# Converting values

`Value.convert` converts a value to a type, with leave to take risks. Parts whose conversion is
left open until there is data are converted by the same function in turn. Every such part, and
the type it goes to, is smaller than the value and its target: the larger of `Value.height` and
`Ty.depth` goes down, so as many levels as that are enough.
-/

namespace Retype

namespace Value

mutual

/-- Nesting depth of a value, the types recorded in it included. -/
def height : Value → Nat
  | .null type | .unknown type => type.depth
  | .string _ | .number _ | .bool _ | .capsule _ _ => 1
  | .sequence _ element items => 1 + max element.depth (heightAll items)
  | .map element entries => 1 + max element.depth (heightEntries entries)
  | .tuple items => 1 + heightAll items
  | .object attributes => 1 + heightEntries attributes

/-- The greatest height among values, 0 if there are none. -/
def heightAll : List Value → Nat
  | [] => 0
  | v :: vs => max (height v) (heightAll vs)

/-- The greatest height among the values of entries, 0 if there are none. -/
def heightEntries : List (String × Value) → Nat
  | [] => 0
  | (_, v) :: es => max (height v) (heightEntries es)

end

/-- Converts a value through at most `levels` levels of conversions that are left open. -/
def convertWithin : Nat → Value → Ty → Except Fault Value
  | 0, _, _ => .error (.of (.inconsistent .exhausted))
  | levels + 1, v, want =>
    if v.ty = want then .ok v
    else
      match Conversion.between? v.ty want .risky with
      | some conversion => conversion.applyWith (convertWithin levels) v
      | none => .error (Conversion.explain v.ty want)

/-- How large the task is to convert a value to a type. -/
def rank (v : Value) (want : Ty) : Nat := max v.height want.depth

/-- Converts a value to a type. A value of that type is kept as it is. -/
def convert (v : Value) (want : Ty) : Except Fault Value := convertWithin (rank v want) v want

end Value

namespace Conversion

/-- Applies a conversion to a value. Paths of faults are relative to the value. -/
def apply (c : Conversion) (v : Value) : Except Fault Value := c.applyWith Value.convert v

/-- Applies a conversion to a value that sits at a path inside a larger one. -/
def applyAt (outer : Path) (c : Conversion) (v : Value) : Except Fault Value :=
  (c.apply v).mapError (Fault.under outer)

end Conversion

end Retype
