import Retype.Decimal.Literal
import Retype.Decimal.Plain
import Retype.Value.Build

/-!
# Plain data of another kind

Numbers and truth values have a text. A text that is a decimal literal denotes a number, and
exactly the texts `true` and `false` denote truth values. There is no way between numbers and
truth values, and none from a value with parts.
-/

namespace Retype

/-- The text of a truth value. -/
def boolText (value : Bool) : String := if value then "true" else "false"

/-- The truth value that a text denotes. -/
def boolOfText? (text : String) : Option Bool :=
  if text = "true" then some true else if text = "false" then some false else none

/-- The value as plain data of the given kind; nulls and unknowns only change their type. -/
def Value.toPrimitive (target : Primitive) : Value → Except Fault Value
  | .null _ => .ok (.null (.primitive target))
  | .unknown _ => .ok (.unknown (.primitive target))
  | .string text =>
    match target with
    | .string => .ok (.string text)
    | .number => (Decimal.parse? text).elim (.error (.of (.invalidLiteral .number text)))
        fun value => .ok (.number value)
    | .bool => (boolOfText? text).elim (.error (.of (.invalidLiteral .bool text)))
        fun value => .ok (.bool value)
  | .number value =>
    match target with
    | .string => .ok (.string value.plain)
    | .number => .ok (.number value)
    | .bool => .error (.of (.incompatible .number .bool))
  | .bool value =>
    match target with
    | .string => .ok (.string (boolText value))
    | .number => .error (.of (.incompatible .bool .number))
    | .bool => .ok (.bool value)
  | v => .error (.of (.incompatible v.ty (.primitive target)))

end Retype
