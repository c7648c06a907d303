import Retype.Conversion.Between
import Retype.Fault

/-!
# Unification with a reason

`Ty.unify` is `Ty.unify?` with a fault for types that have nothing in common: it names the first
two, in the order given, that have no common type among themselves. `Ty.unifyWithConversions`
gives the conversions into the common type as well.
-/

namespace Retype

namespace Ty

/-- All pairs of an earlier and a later member, by the earlier and then by the later. -/
def pairs : List Ty → List (Ty × Ty)
  | [] => []
  | t :: ts => ts.map (t, ·) ++ pairs ts

/-- The common type of types, or the first two that have none. If any two have one but all
together do not, the first and the last are named. -/
def unify (types : List Ty) (safety : Safety) : Except Fault Ty :=
  match types with
  | [] => .error (.of .nothingToUnify)
  | first :: rest =>
    match unify? (first :: rest) safety with
    | some common => .ok common
    | none =>
      let apart := (pairs (first :: rest)).find? fun p => (unify? [p.1, p.2] safety).isNone
      let (left, right) := apart.getD (first, rest.getLastD first)
      .error (.of (.noCommonType left right))

/-- The conversion from a type into a common type. -/
def conversionInto (common : Ty) (safety : Safety) (t : Ty) : Except Fault Conversion :=
  if t = common then .ok .identity
  else
    match Conversion.between? t common safety with
    | some conversion => .ok conversion
    | none => .error (.of (.inconsistent (.notReachable common t)))

/-- The common type, and for each type its conversion into it. -/
def unifyWithConversions (types : List Ty) (safety : Safety) :
    Except Fault (Ty × List Conversion) := do
  let common ← unify types safety
  let conversions ← types.mapM (conversionInto common safety)
  return (common, conversions)

end Ty

/-- The least risk at which a type converts to another. -/
def Conversion.safety? (source target : Ty) : Option Safety :=
  if (Conversion.between? source target .safe).isSome then some .safe
  else if (Conversion.between? source target .risky).isSome then some .risky
  else none

end Retype
