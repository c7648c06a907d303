import Retype.Fault
import Retype.Value.Equality

/-!
# Building collections

A list, set or map is built from an element type and parts that must all have that type. Sets
drop duplicates: of equal items the first is kept, in its place, but unknown items are all kept,
since the data they stand for may still differ.
-/

namespace Retype

namespace Value

/-! ### Duplicates -/

/-- Whether two items count as one in a set: they are equal and have the same fingerprint. -/
def duplicates (x y : Value) : Bool := x.same y && x.fingerprint == y.fingerprint

/-- The items that are unknown or no duplicates of `seen` or of an item before them. -/
def dedupFrom (seen : List Value) : List Value → List Value
  | [] => []
  | x :: xs =>
    if x.isUnknown then x :: dedupFrom seen xs
    else if seen.any (duplicates x) then dedupFrom seen xs
    else x :: dedupFrom (x :: seen) xs

/-- The items of a set: duplicates are dropped, the first one of each is kept. -/
def dedup (items : List Value) : List Value := dedupFrom [] items

/-- The list of the items, or the set of them. -/
def collect (kind : SequenceKind) (element : Ty) (items : List Value) : Value :=
  match kind with
  | .list => .list element items
  | .set => .set element (dedup items)

/-! ### Parts with the steps that lead to them -/

/-- The items with their positions. -/
def indexed (items : List Value) : List (Step × Value) := items.mapIdx fun i v => (.index i, v)

/-- The entries of a map with their keys. -/
def keyed (entries : List (String × Value)) : List (Step × Value) :=
  entries.map fun e => (.key e.1, e.2)

/-- The attributes of an object with their names. -/
def attributed (attributes : List (String × Value)) : List (Step × Value) :=
  attributes.map fun a => (.attr a.1, a.2)

/-! ### Checked constructors -/

/-- Refuses an element type with a placeholder, then the first part of another type. -/
def checkElements (element : Ty) (parts : List (Step × Value)) : Except Fault Unit :=
  if element.hasDynamic then .error (.of (.inconsistent (.placeholderElement element)))
  else
    match parts.find? fun part => part.2.ty != element with
    | some (step, v) => .error ((Fault.of (.incompatible v.ty element)).within step)
    | none => .ok ()

/-- The list or set of items that all have the element type. -/
def sequence? (kind : SequenceKind) (element : Ty) (items : List Value) : Except Fault Value := do
  checkElements element (indexed items)
  return collect kind element items

/-- The map of entries that all have the element type; the last entry of each key counts. -/
def map? (element : Ty) (entries : List (String × Value)) : Except Fault Value := do
  let entries := Named.ofList entries
  checkElements element (keyed entries)
  return .map element entries

/-- The object with the given attributes, the last one of each name. -/
def ofAttributes (attributes : List (String × Value)) : Value := .object (Named.ofList attributes)

/-- The text of a capsule, which does not show its content. -/
def capsuleText? : Value → Option String
  | .capsule name _ => some ("Capsule \x7b ty: " ++ Text.quoted name ++ ", .. \x7d")
  | _ => none

end Value

end Retype
