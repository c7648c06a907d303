import Retype.Ty.Basic

/-!
# The text of a type

`Ty.text` spells a type out in full, as `list(object({name = optional(string)}))`; it stands in
messages. `Ty.friendlyName` names only the outside, as `list of object`. Names of attributes and
capsules are written as they are.
-/

namespace Retype

/-- The name of a kind of plain data. -/
def Primitive.text : Primitive → String
  | .string => "string"
  | .number => "number"
  | .bool => "bool"

/-- The name of a kind of sequence. -/
def SequenceKind.text : SequenceKind → String
  | .list => "list"
  | .set => "set"

namespace Ty

mutual

/-- The type spelled out in full. -/
def text : Ty → String
  | .primitive kind => kind.text
  | .sequence kind element => kind.text ++ "(" ++ text element ++ ")"
  | .map element => "map(" ++ text element ++ ")"
  | .tuple elements => "tuple([" ++ ", ".intercalate (textAll elements) ++ "])"
  | .object attributes =>
    "object(\x7b" ++ ", ".intercalate (textAttributes attributes) ++ "\x7d)"
  | .capsule name => "capsule(" ++ name ++ ")"
  | .dynamic => "dynamic"

/-- The text of each type. -/
def textAll : List Ty → List String
  | [] => []
  | t :: ts => text t :: textAll ts

/-- The text of each attribute, its type inside `optional(…)` if it is so marked. -/
def textAttributes : List (Attribute Ty) → List String
  | [] => []
  | ⟨name, optional, t⟩ :: as =>
    (name ++ " = " ++ if optional then "optional(" ++ text t ++ ")" else text t)
      :: textAttributes as

end

/-- A short name for people; a structure is named by its kind alone. -/
def friendlyName : Ty → String
  | .primitive kind => kind.text
  | .sequence kind element => kind.text ++ " of " ++ friendlyName element
  | .map element => "map of " ++ friendlyName element
  | .tuple _ => "tuple"
  | .object _ => "object"
  | .capsule name => name
  | .dynamic => "dynamic"

end Ty

end Retype
