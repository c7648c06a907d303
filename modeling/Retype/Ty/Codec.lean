import Retype.Document
import Retype.Ty.Structure
import Retype.Ty.Text

/-!
# Types as documents

A leaf is written as its tag, any other type as an object with its tag as the only field. The
layout of an object type lists its attributes and, if there are any, the names of the optional
ones in ascending order.

Reading is more generous than writing: a leaf's tag may carry a null, the layout of an object may
be an array of attributes and names, fields other than those two are ignored, and the names of
the optional attributes come in any order and may repeat. A name that is no attribute is refused
by a fault of its own.
-/

namespace Retype

/-- Why a document is no type. -/
inductive Undecodable where
  /-- It has not the form of a type. -/
  | malformed
  /-- An object lists a name as optional that is none of its attributes. -/
  | strayOptional (name : String)
deriving DecidableEq

/-- The wording of the one fault that has words. -/
def Undecodable.message? : Undecodable → Option String
  | .malformed => none
  | .strayOptional name =>
    some ("optional attribute `" ++ name ++ "` is not an attribute of the object")

namespace Ty

/-! ### Writing -/

/-- The names of the optional attributes. -/
def optionalNames (attributes : List (Attribute Ty)) : List String :=
  (attributes.filter (·.optional)).map (·.name)

mutual

/-- The document of a type. -/
def encode : Ty → Document
  | .primitive kind => .string (kind.text)
  | .dynamic => .string "dynamic"
  | .sequence kind element => .object [(kind.text, encode element)]
  | .map element => .object [("map", encode element)]
  | .tuple elements => .object [("tuple", .array (encodeAll elements))]
  | .object attributes =>
    let optional := optionalNames attributes
    let marks := if optional.isEmpty then [] else [("optional", .array (optional.map .string))]
    .object [("object", .object (("attributes", .object (encodeAttributes attributes)) :: marks))]
  | .capsule name => .object [("capsule", .string name)]

/-- The documents of types. -/
def encodeAll : List Ty → List Document
  | [] => []
  | t :: ts => encode t :: encodeAll ts

/-- The fields of attributes. -/
def encodeAttributes : List (Attribute Ty) → List (String × Document)
  | [] => []
  | ⟨name, _, t⟩ :: as => (name, encode t) :: encodeAttributes as

end

/-! ### Reading -/

/-- The least of some names. -/
def leastName (first : String) (rest : List String) : String :=
  rest.foldl (fun least name => if name < least then name else least) first

/-- The object type with the given attributes, those marked that are named as optional; the least
name that is no attribute is refused. -/
def ofLayout (fields : List (String × Ty)) (optional : List String) : Except Undecodable Ty :=
  match optional.filter fun name => !Named.contains name fields with
  | [] => .ok (ofAttributes fields optional)
  | stray :: strays => .error (.strayOptional (leastName stray strays))

/-- The names of the optional attributes as they stand in a layout; nothing means none. -/
def decodeOptional : Option Document → Except Undecodable (List String)
  | none => .ok []
  | some d => d.strings?.elim (.error .malformed) .ok

/-- The leaf with the given tag. -/
def ofLeafTag? : String → Option Ty
  | "string" => some .string
  | "number" => some .number
  | "bool" => some .bool
  | "dynamic" => some .dynamic
  | _ => none

mutual

/-- The type that a document writes. -/
def decode : Document → Except Undecodable Ty
  | .string tag => (ofLeafTag? tag).elim (.error .malformed) .ok
  | .object [(tag, payload)] =>
    if tag = "list" then (decode payload).map .list
    else if tag = "set" then (decode payload).map .set
    else if tag = "map" then (decode payload).map .map
    else if tag = "tuple" then
      match payload with
      | .array items => (decodeAll items).map .tuple
      | _ => .error .malformed
    else if tag = "object" then decodeLayout payload
    else if tag = "capsule" then
      match payload with
      | .string name => .ok (.capsule name)
      | _ => .error .malformed
    else
      match payload with
      | .null => (ofLeafTag? tag).elim (.error .malformed) .ok
      | _ => .error .malformed
  | _ => .error .malformed
termination_by structural d => d

/-- The types that documents write, up to the first that writes none. -/
def decodeAll : List Document → Except Undecodable (List Ty)
  | [] => .ok []
  | d :: ds => (decode d).bind fun t => (decodeAll ds).map fun ts => t :: ts
termination_by structural ds => ds

/-- The object type that a layout writes: its attributes are read first, then the names of the
optional ones, and last the two are compared. -/
def decodeLayout : Document → Except Undecodable Ty
  | .object fields =>
    (decodeField fields).bind fun attributes =>
      (decodeOptional (Document.field? "optional" fields)).bind fun optional =>
        ofLayout attributes optional
  | .array (attributes :: rest) =>
    (decodeFields attributes).bind fun attributes =>
      match rest with
      | [] => ofLayout attributes []
      | [optional] => (decodeOptional (some optional)).bind fun optional =>
          ofLayout attributes optional
      | _ => .error .malformed
  | _ => .error .malformed
termination_by structural d => d

/-- The attributes in the field that holds them. -/
def decodeField : List (String × Document) → Except Undecodable (List (String × Ty))
  | [] => .error .malformed
  | (name, d) :: fields => if name = "attributes" then decodeFields d else decodeField fields
termination_by structural fields => fields

/-- Names and types of attributes. -/
def decodeFields : Document → Except Undecodable (List (String × Ty))
  | .object fields => decodeEach fields
  | _ => .error .malformed
termination_by structural d => d

/-- Names and types of attributes, up to the first that has none. -/
def decodeEach : List (String × Document) → Except Undecodable (List (String × Ty))
  | [] => .ok []
  | (name, d) :: fields =>
    (decode d).bind fun t => (decodeEach fields).map fun rest => (name, t) :: rest
termination_by structural fields => fields

end

end Ty

end Retype
