import Retype.Named

/-!
# Documents

The tree of a structured text: what types and settings are written to and read from. A number is
written with or without a fraction, and only one without a fraction is a whole number.
-/

namespace Retype

/-- Structured text. -/
inductive Document where
  | null
  | bool (value : Bool)
  /-- The number `digits * 10 ^ (-places)`, written with that many places behind the point. -/
  | number (digits : Int) (places : Nat)
  | string (text : String)
  | array (items : List Document)
  /-- Fields in ascending order of their names. -/
  | object (fields : List (String × Document))

instance : Inhabited Document := ⟨.null⟩

namespace Document

/-- The text of a text. -/
def string? : Document → Option String
  | .string text => some text
  | _ => none

/-- The texts of an array of texts. -/
def strings? : Document → Option (List String)
  | .array items => items.mapM string?
  | _ => none

/-- A whole number of at most 64 bits, without a sign. -/
def word? : Document → Option Nat
  | .number (.ofNat n) 0 => if n < 0x10000000000000000 then some n else none
  | _ => none

/-- The field of the given name. -/
def field? (name : String) (fields : List (String × Document)) : Option Document :=
  (Named.find? name fields).map Prod.snd

end Document

end Retype
