import Retype.Document
import Retype.Fault
import Retype.Ty.Structure

/-!
# Settings of a session

How many conversions a session remembers, and how deep the types may be that it is handed. Every
setting has a default, so a document may leave any of them out.
-/

namespace Retype

/-- Limits of a session. -/
structure Settings where
  /-- The most conversions that are remembered; none if it is 0. -/
  cacheCapacity : Nat
  /-- The greatest depth of a type. -/
  maxTypeDepth : Nat
deriving DecidableEq

namespace Settings

/-- What holds unless something else is asked for. -/
def standard : Settings := ⟨1024, 100⟩

/-- Tight limits, for types from untrusted sources. -/
def strict : Settings := ⟨256, 32⟩

/-- Generous limits, for trusted surroundings. -/
def permissive : Settings := ⟨16384, 256⟩

/-- Refuses a type that is too deep. -/
def checkDepth (settings : Settings) (t : Ty) : Except Fault Unit :=
  if settings.maxTypeDepth < t.depth then .error (.of (.tooDeep settings.maxTypeDepth t.depth))
  else .ok ()

/-- Refuses the first type that is too deep. -/
def checkDepths (settings : Settings) : List Ty → Except Fault Unit
  | [] => .ok ()
  | t :: ts => (settings.checkDepth t).bind fun _ => settings.checkDepths ts

/-- The document of settings. -/
def encode (settings : Settings) : Document :=
  .object [("cache_capacity", .number settings.cacheCapacity 0),
    ("max_type_depth", .number settings.maxTypeDepth 0)]

/-- A number that may be left out. -/
def decodeOr (default : Nat) : Option Document → Option Nat
  | none => some default
  | some d => d.word?

/-- The settings that a document writes: an object with any of the fields, or an array of the
values in order, of which later ones may be left out. -/
def decode? : Document → Option Settings
  | .object fields => do
    let capacity ← decodeOr standard.cacheCapacity (Document.field? "cache_capacity" fields)
    let depth ← decodeOr standard.maxTypeDepth (Document.field? "max_type_depth" fields)
    return ⟨capacity, depth⟩
  | .array values =>
    if values.length ≤ 2 then do
      let capacity ← decodeOr standard.cacheCapacity values[0]?
      let depth ← decodeOr standard.maxTypeDepth values[1]?
      return ⟨capacity, depth⟩
    else none
  | _ => none

end Settings

end Retype
