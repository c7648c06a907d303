import Retype.Convert
import Retype.Settings

/-!
# Sessions

A session answers the questions of this library under the limits of its settings, and remembers
the conversions it has looked up, those that do not exist included, as long as there is room.
Each operation gives its answer and the session after it. What is remembered never changes an
answer; it shows only in `Session.cached`.
-/

namespace Retype

/-- A question about a conversion. -/
structure Query where
  source : Ty
  target : Ty
  safety : Safety
deriving DecidableEq

/-- The conversion that a question asks for. -/
def Query.answer (query : Query) : Option Conversion :=
  Conversion.between? query.source query.target query.safety

/-- Settings, and the conversions looked up so far. -/
structure Session where
  settings : Settings
  cache : List (Query × Option Conversion)

namespace Session

/-- A session that remembers nothing yet. -/
def start (settings : Settings) : Session := ⟨settings, []⟩

/-- The number of conversions that are remembered. -/
def cached (session : Session) : Nat := session.cache.length

/-- Forgets every conversion. -/
def clear (session : Session) : Session := { session with cache := [] }

/-- Remembers an answer if there is room. -/
def remember (session : Session) (query : Query) (answer : Option Conversion) : Session :=
  if session.cached < session.settings.cacheCapacity then
    { session with cache := (query, answer) :: session.cache }
  else session

/-- Looks up a conversion, among those remembered first. -/
def lookup (session : Session) (query : Query) : Option Conversion × Session :=
  match session.cache.lookup query with
  | some answer => (answer, session)
  | none => (query.answer, session.remember query query.answer)

/-- The conversion that is asked for, if both types are within the limits. -/
def conversion (session : Session) (query : Query) :
    Except Fault (Option Conversion) × Session :=
  match session.settings.checkDepths [query.source, query.target] with
  | .error fault => (.error fault, session)
  | .ok () =>
    let (answer, session) := session.lookup query
    (.ok answer, session)

/-- Converts a value to a type. A value of that type is kept, whatever its depth. -/
def convert (session : Session) (v : Value) (want : Ty) : Except Fault Value × Session :=
  if v.ty = want then (.ok v, session)
  else
    match session.conversion ⟨v.ty, want, .risky⟩ with
    | (.error fault, session) => (.error fault, session)
    | (.ok (some conversion), session) => (conversion.apply v, session)
    | (.ok none, session) => (.error (Conversion.explain v.ty want), session)

/-- The common type of types within the limits. -/
def unify (session : Session) (types : List Ty) (safety : Safety) : Except Fault Ty := do
  session.settings.checkDepths types
  Ty.unify types safety

/-- The common type of types within the limits, and their conversions into it. -/
def unifyWithConversions (session : Session) (types : List Ty) (safety : Safety) :
    Except Fault (Ty × List Conversion) := do
  session.settings.checkDepths types
  Ty.unifyWithConversions types safety

/-- Fills the placeholders of a declared type, if both types are within the limits. -/
def refine (session : Session) (declared input : Ty) : Except Fault Ty := do
  session.settings.checkDepths [input, declared]
  declared.refine input

end Session

end Retype
