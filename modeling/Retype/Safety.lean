import Retype.Ty.Structure

/-!
# Safe and risky conversions

A safe conversion neither fails nor loses information. A risky one may fail on particular data,
as text that is no number does, or may discard order and repetition, as a set does. This module
says which primitives and which sequences convert at all, and when a conversion between types
turns a primitive somewhere inside into another.
-/

namespace Retype

/-- Which conversions are permitted: only safe ones, or risky ones as well. -/
inductive Safety where
  | safe
  | risky
deriving DecidableEq

/-- Everything has a text; a text may denote a number or a truth value. -/
def Primitive.convertible (safety : Safety) (source target : Primitive) : Bool :=
  source == target || target == .string || (source == .string && safety == .risky)

/-- A list holds whatever a list or a set holds; a set may drop items of a list. -/
def SequenceKind.convertible (safety : Safety) (source target : SequenceKind) : Bool :=
  target == .list || source == .set || safety == .risky

namespace Ty

mutual

/-- Whether going from the first type to the second turns a primitive into a different one
somewhere inside. -/
def widens : Ty → Ty → Bool
  | .primitive p, .primitive q => p != q
  | .sequence _ s, .sequence _ t => widens s t
  | .sequence _ s, .map t => widens s t
  | .map s, .sequence _ t => widens s t
  | .map s, .map t => widens s t
  | .tuple ss, .tuple ts => widensEach ss ts
  | .tuple ss, .sequence _ t => widensSome ss t
  | .object as, .object bs => widensAttributes as bs
  | .object as, .map t => widensSomeAttribute as t
  | .map s, .object bs => bs.any fun b => widens s b.type
  | _, _ => false
termination_by structural t => t

/-- Whether one of the types is widened at its position. -/
def widensEach : List Ty → List Ty → Bool
  | s :: ss, t :: ts => widens s t || widensEach ss ts
  | _, _ => false
termination_by structural ts => ts

/-- Whether one of the types is widened by going to a common type. -/
def widensSome : List Ty → Ty → Bool
  | [], _ => false
  | s :: ss, t => widens s t || widensSome ss t
termination_by structural ts => ts

/-- Whether one of the attributes is widened by going to the attribute of its name. -/
def widensAttributes : List (Attribute Ty) → List (Attribute Ty) → Bool
  | [], _ => false
  | ⟨name, _, s⟩ :: as, bs =>
    ((Named.find? name bs).any fun b => widens s b.type) || widensAttributes as bs
termination_by structural as => as

/-- Whether one of the attributes is widened by going to a common type. -/
def widensSomeAttribute : List (Attribute Ty) → Ty → Bool
  | [], _ => false
  | ⟨_, _, s⟩ :: as, t => widens s t || widensSomeAttribute as t
termination_by structural as => as

end

end Ty

end Retype
