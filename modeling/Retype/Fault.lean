import Retype.Path
import Retype.Ty.Text

/-!
# Faults

What can go wrong in a conversion or a unification (`Cause`), and where in the value (`Fault`).
A fault starts at the part that failed; `Fault.within` moves it one step outwards, so that its
path is always relative to the value that the caller handed in. The wording of every cause is in
`Cause.message`, its stable code in `Cause.code`.
-/

namespace Retype

/-- The shapes of values that conversions are built for. -/
inductive Shape where
  | sequence
  | map
  | tuple
  | object
deriving DecidableEq

/-- The name of a shape. -/
def Shape.text : Shape → String
  | .sequence => "list or set"
  | .map => "map"
  | .tuple => "tuple"
  | .object => "object"

/-- Ways in which a caller can break a precondition. -/
inductive Inconsistency where
  /-- A conversion built for one shape met a value of another. -/
  | wrongShape (expected : Shape) (actual : Ty)
  /-- A type was to be refined by one that does not convert to it. -/
  | notRefinable (declared input : Ty)
  /-- A common type was found that one of the types does not convert to. -/
  | notReachable (unified source : Ty)
  /-- A collection was declared with a placeholder in its element type. -/
  | placeholderElement (element : Ty)
  /-- A conversion ran out of the nesting that it was given. -/
  | exhausted
  /-- Anything else, in words. -/
  | other (message : String)
deriving DecidableEq

/-- The wording of an inconsistency. -/
def Inconsistency.message : Inconsistency → String
  | .wrongShape expected actual =>
    "conversion built for a " ++ expected.text ++ " was applied to a value of type " ++ actual.text
  | .notRefinable declared input =>
    "cannot refine " ++ declared.text ++ " from " ++ input.text
      ++ ": the types are not convert-compatible"
  | .notReachable unified source =>
    "unified type " ++ unified.text ++ " is not reachable from " ++ source.text
  | .placeholderElement element =>
    "collection element type " ++ element.text ++ " contains a dynamic placeholder"
  | .exhausted => "conversion nested deeper than its value and target"
  | .other message => message

/-- What went wrong, wherever it did. -/
inductive Cause where
  /-- There is no conversion between two types. -/
  | incompatible (source target : Ty)
  /-- A text does not denote plain data of the kind that is asked for. -/
  | invalidLiteral (target : Primitive) (text : String)
  /-- A tuple has the wrong number of elements. -/
  | arityMismatch (expected actual : Nat)
  /-- The target has no attribute of that name. -/
  | unsupportedAttribute (name : String)
  /-- The target needs an attribute that is not there. -/
  | missingAttribute (name : String)
  /-- Two types have no common type. -/
  | noCommonType (left right : Ty)
  /-- There was nothing to unify. -/
  | nothingToUnify
  /-- A precondition does not hold. -/
  | inconsistent (detail : Inconsistency)
  /-- A type is nested too deeply. -/
  | tooDeep (limit depth : Nat)
deriving DecidableEq

/-- The wording of a cause. -/
def Cause.message : Cause → String
  | .incompatible source target => "cannot convert " ++ source.text ++ " to " ++ target.text
  | .invalidLiteral target text =>
    "a " ++ target.text ++ " is required, but " ++ Text.quoted text ++ " is not a valid "
      ++ target.text
  | .arityMismatch expected actual =>
    "tuple of " ++ toString expected ++ " elements required, but have " ++ toString actual
  | .unsupportedAttribute name => "unsupported attribute " ++ Text.quoted name
  | .missingAttribute name => "attribute " ++ Text.quoted name ++ " is required"
  | .noCommonType left right => "no common type for " ++ left.text ++ " and " ++ right.text
  | .nothingToUnify => "cannot unify an empty set of types"
  | .inconsistent detail => "internal consistency fault: " ++ detail.message
  | .tooDeep limit depth =>
    "type nesting depth " ++ toString depth ++ " exceeds maximum of " ++ toString limit

/-- A code that names the kind of a cause. -/
def Cause.code : Cause → String
  | .incompatible _ _ => "CONVERT:INCOMPATIBLE_TYPE"
  | .invalidLiteral _ _ => "CONVERT:INVALID_LITERAL"
  | .arityMismatch _ _ => "CONVERT:ARITY_MISMATCH"
  | .unsupportedAttribute _ => "CONVERT:UNSUPPORTED_ATTR"
  | .missingAttribute _ => "CONVERT:MISSING_ATTR"
  | .noCommonType _ _ => "CONVERT:UNIFY"
  | .nothingToUnify => "CONVERT:UNIFY_EMPTY"
  | .inconsistent _ => "CONVERT:INTERNAL"
  | .tooDeep _ _ => "CONVERT:DEPTH_LIMIT"

/-- A cause, and the path to the part where it arose. -/
structure Fault where
  cause : Cause
  path : Path
deriving DecidableEq

namespace Fault

/-- A fault of the whole value. -/
def of (cause : Cause) : Fault := ⟨cause, []⟩

/-- The fault seen from the value that holds the failing one at `step`. -/
def within (step : Step) (fault : Fault) : Fault := ⟨fault.cause, step :: fault.path⟩

/-- The fault seen from a value that holds the failing one at the path `outer`. -/
def under (outer : Path) (fault : Fault) : Fault := ⟨fault.cause, outer ++ fault.path⟩

/-- Whether a precondition was broken, rather than the data being at fault. -/
def isInternal (fault : Fault) : Bool :=
  match fault.cause with
  | .inconsistent _ => true
  | _ => false

/-- The text of a fault: where, unless it is the whole value, and what. -/
def message (fault : Fault) : String :=
  if fault.path.isEmpty then fault.cause.message
  else fault.path.text ++ ": " ++ fault.cause.message

end Fault

end Retype
