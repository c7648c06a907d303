import Retype.Conversion.Between
import Retype.Fault

/-!
# Filling placeholders

`Ty.refine` takes a declared type and the type of some input, and puts the corresponding part of
the input wherever the declared type has a placeholder. What the declared type says otherwise
stays, optional marks included. Where a collection is declared and the input has a fixed shape,
the parts of the input are brought together first; if they have no common type, the placeholder
stays.

The two types must fit, as they do when the input's type converts to the declared one.
-/

namespace Retype

namespace Ty

/-- The common type of the parts of a structure, or the placeholder if they have none. -/
def merged (parts : List Ty) : Ty := (unify? parts .risky).getD .dynamic

mutual

/-- The declared type with its placeholders filled from the input. -/
def refine : Ty → Ty → Except Fault Ty
  | declared, .dynamic => .ok declared
  | .dynamic, input => .ok input
  | .primitive kind, _ => .ok (.primitive kind)
  | .capsule name, _ => .ok (.capsule name)
  | .map element, .map input => (refine element input).map .map
  | .map element, .object inputs => (refine element (merged (inputs.map (·.type)))).map .map
  | .sequence kind element, .sequence _ input => (refine element input).map (.sequence kind)
  | .sequence kind element, .tuple inputs => (refine element (merged inputs)).map (.sequence kind)
  | .object attributes, .map input => (refineFrom attributes input).map .object
  | .object attributes, .object inputs => (refineNamed attributes inputs).map .object
  | .tuple elements, .tuple inputs =>
    if inputs.length = elements.length then (refineAll elements inputs).map .tuple
    else .error (.of (.inconsistent (.notRefinable (.tuple elements) (.tuple inputs))))
  | declared, input => .error (.of (.inconsistent (.notRefinable declared input)))
termination_by structural t => t

/-- Fills declared types position by position. -/
def refineAll : List Ty → List Ty → Except Fault (List Ty)
  | t :: ts, input :: inputs =>
    (refine t input).bind fun t => (refineAll ts inputs).map fun ts => t :: ts
  | _, _ => .ok []
termination_by structural ts => ts

/-- Fills every attribute from one type. -/
def refineFrom : List (Attribute Ty) → Ty → Except Fault (List (Attribute Ty))
  | [], _ => .ok []
  | ⟨name, optional, t⟩ :: as, input =>
    (refine t input).bind fun t => (refineFrom as input).map fun as => ⟨name, optional, t⟩ :: as
termination_by structural as => as

/-- Fills each attribute from the one of its name; an attribute without one stays. -/
def refineNamed : List (Attribute Ty) → List (Attribute Ty) → Except Fault (List (Attribute Ty))
  | [], _ => .ok []
  | ⟨name, optional, t⟩ :: as, inputs =>
    (match Named.find? name inputs with
      | some input => refine t input.type
      | none => .ok t).bind fun t =>
        (refineNamed as inputs).map fun as => ⟨name, optional, t⟩ :: as
termination_by structural as => as

end

end Ty

end Retype
