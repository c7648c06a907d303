import Retype.Ty.Refine
import Retype.Unify
import Retype.Value.Primitive

/-!
# Carrying out a conversion

`Conversion.applyWith` carries out a plan on a value. It goes by the shape of the plan alone, so
it recurses on the plan; what is left to a later choice, and items whose types differ after they
were converted, goes through a function `convert` that is handed in.

Parts are converted in order, and the first fault ends the work; it is located at its part. When
a collection is declared with a placeholder inside its element type, its parts may come out with
different types. They are then given their common type (`Conversion.settle`).
-/

namespace Retype

namespace Conversion

/-- Locates the fault of a part. -/
def locate {α : Type} (step : Step) (result : Except Fault α) : Except Fault α :=
  result.mapError (Fault.within step)

/-- The fault of a conversion that met a value of another shape. -/
def wrongShape {α : Type} (expected : Shape) (v : Value) : Except Fault α :=
  .error (.of (.inconsistent (.wrongShape expected v.ty)))

/-- Converts each part, with its fault located at it. -/
def eachPart (convert : Value → Except Fault Value) (parts : List (Step × Value)) :
    Except Fault (List (Step × Value)) :=
  parts.mapM fun part => (locate part.1 (convert part.2)).map fun v => (part.1, v)

/-- The element type of converted parts, and the parts of that type. A declared type without a
placeholder is the type of all of them already. Otherwise the parts show their types; if these
differ, the parts are converted once more, to the common type. -/
def settle (convert : Value → Ty → Except Fault Value) (declared : Ty)
    (parts : List (Step × Value)) : Except Fault (Ty × List Value) :=
  if declared.hasDynamic then
    match parts with
    | [] => .ok (declared.stripped, [])
    | (step, first) :: rest =>
      if rest.all fun part => part.2.ty == first.ty then
        .ok (first.ty, first :: rest.map Prod.snd)
      else
        (Ty.unify (first.ty :: rest.map fun part => part.2.ty) .risky).bind fun element =>
          (eachPart (fun v => convert v element) ((step, first) :: rest)).map fun parts =>
            (element, parts.map Prod.snd)
  else .ok (declared.stripped, parts.map Prod.snd)

/-- Refuses a name that no slot has. -/
def checkNames (slots : List (Slot Conversion)) (entries : List (String × Value)) :
    Except Fault Unit :=
  match entries.find? fun e => !Named.contains e.1 slots with
  | some extra => .error (.of (.unsupportedAttribute extra.1))
  | none => .ok ()

/-- The value of an attribute that is not there: a null if it is optional. -/
def absent (a : Attribute Ty) : Except Fault Value :=
  if a.optional then .ok (.null a.type.stripped) else .error (.of (.missingAttribute a.name))

mutual

/-- Carries out a conversion, with the given way to convert what the plan leaves open. -/
def applyWith (convert : Value → Ty → Except Fault Value) :
    Conversion → Value → Except Fault Value
  | .identity, v => .ok v
  | .deferred target, v =>
    match v with
    | .null .dynamic => .ok (.null target.stripped)
    | .unknown .dynamic => .ok (.unknown target.stripped)
    | v => convert v target
  | .covering target inner, v =>
    match v with
    | .null type => (target.refine type).map .null
    | .unknown type => (target.refine type).map .unknown
    | v => applyWith convert inner v
  | .primitive target, v => v.toPrimitive target
  | .eachItem kind inner element, v =>
    match v with
    | .sequence _ own items =>
      if items.isEmpty then (element.refine own).map fun e => .sequence kind e.stripped []
      else
        (eachPart (applyWith convert inner) (Value.indexed items)).bind fun parts =>
          (settle convert element parts).map fun settled =>
            Value.collect kind settled.1 settled.2
    | v => wrongShape .sequence v
  | .eachEntry inner element, v =>
    match v with
    | .map own entries =>
      if entries.isEmpty then (element.refine own).map fun e => .map e.stripped []
      else
        (eachPart (applyWith convert inner) (Value.keyed entries)).bind fun parts =>
          (settle convert element parts).map fun settled =>
            .map settled.1 ((entries.map Prod.fst).zip settled.2)
    | v => wrongShape .map v
  | .positions kind parts element, v =>
    match v with
    | .tuple items =>
      if items.length = parts.length then
        if items.isEmpty then .ok (.sequence kind element.stripped [])
        else
          (applyAll convert parts (Value.indexed items)).bind fun parts =>
            (settle convert element parts).map fun settled =>
              Value.collect kind settled.1 settled.2
      else .error (.of (.arityMismatch parts.length items.length))
    | v => wrongShape .tuple v
  | .gather parts element, v =>
    match v with
    | .object attributes =>
      if attributes.isEmpty then .ok (.map element.stripped [])
      else
        let converted : Except Fault (List (Step × Value)) := attributes.mapM fun a =>
          match applyNamed convert parts a.1 a.2 with
          | some result => (locate (.attr a.1) result).map fun v => (.attr a.1, v)
          | none => wrongShape .object v
        converted.bind fun parts =>
          (settle convert element parts).map fun settled =>
            .map settled.1 ((attributes.map Prod.fst).zip settled.2)
    | v => wrongShape .object v
  | .tuple parts, v =>
    match v with
    | .tuple items =>
      if items.length = parts.length then
        (applyAll convert parts (Value.indexed items)).map fun parts =>
          .tuple (parts.map Prod.snd)
      else .error (.of (.arityMismatch parts.length items.length))
    | v => wrongShape .tuple v
  | .object slots, v =>
    match v with
    | .object attributes =>
      (checkNames slots attributes).bind fun _ =>
        (fill convert Step.attr slots attributes).map .object
    | v => wrongShape .object v
  | .select slots, v =>
    match v with
    | .map _ entries =>
      (checkNames slots entries).bind fun _ => (fill convert Step.key slots entries).map .object
    | v => wrongShape .map v
termination_by structural c => c

/-- Carries out conversions on parts, one each. -/
def applyAll (convert : Value → Ty → Except Fault Value) :
    List Conversion → List (Step × Value) → Except Fault (List (Step × Value))
  | c :: cs, (step, v) :: parts =>
    (locate step (applyWith convert c v)).bind fun v =>
      (applyAll convert cs parts).map fun parts => (step, v) :: parts
  | _, _ => .ok []
termination_by structural cs => cs

/-- Carries out the conversion of the given name, if there is one. -/
def applyNamed (convert : Value → Ty → Except Fault Value) :
    List (String × Conversion) → String → Value → Option (Except Fault Value)
  | [], _, _ => none
  | (key, c) :: cs, name, v =>
    if key = name then some (applyWith convert c v) else applyNamed convert cs name v
termination_by structural cs => cs

/-- Fills slots from the entries of their names; `step` leads to an entry. -/
def fill (convert : Value → Ty → Except Fault Value) (step : String → Step) :
    List (Slot Conversion) → List (String × Value) → Except Fault (List (String × Value))
  | [], _ => .ok []
  | ⟨a, c⟩ :: slots, entries =>
    (match Named.find? a.name entries with
      | some e => locate (step a.name) (applyWith convert c e.2)
      | none => absent a).bind fun v =>
        (fill convert step slots entries).map fun filled => (a.name, v) :: filled
termination_by structural slots => slots

end

end Conversion

end Retype
