import Retype.Blueprint
import Retype.Conversion.Basic
import Retype.Preference

/-!
# Which types convert, and their common types

`Conversion.between?` decides whether one type converts to another and how; `Ty.unify?` finds a
common type of several. Each needs the other: a tuple converts to a list of placeholders by way
of the common type of its elements, and a common type is one that all the types convert to.

The recursion is well founded. A conversion asks only about parts of its source; a common type
asks for common types of parts of the types, and for conversions from the types themselves. So
three times the depth of the source, or of the deepest type, goes down, with a little to spare to
tell the functions apart.
-/

namespace Retype

mutual

/-- The conversion from one type to another, if there is one that is permitted. -/
def Conversion.between? (source target : Ty) (safety : Safety) : Option Conversion :=
  Option.map (Conversion.covered source target) <|
    if source = target then some .identity
    else
      match source, target with
      | _, .dynamic => some .identity
      | .dynamic, _ => some (.deferred target)
      | .primitive p, .primitive q =>
        if Primitive.convertible safety p q then some (.primitive q) else none
      | .sequence k s, .sequence l t =>
        if SequenceKind.convertible safety k l then
          (Conversion.between? s t safety).map fun c => .eachItem l c t
        else none
      | .tuple ss, .sequence l t =>
        if SequenceKind.convertible safety .list l then
          (if t.isDynamic && !ss.isEmpty then Ty.unify? ss safety else some t).bind fun element =>
            (ss.mapM fun s => Conversion.between? s element safety).map fun parts =>
              .positions l parts element
        else none
      | .map s, .map t => (Conversion.between? s t safety).map fun c => .eachEntry c t
      | .object as, .map t =>
        (if t.isDynamic && !as.isEmpty then Ty.unify? (as.map (·.type)) safety
          else some t).bind fun element =>
            (as.mapM fun a =>
              (Conversion.between? a.type element safety).map fun c => (a.name, c)).map
                fun parts => .gather parts element
      | .tuple ss, .tuple ts =>
        if ss.length = ts.length then
          ((ss.zip ts).attach.mapM fun p => Conversion.between? p.1.1 p.1.2 safety).map .tuple
        else none
      | .object as, .object bs =>
        if as.all fun a => Named.contains a.name bs then
          (bs.mapM fun (b : Attribute Ty) =>
            match _h : Named.find? b.name as with
            | some a => (Conversion.between? a.type b.type safety).map (Slot.mk b)
            | none => if b.optional then some (Slot.mk b (.deferred b.type)) else none).map .object
        else none
      | .map s, .object bs =>
        if safety = .risky then
          (bs.mapM fun (b : Attribute Ty) =>
            (Conversion.between? s b.type safety).map (Slot.mk b)).map .select
        else none
      | _, _ => none
termination_by 3 * source.depth
decreasing_by
  · simp only [Ty.depth]; omega
  · simp only [Ty.depth]; omega
  · have := Ty.depth_lt_of_mem_tuple ‹s ∈ ss›; omega
  · simp only [Ty.depth]; omega
  · simp only [Ty.depth, Ty.depthAttributes_eq]; omega
  · have := Ty.depth_lt_of_mem_object ‹a ∈ as›; omega
  · exact Nat.mul_lt_mul_of_pos_left
      (Ty.depth_lt_of_mem_tuple (List.of_mem_zip p.2).1) (by decide)
  · have := Ty.depth_lt_of_mem_object (Named.mem_of_find? _h).1; omega
  · simp only [Ty.depth]; omega

/-- The common type of types that are not all the same and of which none is the placeholder: the
first candidate that each of them is or converts to. Without leave to take risks no primitive may
become another on the way. -/
def Ty.merge? (types : List Ty) (safety : Safety) : Option Ty :=
  let candidates :=
    match _h : Blueprint.of types safety with
    | .build frame groups =>
      ((groups.attach.mapM fun (g : { g // g ∈ groups }) => Ty.unify? g.val safety).bind frame.fill?).toList
    | .choose => Preference.sorted types
    | .clash => []
  candidates.find? fun common =>
    types.attach.all fun t =>
      t.val == common ||
        ((Conversion.between? t.val common safety).isSome
          && (safety == Safety.risky || !t.val.widens common))
termination_by 3 * Ty.depthAll types + 1
decreasing_by
  · have hg : g.val ∈ (Blueprint.of types safety).groups := by rw [_h]; exact g.property
    have := Blueprint.depthAll_lt_of_mem_groups hg
    omega
  · have := Ty.depth_le_depthAll t.property; omega

/-- The common type of several types. Placeholders go along with the others; with no other type
the placeholder itself is the common type, and no types have none. -/
def Ty.unify? (types : List Ty) (safety : Safety) : Option Ty :=
  match _h : types.filter (!·.isDynamic) with
  | [] => if types.isEmpty then none else some .dynamic
  | first :: rest =>
    if rest.all (· == first) then some first else Ty.merge? (first :: rest) safety
termination_by 3 * Ty.depthAll types + 2
decreasing_by
  have : Ty.depthAll (first :: rest) ≤ Ty.depthAll types :=
    _h ▸ Ty.depthAll_mono fun t ht => (List.mem_filter.1 ht).1
  omega

end

/-! ### The rules without their bookkeeping -/

/-- Tuples of one length convert position by position. -/
theorem Conversion.between?_tuple {ss ts : List Ty} {safety : Safety} (ne : ss ≠ ts) :
    Conversion.between? (.tuple ss) (.tuple ts) safety =
      if ss.length = ts.length then
        ((ss.zip ts).mapM fun p => Conversion.between? p.1 p.2 safety).map fun parts =>
          .covering (Ty.tuple ts).stripped (.tuple parts)
      else none := by
  rw [Conversion.between?, if_neg (by simpa using ne)]
  simp only [List.mapM_subtype, List.unattach_attach]
  split <;> simp [Conversion.covered, Ty.isDynamic, Function.comp_def]

/-- Whether a type may become the given common type: it is that type already, or it converts to
it, in safe mode without turning a primitive into another. -/
def Ty.joins (safety : Safety) (common t : Ty) : Bool :=
  t == common ||
    ((Conversion.between? t common safety).isSome
      && (safety == Safety.risky || !t.widens common))

/-- The candidates that a blueprint gives rise to. -/
def Blueprint.candidates (types : List Ty) (safety : Safety) : Blueprint → List Ty
  | .build frame groups =>
    ((groups.mapM fun group => Ty.unify? group safety).bind frame.fill?).toList
  | .choose => Preference.sorted types
  | .clash => []

/-- The common type is the first candidate that all the types may become. -/
theorem Ty.merge?_eq (types : List Ty) (safety : Safety) :
    Ty.merge? types safety =
      ((Blueprint.of types safety).candidates types safety).find? fun common =>
        types.all (Ty.joins safety common) := by
  rw [Ty.merge?]
  simp only [List.all_subtype, List.mapM_subtype, List.unattach_attach]
  congr 1
  split <;> rename_i h <;> rw [h] <;> rfl

/-- Placeholders aside, types that are all the same have that type in common, and others what
their blueprint yields. -/
theorem Ty.unify?_eq (types : List Ty) (safety : Safety) :
    Ty.unify? types safety =
      match types.filter (!·.isDynamic) with
      | [] => if types.isEmpty then none else some .dynamic
      | first :: rest =>
        if rest.all (· == first) then some first else Ty.merge? (first :: rest) safety := by
  rw [Ty.unify?]
  split <;> rename_i h <;> rw [h]

end Retype
