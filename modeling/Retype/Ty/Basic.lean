import Retype.Named

/-!
# Structural types

A type is a finite tree: primitives and capsules at the leaves, collections and structures
inside, and the placeholder `Ty.dynamic`, which stands for a type that is known only once there
is data. Types are compared by structure.

An attribute of an object type carries its own mark *optional*, so a mark without an attribute
cannot be written down. Attributes are kept in ascending order of their names; `Ty.ofAttributes`
builds an object type from attributes in any order.
-/

namespace Retype

/-- The kinds of plain data. -/
inductive Primitive where
  | string
  | number
  | bool
deriving DecidableEq

/-- The two collections that hold items: a list counts and orders them, a set does neither. -/
inductive SequenceKind where
  | list
  | set
deriving DecidableEq

/-- A named part of an object. The mark `optional` matters only to conversions into the object. -/
@[ext]
structure Attribute (α : Type) where
  name : String
  optional : Bool
  type : α
deriving DecidableEq

instance {α : Type} : Named (Attribute α) := ⟨Attribute.name⟩

/-- Structural types. -/
inductive Ty where
  /-- Text, decimal numbers or truth values. -/
  | primitive (kind : Primitive)
  /-- A list or a set with items of one type. -/
  | sequence (kind : SequenceKind) (element : Ty)
  /-- A mapping from text to elements of one type. -/
  | map (element : Ty)
  /-- A sequence of fixed length, with a type for each position. -/
  | tuple (elements : List Ty)
  /-- A fixed set of named attributes. -/
  | object (attributes : List (Attribute Ty))
  /-- A type about which nothing but its name is known. -/
  | capsule (name : String)
  /-- The placeholder. -/
  | dynamic

namespace Ty

/-- The type of text. -/
@[match_pattern] abbrev string : Ty := .primitive .string

/-- The type of numbers. -/
@[match_pattern] abbrev number : Ty := .primitive .number

/-- The type of truth values. -/
@[match_pattern] abbrev bool : Ty := .primitive .bool

/-- The type of lists with a given element type. -/
@[match_pattern] abbrev list (element : Ty) : Ty := .sequence .list element

/-- The type of sets with a given element type. -/
@[match_pattern] abbrev set (element : Ty) : Ty := .sequence .set element

/-! ### Induction and equality -/

/-- Induction over types: a tuple's elements and an object's attributes are smaller. -/
@[elab_as_elim, induction_eliminator]
theorem induction {motive : Ty → Prop}
    (primitive : ∀ kind, motive (.primitive kind))
    (sequence : ∀ kind element, motive element → motive (.sequence kind element))
    (map : ∀ element, motive element → motive (.map element))
    (tuple : ∀ elements, (∀ t ∈ elements, motive t) → motive (.tuple elements))
    (object : ∀ attributes, (∀ a ∈ attributes, motive a.type) → motive (.object attributes))
    (capsule : ∀ name, motive (.capsule name))
    (dynamic : motive .dynamic) (t : Ty) : motive t :=
  @Ty.rec motive (fun ts => ∀ t ∈ ts, motive t) (fun as => ∀ a ∈ as, motive a.type)
    (fun a => motive a.type) primitive sequence map tuple object capsule dynamic
    (by simp) (fun _ _ head tail => by simpa using ⟨head, tail⟩)
    (by simp) (fun _ _ head tail => by simpa using ⟨head, tail⟩)
    (fun _ _ _ type => type) t

mutual

/-- Whether two types are the same tree. -/
def same : Ty → Ty → Bool
  | .primitive p, .primitive q => p == q
  | .sequence k s, .sequence l t => k == l && same s t
  | .map s, .map t => same s t
  | .tuple ss, .tuple ts => sameAll ss ts
  | .object as, .object bs => sameAttributes as bs
  | .capsule m, .capsule n => m == n
  | .dynamic, .dynamic => true
  | _, _ => false

/-- Whether two lists of types agree position by position. -/
def sameAll : List Ty → List Ty → Bool
  | [], [] => true
  | s :: ss, t :: ts => same s t && sameAll ss ts
  | _, _ => false

/-- Whether two lists of attributes agree in names, marks and types. -/
def sameAttributes : List (Attribute Ty) → List (Attribute Ty) → Bool
  | [], [] => true
  | ⟨m, o, s⟩ :: as, ⟨n, p, t⟩ :: bs => m == n && o == p && same s t && sameAttributes as bs
  | _, _ => false

end

/-- The comparison decides equality. -/
theorem same_iff_eq (s t : Ty) : same s t = true ↔ s = t := by
  induction s generalizing t with
  | primitive p => cases t <;> simp [same]
  | sequence k s ih => cases t <;> simp [same, ih]
  | map s ih => cases t <;> simp [same, ih]
  | tuple ss ih =>
    cases t with
    | tuple ts =>
      simp only [same, tuple.injEq]
      induction ss generalizing ts with
      | nil => cases ts <;> simp [sameAll]
      | cons s ss rest => cases ts <;> simp_all [sameAll]
    | _ => simp [same]
  | object as ih =>
    cases t with
    | object bs =>
      simp only [same, object.injEq]
      induction as generalizing bs with
      | nil => cases bs <;> simp [sameAttributes]
      | cons a as rest => cases bs <;> simp_all [sameAttributes, Attribute.ext_iff, and_assoc]
    | _ => simp [same]
  | capsule m => cases t <;> simp [same]
  | dynamic => cases t <;> simp [same]

instance : DecidableEq Ty := fun s t => decidable_of_iff _ (same_iff_eq s t)

end Ty

end Retype
