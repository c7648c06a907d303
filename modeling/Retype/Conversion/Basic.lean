import Retype.Safety

/-!
# Conversions as data

A conversion is built once from a source and a target type and then applied to any number of
values. It is a plan: a tree that says for each part what is done with it, and which types the
results are declared to have. `Conversion.applyWith` carries it out.
-/

namespace Retype

/-- What an object conversion does for one attribute of its target. -/
structure Slot (α : Type) where
  target : Attribute Ty
  conversion : α

instance {α : Type} : Named (Slot α) := ⟨fun slot => slot.target.name⟩

/-- Plans for turning values of one type into values of another. -/
inductive Conversion where
  /-- Keeps the value. -/
  | identity
  /-- Leaves the choice of the conversion until the type of the value is known. -/
  | deferred (target : Ty)
  /-- Refines the type of a null or an unknown; other values are handed on. -/
  | covering (target : Ty) (inner : Conversion)
  /-- Turns plain data into plain data of another kind. -/
  | primitive (target : Primitive)
  /-- Converts the items of a list or set, for a list or set. -/
  | eachItem (kind : SequenceKind) (inner : Conversion) (element : Ty)
  /-- Converts the entries of a map, for a map. -/
  | eachEntry (inner : Conversion) (element : Ty)
  /-- Converts each item of a tuple in its own way, for a list or set. -/
  | positions (kind : SequenceKind) (parts : List Conversion) (element : Ty)
  /-- Converts each attribute of an object in its own way, for a map. -/
  | gather (parts : List (String × Conversion)) (element : Ty)
  /-- Converts each item of a tuple in its own way, for a tuple. -/
  | tuple (parts : List Conversion)
  /-- Fills the attributes of an object from those of another. -/
  | object (slots : List (Slot Conversion))
  /-- Fills the attributes of an object from the entries of a map. -/
  | select (slots : List (Slot Conversion))

namespace Conversion

/-- The conversion between two types, given how it treats data: unless one of the types is the
placeholder, nulls and unknowns are treated by their types alone. -/
def covered (source target : Ty) (inner : Conversion) : Conversion :=
  if source.isDynamic || target.isDynamic then inner else .covering target.stripped inner

end Conversion

end Retype
