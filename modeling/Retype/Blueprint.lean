import Retype.Safety

/-!
# How types come together

Several types, none of them a placeholder, have a common type that is either built from parts of
theirs or is one of themselves. `Blueprint.of` decides which by looking only at the outermost
constructors:

* maps, or maps and objects, become a map of whatever is inside them;
* lists, or lists and tuples, become a list of whatever is inside them;
* sets become a set;
* objects with the same attribute names become an object, attribute by attribute, and tuples of
  one length become a tuple, position by position; otherwise they come together only in a risky
  way, as a map and as a list;
* a mix with both objects and tuples has no common type;
* of any other mix one member is chosen.

A blueprint lists the groups of types that have to be brought together in turn; they are always
parts of the given types, so they are less deep (`depthAll_lt_of_mem_groups`).
-/

namespace Retype

/-- The outermost constructor of a common type. -/
inductive Frame where
  | sequence (kind : SequenceKind)
  | map
  | tuple
  | object (names : List String)
deriving DecidableEq

/-- The type with the given frame and parts; a collection takes a single part. -/
def Frame.fill? : Frame → List Ty → Option Ty
  | .sequence kind, [element] => some (.sequence kind element)
  | .map, [element] => some (.map element)
  | .tuple, elements => some (.tuple elements)
  | .object names, types => some (.record (names.zip types))
  | _, _ => none

/-- How a common type comes about. -/
inductive Blueprint where
  /-- A new type, with one part for each group of types to bring together. -/
  | build (frame : Frame) (groups : List (List Ty))
  /-- One of the types themselves. -/
  | choose
  /-- There is none. -/
  | clash
deriving DecidableEq

namespace Blueprint

/-- Whether there are types and all of them pass the test. -/
def every (test : Ty → Bool) (types : List Ty) : Bool := !types.isEmpty && types.all test

/-- A collection of whatever is inside the types. -/
def gather (frame : Frame) (types : List Ty) : Blueprint := .build frame [types.flatMap Ty.parts]

/-- Objects come together attribute by attribute if all have the names of the first. -/
def ofObjects (types : List Ty) (safety : Safety) (names : List String) : Blueprint :=
  if types.all fun t => t.attributes?.map Named.names == some names then
    .build (.object names) (names.map fun name => types.filterMap (Ty.attributeType? name))
  else if safety = .risky then gather .map types
  else .clash

/-- Tuples come together position by position if all have the length of the first. -/
def ofTuples (types : List Ty) (safety : Safety) (length : Nat) : Blueprint :=
  if types.all fun t => t.elements?.map List.length == some length then
    .build .tuple ((List.range length).map fun i => types.filterMap (Ty.elementAt? i))
  else if safety = .risky then gather (.sequence .list) types
  else .clash

/-- How the given types come together. -/
def of (types : List Ty) (safety : Safety) : Blueprint :=
  if types.any Ty.isMap && types.all fun t => t.isMap || t.isObject then gather .map types
  else if types.any Ty.isList && types.all fun t => t.isList || t.isTuple then
    gather (.sequence .list) types
  else if every Ty.isSet types then gather (.sequence .set) types
  else if every Ty.isObject types then
    ofObjects types safety ((types.findSome? Ty.attributes?).elim [] Named.names)
  else if every Ty.isTuple types then
    ofTuples types safety ((types.findSome? Ty.elements?).elim 0 List.length)
  else if types.any Ty.isObject && types.any Ty.isTuple then .clash
  else .choose

/-- The groups of types that a blueprint brings together. -/
def groups : Blueprint → List (List Ty)
  | .build _ groups => groups
  | .choose | .clash => []

/-- A collection's group holds parts of the types. -/
theorem mem_groups_gather {frame : Frame} {types g : List Ty} {p : Ty}
    (hg : g ∈ (gather frame types).groups) (hp : p ∈ g) : ∃ t ∈ types, p ∈ t.parts := by
  simp only [gather, groups, List.mem_singleton] at hg
  subst hg
  exact List.mem_flatMap.1 hp

/-- The groups of a blueprint hold parts of the types. -/
theorem mem_groups {types g : List Ty} {safety : Safety} {p : Ty}
    (hg : g ∈ (of types safety).groups) (hp : p ∈ g) : ∃ t ∈ types, p ∈ t.parts := by
  unfold of at hg
  split at hg
  · exact mem_groups_gather hg hp
  split at hg
  · exact mem_groups_gather hg hp
  split at hg
  · exact mem_groups_gather hg hp
  split at hg
  · unfold ofObjects at hg
    split at hg
    · simp only [groups, List.mem_map] at hg
      obtain ⟨name, _, rfl⟩ := hg
      obtain ⟨t, ht, h⟩ := List.mem_filterMap.1 hp
      exact ⟨t, ht, Ty.mem_parts_of_attributeType? h⟩
    · split at hg
      · exact mem_groups_gather hg hp
      · simp [groups] at hg
  split at hg
  · unfold ofTuples at hg
    split at hg
    · simp only [groups, List.mem_map] at hg
      obtain ⟨i, _, rfl⟩ := hg
      obtain ⟨t, ht, h⟩ := List.mem_filterMap.1 hp
      exact ⟨t, ht, Ty.mem_parts_of_elementAt? h⟩
    · split at hg
      · exact mem_groups_gather hg hp
      · simp [groups] at hg
  split at hg <;> simp [groups] at hg

/-- The groups of a blueprint are less deep than the types. -/
theorem depthAll_lt_of_mem_groups {types g : List Ty} {safety : Safety}
    (hg : g ∈ (of types safety).groups) : Ty.depthAll g < Ty.depthAll types := by
  cases types with
  | nil => simp [of, every, groups] at hg
  | cons t ts =>
  have pos : 0 < Ty.depthAll (t :: ts) :=
    Nat.lt_of_lt_of_le t.depth_pos (Ty.depth_le_depthAll (List.mem_cons_self ..))
  have : Ty.depthAll g ≤ Ty.depthAll (t :: ts) - 1 := by
    refine Ty.depthAll_le_iff.2 fun p hp => ?_
    obtain ⟨s, hs, h⟩ := mem_groups hg hp
    have := Ty.depth_lt_of_mem_parts h
    have := Ty.depth_le_depthAll hs
    omega
  omega

end Blueprint

end Retype
