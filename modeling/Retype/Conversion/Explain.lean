import Retype.Unify

/-!
# Why there is no conversion

For two types without a conversion, `Conversion.explain` finds the innermost parts that do not
fit. A mismatch of the shapes themselves comes first (`Conversion.misfit?`: the length of tuples,
the names of attributes, elements without a common type); then the first corresponding parts
(`Conversion.correspondence`) that do not convert are looked into; and where there are none, the
types as a whole are named.
-/

namespace Retype

namespace Conversion

/-- The parts of two types that a conversion pairs up, with the step that leads to each. -/
def correspondence : Ty → Ty → List (Step × Ty × Ty)
  | .tuple ss, .tuple ts => (ss.zip ts).mapIdx fun i p => (.index i, p.1, p.2)
  | .tuple ss, .sequence _ t => ss.mapIdx fun i s => (.index i, s, t)
  | .object as, .object bs =>
    bs.filterMap fun b => (Named.find? b.name as).map fun a => (.attr b.name, a.type, b.type)
  | .object as, .map t => as.map fun a => (.attr a.name, a.type, t)
  | .map s, .object bs => bs.map fun b => (.key b.name, s, b.type)
  | _, _ => []

/-- The fault of parts that are to have a common type: why they have none, or else that the
types do not fit. -/
def apart (parts : List Ty) (source target : Ty) : Cause :=
  match Ty.unify parts .risky with
  | .error fault => fault.cause
  | .ok _ => .incompatible source target

/-- What is wrong with the outermost shapes of two types, if anything. -/
def misfit? (source target : Ty) : Option Cause :=
  match source, target with
  | .tuple ss, .tuple ts =>
    if ss.length = ts.length then none else some (.arityMismatch ts.length ss.length)
  | .object as, .object bs =>
    match as.find? fun a => !Named.contains a.name bs with
    | some extra => some (.unsupportedAttribute extra.name)
    | none =>
      (bs.find? fun b => !Named.contains b.name as && !b.optional).map fun missing =>
        .missingAttribute missing.name
  | .tuple ss, .sequence _ .dynamic => some (apart ss source target)
  | .object as, .map .dynamic => some (apart (as.map (·.type)) source target)
  | _, _ => none

/-- The target part of a correspondence is less deep than the target. -/
theorem depth_lt_of_mem_correspondence {source target : Ty} {part : Step × Ty × Ty}
    (h : part ∈ correspondence source target) : part.2.2.depth < target.depth := by
  unfold correspondence at h
  split at h
  · obtain ⟨i, hi, rfl⟩ := List.mem_mapIdx.1 h
    exact Ty.depth_lt_of_mem_tuple (List.of_mem_zip (List.getElem_mem hi)).2
  · obtain ⟨i, hi, rfl⟩ := List.mem_mapIdx.1 h
    simp [Ty.depth]
  · obtain ⟨b, hb, h⟩ := List.mem_filterMap.1 h
    obtain ⟨a, _, rfl⟩ := Option.map_eq_some_iff.1 h
    exact Ty.depth_lt_of_mem_object hb
  · obtain ⟨a, _, rfl⟩ := List.mem_map.1 h
    simp [Ty.depth]
  · obtain ⟨b, hb, rfl⟩ := List.mem_map.1 h
    exact Ty.depth_lt_of_mem_object hb
  · simp at h

/-- Why one type does not convert to another, and in which part. -/
def explain (source target : Ty) : Fault :=
  match misfit? source target with
  | some cause => .of cause
  | none =>
    match _h : (correspondence source target).find? fun part =>
        (between? part.2.1 part.2.2 .risky).isNone with
    | some part => (explain part.2.1 part.2.2).within part.1
    | none => .of (.incompatible source target)
termination_by target.depth
decreasing_by exact depth_lt_of_mem_correspondence (List.mem_of_find?_eq_some _h)

end Conversion

end Retype
