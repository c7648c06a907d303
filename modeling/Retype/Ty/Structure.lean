import Retype.Ty.Basic

/-!
# The structure of a type

Questions about the outermost constructor of a type, and the measures that look at the whole
tree: `Ty.depth`, `Ty.hasDynamic` and `Ty.stripped`, the type without optional marks.

Functions over the whole tree recurse through lists of elements and lists of attributes; a lemma
beside each says what the recursion through a list amounts to (`depthAll_le_iff`,
`hasDynamicAll_eq_any`, `strippedAll_eq_map`, and their companions for attributes).
-/

namespace Retype

namespace Ty

/-! ### Building object types -/

/-- The object type whose attributes are all required, given in ascending order of their names. -/
def record (fields : List (String × Ty)) : Ty := .object (fields.map fun f => ⟨f.1, false, f.2⟩)

/-- The object type with the given attributes, the last one of each name, of which those that
`optional` names are marked; other names in `optional` are without effect. -/
def ofAttributes (fields : List (String × Ty)) (optional : List String) : Ty :=
  .object (Named.ofList (fields.map fun f => ⟨f.1, optional.contains f.1, f.2⟩))

/-! ### The outermost constructor -/

/-- The kind of plain data that a primitive type stands for. -/
def primitive? : Ty → Option Primitive
  | .primitive kind => some kind
  | _ => none

/-- The element type of a list, set or map. -/
def element? : Ty → Option Ty
  | .sequence _ element | .map element => some element
  | _ => none

/-- The element types of a tuple. -/
def elements? : Ty → Option (List Ty)
  | .tuple elements => some elements
  | _ => none

/-- The attributes of an object. -/
def attributes? : Ty → Option (List (Attribute Ty))
  | .object attributes => some attributes
  | _ => none

/-- Whether the type is the placeholder. -/
def isDynamic : Ty → Bool
  | .dynamic => true
  | _ => false

/-- Whether the type is a list, a set or a map: one element type and any number of elements. -/
def isCollection : Ty → Bool
  | .sequence _ _ | .map _ => true
  | _ => false

/-- Whether the type is a tuple or an object: a fixed shape with a type for each part. -/
def isStructural : Ty → Bool
  | .tuple _ | .object _ => true
  | _ => false

/-- Whether the type is a capsule. -/
def isCapsule : Ty → Bool
  | .capsule _ => true
  | _ => false

/-- Whether the type is a map. -/
def isMap : Ty → Bool
  | .map _ => true
  | _ => false

/-- Whether the type is a list. -/
def isList : Ty → Bool
  | .sequence .list _ => true
  | _ => false

/-- Whether the type is a set. -/
def isSet : Ty → Bool
  | .sequence .set _ => true
  | _ => false

/-- Whether the type is a tuple. -/
def isTuple : Ty → Bool
  | .tuple _ => true
  | _ => false

/-- Whether the type is an object. -/
def isObject : Ty → Bool
  | .object _ => true
  | _ => false

@[simp] theorem isDynamic_iff (t : Ty) : t.isDynamic = true ↔ t = .dynamic := by
  cases t <;> simp [isDynamic]

/-! ### Parts -/

/-- The types one level below: element type, element types or types of attributes. -/
def parts : Ty → List Ty
  | .sequence _ element | .map element => [element]
  | .tuple elements => elements
  | .object attributes => attributes.map (·.type)
  | .primitive _ | .capsule _ | .dynamic => []

/-- The element type of a tuple at a position. -/
def elementAt? (position : Nat) : Ty → Option Ty
  | .tuple elements => elements[position]?
  | _ => none

/-- The type of an attribute of an object. -/
def attributeType? (name : String) : Ty → Option Ty
  | .object attributes => (Named.find? name attributes).map (·.type)
  | _ => none

/-! ### Depth -/

mutual

/-- Nesting depth; leaves have depth 1. -/
def depth : Ty → Nat
  | .primitive _ | .capsule _ | .dynamic => 1
  | .sequence _ element | .map element => 1 + depth element
  | .tuple elements => 1 + depthAll elements
  | .object attributes => 1 + depthAttributes attributes

/-- The greatest depth among types, 0 if there are none. -/
def depthAll : List Ty → Nat
  | [] => 0
  | t :: ts => max (depth t) (depthAll ts)

/-- The greatest depth among the types of attributes, 0 if there are none. -/
def depthAttributes : List (Attribute Ty) → Nat
  | [] => 0
  | ⟨_, _, t⟩ :: as => max (depth t) (depthAttributes as)

end

/-- A type has at least its own node. -/
theorem depth_pos (t : Ty) : 0 < t.depth := by
  cases t <;> simp only [depth] <;> omega

/-- A bound on the greatest depth is a bound on each. -/
theorem depthAll_le_iff {ts : List Ty} {n : Nat} : depthAll ts ≤ n ↔ ∀ t ∈ ts, t.depth ≤ n := by
  induction ts with
  | nil => simp [depthAll]
  | cons t ts ih => simp only [depthAll, Nat.max_le, ih, List.forall_mem_cons]

/-- The greatest depth among attributes is that among their types. -/
theorem depthAttributes_eq (as : List (Attribute Ty)) :
    depthAttributes as = depthAll (as.map (·.type)) := by
  induction as with
  | nil => rfl
  | cons a as ih => simp [depthAttributes, depthAll, ih]

/-- Each member is at most as deep as the deepest. -/
theorem depth_le_depthAll {ts : List Ty} {t : Ty} (h : t ∈ ts) : t.depth ≤ depthAll ts :=
  depthAll_le_iff.1 (Nat.le_refl _) t h

/-- The greatest depth is monotone in the members. -/
theorem depthAll_mono {ss ts : List Ty} (h : ∀ s ∈ ss, s ∈ ts) : depthAll ss ≤ depthAll ts :=
  depthAll_le_iff.2 fun s hs => depth_le_depthAll (h s hs)

/-- An element of a tuple is less deep than the tuple. -/
theorem depth_lt_of_mem_tuple {ts : List Ty} {t : Ty} (h : t ∈ ts) :
    t.depth < (Ty.tuple ts).depth := by
  have := depth_le_depthAll h
  simp only [depth]
  omega

/-- An attribute of an object is less deep than the object. -/
theorem depth_lt_of_mem_object {as : List (Attribute Ty)} {a : Attribute Ty} (h : a ∈ as) :
    a.type.depth < (Ty.object as).depth := by
  have := depth_le_depthAll (List.mem_map_of_mem (f := (·.type)) h)
  simp only [depth, depthAttributes_eq]
  omega

/-- A part is less deep than the whole. -/
theorem depth_lt_of_mem_parts {t p : Ty} (h : p ∈ t.parts) : p.depth < t.depth := by
  cases t with
  | sequence k e => simp_all [parts, depth]
  | map e => simp_all [parts, depth]
  | tuple ts => exact depth_lt_of_mem_tuple h
  | object as =>
    obtain ⟨a, ha, rfl⟩ := List.mem_map.1 h
    exact depth_lt_of_mem_object ha
  | _ => simp [parts] at h

/-- The element type of a collection is a part of it. -/
theorem mem_parts_of_element? {t e : Ty} (h : t.element? = some e) : e ∈ t.parts := by
  cases t <;> cases h <;> exact List.mem_cons_self

/-- An element of a tuple is a part of it. -/
theorem mem_parts_of_elementAt? {i : Nat} {t p : Ty} (h : t.elementAt? i = some p) :
    p ∈ t.parts := by
  cases t <;> simp_all [elementAt?, parts]
  exact List.mem_of_getElem? h

/-- The type of an attribute is a part of the object. -/
theorem mem_parts_of_attributeType? {name : String} {t p : Ty}
    (h : t.attributeType? name = some p) : p ∈ t.parts := by
  cases t <;> simp_all [attributeType?, parts]
  obtain ⟨a, ha, rfl⟩ := h
  exact ⟨a, (Named.mem_of_find? ha).1, rfl⟩

/-! ### Placeholders -/

mutual

/-- Whether a placeholder occurs anywhere in the type. -/
def hasDynamic : Ty → Bool
  | .dynamic => true
  | .primitive _ | .capsule _ => false
  | .sequence _ element | .map element => hasDynamic element
  | .tuple elements => hasDynamicAll elements
  | .object attributes => hasDynamicAttributes attributes

/-- Whether a placeholder occurs in one of the types. -/
def hasDynamicAll : List Ty → Bool
  | [] => false
  | t :: ts => hasDynamic t || hasDynamicAll ts

/-- Whether a placeholder occurs in the type of one of the attributes. -/
def hasDynamicAttributes : List (Attribute Ty) → Bool
  | [] => false
  | ⟨_, _, t⟩ :: as => hasDynamic t || hasDynamicAttributes as

end

/-- Looking through a list of types is asking each. -/
theorem hasDynamicAll_eq_any (ts : List Ty) : hasDynamicAll ts = ts.any hasDynamic := by
  induction ts with
  | nil => rfl
  | cons t ts ih => simp [hasDynamicAll, ih]

/-- Looking through attributes is asking the type of each. -/
theorem hasDynamicAttributes_eq_any (as : List (Attribute Ty)) :
    hasDynamicAttributes as = as.any (·.type.hasDynamic) := by
  induction as with
  | nil => rfl
  | cons a as ih => simp [hasDynamicAttributes, ih]

/-! ### Optional marks -/

mutual

/-- The type with every optional mark taken away, at any depth. -/
def stripped : Ty → Ty
  | .primitive kind => .primitive kind
  | .capsule name => .capsule name
  | .dynamic => .dynamic
  | .sequence kind element => .sequence kind (stripped element)
  | .map element => .map (stripped element)
  | .tuple elements => .tuple (strippedAll elements)
  | .object attributes => .object (strippedAttributes attributes)

/-- The types with every optional mark taken away. -/
def strippedAll : List Ty → List Ty
  | [] => []
  | t :: ts => stripped t :: strippedAll ts

/-- The attributes, all required, their types with every optional mark taken away. -/
def strippedAttributes : List (Attribute Ty) → List (Attribute Ty)
  | [] => []
  | ⟨name, _, t⟩ :: as => ⟨name, false, stripped t⟩ :: strippedAttributes as

end

/-- Stripping a list strips each. -/
theorem strippedAll_eq_map (ts : List Ty) : strippedAll ts = ts.map stripped := by
  induction ts with
  | nil => rfl
  | cons t ts ih => simp [strippedAll, ih]

/-- Stripping attributes strips the type of each and makes each required. -/
theorem strippedAttributes_eq_map (as : List (Attribute Ty)) :
    strippedAttributes as = as.map fun a => ⟨a.name, false, a.type.stripped⟩ := by
  induction as with
  | nil => rfl
  | cons a as ih => simp [strippedAttributes, ih]

end Ty

end Retype
