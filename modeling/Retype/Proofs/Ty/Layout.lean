import Retype.Ty.Structure

/-!
# Layouts of object types

The layout of an object type is the list of its attribute names with their optional marks; other
types have the empty layout. A property of layouts holds *throughout* a type if it holds of the
layout of every object inside it (`Ty.Throughout`). Two such properties matter:

* `Ty.Unmarked`: no attribute is optional, as in the types that values have;
* `Ty.Lawful`: the names of every object are in ascending order, each occurs once. This is how
  object types are built (`Named.ascending_ofList`).

Operations on types either keep layouts or clear their marks, so both properties survive them for
one reason, which `Stable` states.
-/

namespace Retype

namespace Ty

/-- The attributes of an object type; other types have none. -/
def fields (t : Ty) : List (Attribute Ty) := t.attributes?.getD []

/-- The names of the attributes with their optional marks. -/
def layout (t : Ty) : List (String × Bool) := t.fields.map fun a => (a.name, a.optional)

/-- The property holds of the layout of every object inside the type. -/
inductive Throughout (q : List (String × Bool) → Prop) : Ty → Prop
  | intro {t : Ty} (here : q t.layout) (below : ∀ p ∈ t.parts, Throughout q p) : Throughout q t

/-- Properties that hold of empty layouts and survive the loss of every mark. -/
structure Stable (q : List (String × Bool) → Prop) : Prop where
  nil : q []
  clear : ∀ {l}, q l → q (l.map fun x => (x.1, false))

/-- No attribute inside the type is marked optional. -/
def Unmarked : Ty → Prop := Throughout fun l => ∀ x ∈ l, x.2 = false

/-- Attribute names are strictly ascending in every object inside the type. -/
def Lawful : Ty → Prop := Throughout fun l => (l.map Prod.fst).Pairwise (· < ·)

/-- The type is free of marks and lawful, as the types of values are. -/
structure Plain (t : Ty) : Prop where
  unmarked : t.Unmarked
  lawful : t.Lawful

theorem stable_unmarked : Stable fun l => ∀ x ∈ l, x.2 = false where
  nil := by simp
  clear := by simp

theorem stable_lawful : Stable fun l => (l.map Prod.fst).Pairwise (· < ·) where
  nil := by simp
  clear := by simp [Function.comp_def]

variable {q : List (String × Bool) → Prop}

theorem throughout_iff {t : Ty} :
    t.Throughout q ↔ q t.layout ∧ ∀ p ∈ t.parts, p.Throughout q :=
  ⟨fun ⟨here, below⟩ => ⟨here, below⟩, fun ⟨here, below⟩ => ⟨here, below⟩⟩

theorem Throughout.here {t : Ty} (h : t.Throughout q) : q t.layout := (throughout_iff.mp h).1

theorem Throughout.part {t p : Ty} (h : t.Throughout q) (hp : p ∈ t.parts) : p.Throughout q :=
  (throughout_iff.mp h).2 p hp

theorem Plain.part {t p : Ty} (h : t.Plain) (hp : p ∈ t.parts) : p.Plain :=
  ⟨Throughout.part h.unmarked hp, Throughout.part h.lawful hp⟩

/-! ### The property, constructor by constructor -/

@[simp] theorem layout_object (as : List (Attribute Ty)) :
    (Ty.object as).layout = as.map fun a => (a.name, a.optional) := rfl

@[simp] theorem throughout_primitive {k : Primitive} : (Ty.primitive k).Throughout q ↔ q [] := by
  rw [throughout_iff]
  simp [layout, fields, attributes?, parts]

@[simp] theorem throughout_sequence {k : SequenceKind} {e : Ty} :
    (Ty.sequence k e).Throughout q ↔ q [] ∧ e.Throughout q := by
  rw [throughout_iff]
  simp [layout, fields, attributes?, parts]

@[simp] theorem throughout_map {e : Ty} : (Ty.map e).Throughout q ↔ q [] ∧ e.Throughout q := by
  rw [throughout_iff]
  simp [layout, fields, attributes?, parts]

@[simp] theorem throughout_tuple {ts : List Ty} :
    (Ty.tuple ts).Throughout q ↔ q [] ∧ ∀ t ∈ ts, t.Throughout q := by
  rw [throughout_iff]
  simp [layout, fields, attributes?, parts]

@[simp] theorem throughout_object {as : List (Attribute Ty)} :
    (Ty.object as).Throughout q ↔
      q (as.map fun a => (a.name, a.optional)) ∧ ∀ a ∈ as, a.type.Throughout q := by
  rw [throughout_iff]
  simp [parts]

@[simp] theorem throughout_capsule {n : String} : (Ty.capsule n).Throughout q ↔ q [] := by
  rw [throughout_iff]
  simp [layout, fields, attributes?, parts]

@[simp] theorem throughout_dynamic : Ty.dynamic.Throughout q ↔ q [] := by
  rw [throughout_iff]
  simp [layout, fields, attributes?, parts]

/-- A lawful object has its names in ascending order. -/
theorem Lawful.ascending {as : List (Attribute Ty)} (h : (Ty.object as).Lawful) :
    Named.Ascending as := by
  have here := (throughout_object.mp h).1
  rw [List.map_map] at here
  exact here

/-- Lists of the names of a lawful object are in ascending order. -/
theorem Lawful.ascending_of_names {α : Type} [Named α] {l : List α} {as : List (Attribute Ty)}
    (h : (Ty.object as).Lawful) (hnames : Named.names l = Named.names as) : Named.Ascending l := by
  rw [Named.Ascending, hnames]
  exact h.ascending

/-! ### Deciding the property -/

section Decide

variable (q) [DecidablePred q]

mutual

/-- Looks for the property in every object inside the type. -/
def testThroughout : Ty → Bool
  | .primitive _ | .capsule _ | .dynamic => decide (q [])
  | .sequence _ element | .map element => decide (q []) && testThroughout element
  | .tuple elements => decide (q []) && testAll elements
  | .object attributes =>
    decide (q (attributes.map fun a => (a.name, a.optional))) && testAttributes attributes

/-- Looks for the property in all the types. -/
def testAll : List Ty → Bool
  | [] => true
  | t :: ts => testThroughout t && testAll ts

/-- Looks for the property in the types of all the attributes. -/
def testAttributes : List (Attribute Ty) → Bool
  | [] => true
  | ⟨_, _, t⟩ :: as => testThroughout t && testAttributes as

end

theorem testAll_eq_all (ts : List Ty) : testAll q ts = ts.all (testThroughout q) := by
  induction ts with
  | nil => rfl
  | cons t ts ih => simp [testAll, ih]

theorem testAttributes_eq_all (as : List (Attribute Ty)) :
    testAttributes q as = as.all fun a => testThroughout q a.type := by
  induction as with
  | nil => rfl
  | cons a as ih => simp [testAttributes, ih]

theorem testThroughout_iff (t : Ty) : testThroughout q t = true ↔ t.Throughout q := by
  induction t with
  | tuple ts ih =>
    simp only [testThroughout, testAll_eq_all, throughout_tuple, Bool.and_eq_true,
      decide_eq_true_eq, List.all_eq_true]
    exact and_congr_right fun _ => forall₂_congr ih
  | object as ih =>
    simp only [testThroughout, testAttributes_eq_all, throughout_object, Bool.and_eq_true,
      decide_eq_true_eq, List.all_eq_true]
    exact and_congr_right fun _ => forall₂_congr ih
  | sequence k e ih => simp [testThroughout, ih]
  | map e ih => simp [testThroughout, ih]
  | _ => simp [testThroughout]

instance (t : Ty) : Decidable (t.Throughout q) := decidable_of_iff _ (testThroughout_iff q t)

end Decide

instance (t : Ty) : Decidable t.Unmarked :=
  inferInstanceAs (Decidable (t.Throughout fun l => ∀ x ∈ l, x.2 = false))

instance (t : Ty) : Decidable t.Lawful :=
  inferInstanceAs (Decidable (t.Throughout fun l => (l.map Prod.fst).Pairwise (· < ·)))

/-! ### Stripping -/

/-- Stripping keeps layouts, marks aside. -/
theorem Throughout.stripped (hq : Stable q) {t : Ty} (h : t.Throughout q) :
    t.stripped.Throughout q := by
  induction t with
  | primitive k => simpa [Ty.stripped] using h
  | sequence k e ih => simpa [Ty.stripped, hq.nil] using ih (throughout_sequence.mp h).2
  | map e ih => simpa [Ty.stripped, hq.nil] using ih (throughout_map.mp h).2
  | tuple ts ih =>
    simp only [Ty.stripped, strippedAll_eq_map, throughout_tuple, List.forall_mem_map]
    exact ⟨hq.nil, fun t ht => ih t ht ((throughout_tuple.mp h).2 t ht)⟩
  | object as ih =>
    obtain ⟨here, below⟩ := throughout_object.mp h
    simp only [Ty.stripped, strippedAttributes_eq_map, throughout_object, List.forall_mem_map]
    refine ⟨?_, fun a ha => ih a ha (below a ha)⟩
    simpa [Function.comp_def] using hq.clear here
  | capsule n => simpa [Ty.stripped] using h
  | dynamic => simpa [Ty.stripped] using h

/-- A stripped type is free of marks. -/
theorem unmarked_stripped (t : Ty) : t.stripped.Unmarked := by
  unfold Unmarked
  induction t with
  | primitive k => simp [Ty.stripped]
  | sequence k e ih => simpa [Ty.stripped] using ih
  | map e ih => simpa [Ty.stripped] using ih
  | tuple ts ih => simpa [Ty.stripped, strippedAll_eq_map] using ih
  | object as ih => simpa [Ty.stripped, strippedAttributes_eq_map] using ih
  | capsule n => simp [Ty.stripped]
  | dynamic => simp [Ty.stripped]

/-- A type that is free of marks is its own stripped form. -/
theorem Unmarked.stripped_eq {t : Ty} (h : t.Unmarked) : t.stripped = t := by
  unfold Unmarked at h
  induction t with
  | primitive k => rfl
  | sequence k e ih => rw [stripped, ih (throughout_sequence.mp h).2]
  | map e ih => rw [stripped, ih (throughout_map.mp h).2]
  | tuple ts ih =>
    have each : ∀ t ∈ ts, t.stripped = id t := fun t ht => ih t ht ((throughout_tuple.mp h).2 t ht)
    rw [stripped, strippedAll_eq_map, List.map_congr_left each, List.map_id]
  | object as ih =>
    obtain ⟨here, below⟩ := throughout_object.mp h
    have each : ∀ a ∈ as, (⟨a.name, false, a.type.stripped⟩ : Attribute Ty) = id a := by
      intro a ha
      have mark : a.optional = false := here (a.name, a.optional) (List.mem_map_of_mem ha)
      rw [ih a ha (below a ha), ← mark, id]
    rw [stripped, strippedAttributes_eq_map, List.map_congr_left each, List.map_id]
  | capsule n => rfl
  | dynamic => rfl

theorem Lawful.plain_stripped {t : Ty} (h : t.Lawful) : t.stripped.Plain :=
  ⟨unmarked_stripped t, h.stripped stable_lawful⟩

/-! ### Placeholders -/

/-- A type without placeholders is not one, and neither are its parts. -/
theorem hasDynamic_eq_false_iff {t : Ty} :
    t.hasDynamic = false ↔ t ≠ .dynamic ∧ ∀ p ∈ t.parts, p.hasDynamic = false := by
  cases t <;>
    simp [hasDynamic, parts, hasDynamicAll_eq_any, hasDynamicAttributes_eq_any]

/-- Stripping neither adds nor removes placeholders. -/
@[simp] theorem hasDynamic_stripped (t : Ty) : t.stripped.hasDynamic = t.hasDynamic := by
  induction t with
  | primitive k => rfl
  | sequence k e ih => simpa [stripped, hasDynamic] using ih
  | map e ih => simpa [stripped, hasDynamic] using ih
  | tuple ts ih =>
    rw [Bool.eq_iff_iff]
    simp only [stripped, hasDynamic, strippedAll_eq_map, hasDynamicAll_eq_any, List.any_map,
      List.any_eq_true, Function.comp_apply]
    exact exists_congr fun t => and_congr_right fun ht => by rw [ih t ht]
  | object as ih =>
    rw [Bool.eq_iff_iff]
    simp only [stripped, hasDynamic, strippedAttributes_eq_map, hasDynamicAttributes_eq_any,
      List.any_map, List.any_eq_true, Function.comp_apply]
    exact exists_congr fun a => and_congr_right fun ha => by rw [ih a ha]
  | capsule n => rfl
  | dynamic => rfl

/-! ### Types that say everything -/

/-- The type has no placeholders, no optional attributes, and its names in order. -/
structure Definite (t : Ty) : Prop where
  plain : t.Plain
  solid : t.hasDynamic = false

theorem Definite.part {t p : Ty} (h : t.Definite) (hp : p ∈ t.parts) : p.Definite :=
  ⟨h.plain.part hp, (hasDynamic_eq_false_iff.mp h.solid).2 p hp⟩

theorem Definite.ne_dynamic {t : Ty} (h : t.Definite) : t ≠ .dynamic :=
  (hasDynamic_eq_false_iff.mp h.solid).1

end Ty

end Retype
