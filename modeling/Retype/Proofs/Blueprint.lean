import Retype.Blueprint
import Retype.Proofs.Named
import Retype.Proofs.Results

/-!
# What blueprints depend on

`Blueprint.of` looks at the types one after the other, but what it decides depends only on which
types there are. `Blueprint.Outline` says on what: there is one rule for each way in which types
come together, and for types that are given, exactly one rule applies (`outline_of`,
`of_eq_of_outline`).

* `builds_of_build` reads off what it takes to build a type, and `mixed_of_choose` what it takes to
  leave a choice.
* No rule speaks of the order of the types, so another order only rearranges the groups
  (`rearranges_of_perm`).
* Types of one kind (`Uniform`) come together part by part. Where lists do not occur together with
  tuples, nor maps with objects, nothing else does (`exists_uniform_of_build`).
-/

namespace Retype

namespace Ty

/-- No one kind of collection or structure covers all the types. -/
def Mixed (ts : List Ty) : Prop :=
  ∀ kind ∈ [isMap, isList, isSet, isTuple, isObject], ∃ t ∈ ts, kind t = false

/-- No type of the given kind occurs in the type, at any depth. -/
inductive Lacks (kind : Ty → Bool) : Ty → Prop
  | intro {t : Ty} (here : kind t = false) (below : ∀ p ∈ t.parts, Lacks kind p) : Lacks kind t

theorem Lacks.here {kind : Ty → Bool} {t : Ty} : t.Lacks kind → kind t = false
  | .intro here _ => here

theorem Lacks.part {kind : Ty → Bool} {t p : Ty} (hp : p ∈ t.parts) : t.Lacks kind → p.Lacks kind
  | .intro _ below => below p hp

/-- Types of two kinds that do not occur together are not both there. -/
theorem false_of_lacks {kind kind' : Ty → Bool} {ts : List Ty} {s t : Ty}
    (h : (∀ t ∈ ts, t.Lacks kind) ∨ ∀ t ∈ ts, t.Lacks kind') (hs : s ∈ ts) (ht : t ∈ ts)
    (hkind : kind s = true) (hkind' : kind' t = true) : False := by
  rcases h with lacks | lacks
  · exact absurd hkind (by simp [(lacks s hs).here])
  · exact absurd hkind' (by simp [(lacks t ht).here])

/-- Lists do not occur together with tuples inside the types, nor maps together with objects. -/
structure Unmixed (ts : List Ty) : Prop where
  listing : (∀ t ∈ ts, t.Lacks isList) ∨ ∀ t ∈ ts, t.Lacks isTuple
  mapping : (∀ t ∈ ts, t.Lacks isMap) ∨ ∀ t ∈ ts, t.Lacks isObject

/-- What all types lack, types that are parts of theirs lack as well. -/
theorem lacks_of_parts {kind : Ty → Bool} {ts group : List Ty} (h : ∀ t ∈ ts, t.Lacks kind)
    (inside : ∀ p ∈ group, ∃ t ∈ ts, p ∈ t.parts) : ∀ p ∈ group, p.Lacks kind := by
  intro p hp
  obtain ⟨t, ht, hpt⟩ := inside p hp
  exact (h t ht).part hpt

theorem Unmixed.mono {ts ts' : List Ty} (h : Unmixed ts) (sub : ∀ t ∈ ts', t ∈ ts) :
    Unmixed ts' :=
  ⟨h.listing.imp (fun lacks t ht => lacks t (sub t ht)) fun lacks t ht => lacks t (sub t ht),
    h.mapping.imp (fun lacks t ht => lacks t (sub t ht)) fun lacks t ht => lacks t (sub t ht)⟩

theorem Unmixed.group {ts group : List Ty} (h : Unmixed ts)
    (inside : ∀ p ∈ group, ∃ t ∈ ts, p ∈ t.parts) : Unmixed group :=
  ⟨h.listing.imp (lacks_of_parts · inside) (lacks_of_parts · inside),
    h.mapping.imp (lacks_of_parts · inside) (lacks_of_parts · inside)⟩

end Ty

namespace Blueprint

open Ty

/-- Objects name by name. -/
def attributeGroups (types : List Ty) (names : List String) : List (List Ty) :=
  names.map fun name => types.filterMap (attributeType? name)

/-- Tuples position by position. -/
def elementGroups (types : List Ty) (length : Nat) : List (List Ty) :=
  (List.range length).map fun i => types.filterMap (elementAt? i)

/-- How the types come together, told by which types there are. -/
inductive Outline (types : List Ty) (safety : Safety) : Blueprint → Prop
  | map (some : ∃ t ∈ types, t.isMap = true)
      (all : ∀ t ∈ types, t.isMap = true ∨ t.isObject = true) :
      Outline types safety (gather .map types)
  | list (some : ∃ t ∈ types, t.isList = true)
      (all : ∀ t ∈ types, t.isList = true ∨ t.isTuple = true) :
      Outline types safety (gather (.sequence .list) types)
  | set (all : ∀ t ∈ types, t.isSet = true) :
      Outline types safety (gather (.sequence .set) types)
  | object {names : List String}
      (all : ∀ t ∈ types, t.attributes?.map Named.names = some names) :
      Outline types safety (.build (.object names) (attributeGroups types names))
  | tuple {n : Nat} (all : ∀ t ∈ types, t.elements?.map List.length = some n) :
      Outline types safety (.build .tuple (elementGroups types n))
  | unlikeObjects (all : ∀ t ∈ types, t.isObject = true)
      (differ : ∀ names, ∃ t ∈ types, t.attributes?.map Named.names ≠ some names) :
      Outline types safety (if safety = .risky then gather .map types else .clash)
  | unlikeTuples (all : ∀ t ∈ types, t.isTuple = true)
      (differ : ∀ n, ∃ t ∈ types, t.elements?.map List.length ≠ some n) :
      Outline types safety (if safety = .risky then gather (.sequence .list) types else .clash)
  | crossed (object : ∃ t ∈ types, t.isObject = true) (tuple : ∃ t ∈ types, t.isTuple = true) :
      Outline types safety .clash
  | choose (maps : (∃ t ∈ types, t.isMap = true) →
        ∃ t ∈ types, t.isMap = false ∧ t.isObject = false)
      (lists : (∃ t ∈ types, t.isList = true) →
        ∃ t ∈ types, t.isList = false ∧ t.isTuple = false)
      (mixed : Mixed types)
      (uncrossed : (∃ t ∈ types, t.isObject = true) → ∀ t ∈ types, t.isTuple = false) :
      Outline types safety .choose

theorem every_iff {test : Ty → Bool} {types : List Ty} :
    every test types = true ↔ types ≠ [] ∧ ∀ t ∈ types, test t = true := by
  simp [every]

/-- Where all members agree on a reading, the first one shows it. -/
theorem elim_findSome?_eq {α β γ : Type} {f : α → Option β} {g : β → γ} {default shown : γ}
    {l : List α} (hne : l ≠ []) (hall : ∀ a ∈ l, (f a).map g = some shown) :
    (l.findSome? f).elim default g = shown := by
  cases l with
  | nil => exact absurd rfl hne
  | cons a rest =>
    obtain ⟨b, hb, rfl⟩ := Option.map_eq_some_iff.mp (hall a List.mem_cons_self)
    simp [hb]

section Outline

variable {types : List Ty} {safety : Safety}

/-- Objects with the same names are built, others are gathered in a map or do not go together. -/
theorem outline_ofObjects (hne : types ≠ []) (all : ∀ t ∈ types, t.isObject = true) :
    Outline types safety
      (ofObjects types safety ((types.findSome? attributes?).elim [] Named.names)) := by
  unfold ofObjects
  split
  · rename_i hall
    exact .object (by simpa using hall)
  · rename_i hall
    refine .unlikeObjects all fun names => ?_
    -- had all these names, the first would have shown them
    by_contra hcon
    push Not at hcon
    rw [elim_findSome?_eq hne hcon] at hall
    exact hall (List.all_eq_true.mpr fun t ht => by rw [hcon t ht]; exact beq_self_eq_true _)

/-- Tuples of one length are built, others are gathered in a list or do not go together. -/
theorem outline_ofTuples (hne : types ≠ []) (all : ∀ t ∈ types, t.isTuple = true) :
    Outline types safety
      (ofTuples types safety ((types.findSome? elements?).elim 0 List.length)) := by
  unfold ofTuples
  split
  · rename_i hall
    exact .tuple (by simpa using hall)
  · rename_i hall
    refine .unlikeTuples all fun n => ?_
    -- had all this length, the first would have shown it
    by_contra hcon
    push Not at hcon
    rw [elim_findSome?_eq hne hcon] at hall
    exact hall (List.all_eq_true.mpr fun t ht => by rw [hcon t ht]; exact beq_self_eq_true _)

/-- **Inversion.** The blueprint of some types follows one of the rules. -/
theorem outline_of (hne : types ≠ []) : Outline types safety (of types safety) := by
  unfold of
  split
  · rename_i hmap
    simp only [Bool.and_eq_true, List.any_eq_true, List.all_eq_true, Bool.or_eq_true] at hmap
    exact .map hmap.1 hmap.2
  rename_i hmap
  split
  · rename_i hlist
    simp only [Bool.and_eq_true, List.any_eq_true, List.all_eq_true, Bool.or_eq_true] at hlist
    exact .list hlist.1 hlist.2
  rename_i hlist
  split
  · rename_i hset
    exact .set (every_iff.mp hset).2
  rename_i hset
  split
  · rename_i hobject
    exact outline_ofObjects hne (every_iff.mp hobject).2
  rename_i hobject
  split
  · rename_i htuple
    exact outline_ofTuples hne (every_iff.mp htuple).2
  rename_i htuple
  split
  · rename_i hcrossed
    simp only [Bool.and_eq_true, List.any_eq_true] at hcrossed
    exact .crossed hcrossed.1 hcrossed.2
  rename_i hcrossed
  simp only [Bool.and_eq_true, List.any_eq_true, List.all_eq_true, Bool.or_eq_true, not_and,
    not_forall, not_or, Bool.not_eq_true, exists_prop] at hmap hlist
  simp only [every_iff, not_and, not_forall, Bool.not_eq_true, exists_prop] at hset hobject htuple
  simp only [Bool.and_eq_true, List.any_eq_true, not_and, not_exists, Bool.not_eq_true]
    at hcrossed
  obtain ⟨first, hfirst⟩ := List.exists_mem_of_ne_nil types hne
  refine .choose hmap hlist ?_ hcrossed
  simp only [Mixed, List.forall_mem_cons, List.not_mem_nil, false_imp_iff, implies_true, and_true]
  refine ⟨?_, ?_, hset hne, htuple hne, hobject hne⟩
  · cases hkind : first.isMap with
    | false => exact ⟨first, hfirst, hkind⟩
    | true => exact (hmap ⟨first, hfirst, hkind⟩).imp fun _ h => ⟨h.1, h.2.1⟩
  · cases hkind : first.isList with
    | false => exact ⟨first, hfirst, hkind⟩
    | true => exact (hlist ⟨first, hfirst, hkind⟩).imp fun _ h => ⟨h.1, h.2.1⟩

theorem every_eq_false {kind : Ty → Bool} (h : ∃ t ∈ types, kind t = false) :
    every kind types = false := by
  obtain ⟨t, ht, hkind⟩ := h
  rw [Bool.eq_false_iff, Ne, every_iff]
  rintro ⟨-, all⟩
  rw [all t ht] at hkind
  cases hkind

/-- Types all of which pass one test do not go together under another that all of them fail. -/
theorem any_eq_false_of_forall {kind other : Ty → Bool} (all : ∀ t ∈ types, kind t = true)
    (apart : ∀ t, kind t = true → other t = false) : types.any other = false :=
  List.any_eq_false.mpr fun t ht => by simp [apart t (all t ht)]

theorem every_eq_false_of_forall {kind other : Ty → Bool} (hne : types ≠ [])
    (all : ∀ t ∈ types, kind t = true) (apart : ∀ t, kind t = true → other t = false) :
    every other types = false := by
  obtain ⟨t, ht⟩ := List.exists_mem_of_ne_nil types hne
  exact every_eq_false ⟨t, ht, apart t (all t ht)⟩

theorem of_sets (hne : types ≠ []) (all : ∀ t ∈ types, t.isSet = true) :
    of types safety = gather (.sequence .set) types := by
  have hmap : types.any isMap = false := any_eq_false_of_forall all fun t h => by
    cases t <;> first | rfl | cases h
  have hlist : types.any isList = false := any_eq_false_of_forall all fun t h => by
    cases t with
    | sequence k e => cases k <;> first | rfl | cases h
    | _ => rfl
  simp [of, hmap, hlist, every_iff.mpr ⟨hne, all⟩]

theorem of_objects (hne : types ≠ []) (all : ∀ t ∈ types, t.isObject = true) :
    of types safety =
      ofObjects types safety ((types.findSome? attributes?).elim [] Named.names) := by
  have hmap : types.any isMap = false := any_eq_false_of_forall all fun t h => by
    cases t <;> first | rfl | cases h
  have hlist : types.any isList = false := any_eq_false_of_forall all fun t h => by
    cases t <;> first | rfl | cases h
  have hset : every isSet types = false := every_eq_false_of_forall hne all fun t h => by
    cases t <;> first | rfl | cases h
  simp [of, hmap, hlist, hset, every_iff.mpr ⟨hne, all⟩]

theorem of_tuples (hne : types ≠ []) (all : ∀ t ∈ types, t.isTuple = true) :
    of types safety =
      ofTuples types safety ((types.findSome? elements?).elim 0 List.length) := by
  have hmap : types.any isMap = false := any_eq_false_of_forall all fun t h => by
    cases t <;> first | rfl | cases h
  have hlist : types.any isList = false := any_eq_false_of_forall all fun t h => by
    cases t <;> first | rfl | cases h
  have hset : every isSet types = false := every_eq_false_of_forall hne all fun t h => by
    cases t <;> first | rfl | cases h
  have hobject : every isObject types = false := every_eq_false_of_forall hne all fun t h => by
    cases t <;> first | rfl | cases h
  simp [of, hmap, hlist, hset, hobject, every_iff.mpr ⟨hne, all⟩]

/-- **Evaluation.** The rule that applies gives the blueprint. -/
theorem of_eq_of_outline {b : Blueprint} (hne : types ≠ []) (h : Outline types safety b) :
    of types safety = b := by
  cases h with
  | map some all =>
    refine if_pos ?_
    simpa only [Bool.and_eq_true, List.any_eq_true, List.all_eq_true, Bool.or_eq_true]
      using ⟨some, all⟩
  | list some all =>
    have hmap : types.any isMap = false := List.any_eq_false.mpr fun t ht => by
      have kind := all t ht
      cases t with
      | map => simp [isList, isTuple] at kind
      | _ => simp [isMap]
    rw [of, hmap, Bool.false_and, if_neg Bool.false_ne_true]
    refine if_pos ?_
    simpa only [Bool.and_eq_true, List.any_eq_true, List.all_eq_true, Bool.or_eq_true]
      using ⟨some, all⟩
  | set all => exact of_sets hne all
  | object all =>
    rw [of_objects hne fun t ht => ?_, elim_findSome?_eq hne all, ofObjects,
      if_pos (by simpa using all)]
    · rfl
    · have hnames := all t ht
      cases t <;> first | rfl | cases hnames
  | tuple all =>
    rw [of_tuples hne fun t ht => ?_, elim_findSome?_eq hne all, ofTuples,
      if_pos (by simpa using all)]
    · rfl
    · have hlength := all t ht
      cases t <;> first | rfl | cases hlength
  | unlikeObjects all differ =>
    rw [of_objects hne all, ofObjects, if_neg]
    obtain ⟨t, ht, hdiffer⟩ := differ ((types.findSome? attributes?).elim [] Named.names)
    intro hall
    exact hdiffer (by simpa using List.all_eq_true.mp hall t ht)
  | unlikeTuples all differ =>
    rw [of_tuples hne all, ofTuples, if_neg]
    obtain ⟨t, ht, hdiffer⟩ := differ ((types.findSome? elements?).elim 0 List.length)
    intro hall
    exact hdiffer (by simpa using List.all_eq_true.mp hall t ht)
  | crossed object tuple =>
    obtain ⟨o, ho, hobject⟩ := object
    obtain ⟨t, ht, htuple⟩ := tuple
    -- the tuple is no map, object or set, the object no list or tuple
    have hmap : types.all (fun t => t.isMap || t.isObject) = false :=
      List.all_eq_false.mpr ⟨t, ht, Bool.eq_false_iff.mp
        (by cases t <;> first | rfl | cases htuple)⟩
    have hlist : types.all (fun t => t.isList || t.isTuple) = false :=
      List.all_eq_false.mpr ⟨o, ho, Bool.eq_false_iff.mp
        (by cases o <;> first | rfl | cases hobject)⟩
    have hset : every isSet types = false := every_eq_false
      ⟨t, ht, by cases t <;> first | rfl | cases htuple⟩
    have hobjects : every isObject types = false := every_eq_false
      ⟨t, ht, by cases t <;> first | rfl | cases htuple⟩
    have htuples : every isTuple types = false := every_eq_false
      ⟨o, ho, by cases o <;> first | rfl | cases hobject⟩
    have hany : types.any isObject = true := List.any_eq_true.mpr ⟨o, ho, hobject⟩
    have hany' : types.any isTuple = true := List.any_eq_true.mpr ⟨t, ht, htuple⟩
    simp [of, hmap, hlist, hset, hobjects, htuples, hany, hany']
  | choose maps lists mixed uncrossed =>
    simp only [Mixed, List.forall_mem_cons, List.not_mem_nil, false_imp_iff, implies_true,
      and_true] at mixed
    obtain ⟨-, -, hset, htuple, hobject⟩ := mixed
    rw [of, if_neg, if_neg, every_eq_false hset, every_eq_false hobject, every_eq_false htuple]
    · simp only [Bool.false_eq_true, if_false, ite_eq_right_iff, reduceCtorEq, imp_false,
        Bool.and_eq_true, List.any_eq_true, not_and]
      rintro ho ⟨t, ht, hkind⟩
      rw [uncrossed ho t ht] at hkind
      cases hkind
    · simp only [Bool.and_eq_true, List.any_eq_true, List.all_eq_true, Bool.or_eq_true, not_and]
      intro some all
      obtain ⟨t, ht, hlist, htuple⟩ := lists some
      simpa [hlist, htuple] using all t ht
    · simp only [Bool.and_eq_true, List.any_eq_true, List.all_eq_true, Bool.or_eq_true, not_and]
      intro some all
      obtain ⟨t, ht, hmap, hobject⟩ := maps some
      simpa [hmap, hobject] using all t ht

end Outline

/-! ### Blueprints that build -/

/-- What it takes for a blueprint to gather the parts of the types in a collection. -/
inductive Gathers (types : List Ty) : Frame → Prop
  | map (all : ∀ t ∈ types, t.isMap = true ∨ t.isObject = true)
      (loose : (∃ t ∈ types, t.isMap = true) ∨
        ∀ names, ∃ t ∈ types, t.attributes?.map Named.names ≠ some names) : Gathers types .map
  | list (all : ∀ t ∈ types, t.isList = true ∨ t.isTuple = true)
      (loose : (∃ t ∈ types, t.isList = true) ∨
        ∀ n, ∃ t ∈ types, t.elements?.map List.length ≠ some n) :
      Gathers types (.sequence .list)
  | set (all : ∀ t ∈ types, t.isSet = true) : Gathers types (.sequence .set)

/-- What it takes for a blueprint to build a type, and from which groups. -/
inductive Builds (types : List Ty) : Frame → List (List Ty) → Prop
  | gather {frame : Frame} (gathers : Gathers types frame) :
      Builds types frame [types.flatMap parts]
  | object {names : List String}
      (all : ∀ t ∈ types, t.attributes?.map Named.names = some names) :
      Builds types (.object names) (names.map fun name => types.filterMap (attributeType? name))
  | tuple {n : Nat} (all : ∀ t ∈ types, t.elements?.map List.length = some n) :
      Builds types .tuple ((List.range n).map fun i => types.filterMap (elementAt? i))

/-- **Inversion.** A blueprint that builds a type does so under one of the rules. -/
theorem builds_of_build {types : List Ty} {safety : Safety} {frame : Frame}
    {groups : List (List Ty)} (h : of types safety = .build frame groups) :
    Builds types frame groups := by
  have hne : types ≠ [] := by
    rintro rfl
    simp [of, every] at h
  have outline : Outline types safety (of types safety) := outline_of hne
  rw [h] at outline
  generalize hb : Blueprint.build frame groups = b at outline
  cases outline with
  | map some all =>
    cases hb
    exact .gather (.map all (.inl some))
  | list some all =>
    cases hb
    exact .gather (.list all (.inl some))
  | set all =>
    cases hb
    exact .gather (.set all)
  | object all =>
    cases hb
    exact .object all
  | tuple all =>
    cases hb
    exact .tuple all
  | unlikeObjects all differ =>
    split at hb <;> cases hb
    exact .gather (.map (fun t ht => .inr (all t ht)) (.inr differ))
  | unlikeTuples all differ =>
    split at hb <;> cases hb
    exact .gather (.list (fun t ht => .inr (all t ht)) (.inr differ))
  | crossed | choose => cases hb

/-- What leaves a choice is neither maps with objects, nor lists with tuples, nor of one kind. -/
theorem kinds_of_choose {types : List Ty} {safety : Safety} (hne : types ≠ [])
    (h : of types safety = .choose) :
    ((∃ t ∈ types, t.isMap = true) → ∃ t ∈ types, t.isMap = false ∧ t.isObject = false) ∧
      ((∃ t ∈ types, t.isList = true) → ∃ t ∈ types, t.isList = false ∧ t.isTuple = false) ∧
      Mixed types := by
  have outline : Outline types safety (of types safety) := outline_of hne
  rw [h] at outline
  generalize hb : Blueprint.choose = b at outline
  cases outline with
  | choose maps lists mixed => exact ⟨maps, lists, mixed⟩
  | unlikeObjects | unlikeTuples => split at hb <;> cases hb
  | _ => cases hb

/-- Only a mix of kinds leaves a choice. -/
theorem mixed_of_choose {types : List Ty} {safety : Safety} (hne : types ≠ [])
    (h : of types safety = .choose) : Mixed types :=
  (kinds_of_choose hne h).2.2

/-! ### Types in another order -/

/-- The blueprints differ at most in the order of the types inside each group. -/
inductive Rearranges : Blueprint → Blueprint → Prop
  | build {frame : Frame} {groups groups' : List (List Ty)}
      (each : List.Forall₂ List.Perm groups groups') :
      Rearranges (.build frame groups) (.build frame groups')
  | choose : Rearranges .choose .choose
  | clash : Rearranges .clash .clash

theorem rearranges_gather {types types' : List Ty} {frame : Frame} (h : types.Perm types') :
    Rearranges (gather frame types) (gather frame types') :=
  .build (.cons (h.flatMap_right _) .nil)

/-- The readings of the types, in another order, are the readings of the types in that order. -/
theorem forall₂_perm_filterMap {α : Type} {types types' : List Ty} (h : types.Perm types')
    (reader : α → Ty → Option Ty) (l : List α) :
    List.Forall₂ List.Perm (l.map fun a => types.filterMap (reader a))
      (l.map fun a => types'.filterMap (reader a)) := by
  rw [List.forall₂_map_left_iff, List.forall₂_map_right_iff, List.forall₂_same]
  exact fun a _ => h.filterMap _

/-- **Order.** The same rule applies whatever the order of the types. -/
theorem Outline.perm {types types' : List Ty} {safety : Safety} {b : Blueprint}
    (outline : Outline types safety b) (h : types.Perm types') :
    ∃ b', Outline types' safety b' ∧ Rearranges b b' := by
  have every : ∀ {Q : Ty → Prop}, (∀ t ∈ types, Q t) → ∀ t ∈ types', Q t :=
    fun all t ht => all t (h.mem_iff.mpr ht)
  have some : ∀ {Q : Ty → Prop}, (∃ t ∈ types, Q t) → ∃ t ∈ types', Q t :=
    fun ⟨t, ht, hQ⟩ => ⟨t, h.mem_iff.mp ht, hQ⟩
  have back : ∀ {Q : Ty → Prop}, (∃ t ∈ types', Q t) → ∃ t ∈ types, Q t :=
    fun ⟨t, ht, hQ⟩ => ⟨t, h.mem_iff.mpr ht, hQ⟩
  cases outline with
  | map is all => exact ⟨_, .map (some is) (every all), rearranges_gather h⟩
  | list is all => exact ⟨_, .list (some is) (every all), rearranges_gather h⟩
  | set all => exact ⟨_, .set (every all), rearranges_gather h⟩
  | object all => exact ⟨_, .object (every all), .build (forall₂_perm_filterMap h _ _)⟩
  | tuple all => exact ⟨_, .tuple (every all), .build (forall₂_perm_filterMap h _ _)⟩
  | unlikeObjects all differ =>
    refine ⟨_, .unlikeObjects (every all) fun names => some (differ names), ?_⟩
    split
    · exact rearranges_gather h
    · exact .clash
  | unlikeTuples all differ =>
    refine ⟨_, .unlikeTuples (every all) fun n => some (differ n), ?_⟩
    split
    · exact rearranges_gather h
    · exact .clash
  | crossed object tuple => exact ⟨_, .crossed (some object) (some tuple), .clash⟩
  | choose maps lists mixed uncrossed =>
    exact ⟨_, .choose (fun is => some (maps (back is))) (fun is => some (lists (back is)))
      (fun kind hkind => some (mixed kind hkind)) fun is => every (uncrossed (back is)), .choose⟩

theorem rearranges_of_perm {types types' : List Ty} {safety : Safety} (h : types.Perm types') :
    Rearranges (of types safety) (of types' safety) := by
  by_cases hne : types = []
  · subst hne
    rw [← h.nil_eq]
    exact .choose
  · obtain ⟨b', outline, rearranges⟩ := (outline_of hne).perm h
    rwa [of_eq_of_outline (fun hnil => hne (h.trans (hnil ▸ .nil)).eq_nil) outline]

/-! ### Types of one kind -/

/-- The types are of one kind, and each has one part for each reader. -/
inductive Uniform (types : List Ty) : Frame → List (Ty → Option Ty) → Prop
  | map (all : ∀ t ∈ types, t.isMap = true) : Uniform types .map [element?]
  | list (all : ∀ t ∈ types, t.isList = true) : Uniform types (.sequence .list) [element?]
  | set (all : ∀ t ∈ types, t.isSet = true) : Uniform types (.sequence .set) [element?]
  | object {names : List String}
      (all : ∀ t ∈ types, t.attributes?.map Named.names = some names) :
      Uniform types (.object names) (names.map attributeType?)
  | tuple {n : Nat} (all : ∀ t ∈ types, t.elements?.map List.length = some n) :
      Uniform types .tuple ((List.range n).map elementAt?)

section Uniform

variable {types : List Ty} {frame : Frame} {readers : List (Ty → Option Ty)}

theorem Uniform.mono {types' : List Ty} (h : Uniform types frame readers)
    (sub : ∀ t ∈ types', t ∈ types) : Uniform types' frame readers := by
  cases h with
  | map all => exact .map fun t ht => all t (sub t ht)
  | list all => exact .list fun t ht => all t (sub t ht)
  | set all => exact .set fun t ht => all t (sub t ht)
  | object all => exact .object fun t ht => all t (sub t ht)
  | tuple all => exact .tuple fun t ht => all t (sub t ht)

theorem Uniform.length_names (h : Uniform types frame readers) {names : List String}
    (hframe : frame = .object names) : names.length = readers.length := by
  cases h <;> cases hframe
  simp

/-- The parts of collections are their elements. -/
theorem flatMap_parts {kind : Ty → Bool} (all : ∀ t ∈ types, kind t = true)
    (single : ∀ t, kind t = true → t.parts = t.element?.toList) :
    types.flatMap parts = types.filterMap element? := by
  rw [List.filterMap_eq_flatMap_toList]
  exact List.flatMap_congr fun t ht => single t (all t ht)

/-- Each type has a part for each reader. -/
theorem Uniform.exists_part (h : Uniform types frame readers) {reader : Ty → Option Ty}
    (hreader : reader ∈ readers) {t : Ty} (ht : t ∈ types) :
    ∃ p ∈ t.parts, reader t = some p := by
  cases h with
  | map all =>
    obtain rfl := List.mem_singleton.mp hreader
    have kind := all t ht
    cases t with
    | map e => exact ⟨e, by simp [parts], rfl⟩
    | _ => cases kind
  | list all | set all =>
    obtain rfl := List.mem_singleton.mp hreader
    have kind := all t ht
    cases t with
    | sequence k e => exact ⟨e, by simp [parts], rfl⟩
    | _ => cases kind
  | object all =>
    obtain ⟨name, hname, rfl⟩ := List.mem_map.mp hreader
    obtain ⟨as, has, rfl⟩ := Option.map_eq_some_iff.mp (all t ht)
    cases t with
    | object =>
      cases has
      have hsome : (Named.find? name as).isSome = true := by
        rw [Named.isSome_find?]
        exact Named.contains_iff.mpr hname
      obtain ⟨a, ha⟩ := Option.isSome_iff_exists.mp hsome
      have hread : attributeType? name (.object as) = some a.type := by
        rw [attributeType?, ha]
        rfl
      exact ⟨a.type, mem_parts_of_attributeType? hread, hread⟩
    | _ => cases has
  | tuple all =>
    obtain ⟨i, hi, rfl⟩ := List.mem_map.mp hreader
    obtain ⟨ss, hss, rfl⟩ := Option.map_eq_some_iff.mp (all t ht)
    cases t with
    | tuple =>
      cases hss
      have hread : elementAt? i (.tuple ss) = some (ss.get ⟨i, List.mem_range.mp hi⟩) :=
        List.getElem?_eq_getElem _
      exact ⟨_, mem_parts_of_elementAt? hread, hread⟩
    | _ => cases hss

/-- Types of one kind come together reader by reader. -/
theorem Uniform.of_eq {safety : Safety} (h : Uniform types frame readers) (hne : types ≠ []) :
    of types safety = .build frame (readers.map fun reader => types.filterMap reader) := by
  obtain ⟨t, ht⟩ := List.exists_mem_of_ne_nil types hne
  cases h with
  | map all =>
    rw [of_eq_of_outline hne (.map ⟨t, ht, all t ht⟩ fun t ht => .inl (all t ht)), gather,
      flatMap_parts all]
    · rfl
    · intro t kind
      cases t <;> first | rfl | cases kind
  | list all =>
    rw [of_eq_of_outline hne (.list ⟨t, ht, all t ht⟩ fun t ht => .inl (all t ht)), gather,
      flatMap_parts all]
    · rfl
    · intro t kind
      cases t <;> first | rfl | cases kind
  | set all =>
    rw [of_eq_of_outline hne (.set all), gather, flatMap_parts all]
    · rfl
    · intro t kind
      cases t <;> first | rfl | cases kind
  | object all =>
    rw [of_eq_of_outline hne (.object all), attributeGroups, List.map_map]
    rfl
  | tuple all =>
    rw [of_eq_of_outline hne (.tuple all), elementGroups, List.map_map]
    rfl

/-- Where lists and tuples, and maps and objects, do not occur together, types come together only
if they are of one kind. -/
theorem exists_uniform_of_build {safety : Safety} {groups : List (List Ty)}
    (h : of types safety = .build frame groups) (unmixed : Unmixed types)
    (strict : safety = .risky → ∀ t ∈ types, t.isObject = false ∧ t.isTuple = false) :
    ∃ readers, Uniform types frame readers ∧
      groups = readers.map fun reader => types.filterMap reader := by
  have hne : types ≠ [] := by
    rintro rfl
    simp [of, every] at h
  suffices uniform : ∃ readers, Uniform types frame readers by
    obtain ⟨readers, uniform⟩ := uniform
    have heq := h.symm.trans (uniform.of_eq hne)
    cases heq
    exact ⟨readers, uniform, rfl⟩
  obtain ⟨first, hfirst⟩ := List.exists_mem_of_ne_nil types hne
  have outline : Outline types safety (of types safety) := outline_of hne
  rw [h] at outline
  generalize hb : Blueprint.build frame groups = b at outline
  cases outline with
  | map some all =>
    cases hb
    obtain ⟨t, ht, kind⟩ := some
    exact ⟨_, .map fun s hs =>
      (all s hs).resolve_right (false_of_lacks unmixed.mapping ht hs kind)⟩
  | list some all =>
    cases hb
    obtain ⟨t, ht, kind⟩ := some
    exact ⟨_, .list fun s hs =>
      (all s hs).resolve_right (false_of_lacks unmixed.listing ht hs kind)⟩
  | set all =>
    cases hb
    exact ⟨_, .set all⟩
  | object all =>
    cases hb
    exact ⟨_, .object all⟩
  | tuple all =>
    cases hb
    exact ⟨_, .tuple all⟩
  | unlikeObjects all | unlikeTuples all =>
    -- these are gathered only at a risk
    split at hb
    · rename_i risky
      have kind := all first hfirst
      simp [strict risky first hfirst] at kind
    · cases hb
  | crossed | choose => cases hb

end Uniform

end Blueprint

end Retype
