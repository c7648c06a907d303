import Retype.Conversion.Between
import Retype.Proofs.Blueprint
import Retype.Proofs.Ty.Layout

/-!
# What a common type is made of

`Ty.unify?` sets placeholders aside, keeps a type that all the others are, and otherwise follows
a blueprint. `Ty.Common` lists the ways in which it can succeed, one rule for each way, with
everything that is known when the rule applies (`common_of_unify?`). The search itself is opened
only here: what is said of common types elsewhere follows the rules, or starts from the equations
for types that are all placeholders, all the same, or apart (`unify?_of_blank`, `unify?_of_same`,
`unify?_of_apart`).

The first use is that a property of layouts which all the types have throughout is one of their
common type as well (`Throughout.common`), and that types without placeholders have a common type
without placeholders (`hasDynamic_common`).
-/

namespace Retype

namespace Ty

/-- The types that are not placeholders. -/
def concrete (ts : List Ty) : List Ty := ts.filter (!·.isDynamic)

theorem mem_concrete {ts : List Ty} {t : Ty} : t ∈ concrete ts ↔ t ∈ ts ∧ t ≠ .dynamic := by
  simp [concrete, ← isDynamic_iff]

/-- Not all the types are the same. -/
def Apart (ts : List Ty) : Prop := ∃ s ∈ ts, ∃ t ∈ ts, s ≠ t

theorem Apart.ne_nil {ts : List Ty} (h : Apart ts) : ts ≠ [] :=
  List.ne_nil_of_mem h.choose_spec.1

/-- How several types come to have a common type. -/
inductive Common (safety : Safety) : List Ty → Ty → Prop
  /-- There are only placeholders. -/
  | blank {ts : List Ty} (nonempty : ts ≠ []) (all : ∀ t ∈ ts, t = .dynamic) :
      Common safety ts .dynamic
  /-- All are the same, placeholders aside. -/
  | same {ts : List Ty} {u : Ty} (mem : u ∈ concrete ts) (all : ∀ t ∈ concrete ts, t = u) :
      Common safety ts u
  /-- One of several kinds is chosen. -/
  | choose {ts : List Ty} {u : Ty} (apart : Apart (concrete ts)) (mem : u ∈ concrete ts)
      (mixed : Mixed (concrete ts))
      (joined : ∀ t ∈ concrete ts, joins safety u t = true) : Common safety ts u
  /-- Maps, or maps and objects, or objects with different names, become a map. -/
  | map {ts : List Ty} {e : Ty} (apart : Apart (concrete ts))
      (all : ∀ t ∈ concrete ts, t.isMap = true ∨ t.isObject = true)
      (loose : (∃ t ∈ concrete ts, t.isMap = true) ∨
        ∀ names, ∃ t ∈ concrete ts, t.attributes?.map Named.names ≠ some names)
      (inside : Common safety ((concrete ts).flatMap parts) e)
      (joined : ∀ t ∈ concrete ts, joins safety (.map e) t = true) : Common safety ts (.map e)
  /-- Lists, or lists and tuples, or tuples of different lengths, become a list. -/
  | list {ts : List Ty} {e : Ty} (apart : Apart (concrete ts))
      (all : ∀ t ∈ concrete ts, t.isList = true ∨ t.isTuple = true)
      (loose : (∃ t ∈ concrete ts, t.isList = true) ∨
        ∀ n, ∃ t ∈ concrete ts, t.elements?.map List.length ≠ some n)
      (inside : Common safety ((concrete ts).flatMap parts) e)
      (joined : ∀ t ∈ concrete ts, joins safety (.list e) t = true) : Common safety ts (.list e)
  /-- Sets become a set. -/
  | set {ts : List Ty} {e : Ty} (apart : Apart (concrete ts))
      (all : ∀ t ∈ concrete ts, t.isSet = true)
      (inside : Common safety ((concrete ts).flatMap parts) e)
      (joined : ∀ t ∈ concrete ts, joins safety (.set e) t = true) : Common safety ts (.set e)
  /-- Objects with the same names become an object, name by name. -/
  | object {ts : List Ty} {names : List String} {us : List Ty} (apart : Apart (concrete ts))
      (all : ∀ t ∈ concrete ts, t.attributes?.map Named.names = some names)
      (length : names.length = us.length)
      (inside : ∀ (i : Nat) name u, names[i]? = some name → us[i]? = some u →
        Common safety ((concrete ts).filterMap (attributeType? name)) u)
      (joined : ∀ t ∈ concrete ts, joins safety (record (names.zip us)) t = true) :
      Common safety ts (record (names.zip us))
  /-- Tuples of one length become a tuple, position by position. -/
  | tuple {ts us : List Ty} (apart : Apart (concrete ts))
      (all : ∀ t ∈ concrete ts, t.elements?.map List.length = some us.length)
      (inside : ∀ (i : Nat) u, us[i]? = some u →
        Common safety ((concrete ts).filterMap (elementAt? i)) u)
      (joined : ∀ t ∈ concrete ts, joins safety (.tuple us) t = true) : Common safety ts (.tuple us)

/-! ### The search follows the rules -/

/-- A sorted list of types holds only the types it was made from. -/
theorem mem_of_mem_sorted {types : List Ty} {t : Ty} (h : t ∈ Preference.sorted types) :
    t ∈ types := by
  obtain ⟨i, -, hi⟩ := List.mem_filterMap.mp h
  exact List.mem_of_getElem? hi

/-- The common type of types that are neither placeholders nor all the same. -/
theorem common_of_merge? {ts : List Ty} {safety : Safety} {u : Ty} (apart : Apart (concrete ts))
    (ih : ∀ group ∈ (Blueprint.of (concrete ts) safety).groups, ∀ p,
      unify? group safety = some p → Common safety group p)
    (h : merge? (concrete ts) safety = some u) : Common safety ts u := by
  rw [merge?_eq] at h
  have hjoin := List.find?_some h
  have hmem := List.mem_of_find?_eq_some h
  have joined : ∀ t ∈ concrete ts, joins safety u t = true := by simpa using hjoin
  cases hof : Blueprint.of (concrete ts) safety with
  | clash => simp [hof, Blueprint.candidates] at hmem
  | choose =>
    rw [hof] at hmem
    exact .choose apart (mem_of_mem_sorted hmem) (Blueprint.mixed_of_choose apart.ne_nil hof)
      joined
  | build frame groups =>
    simp only [hof, Blueprint.candidates, Option.mem_toList, Option.bind_eq_some_iff] at hmem
    obtain ⟨us, hus, hfill⟩ := hmem
    -- the groups have common types of their own, in the same order
    have inside : List.Forall₂ (Common safety) groups us := by
      have hus' := mapM_eq_some_iff.mp hus
      rw [forall₂_iff_getElem?] at hus' ⊢
      refine ⟨hus'.1, fun i group p hg hp => ih group ?_ p (hus'.2 i group p hg hp)⟩
      rw [hof]
      exact List.mem_of_getElem? hg
    cases Blueprint.builds_of_build hof with
    | gather gathers =>
      obtain ⟨e, rest, he, hnil, rfl⟩ := List.forall₂_cons_left_iff.mp inside
      rw [List.forall₂_nil_left_iff] at hnil
      subst hnil
      cases gathers with
      | map all loose => cases hfill; exact .map apart all loose he joined
      | list all loose => cases hfill; exact .list apart all loose he joined
      | set all => cases hfill; exact .set apart all he joined
    | object all =>
      cases hfill
      rw [List.forall₂_map_left_iff, forall₂_iff_getElem?] at inside
      exact .object apart all inside.1 inside.2 joined
    | tuple all =>
      cases hfill
      rw [List.forall₂_map_left_iff, forall₂_iff_getElem?, List.length_range] at inside
      refine .tuple apart (inside.1 ▸ all) (fun i p hp => inside.2 i i p ?_ hp) joined
      have : i < us.length := (List.getElem?_eq_some_iff.mp hp).1
      rw [List.getElem?_range (by omega)]

theorem unify?_nil {safety : Safety} : unify? [] safety = none := by simp [unify?_eq]

theorem merge?_of_clash {types : List Ty} {safety : Safety}
    (h : Blueprint.of types safety = .clash) : merge? types safety = none := by
  rw [merge?_eq, h]
  rfl

/-- Types are all the same, unless two of them differ. -/
theorem same_or_apart (ts : List Ty) :
    ts = [] ∨ (∃ u ∈ ts, ∀ t ∈ ts, t = u) ∨ Apart ts := by
  cases ts with
  | nil => exact .inl rfl
  | cons first rest =>
    refine .inr (or_iff_not_imp_right.mpr fun same => ⟨first, by simp, fun t ht => ?_⟩)
    by_contra hne
    exact same ⟨t, ht, first, by simp, hne⟩

theorem unify?_of_blank {ts : List Ty} {safety : Safety} (hne : ts ≠ [])
    (blank : concrete ts = []) : unify? ts safety = some .dynamic := by
  rw [concrete] at blank
  rw [unify?_eq, blank]
  simp [hne]

theorem unify?_of_same {ts : List Ty} {safety : Safety} {u : Ty} (mem : u ∈ concrete ts)
    (all : ∀ t ∈ concrete ts, t = u) : unify? ts safety = some u := by
  cases hconc : concrete ts with
  | nil => exact absurd hconc (List.ne_nil_of_mem mem)
  | cons first rest =>
    rw [hconc] at all
    obtain ⟨rfl, hrest⟩ := List.forall_mem_cons.mp all
    rw [concrete] at hconc
    rw [unify?_eq, hconc]
    exact if_pos (by simpa using hrest)

/-- Types that are not all the same have the common type that their blueprint yields. -/
theorem unify?_of_apart {ts : List Ty} {safety : Safety} (apart : Apart (concrete ts)) :
    unify? ts safety = merge? (concrete ts) safety := by
  cases hconc : concrete ts with
  | nil => exact absurd hconc apart.ne_nil
  | cons first rest =>
    have hfilter : ts.filter (!·.isDynamic) = first :: rest := hconc
    rw [unify?_eq, hfilter]
    refine if_neg fun hall => ?_
    have same : ∀ t ∈ concrete ts, t = first := by
      rw [hconc]
      simpa using hall
    obtain ⟨s, hs, t, ht, hne⟩ := apart
    exact hne ((same s hs).trans (same t ht).symm)

/-- **Inversion.** A common type that is found comes about under one of the rules. -/
theorem common_of_unify? {ts : List Ty} {safety : Safety} {u : Ty}
    (h : unify? ts safety = some u) : Common safety ts u := by
  induction hn : depthAll ts using Nat.strongRecOn generalizing ts u with
  | ind n ih =>
    subst hn
    rcases same_or_apart (concrete ts) with blank | ⟨v, mem, all⟩ | apart
    · have hne : ts ≠ [] := by
        rintro rfl
        rw [unify?_nil] at h
        cases h
      rw [unify?_of_blank hne blank] at h
      cases h
      refine .blank hne fun t ht => ?_
      by_contra hdyn
      exact List.ne_nil_of_mem (mem_concrete.mpr ⟨ht, hdyn⟩) blank
    · rw [unify?_of_same mem all] at h
      cases h
      exact .same mem all
    · rw [unify?_of_apart apart] at h
      refine common_of_merge? apart (fun group hg p hp => ih _ ?_ hp rfl) h
      calc depthAll group < depthAll (concrete ts) := Blueprint.depthAll_lt_of_mem_groups hg
        _ ≤ depthAll ts := depthAll_mono fun t ht => (mem_concrete.mp ht).1

/-- Copies of one type have it in common. -/
theorem unify?_of_forall_eq {ts : List Ty} {safety : Safety} {t : Ty} (hne : ts ≠ [])
    (hall : ∀ s ∈ ts, s = t) : unify? ts safety = some t := by
  by_cases hdyn : t = .dynamic
  · rw [unify?_of_blank hne, hdyn]
    simpa [concrete, List.filter_eq_nil_iff, hdyn] using hall
  · obtain ⟨s, hs⟩ := List.exists_mem_of_ne_nil ts hne
    refine unify?_of_same (mem_concrete.mpr ⟨?_, hdyn⟩) fun s hs => hall s (mem_concrete.mp hs).1
    rwa [hall s hs] at hs

/-! ### What the common type inherits -/

/-- There is no common type of no types. -/
theorem Common.ne_nil {ts : List Ty} {safety : Safety} {u : Ty} (h : Common safety ts u) :
    ts ≠ [] := by
  have hconc : ∀ {ts : List Ty}, Apart (concrete ts) → ts ≠ [] := by
    rintro ts apart rfl
    exact apart.ne_nil rfl
  cases h with
  | blank nonempty => exact nonempty
  | same mem => exact List.ne_nil_of_mem (mem_concrete.mp mem).1
  | choose apart | map apart | list apart | set apart | object apart | tuple apart =>
    exact hconc apart

/-- The types that one name, or one position, brings together are parts of the types. -/
theorem mem_parts_of_mem_attributes {types : List Ty} {name : String} {p : Ty}
    (h : p ∈ types.filterMap (attributeType? name)) : ∃ t ∈ types, p ∈ t.parts := by
  obtain ⟨t, ht, hp⟩ := List.mem_filterMap.mp h
  exact ⟨t, ht, mem_parts_of_attributeType? hp⟩

theorem mem_parts_of_mem_elements {types : List Ty} {i : Nat} {p : Ty}
    (h : p ∈ types.filterMap (elementAt? i)) : ∃ t ∈ types, p ∈ t.parts := by
  obtain ⟨t, ht, hp⟩ := List.mem_filterMap.mp h
  exact ⟨t, ht, mem_parts_of_elementAt? hp⟩

/-- The layout of an object that was built shows the names, all required. -/
theorem layout_record {names : List String} {us : List Ty} (h : names.length = us.length) :
    (record (names.zip us)).layout = names.map fun name => (name, false) := by
  rw [record, layout_object, List.map_map]
  calc (names.zip us).map (fun f => (f.1, false))
      = ((names.zip us).map Prod.fst).map fun name => (name, false) := by
        rw [List.map_map]; rfl
    _ = names.map fun name => (name, false) := by
        rw [List.map_fst_zip (by omega)]

theorem names_record {names : List String} {us : List Ty} (h : names.length = us.length) :
    Named.names ((names.zip us).map fun f => (⟨f.1, false, f.2⟩ : Attribute Ty)) = names := by
  rw [Named.names, List.map_map]
  exact List.map_fst_zip (Nat.le_of_eq h)

/-- An attribute of the object that was built is the common type of the attributes of its name. -/
theorem attributeType?_record {ts : List Ty} {safety : Safety} {names : List String} {us : List Ty}
    {i : Nat} {name : String} {p : Ty} (length : names.length = us.length)
    (each : ∀ (i : Nat) name p, names[i]? = some name → us[i]? = some p →
      unify? (ts.filterMap (attributeType? name)) safety = some p)
    (hname : names[i]? = some name) (hp : us[i]? = some p) :
    attributeType? name (record (names.zip us)) = some p := by
  have hcontains : Named.contains name
      ((names.zip us).map fun f => (⟨f.1, false, f.2⟩ : Attribute Ty)) = true := by
    rw [Named.contains_iff, names_record length]
    exact List.mem_of_getElem? hname
  rw [← Named.isSome_find?] at hcontains
  obtain ⟨a, ha⟩ := Option.isSome_iff_exists.mp hcontains
  rw [record, attributeType?, ha, Option.map_some]
  -- whichever position it is found at, the common type of its name stands there
  obtain ⟨hmem, haname⟩ := Named.mem_of_find? ha
  obtain ⟨f, hf, rfl⟩ := List.mem_map.mp hmem
  obtain ⟨k, hk⟩ := List.getElem?_of_mem hf
  obtain ⟨hkname, hkp⟩ := List.getElem?_zip_eq_some.mp hk
  obtain rfl : f.1 = name := haname
  rw [← each k f.1 f.2 hkname hkp, each i f.1 p hname hp]

variable {q : List (String × Bool) → Prop}

/-- **Layouts.** A stable property that all the types have throughout is one of their common
type. -/
theorem Throughout.common (hq : Stable q) {ts : List Ty} {safety : Safety} {u : Ty}
    (h : Common safety ts u) (hall : ∀ t ∈ ts, t.Throughout q) : u.Throughout q := by
  -- every group consists of parts of the types
  have inside : ∀ {ts : List Ty} {group : List Ty}, (∀ t ∈ ts, t.Throughout q) →
      (∀ p ∈ group, ∃ t ∈ concrete ts, p ∈ t.parts) → ∀ p ∈ group, p.Throughout q := by
    intro ts group hts hgroup p hp
    obtain ⟨t, ht, hpt⟩ := hgroup p hp
    exact (hts t (mem_concrete.mp ht).1).part hpt
  induction h with
  | blank => exact throughout_dynamic.mpr hq.nil
  | same mem => exact hall _ (mem_concrete.mp mem).1
  | choose _ mem => exact hall _ (mem_concrete.mp mem).1
  | map _ _ _ _ _ ih =>
    exact throughout_map.mpr ⟨hq.nil, ih (inside hall fun _ => List.mem_flatMap.mp)⟩
  | list _ _ _ _ _ ih =>
    exact throughout_sequence.mpr ⟨hq.nil, ih (inside hall fun _ => List.mem_flatMap.mp)⟩
  | set _ _ _ _ ih =>
    exact throughout_sequence.mpr ⟨hq.nil, ih (inside hall fun _ => List.mem_flatMap.mp)⟩
  | @object ts names us apart all length _ _ ih =>
    refine throughout_iff.mpr ⟨?_, fun p hp => ?_⟩
    · obtain ⟨t, ht⟩ := List.exists_mem_of_ne_nil _ apart.ne_nil
      obtain ⟨as, has, rfl⟩ := Option.map_eq_some_iff.mp (all t ht)
      have here := hq.clear (hall t (mem_concrete.mp ht).1).here
      rw [layout_record length]
      simpa [layout, fields, has, Named.names, Named.name, Function.comp_def] using here
    · simp only [record, parts, List.map_map, List.mem_map, Function.comp_apply] at hp
      obtain ⟨f, hf, rfl⟩ := hp
      obtain ⟨i, hi⟩ := List.getElem?_of_mem hf
      obtain ⟨hname, hu⟩ := List.getElem?_zip_eq_some.mp hi
      exact ih i f.1 f.2 hname hu (inside hall fun _ => mem_parts_of_mem_attributes)
  | tuple _ _ _ _ ih =>
    refine throughout_tuple.mpr ⟨hq.nil, fun p hp => ?_⟩
    obtain ⟨i, hi⟩ := List.getElem?_of_mem hp
    exact ih i p hi (inside hall fun _ => mem_parts_of_mem_elements)

theorem Plain.common {ts : List Ty} {safety : Safety} {u : Ty} (h : Common safety ts u)
    (hall : ∀ t ∈ ts, t.Plain) : u.Plain :=
  ⟨Throughout.common stable_unmarked h fun t ht => (hall t ht).unmarked,
    Throughout.common stable_lawful h fun t ht => (hall t ht).lawful⟩

/-- **Placeholders.** If some type is no placeholder and none of those has one inside, neither has
the common type. -/
theorem hasDynamic_common {ts : List Ty} {safety : Safety} {u : Ty} (h : Common safety ts u)
    (hne : concrete ts ≠ []) (hall : ∀ t ∈ concrete ts, t.hasDynamic = false) :
    u.hasDynamic = false := by
  -- a group has a common type, so it is not empty, and its members are no placeholders
  have inside : ∀ {ts group : List Ty} {p : Ty}, Common safety group p →
      (∀ t ∈ concrete ts, t.hasDynamic = false) →
      (∀ p ∈ group, ∃ t ∈ concrete ts, p ∈ t.parts) →
      concrete group ≠ [] ∧ ∀ p ∈ concrete group, p.hasDynamic = false := by
    intro ts group p hgroup hts hparts
    have solid : ∀ p ∈ group, p ≠ .dynamic ∧ p.hasDynamic = false := by
      intro p hp
      obtain ⟨t, ht, hpt⟩ := hparts p hp
      have hpart := (hasDynamic_eq_false_iff.mp (hts t ht)).2 p hpt
      exact ⟨(hasDynamic_eq_false_iff.mp hpart).1, hpart⟩
    obtain ⟨p, hp⟩ := List.exists_mem_of_ne_nil _ hgroup.ne_nil
    exact ⟨List.ne_nil_of_mem (mem_concrete.mpr ⟨hp, (solid p hp).1⟩),
      fun p hp => (solid p (mem_concrete.mp hp).1).2⟩
  induction h with
  | @blank ts _ all =>
    obtain ⟨t, ht⟩ := List.exists_mem_of_ne_nil _ hne
    exact absurd (all t (mem_concrete.mp ht).1) (mem_concrete.mp ht).2
  | same mem => exact hall _ mem
  | choose _ mem => exact hall _ mem
  | map _ _ _ within _ ih =>
    obtain ⟨hne', hall'⟩ := inside within hall fun _ => List.mem_flatMap.mp
    simpa [hasDynamic] using ih hne' hall'
  | list _ _ _ within _ ih =>
    obtain ⟨hne', hall'⟩ := inside within hall fun _ => List.mem_flatMap.mp
    simpa [hasDynamic] using ih hne' hall'
  | set _ _ within _ ih =>
    obtain ⟨hne', hall'⟩ := inside within hall fun _ => List.mem_flatMap.mp
    simpa [hasDynamic] using ih hne' hall'
  | object _ _ _ within _ ih =>
    refine hasDynamic_eq_false_iff.mpr ⟨by simp [record], fun p hp => ?_⟩
    simp only [record, parts, List.map_map, List.mem_map, Function.comp_apply] at hp
    obtain ⟨f, hf, rfl⟩ := hp
    obtain ⟨i, hi⟩ := List.getElem?_of_mem hf
    obtain ⟨hname, hu⟩ := List.getElem?_zip_eq_some.mp hi
    obtain ⟨hne', hall'⟩ := inside (within i f.1 f.2 hname hu) hall fun _ =>
      mem_parts_of_mem_attributes
    exact ih i f.1 f.2 hname hu hne' hall'
  | tuple _ _ within _ ih =>
    refine hasDynamic_eq_false_iff.mpr ⟨by simp, fun p hp => ?_⟩
    obtain ⟨i, hi⟩ := List.getElem?_of_mem hp
    obtain ⟨hne', hall'⟩ := inside (within i p hi) hall fun _ => mem_parts_of_mem_elements
    exact ih i p hi hne' hall'

/-- Types without placeholders have a common type without placeholders. -/
theorem Common.solid {ts : List Ty} {safety : Safety} {u : Ty} (h : Common safety ts u)
    (hall : ∀ t ∈ ts, t.hasDynamic = false) : u.hasDynamic = false := by
  obtain ⟨t, ht⟩ := List.exists_mem_of_ne_nil _ h.ne_nil
  have hmem : t ∈ concrete ts :=
    mem_concrete.mpr ⟨ht, (hasDynamic_eq_false_iff.mp (hall t ht)).1⟩
  exact hasDynamic_common h (List.ne_nil_of_mem hmem) fun t ht => hall t (mem_concrete.mp ht).1

/-! ### Types of one kind -/

theorem concrete_eq_self {ts : List Ty} (h : ∀ t ∈ ts, t ≠ .dynamic) : concrete ts = ts := by
  simpa [concrete, ← isDynamic_iff] using h

/-- The common type of copies of one type is that type. -/
theorem Common.eq_of_forall_eq {ts : List Ty} {safety : Safety} {s u : Ty}
    (h : Common safety ts u) (hall : ∀ t ∈ ts, t = s) : u = s := by
  have hsame : ∀ {ts : List Ty}, (∀ t ∈ ts, t = s) → ¬Apart (concrete ts) := by
    rintro ts hall ⟨t, ht, t', ht', hne⟩
    exact hne ((hall t (mem_concrete.mp ht).1).trans (hall t' (mem_concrete.mp ht').1).symm)
  cases h with
  | blank nonempty all =>
    obtain ⟨t, ht⟩ := List.exists_mem_of_ne_nil _ nonempty
    rw [← hall t ht, all t ht]
  | same mem => exact hall _ (mem_concrete.mp mem).1
  | choose apart | map apart | list apart | set apart | object apart | tuple apart =>
    exact absurd apart (hsame hall)

/-- Some type that is no placeholder meets what all of those meet. -/
theorem Apart.exists_mem {ts : List Ty} {Q : Ty → Prop} (apart : Apart (concrete ts))
    (all : ∀ t ∈ concrete ts, Q t) : ∃ t ∈ ts, Q t := by
  obtain ⟨t, ht⟩ := List.exists_mem_of_ne_nil _ apart.ne_nil
  exact ⟨t, (mem_concrete.mp ht).1, all t ht⟩

section Inherit

variable {ts : List Ty} {safety : Safety} {u : Ty}

/-- **Parts.** What is closed under common types and holds of the parts of all the types holds of
the parts of their common type. -/
theorem Common.forall_parts {Q : Ty → Prop} (h : Common safety ts u)
    (hQ : ∀ {group : List Ty} {v : Ty}, Common safety group v → (∀ p ∈ group, Q p) → Q v)
    (hall : ∀ t ∈ concrete ts, ∀ p ∈ t.parts, Q p) : ∀ p ∈ u.parts, Q p := by
  -- every rule brings together groups of parts, and the common type has one part for each group
  have inside : ∀ {group : List Ty} {v : Ty}, Common safety group v →
      (∀ p ∈ group, ∃ t ∈ concrete ts, p ∈ t.parts) → Q v := by
    intro group v hv hgroup
    refine hQ hv fun p hp => ?_
    obtain ⟨t, ht, hpt⟩ := hgroup p hp
    exact hall t ht p hpt
  intro p hp
  cases h with
  | blank => cases hp
  | same mem | choose _ mem => exact hall u mem p hp
  | map _ _ _ within | list _ _ _ within | set _ _ within =>
    rw [List.mem_singleton.mp hp]
    exact inside within fun _ => List.mem_flatMap.mp
  | object _ _ _ within =>
    simp only [record, parts, List.map_map, List.mem_map, Function.comp_apply] at hp
    obtain ⟨f, hf, rfl⟩ := hp
    obtain ⟨i, hi⟩ := List.getElem?_of_mem hf
    obtain ⟨hname, hu⟩ := List.getElem?_zip_eq_some.mp hi
    exact inside (within i f.1 f.2 hname hu) fun _ => mem_parts_of_mem_attributes
  | tuple _ _ within =>
    obtain ⟨i, hi⟩ := List.getElem?_of_mem hp
    exact inside (within i p hi) fun _ => mem_parts_of_mem_elements

/-- Maps and objects have a map or an object for their common type. -/
theorem Common.mapping (h : Common safety ts u)
    (hall : ∀ t ∈ concrete ts, t.isMap = true ∨ t.isObject = true) :
    u = .dynamic ∨ u.isMap = true ∨ u.isObject = true := by
  cases h with
  | blank => exact .inl rfl
  | same mem | choose _ mem => exact .inr (hall u mem)
  | map => exact .inr (.inl rfl)
  | object => exact .inr (.inr rfl)
  | list apart all | set apart all | tuple apart all =>
    obtain ⟨t, ht⟩ := List.exists_mem_of_ne_nil _ apart.ne_nil
    have kind := hall t ht
    have other := all t ht
    cases t with
    | map | object => simp [isList, isTuple, isSet, elements?] at other
    | _ => simp [isMap, isObject] at kind

/-- Lists, sets and tuples have a list, a set or a tuple for their common type. -/
theorem Common.sequential (h : Common safety ts u)
    (hall : ∀ t ∈ concrete ts, t.isList = true ∨ t.isSet = true ∨ t.isTuple = true) :
    u = .dynamic ∨ u.isList = true ∨ u.isSet = true ∨ u.isTuple = true := by
  cases h with
  | blank => exact .inl rfl
  | same mem | choose _ mem => exact .inr (hall u mem)
  | list => exact .inr (.inl rfl)
  | set => exact .inr (.inr (.inl rfl))
  | tuple => exact .inr (.inr (.inr rfl))
  | map apart all | object apart all =>
    obtain ⟨t, ht⟩ := List.exists_mem_of_ne_nil _ apart.ne_nil
    have kind := hall t ht
    have other := all t ht
    cases t with
    | sequence | tuple => simp [isMap, isObject, attributes?] at other
    | _ => simp [isList, isTuple, isSet] at kind

/-- Placeholders have no say in a common type. -/
theorem Common.of_concrete (h : Common safety ts u) (hu : u ≠ .dynamic) :
    Common safety (concrete ts) u := by
  have hconc : concrete (concrete ts) = concrete ts :=
    concrete_eq_self fun t ht => (mem_concrete.mp ht).2
  cases h with
  | blank => exact absurd rfl hu
  | same mem all => exact .same (hconc.symm ▸ mem) (hconc.symm ▸ all)
  | choose apart mem mixed joined =>
    rw [← hconc] at apart mem mixed joined
    exact .choose apart mem mixed joined
  | map apart all loose inside joined =>
    rw [← hconc] at apart all loose inside joined
    exact .map apart all loose inside joined
  | list apart all loose inside joined =>
    rw [← hconc] at apart all loose inside joined
    exact .list apart all loose inside joined
  | set apart all inside joined =>
    rw [← hconc] at apart all inside joined
    exact .set apart all inside joined
  | object apart all length inside joined =>
    rw [← hconc] at apart all inside joined
    exact .object apart all length inside joined
  | tuple apart all inside joined =>
    rw [← hconc] at apart all inside joined
    exact .tuple apart all inside joined

end Inherit

section OneKind

variable {ts : List Ty} {safety : Safety} {u : Ty}

/-- Maps are all the same or become a map. -/
theorem Common.of_maps (h : Common safety ts u) (hts : ∀ t ∈ ts, ∃ e, t = .map e) :
    (∀ t ∈ ts, t = u) ∨ ∃ e, u = .map e ∧ Common safety (ts.flatMap parts) e := by
  have hconc : concrete ts = ts := concrete_eq_self fun t ht => by
    obtain ⟨e, rfl⟩ := hts t ht
    simp
  -- the other rules need a type that is no map
  have other : ∀ {Q : Ty → Prop}, (∃ t ∈ ts, Q t) → ∃ e, Q (.map e) := by
    rintro Q ⟨t, ht, hQ⟩
    obtain ⟨e, rfl⟩ := hts t ht
    exact ⟨e, hQ⟩
  cases h with
  | blank nonempty all =>
    obtain ⟨t, ht⟩ := List.exists_mem_of_ne_nil _ nonempty
    obtain ⟨e, rfl⟩ := hts t ht
    cases all _ ht
  | same _ all =>
    rw [hconc] at all
    exact .inl all
  | choose _ _ mixed =>
    rw [hconc] at mixed
    obtain ⟨e, he⟩ := other (mixed isMap (by simp))
    cases he
  | map _ _ _ inside _ => exact .inr ⟨_, rfl, hconc ▸ inside⟩
  | list apart all | set apart all | object apart all | tuple apart all =>
    obtain ⟨e, he⟩ := other (apart.exists_mem all)
    simp [isList, isTuple, isSet, attributes?, elements?] at he

/-- Lists, and likewise sets, are all the same or become a list or a set. -/
theorem Common.of_sequences {k : SequenceKind} (h : Common safety ts u)
    (hts : ∀ t ∈ ts, ∃ e, t = .sequence k e) :
    (∀ t ∈ ts, t = u) ∨ ∃ e, u = .sequence k e ∧ Common safety (ts.flatMap parts) e := by
  have hconc : concrete ts = ts := concrete_eq_self fun t ht => by
    obtain ⟨e, rfl⟩ := hts t ht
    simp
  -- the other rules need a type that is no list or set of this kind
  have other : ∀ {Q : Ty → Prop}, (∃ t ∈ ts, Q t) → ∃ e, Q (.sequence k e) := by
    rintro Q ⟨t, ht, hQ⟩
    obtain ⟨e, rfl⟩ := hts t ht
    exact ⟨e, hQ⟩
  cases h with
  | blank nonempty all =>
    obtain ⟨t, ht⟩ := List.exists_mem_of_ne_nil _ nonempty
    obtain ⟨e, rfl⟩ := hts t ht
    cases all _ ht
  | same _ all =>
    rw [hconc] at all
    exact .inl all
  | choose _ _ mixed =>
    rw [hconc] at mixed
    cases k with
    | list =>
      obtain ⟨e, he⟩ := other (mixed isList (by simp))
      cases he
    | set =>
      obtain ⟨e, he⟩ := other (mixed isSet (by simp))
      cases he
  | map apart all | object apart all | tuple apart all =>
    obtain ⟨e, he⟩ := other (apart.exists_mem all)
    simp [isMap, isObject, attributes?, elements?] at he
  | list apart all _ inside _ =>
    obtain ⟨e, he⟩ := other (apart.exists_mem all)
    cases k with
    | list => exact .inr ⟨_, rfl, hconc ▸ inside⟩
    | set => simp [isList, isTuple] at he
  | set apart all inside _ =>
    obtain ⟨e, he⟩ := other (apart.exists_mem all)
    cases k with
    | list => cases he
    | set => exact .inr ⟨_, rfl, hconc ▸ inside⟩

/-- Tuples of one length are all the same or become a tuple. -/
theorem Common.of_tuples {n : Nat} (h : Common safety ts u)
    (hts : ∀ t ∈ ts, ∃ ss, t = .tuple ss ∧ ss.length = n) :
    (∀ t ∈ ts, t = u) ∨ ∃ us, u = .tuple us ∧ us.length = n ∧
      ∀ (i : Nat) p, us[i]? = some p → Common safety (ts.filterMap (elementAt? i)) p := by
  have hconc : concrete ts = ts := concrete_eq_self fun t ht => by
    obtain ⟨e, rfl, _⟩ := hts t ht
    simp
  -- the other rules need a type that is no tuple of this length
  have other : ∀ {Q : Ty → Prop}, (∃ t ∈ ts, Q t) → ∃ ss, Q (.tuple ss) ∧ ss.length = n := by
    rintro Q ⟨t, ht, hQ⟩
    obtain ⟨ss, rfl, hss⟩ := hts t ht
    exact ⟨ss, hQ, hss⟩
  cases h with
  | blank nonempty all =>
    obtain ⟨t, ht⟩ := List.exists_mem_of_ne_nil _ nonempty
    obtain ⟨ss, rfl, _⟩ := hts t ht
    cases all _ ht
  | same _ all =>
    rw [hconc] at all
    exact .inl all
  | choose _ _ mixed =>
    rw [hconc] at mixed
    obtain ⟨ss, he, _⟩ := other (mixed isTuple (by simp))
    cases he
  | map apart all | set apart all | object apart all =>
    obtain ⟨ss, he, _⟩ := other (apart.exists_mem all)
    simp [isMap, isObject, isSet, attributes?] at he
  | list _ _ loose =>
    rw [hconc] at loose
    rcases loose with some | loose
    · obtain ⟨ss, he, _⟩ := other some
      cases he
    · obtain ⟨ss, he, hlen⟩ := other (loose n)
      simp [elements?, hlen] at he
  | tuple apart all inside _ =>
    obtain ⟨ss, he, hlen⟩ := other (apart.exists_mem all)
    refine .inr ⟨_, rfl, ?_, hconc ▸ inside⟩
    simpa [elements?, hlen, eq_comm] using he

/-- Objects of the same names are all the same or become an object. -/
theorem Common.of_objects {names : List String} (h : Common safety ts u)
    (hts : ∀ t ∈ ts, ∃ as, t = .object as ∧ Named.names as = names) :
    (∀ t ∈ ts, t = u) ∨ ∃ us, u = record (names.zip us) ∧ names.length = us.length ∧
      ∀ (i : Nat) name p, names[i]? = some name → us[i]? = some p →
        Common safety (ts.filterMap (attributeType? name)) p := by
  have hconc : concrete ts = ts := concrete_eq_self fun t ht => by
    obtain ⟨as, rfl, _⟩ := hts t ht
    simp
  -- the other rules need a type that is no object of these names
  have other : ∀ {Q : Ty → Prop}, (∃ t ∈ ts, Q t) →
      ∃ as, Q (.object as) ∧ Named.names as = names := by
    rintro Q ⟨t, ht, hQ⟩
    obtain ⟨as, rfl, has⟩ := hts t ht
    exact ⟨as, hQ, has⟩
  cases h with
  | blank nonempty all =>
    obtain ⟨t, ht⟩ := List.exists_mem_of_ne_nil _ nonempty
    obtain ⟨as, rfl, _⟩ := hts t ht
    cases all _ ht
  | same _ all =>
    rw [hconc] at all
    exact .inl all
  | choose _ _ mixed =>
    rw [hconc] at mixed
    obtain ⟨as, he, _⟩ := other (mixed isObject (by simp))
    cases he
  | map _ _ loose =>
    rw [hconc] at loose
    rcases loose with some | loose
    · obtain ⟨as, he, _⟩ := other some
      cases he
    · obtain ⟨as, he, hnames⟩ := other (loose names)
      simp [attributes?, hnames] at he
  | list apart all | set apart all | tuple apart all =>
    obtain ⟨as, he, _⟩ := other (apart.exists_mem all)
    simp [isList, isTuple, isSet, elements?] at he
  | @object _ names' _ apart all length inside _ =>
    obtain ⟨as, he, hnames⟩ := other (apart.exists_mem all)
    obtain rfl : names = names' := by simpa [attributes?, hnames] using he
    exact .inr ⟨_, rfl, length, hconc ▸ inside⟩

end OneKind

end Ty

end Retype
