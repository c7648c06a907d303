import Mathlib.Data.List.Perm.Basic
import Retype.Proofs.Preference
import Retype.Proofs.Ty.Agrees

/-!
# Types in another order

Whether types have a common type does not depend on the order in which they are given, and two
safe common types of the same types differ at most where one of them has a placeholder or an
optional mark (`agrees_of_perm`). Which of several such types is taken does depend on the order:
where types of different kinds meet, one of them is chosen, and ties among equally general types
go to the earliest.

* `rel_merge?_of_build` is the step: types that are built in two orders are related if the common
  types of their groups are, for any relation that the constructors respect (`Congruence`);
  `rel_unify?_of_perm` is the induction over the search.
* The order does not matter if at every choice one type leads the others (`Decided`). It is this
  condition that fails where the order matters: always if the types themselves leave a choice,
  and, with choices further inside, always if lists do not occur together with tuples, nor maps
  with objects (`decided_of_unmixed`). Otherwise the members of a tuple, which keep their order,
  may hide a tie.
-/

namespace Retype

namespace Ty

variable {ts ts' types types' : List Ty} {safety : Safety} {R : Ty → Ty → Prop}

/-! ### What is the same in every order -/

theorem concrete_perm (h : ts.Perm ts') : (concrete ts).Perm (concrete ts') := h.filter _

theorem Apart.perm (apart : Apart ts) (h : ts.Perm ts') : Apart ts' := by
  obtain ⟨s, hs, t, ht, hne⟩ := apart
  exact ⟨s, h.mem_iff.mp hs, t, h.mem_iff.mp ht, hne⟩

/-- Types that are all the same, placeholders aside, have one common type in every order. -/
theorem exists_unify?_of_not_apart (hne : ts ≠ []) (same : ¬Apart (concrete ts)) :
    ∃ u, ∀ ts', ts.Perm ts' → ∀ safety, unify? ts' safety = some u := by
  rcases same_or_apart (concrete ts) with blank | ⟨u, mem, all⟩ | apart
  · refine ⟨.dynamic, fun ts' h safety => unify?_of_blank ?_ ?_⟩
    · exact fun hnil => hne (hnil ▸ h).eq_nil
    · exact (blank ▸ concrete_perm h).symm.eq_nil
  · exact ⟨u, fun ts' h safety => unify?_of_same ((concrete_perm h).mem_iff.mp mem)
      fun t ht => all t ((concrete_perm h).mem_iff.mpr ht)⟩
  · exact absurd apart same

/-! ### The step -/

section Groups

variable {frame : Frame} {groups : List (List Ty)} {group : List Ty}

/-- The groups that a blueprint brings together hold parts of the types. -/
theorem exists_mem_of_group (h : Blueprint.of types safety = .build frame groups)
    (hg : group ∈ groups) : ∀ p ∈ group, ∃ t ∈ types, p ∈ t.parts := by
  have hmem : group ∈ (Blueprint.of types safety).groups := by rwa [h]
  exact fun p hp => Blueprint.mem_groups hmem hp

theorem lawful_of_group (h : Blueprint.of types safety = .build frame groups)
    (hg : group ∈ groups) (lawful : ∀ t ∈ types, t.Lawful) : ∀ p ∈ group, p.Lawful := by
  intro p hp
  obtain ⟨t, ht, hpt⟩ := exists_mem_of_group h hg p hp
  exact (lawful t ht).part hpt

theorem depthAll_lt_of_group (h : Blueprint.of (concrete ts) safety = .build frame groups)
    (hg : group ∈ groups) : depthAll group < depthAll ts := by
  have hmem : group ∈ (Blueprint.of (concrete ts) safety).groups := by rwa [h]
  calc depthAll group < depthAll (concrete ts) := Blueprint.depthAll_lt_of_mem_groups hmem
    _ ≤ depthAll ts := depthAll_mono fun t ht => (mem_concrete.mp ht).1

end Groups

/-- The constructors respect the relation. -/
structure Congruence (R : Ty → Ty → Prop) : Prop where
  refl : ∀ t, R t t
  sequence : ∀ {k : SequenceKind} {s t : Ty}, R s t → R (.sequence k s) (.sequence k t)
  map : ∀ {s t : Ty}, R s t → R (.map s) (.map t)
  tuple : ∀ {ss ts : List Ty}, List.Forall₂ R ss ts → R (.tuple ss) (.tuple ts)
  record : ∀ {names : List String} {ss ts : List Ty}, List.Forall₂ R ss ts →
    R (record (names.zip ss)) (record (names.zip ts))

/-- Frames filled with related parts are related. -/
theorem Congruence.fill? (hR : Congruence R) {us us' : List Ty} (frame : Frame)
    (h : List.Forall₂ R us us') : Option.Rel R (frame.fill? us) (frame.fill? us') := by
  cases frame with
  | tuple => exact .some (hR.tuple h)
  | object names => exact .some (hR.record h)
  | sequence k =>
    cases h with
    | nil => exact .none
    | cons head tail =>
      cases tail with
      | nil => exact .some (hR.sequence head)
      | cons => exact .none
  | map =>
    cases h with
    | nil => exact .none
    | cons head tail =>
      cases tail with
      | nil => exact .some (hR.map head)
      | cons => exact .none

/-- **Step.** Types that are built in two orders are related if the common types of their groups
are. -/
theorem rel_merge?_of_build (hR : Congruence R) {frame : Frame} {groups : List (List Ty)}
    (perm : types.Perm types') (lawful : ∀ t ∈ types, t.Lawful)
    (h : Blueprint.of types safety = .build frame groups)
    (each : ∀ group ∈ groups, ∀ group', group.Perm group' →
      Option.Rel R (unify? group safety) (unify? group' safety)) :
    Option.Rel R (merge? types safety) (merge? types' safety) := by
  have rearranges : (Blueprint.of types safety).Rearranges (Blueprint.of types' safety) :=
    Blueprint.rearranges_of_perm perm
  rw [h] at rearranges
  generalize h' : Blueprint.of types' safety = b at rearranges
  cases rearranges with
  | @build _ _ groups' perms =>
    rw [merge?_of_build h lawful, merge?_of_build h' fun t ht => lawful t (perm.mem_iff.mpr ht)]
    have parts := rel_mapM (forall₂_of_mem perms fun group hg group' _ => each group hg group')
    generalize groups.mapM (unify? · safety) = x, groups'.mapM (unify? · safety) = x'
      at parts ⊢
    cases parts with
    | none => exact .none
    | some us => exact hR.fill? frame us

/-- **Run.** The common types of types in two orders are related if those that are chosen are. -/
theorem rel_unify?_of_perm (hR : Congruence R)
    (choose : ∀ {types types' : List Ty}, types.Perm types' → (∀ t ∈ types, t.Lawful) →
      Blueprint.of types safety = .choose →
      Option.Rel R (merge? types safety) (merge? types' safety))
    (perm : ts.Perm ts') (lawful : ∀ t ∈ ts, t.Lawful) :
    Option.Rel R (unify? ts safety) (unify? ts' safety) := by
  induction hn : depthAll ts using Nat.strongRecOn generalizing ts ts' with
  | ind n ih =>
    subst hn
    by_cases apart : Apart (concrete ts)
    · have perm' := concrete_perm perm
      have lawful' : ∀ t ∈ concrete ts, t.Lawful := fun t ht => lawful t (mem_concrete.mp ht).1
      rw [unify?_of_apart apart, unify?_of_apart (apart.perm perm')]
      cases hof : Blueprint.of (concrete ts) safety with
      | choose => exact choose perm' lawful' hof
      | clash =>
        have rearranges : (Blueprint.of (concrete ts) safety).Rearranges
            (Blueprint.of (concrete ts') safety) := Blueprint.rearranges_of_perm perm'
        rw [hof] at rearranges
        generalize hof' : Blueprint.of (concrete ts') safety = b at rearranges
        cases rearranges
        rw [merge?_of_clash hof, merge?_of_clash hof']
        exact .none
      | build frame groups =>
        exact rel_merge?_of_build hR perm' lawful' hof fun group hg group' hperm =>
          ih _ (depthAll_lt_of_group hof hg) hperm (lawful_of_group hof hg lawful') rfl
    · by_cases hne : ts = []
      · subst hne
        rw [← perm.nil_eq, unify?_nil]
        exact .none
      · obtain ⟨u, hu⟩ := exists_unify?_of_not_apart hne apart
        rw [hu ts (.refl ts), hu ts' perm]
        exact .some (hR.refl u)

/-! ### What is chosen -/

/-- Whether all the types may become the given one. -/
def joinedBy (safety : Safety) (types : List Ty) (u : Ty) : Bool := types.all (joins safety u)

theorem joinedBy_iff {u : Ty} :
    joinedBy safety types u = true ↔ ∀ t ∈ types, joins safety u t = true := List.all_eq_true

theorem joinedBy_perm (h : types.Perm types') :
    joinedBy safety types = joinedBy safety types' := by
  funext u
  rw [Bool.eq_iff_iff, joinedBy_iff, joinedBy_iff]
  exact forall_congr' fun t => by rw [h.mem_iff]

/-- Of types of different kinds, the first in the order of preference that all may become is
chosen. -/
theorem merge?_of_choose (h : Blueprint.of types safety = .choose) :
    merge? types safety = (Preference.sorted types).find? (joinedBy safety types) := by
  rw [merge?_eq, h]
  rfl

theorem mem_of_merge? {u : Ty} (h : Blueprint.of types safety = .choose)
    (hu : merge? types safety = some u) : u ∈ types ∧ joinedBy safety types u = true := by
  rw [merge?_of_choose h] at hu
  exact ⟨Preference.mem_sorted.mp (List.mem_of_find?_eq_some hu), List.find?_some hu⟩

theorem of_eq_choose_of_perm (perm : types.Perm types') (h : Blueprint.of types safety = .choose) :
    Blueprint.of types' safety = .choose := by
  have rearranges : (Blueprint.of types safety).Rearranges (Blueprint.of types' safety) :=
    Blueprint.rearranges_of_perm perm
  rw [h] at rearranges
  generalize Blueprint.of types' safety = b at rearranges
  cases rearranges
  rfl

/-- A type is chosen in one order exactly when one is chosen in the other. -/
theorem isSome_merge?_of_choose (perm : types.Perm types')
    (h : Blueprint.of types safety = .choose) :
    (merge? types safety).isSome = (merge? types' safety).isSome := by
  rw [Bool.eq_iff_iff, merge?_of_choose h, merge?_of_choose (of_eq_choose_of_perm perm h),
    List.find?_isSome, List.find?_isSome, joinedBy_perm perm]
  exact exists_congr fun u => by
    rw [Preference.mem_sorted, Preference.mem_sorted, perm.mem_iff]

theorem congruence_true : Congruence fun _ _ => True :=
  ⟨fun _ => trivial, fun _ => trivial, fun _ => trivial, fun _ => trivial, fun _ => trivial⟩

/-- **Existence.** Whether types have a common type does not depend on their order. -/
theorem isSome_unify?_of_perm (perm : ts.Perm ts') (lawful : ∀ t ∈ ts, t.Lawful) :
    (unify? ts safety).isSome = (unify? ts' safety).isSome := by
  have rel : Option.Rel (fun _ _ => True) (unify? ts safety) (unify? ts' safety) :=
    rel_unify?_of_perm congruence_true
      (fun perm _ h => rel_iff.mpr ⟨isSome_merge?_of_choose perm h, fun _ _ _ _ => trivial⟩)
      perm lawful
  exact (rel_iff.mp rel).1

/-! ### Agreement -/

theorem congruence_agrees : Congruence Agrees where
  refl := agrees_refl
  sequence := .sequence
  map := .map
  tuple h := .tuple h.length_eq fun i s t hs ht => (forall₂_iff_getElem?.mp h).2 i s t hs ht
  record {names ss ts} h := by
    refine .object ?_ fun i a b ha hb => ?_
    · rw [Named.names, Named.names, List.map_map, List.map_map]
      refine map_eq_map_of_getElem? (by simp [h.length_eq]) fun i f g hf hg => ?_
      exact Option.some.inj ((List.getElem?_zip_eq_some.mp hf).1.symm.trans
        (List.getElem?_zip_eq_some.mp hg).1)
    · obtain ⟨f, hf, rfl⟩ := Option.map_eq_some_iff.mp ((List.getElem?_map ..).symm.trans ha)
      obtain ⟨g, hg, rfl⟩ := Option.map_eq_some_iff.mp ((List.getElem?_map ..).symm.trans hb)
      exact (forall₂_iff_getElem?.mp h).2 i f.2 g.2 (List.getElem?_zip_eq_some.mp hf).2
        (List.getElem?_zip_eq_some.mp hg).2

/-- **Agreement.** The safe common types of types in two orders agree. -/
theorem agrees_of_perm (perm : ts.Perm ts') (lawful : ∀ t ∈ ts, t.Lawful) {u u' : Ty}
    (hu : unify? ts .safe = some u) (hu' : unify? ts' .safe = some u') : u.Agrees u' := by
  have rel : Option.Rel Agrees (unify? ts .safe) (unify? ts' .safe) := by
    refine rel_unify?_of_perm congruence_agrees (fun perm lawful h => ?_) perm lawful
    refine rel_iff.mpr ⟨isSome_merge?_of_choose perm h, fun u u' hu hu' => ?_⟩
    -- both are among the types, so each becomes the other
    obtain ⟨hmem, hjoined⟩ := mem_of_merge? h hu
    obtain ⟨hmem', hjoined'⟩ := mem_of_merge? (of_eq_choose_of_perm perm h) hu'
    rw [← joinedBy_perm perm] at hjoined'
    rw [← perm.mem_iff] at hmem'
    exact agrees_of_reaches (lawful u hmem) (lawful u' hmem')
      ((lawful u hmem).reaches_of_joins (joinedBy_iff.mp hjoined' u hmem))
      ((lawful u' hmem').reaches_of_joins (joinedBy_iff.mp hjoined u' hmem'))
  exact (rel_iff.mp rel).2 u u' hu hu'

/-! ### Where one type leads -/

/-- Wherever one of several types is chosen on the way to a safe common type, one of them
leads. -/
inductive Decided : List Ty → Prop
  | fails {ts : List Ty} (none : unify? ts .safe = none) : Decided ts
  | same {ts : List Ty} (same : ¬Apart (concrete ts)) : Decided ts
  | choose {ts : List Ty} {u : Ty} (apart : Apart (concrete ts))
      (kinds : Blueprint.of (concrete ts) .safe = .choose) (mem : u ∈ concrete ts)
      (joined : joinedBy .safe (concrete ts) u = true)
      (leads : Preference.Leads (concrete ts) (joinedBy .safe (concrete ts)) u) : Decided ts
  | build {ts : List Ty} {frame : Frame} {groups : List (List Ty)} (apart : Apart (concrete ts))
      (kinds : Blueprint.of (concrete ts) .safe = .build frame groups)
      (each : ∀ group ∈ groups, Decided group) : Decided ts

/-- A type that leads is chosen. -/
theorem merge?_of_leads {u : Ty} (h : Blueprint.of types safety = .choose) (mem : u ∈ types)
    (joined : joinedBy safety types u = true)
    (leads : Preference.Leads types (joinedBy safety types) u) : merge? types safety = some u := by
  rw [merge?_of_choose h]
  exact Preference.find?_sorted_of_leads mem joined leads

theorem congruence_eq : Congruence Eq where
  refl _ := rfl
  sequence h := by rw [h]
  map h := by rw [h]
  tuple h := by
    rw [List.forall₂_eq_eq_eq] at h
    rw [h]
  record h := by
    rw [List.forall₂_eq_eq_eq] at h
    rw [h]

/-- **Leaders.** Where one type leads at every choice, the order does not matter. -/
theorem Decided.unify?_eq (h : Decided ts) (perm : ts.Perm ts') (lawful : ∀ t ∈ ts, t.Lawful) :
    unify? ts .safe = unify? ts' .safe := by
  induction h generalizing ts' with
  | fails none =>
    have hsome : (unify? _ .safe).isSome = (unify? ts' .safe).isSome :=
      isSome_unify?_of_perm perm lawful
    rw [none] at hsome ⊢
    exact (Option.isNone_iff_eq_none.mp (Option.isSome_eq_false_iff.mp hsome.symm)).symm
  | @same ts same =>
    by_cases hne : ts = []
    · subst hne
      rw [perm.nil_eq]
    · obtain ⟨u, hu⟩ := exists_unify?_of_not_apart hne same
      rw [hu ts (.refl ts), hu ts' perm]
  | choose apart kinds mem joined leads =>
    have perm' := concrete_perm perm
    rw [unify?_of_apart apart, unify?_of_apart (apart.perm perm'),
      merge?_of_leads kinds mem joined leads]
    rw [joinedBy_perm perm'] at joined leads
    exact (merge?_of_leads (of_eq_choose_of_perm perm' kinds) (perm'.mem_iff.mp mem) joined
      (leads.perm perm')).symm
  | @build ts frame groups apart kinds each ih =>
    have perm' := concrete_perm perm
    have lawful' : ∀ t ∈ concrete ts, t.Lawful := fun t ht => lawful t (mem_concrete.mp ht).1
    rw [unify?_of_apart apart, unify?_of_apart (apart.perm perm')]
    exact rel_eq_iff.mp (rel_merge?_of_build congruence_eq perm' lawful' kinds
      fun group hg group' hperm =>
        rel_eq_iff.mpr (ih group hg hperm (lawful_of_group kinds hg lawful')))

/-! ### Where none leads -/

/-- Every order of the types that are no placeholders comes from an order of all of them. -/
theorem exists_perm_concrete (h : types.Perm (concrete ts)) :
    ∃ ts', ts'.Perm ts ∧ concrete ts' = types := by
  refine ⟨types ++ ts.filter isDynamic, ?_, ?_⟩
  · exact ((h.append_right _).trans List.perm_append_comm).trans (List.filter_append_perm _ _)
  · have hsolid : types.filter (!·.isDynamic) = types := List.filter_eq_self.mpr fun t ht => by
      simpa [← isDynamic_iff] using (mem_concrete.mp (h.mem_iff.mp ht)).2
    simp [concrete, List.filter_append, hsolid]

/-- Every order of what a reader finds in the types comes from an order of the types. -/
theorem exists_perm_filterMap {reader : Ty → Option Ty} {group : List Ty}
    (total : ∀ t ∈ types, ∃ p, reader t = some p) (h : group.Perm (types.filterMap reader)) :
    ∃ types' : List Ty, types'.Perm types ∧ types'.filterMap reader = group := by
  have beside : List.Forall₂ (fun p t => reader t = some p) (types.filterMap reader) types := by
    clear h
    induction types with
    | nil => exact .nil
    | cons t types ih =>
      obtain ⟨⟨p, hp⟩, rest⟩ := List.forall_mem_cons.mp total
      rw [List.filterMap_cons_some hp]
      exact .cons hp (ih rest)
  obtain ⟨types', beside', perm⟩ := List.perm_comp_forall₂ h beside
  refine ⟨types', perm, ?_⟩
  clear perm h
  induction beside' with
  | nil => rfl
  | cons hp _ ih => rw [List.filterMap_cons_some hp, ih]

/-- Parts can be read off a frame that they fill. -/
theorem fill?_injective {frame : Frame} {us us' : List Ty} {u : Ty}
    (names : ∀ {names}, frame = .object names → names.length = us.length)
    (length : us.length = us'.length) (h : frame.fill? us = some u)
    (h' : frame.fill? us' = some u) : us = us' := by
  cases frame with
  | tuple =>
    cases h
    cases h'
    rfl
  | object ns =>
    cases h
    have hrecord : (ns.zip us').map (fun f => (⟨f.1, false, f.2⟩ : Attribute Ty)) =
        (ns.zip us).map fun f => ⟨f.1, false, f.2⟩ := by
      simpa [Frame.fill?, record] using h'
    have hlength : ns.length = us.length := names rfl
    have hparts := congrArg (List.map Attribute.type) hrecord
    rw [List.map_map, List.map_map] at hparts
    exact (List.map_snd_zip (by omega)).symm.trans
      (hparts.symm.trans (List.map_snd_zip (by omega)))
  | sequence k | map =>
    -- only a single part fills a collection
    rcases us with _ | ⟨e, _ | _⟩ <;> cases h
    rcases us' with _ | ⟨e', _ | _⟩ <;> cases h'
    rfl

/-- Types of one kind for which no order makes a difference have, for each reader, parts for which
none does. -/
theorem unify?_eq_of_uniform {frame : Frame} {readers : List (Ty → Option Ty)} {u : Ty}
    (uniform : Blueprint.Uniform types frame readers) (hne : types ≠ [])
    (lawful : ∀ t ∈ types, t.Lawful)
    (free : ∀ types' : List Ty, types'.Perm types → merge? types' safety = some u)
    {reader : Ty → Option Ty} (hreader : reader ∈ readers) {group : List Ty}
    (h : group.Perm (types.filterMap reader)) :
    unify? group safety = unify? (types.filterMap reader) safety := by
  have parts : ∀ {types' : List Ty}, types'.Perm types → ∃ us,
      List.Forall₂ (fun reader u => unify? (types'.filterMap reader) safety = some u) readers us ∧
        frame.fill? us = some u := by
    intro types' perm
    have uniform' := uniform.mono fun t ht => perm.mem_iff.mp ht
    have hne' : types' ≠ [] := fun hnil => hne (hnil ▸ perm).symm.eq_nil
    have hmerge := free types' perm
    rw [merge?_of_build (uniform'.of_eq hne') fun t ht => lawful t (perm.mem_iff.mp ht)] at hmerge
    obtain ⟨us, hus, hfill⟩ := Option.bind_eq_some_iff.mp hmerge
    exact ⟨us, List.forall₂_map_left_iff.mp (mapM_eq_some_iff.mp hus), hfill⟩
  have total : ∀ t ∈ types, ∃ p, reader t = some p := fun t ht =>
    (uniform.exists_part hreader ht).imp fun _ hp => hp.2
  obtain ⟨types', perm, rfl⟩ := exists_perm_filterMap total h
  obtain ⟨us, hus, hfill⟩ := parts (.refl types)
  obtain ⟨us', hus', hfill'⟩ := parts perm
  -- one result has one list of parts
  obtain rfl : us = us' := fill?_injective
    (fun hframe => (uniform.length_names hframe).trans hus.length_eq)
    (hus.length_eq.symm.trans hus'.length_eq) hfill hfill'
  obtain ⟨i, hi⟩ := List.getElem?_of_mem hreader
  obtain ⟨v, hv⟩ := exists_getElem?_of_length hus.length_eq.symm hi
  exact ((forall₂_iff_getElem?.mp hus').2 i reader v hi hv).trans
    ((forall₂_iff_getElem?.mp hus).2 i reader v hi hv).symm

/-- If no order makes a difference and the types leave a choice, one of them leads. -/
theorem decided_of_choose (kinds : Blueprint.of (concrete ts) .safe = .choose)
    (free : ∀ ts', ts'.Perm ts → unify? ts' .safe = unify? ts .safe) : Decided ts := by
  by_cases apart : Apart (concrete ts)
  · cases hu : unify? ts .safe with
    | none => exact .fails hu
    | some u =>
      have hmerge := hu
      rw [unify?_of_apart apart] at hmerge
      obtain ⟨mem, joined⟩ := mem_of_merge? kinds hmerge
      refine .choose apart kinds mem joined
        (Preference.leads_of_find?_sorted mem joined fun types' hperm => ?_)
      obtain ⟨ts', hts', rfl⟩ := exists_perm_concrete hperm
      have apart' : Apart (concrete ts') := apart.perm hperm.symm
      rw [← joinedBy_perm hperm, ← merge?_of_choose (of_eq_choose_of_perm hperm.symm kinds),
        ← unify?_of_apart apart', free ts' hts', hu]
  · exact .same apart

/-- **No leader.** If no order makes a difference, one type leads at every choice, provided that
lists do not occur together with tuples, nor maps with objects. -/
theorem decided_of_unmixed (unmixed : Unmixed ts) (lawful : ∀ t ∈ ts, t.Lawful)
    (free : ∀ ts', ts'.Perm ts → unify? ts' .safe = unify? ts .safe) : Decided ts := by
  induction hn : depthAll ts using Nat.strongRecOn generalizing ts with
  | ind n ih =>
    subst hn
    by_cases apart : Apart (concrete ts)
    · have lawful' : ∀ t ∈ concrete ts, t.Lawful := fun t ht => lawful t (mem_concrete.mp ht).1
      cases hu : unify? ts .safe with
      | none => exact .fails hu
      | some u =>
        cases hof : Blueprint.of (concrete ts) .safe with
        | choose => exact decided_of_choose hof free
        | clash =>
          rw [unify?_of_apart apart, merge?_of_clash hof] at hu
          cases hu
        | build frame groups =>
          have unmixed' : Unmixed (concrete ts) := unmixed.mono fun t ht => (mem_concrete.mp ht).1
          refine .build apart hof fun group hg => ?_
          refine ih _ (depthAll_lt_of_group hof hg)
            (unmixed'.group (exists_mem_of_group hof hg)) (lawful_of_group hof hg lawful')
            (fun group' hperm => ?_) rfl
          obtain ⟨readers, uniform, rfl⟩ :=
            Blueprint.exists_uniform_of_build hof unmixed' fun hrisky => by cases hrisky
          obtain ⟨reader, hreader, rfl⟩ := List.mem_map.mp hg
          have free' : ∀ types', types'.Perm (concrete ts) → merge? types' .safe = some u := by
            intro types' perm
            obtain ⟨ts', hts', rfl⟩ := exists_perm_concrete perm
            rw [← unify?_of_apart (apart.perm perm.symm), free ts' hts', hu]
          exact unify?_eq_of_uniform uniform apart.ne_nil lawful' free' hreader hperm
    · exact .same apart

/-! ### All orders -/

/-- Every order of the types has the same safe common type, or none has any. -/
def OrderFree (ts : List Ty) : Prop :=
  ∀ ts', ts'.Perm ts → ∀ u, unify ts' .safe = .ok u ↔ unify ts .safe = .ok u

theorem orderFree_iff :
    OrderFree ts ↔ ∀ ts', ts'.Perm ts → unify? ts' .safe = unify? ts .safe := by
  simp only [OrderFree, unify_eq_ok_iff]
  exact forall₂_congr fun ts' _ => Option.ext_iff.symm

theorem Decided.orderFree (h : Decided ts) (lawful : ∀ t ∈ ts, t.Lawful) : OrderFree ts :=
  orderFree_iff.mpr fun _ perm => (h.unify?_eq perm.symm lawful).symm

/-- Definite types have a definite common type. -/
theorem Definite.common {u : Ty} (h : Common safety ts u) (hall : ∀ t ∈ ts, t.Definite) :
    u.Definite :=
  ⟨.common h fun t ht => (hall t ht).plain, h.solid fun t ht => (hall t ht).solid⟩

theorem orderFree_of_definite (hall : ∀ t ∈ ts, t.Definite) : OrderFree ts := by
  have lawful : ∀ t ∈ ts, t.Lawful := fun t ht => (hall t ht).plain.lawful
  refine orderFree_iff.mpr fun ts' perm => (rel_eq_iff.mp (rel_iff.mpr ⟨?_, ?_⟩)).symm
  · exact isSome_unify?_of_perm perm.symm lawful
  · intro u u' hu hu'
    exact (agrees_of_perm perm.symm lawful hu hu').eq_of_definite
      (.common (common_of_unify? hu) hall)
      (.common (common_of_unify? hu') fun t ht => hall t (perm.mem_iff.mp ht))

end Ty

/-- **The order of the types.** Whether there is a common type does not depend on the order, and
the safe common types that two orders lead to agree. They are the same for types without
placeholders and optional marks, and more generally if one type leads wherever one is chosen.
Otherwise some order leads to another type, if the choice is among the types themselves or lists
do not occur together with tuples, nor maps with objects. -/
theorem unify_perm {ts : List Ty} (lawful : ∀ t ∈ ts, t.Lawful) :
    (∀ ts', ts'.Perm ts → ∀ safety,
      (∃ u, Ty.unify ts' safety = .ok u) ↔ ∃ u, Ty.unify ts safety = .ok u) ∧
    (∀ ts', ts'.Perm ts → ∀ u u', Ty.unify ts .safe = .ok u → Ty.unify ts' .safe = .ok u' →
      u.Agrees u') ∧
    ((∀ t ∈ ts, t.Unmarked ∧ t.hasDynamic = false) → Ty.OrderFree ts) ∧
    (Ty.Decided ts → Ty.OrderFree ts) ∧
    (Blueprint.of (Ty.concrete ts) .safe = .choose ∨ Ty.Unmixed ts →
      Ty.OrderFree ts → Ty.Decided ts) := by
  refine ⟨fun ts' perm safety => ?_, fun ts' perm u u' hu hu' => ?_, fun hall => ?_,
    fun decided => decided.orderFree lawful, fun kinds free => ?_⟩
  · have hsome : (Ty.unify? ts safety).isSome = (Ty.unify? ts' safety).isSome :=
      Ty.isSome_unify?_of_perm perm.symm lawful
    simp only [Ty.unify_eq_ok_iff, ← Option.isSome_iff_exists, hsome]
  · exact Ty.agrees_of_perm perm.symm lawful (Ty.unify_eq_ok_iff.mp hu)
      (Ty.unify_eq_ok_iff.mp hu')
  · exact Ty.orderFree_of_definite fun t ht => ⟨⟨(hall t ht).1, lawful t ht⟩, (hall t ht).2⟩
  · rcases kinds with kinds | unmixed
    · exact Ty.decided_of_choose kinds (Ty.orderFree_iff.mp free)
    · exact Ty.decided_of_unmixed unmixed lawful (Ty.orderFree_iff.mp free)

/-- A set and two lists that it may become: the list of numbers leads, whatever the order. -/
theorem unify_perm_set_and_lists :
    let ts : List Ty := [.set .number, .list .dynamic, .list .number]
    (∀ t ∈ ts, t.Lawful) ∧ Ty.Decided ts ∧
      ∀ ts', ts'.Perm ts → Ty.unify ts' .safe = .ok (.list .number) := by
  intro ts
  have lawful : ∀ t ∈ ts, t.Lawful := by decide
  have leads : Preference.Leads ts (Ty.joinedBy .safe ts) (.list .number) := by
    refine .first (.intro _ ?_) ?_
    · -- nothing is more general
      rintro s ⟨hs, hlt⟩
      simp only [ts, List.mem_cons, List.not_mem_nil, or_false] at hs
      rcases hs with rfl | rfl | rfl <;> cases hlt
    · intro t ht joined _ hne
      simp only [ts, List.mem_cons, List.not_mem_nil, or_false] at ht
      rcases ht with rfl | rfl | rfl
      · have hnot : Ty.joinedBy .safe ts (.set .number) = false := by cbv
        exact absurd joined (by simp [hnot])
      · exact .single ⟨by simp [ts], rfl⟩
      · exact absurd rfl hne
  have decided : Ty.Decided ts := by
    have apart : Ty.Apart ts := ⟨.set .number, by simp [ts], .list .number, by simp [ts], by simp⟩
    exact .choose apart (by decide) (by decide) (by cbv) leads
  have free := (unify_perm lawful).2.2.2.1 decided
  exact ⟨lawful, decided, fun ts' perm => (free ts' perm _).mpr (by cbv)⟩

/-- Lists of pairs that are known in one position each: both may become the other, and the order
decides. -/
theorem not_orderFree_set_and_lists :
    let left : Ty := .list (.tuple [.dynamic, .number])
    let right : Ty := .list (.tuple [.number, .dynamic])
    let ts : List Ty := [.set (.tuple [.dynamic, .dynamic]), left, right]
    let ts' : List Ty := [.set (.tuple [.dynamic, .dynamic]), right, left]
    (∀ t ∈ ts, t.Lawful) ∧ ts'.Perm ts ∧ Ty.unify ts .safe = .ok left ∧
      Ty.unify ts' .safe = .ok right ∧ ¬Ty.OrderFree ts := by
  intro left right ts ts'
  have perm : ts'.Perm ts := .cons _ (.swap ..)
  have hleft : Ty.unify ts .safe = .ok left := by cbv
  have hright : Ty.unify ts' .safe = .ok right := by cbv
  refine ⟨by decide, perm, hleft, hright, fun free => ?_⟩
  have hboth := (free ts' perm right).mp hright
  rw [hleft] at hboth
  exact absurd (Except.ok.inj hboth) (by decide)

end Retype
