import Retype.Proofs.OrderIndependence

/-!
# Types without a common type

The fault for types without a common type names two of them. If some two have no common type by
themselves, the first such pair is named (`find?_pairs_eq_some`). It can happen that any two of
the types have one and only all together do not; then the first and the last are named.

That takes types of several kinds, one inside the other, of which one converts to the other: lists
with sets or tuples, maps with objects, or, where risks are taken, tuples or objects of any shape.
Types without these (`Separate`) have a common type as soon as any two of them have one
(`exists_pair_of_separate`): types of different kinds do not go together at all, and types of one
kind go together part by part, so that two types fail together where two of their parts do.
-/

namespace Retype

namespace Ty

variable {ts types : List Ty} {safety : Safety} {s t u : Ty}

/-! ### Pairs -/

/-- The pairs of a list are its sublists of two. -/
theorem mem_pairs_iff : (s, t) ∈ pairs ts ↔ [s, t].Sublist ts := by
  induction ts with
  | nil => simp [pairs]
  | cons first rest ih =>
    rw [pairs, List.mem_append, ih, List.mem_map]
    constructor
    · rintro (⟨t', ht', hpair⟩ | hsub)
      · cases hpair
        exact (List.singleton_sublist.mpr ht').cons_cons s
      · exact hsub.cons first
    · intro hsub
      cases hsub with
      | cons _ hsub => exact .inr hsub
      | cons_cons _ hsub => exact .inl ⟨t, List.singleton_sublist.mp hsub, rfl⟩

theorem sublist_of_getElem? {i j : Nat} (hij : i < j) (hs : ts[i]? = some s)
    (ht : ts[j]? = some t) : [s, t].Sublist ts := by
  induction ts generalizing i j with
  | nil => simp at hs
  | cons first rest ih =>
    obtain ⟨k, rfl⟩ : ∃ k, j = k + 1 := ⟨j - 1, by omega⟩
    rw [List.getElem?_cons_succ] at ht
    cases i with
    | zero =>
      cases hs
      exact (List.singleton_sublist.mpr (List.mem_of_getElem? ht)).cons_cons s
    | succ i => exact (ih (by omega) hs ht).cons first

/-- The first pair with a property is at the earliest positions, by the first and then by the
second of them. -/
theorem find?_pairs_eq_some {test : Ty × Ty → Bool} {left right : Ty}
    (h : (pairs ts).find? test = some (left, right)) :
    test (left, right) = true ∧ ∃ i j, i < j ∧ ts[i]? = some left ∧ ts[j]? = some right ∧
      ∀ (i' j' : Nat) s t, i' < j' → i' < i ∨ i' = i ∧ j' < j → ts[i']? = some s →
        ts[j']? = some t → test (s, t) = false := by
  refine ⟨List.find?_some h, ?_⟩
  induction ts with
  | nil => cases h
  | cons first rest ih =>
    rw [pairs, List.find?_append, List.find?_map] at h
    cases hfirst : rest.find? (test ∘ (first, ·)) with
    | some t =>
      -- the first type has a partner
      rw [hfirst] at h
      cases h
      obtain ⟨-, j, hj, hjt, hbefore⟩ := List.find?_eq_some_iff_getElem.mp hfirst
      refine ⟨0, j + 1, by omega, rfl, ?_, fun i' j' s t hij hlt hs ht => ?_⟩
      · rw [List.getElem?_cons_succ, List.getElem?_eq_getElem hj, hjt]
      · obtain ⟨rfl, hj'⟩ : i' = 0 ∧ j' < j + 1 := by omega
        cases hs
        obtain ⟨k, rfl⟩ : ∃ k, j' = k + 1 := ⟨j' - 1, by omega⟩
        obtain ⟨hk, rfl⟩ := List.getElem?_eq_some_iff.mp ht
        have hno := hbefore k (by omega)
        simpa using hno
    | none =>
      -- it has none, so all its pairs are passed over
      rw [hfirst] at h
      obtain ⟨i, j, hij, hi, hj, hbefore⟩ := ih h
      refine ⟨i + 1, j + 1, by omega, hi, hj, fun i' j' s t hij' hlt hs ht => ?_⟩
      obtain ⟨k, rfl⟩ : ∃ k, j' = k + 1 := ⟨j' - 1, by omega⟩
      cases i' with
      | zero =>
        cases hs
        have hno := List.find?_eq_none.mp hfirst t (List.mem_of_getElem? ht)
        simpa using hno
      | succ i' => exact hbefore i' k s t (by omega) (by omega) hs ht

/-- Two different members stand in one order or the other. -/
theorem sublist_pair (hs : s ∈ ts) (ht : t ∈ ts) (hne : s ≠ t) :
    [s, t].Sublist ts ∨ [t, s].Sublist ts := by
  induction ts with
  | nil => cases hs
  | cons first rest ih =>
    rcases List.mem_cons.mp hs with rfl | hs'
    · have ht' : t ∈ rest := (List.mem_cons.mp ht).resolve_left hne.symm
      exact .inl ((List.singleton_sublist.mpr ht').cons_cons s)
    · rcases List.mem_cons.mp ht with rfl | ht'
      · exact .inr ((List.singleton_sublist.mpr hs').cons_cons t)
      · exact (ih hs' ht').imp (.cons first) (.cons first)

/-! ### Kinds -/

/-- Lists do not occur together with sets or tuples inside the types, nor maps with objects, and
where risks are taken there are neither tuples nor objects. -/
structure Separate (safety : Safety) (ts : List Ty) : Prop extends Unmixed ts where
  sets : (∀ t ∈ ts, t.Lacks isList) ∨ ∀ t ∈ ts, t.Lacks isSet
  strict : safety = .risky → ∀ t ∈ ts, t.Lacks isObject ∧ t.Lacks isTuple

theorem Separate.mono {ts' : List Ty} (h : Separate safety ts) (sub : ∀ t ∈ ts', t ∈ ts) :
    Separate safety ts' :=
  ⟨h.toUnmixed.mono sub,
    h.sets.imp (fun lacks t ht => lacks t (sub t ht)) fun lacks t ht => lacks t (sub t ht),
    fun hrisky t ht => h.strict hrisky t (sub t ht)⟩

theorem Separate.group {group : List Ty} (h : Separate safety ts)
    (inside : ∀ p ∈ group, ∃ t ∈ ts, p ∈ t.parts) : Separate safety group := by
  refine ⟨h.toUnmixed.group inside,
    h.sets.imp (lacks_of_parts · inside) (lacks_of_parts · inside), fun hrisky p hp => ?_⟩
  obtain ⟨t, ht, hpt⟩ := inside p hp
  exact ⟨(h.strict hrisky t ht).1.part hpt, (h.strict hrisky t ht).2.part hpt⟩

/-- The outermost constructor of a type. -/
inductive Kind where
  | primitive
  | sequence (kind : SequenceKind)
  | map
  | tuple
  | object
  | capsule
  | dynamic

/-- Which of the constructors is outermost. -/
def kind : Ty → Kind
  | .primitive _ => .primitive
  | .sequence k _ => .sequence k
  | .map _ => .map
  | .tuple _ => .tuple
  | .object _ => .object
  | .capsule _ => .capsule
  | .dynamic => .dynamic

/-- The tests for collections and structures ask for one kind each. -/
theorem exists_kind_of_test {test : Ty → Bool}
    (htest : test ∈ [isMap, isList, isSet, isTuple, isObject]) :
    ∃ k, ∀ t, test t = true ↔ t.kind = k := by
  simp only [List.mem_cons, List.not_mem_nil, or_false] at htest
  rcases htest with rfl | rfl | rfl | rfl | rfl
  · exact ⟨.map, fun t => by cases t <;> simp [kind, isMap]⟩
  · refine ⟨.sequence .list, fun t => ?_⟩
    cases t with
    | sequence k => cases k <;> simp [kind, isList]
    | _ => simp [kind, isList]
  · refine ⟨.sequence .set, fun t => ?_⟩
    cases t with
    | sequence k => cases k <;> simp [kind, isSet]
    | _ => simp [kind, isSet]
  · exact ⟨.tuple, fun t => by cases t <;> simp [kind, isTuple]⟩
  · exact ⟨.object, fun t => by cases t <;> simp [kind, isObject]⟩

theorem kind_eq_of_test {test : Ty → Bool}
    (htest : test ∈ [isMap, isList, isSet, isTuple, isObject]) (hs : test s = true)
    (ht : test t = true) : s.kind = t.kind := by
  obtain ⟨k, hk⟩ := exists_kind_of_test htest
  rw [(hk s).mp hs, (hk t).mp ht]

theorem test_eq_of_kind {test : Ty → Bool}
    (htest : test ∈ [isMap, isList, isSet, isTuple, isObject]) (h : s.kind = t.kind) :
    test s = test t := by
  obtain ⟨k, hk⟩ := exists_kind_of_test htest
  rw [Bool.eq_iff_iff, hk, hk, h]

/-- Among separate types, no type converts to one of another kind. -/
theorem Converts.kind_eq (h : Converts safety s t) (separate : Separate safety ts)
    (hs : s ∈ ts) (ht : t ∈ ts) (hs' : s ≠ .dynamic) (ht' : t ≠ .dynamic) : s.kind = t.kind := by
  obtain ⟨c, plan⟩ := h.plan
  cases plan with
  | same | primitive | map | tuple | object => rfl
  | pass => exact absurd rfl ht'
  | later => exact absurd rfl hs'
  | @sequence k l =>
    cases k <;> cases l
    · rfl
    · exact (false_of_lacks separate.sets hs ht rfl rfl).elim
    · exact (false_of_lacks separate.sets ht hs rfl rfl).elim
    · rfl
  | @positions l _ _ _ _ permitted =>
    cases l with
    | list => exact (false_of_lacks separate.listing ht hs rfl rfl).elim
    | set =>
      have hrisky : safety = .risky := by simpa [SequenceKind.convertible] using permitted
      cases (separate.strict hrisky _ hs).2.here
  | gather => exact (false_of_lacks separate.mapping ht hs rfl rfl).elim
  | select permitted => cases (separate.strict permitted _ ht).1.here

/-- Two types have a common type only if one of them becomes the other or both are of kinds that
are built alike. -/
theorem Common.of_pair (h : Common safety [s, t] u) (hs : s ≠ .dynamic) (ht : t ≠ .dynamic) :
    (joins safety s t = true ∨ joins safety t s = true) ∨
      (∀ p ∈ [s, t], p.isMap = true ∨ p.isObject = true) ∨
      (∀ p ∈ [s, t], p.isList = true ∨ p.isTuple = true) ∨ ∀ p ∈ [s, t], p.isSet = true := by
  have hconc : concrete [s, t] = [s, t] := concrete_eq_self (by simp [hs, ht])
  cases h with
  | blank _ all => exact absurd (all s (by simp)) hs
  | same _ all =>
    rw [hconc] at all
    exact .inl (.inl (joins_iff.mpr (.inl ((all t (by simp)).trans (all s (by simp)).symm))))
  | choose _ mem _ joined =>
    rw [hconc] at mem joined
    simp only [List.mem_cons, List.not_mem_nil, or_false] at mem
    rcases mem with rfl | rfl
    · exact .inl (.inl (joined t (by simp)))
    · exact .inl (.inr (joined s (by simp)))
  | map _ all =>
    rw [hconc] at all
    exact .inr (.inl all)
  | list _ all =>
    rw [hconc] at all
    exact .inr (.inr (.inl all))
  | set _ all =>
    rw [hconc] at all
    exact .inr (.inr (.inr all))
  | object _ all =>
    rw [hconc] at all
    refine .inr (.inl fun p hp => .inr ?_)
    have hnames := all p hp
    cases p with
    | object => rfl
    | _ => cases hnames
  | tuple _ all =>
    rw [hconc] at all
    refine .inr (.inr (.inl fun p hp => .inr ?_))
    have hlength := all p hp
    cases p with
    | tuple => rfl
    | _ => cases hlength

/-- Two separate types that have a common type are of one kind. -/
theorem Common.kind_eq (h : Common safety [s, t] u) (separate : Separate safety ts)
    (hs : s ∈ ts) (ht : t ∈ ts) (hs' : s ≠ .dynamic) (ht' : t ≠ .dynamic) : s.kind = t.kind := by
  rcases h.of_pair hs' ht' with (back | there) | mapping | listing | sets
  · exact ((Converts.of_joins back).kind_eq separate ht hs ht' hs').symm
  · exact (Converts.of_joins there).kind_eq separate hs ht hs' ht'
  · rcases mapping s (by simp) with hmap | hobject
    · exact kind_eq_of_test (by simp) hmap ((mapping t (by simp)).resolve_right
        (false_of_lacks separate.mapping hs ht hmap))
    · exact kind_eq_of_test (by simp) hobject ((mapping t (by simp)).resolve_left
        fun htmap => false_of_lacks separate.mapping ht hs htmap hobject)
  · rcases listing s (by simp) with hlist | htuple
    · exact kind_eq_of_test (by simp) hlist ((listing t (by simp)).resolve_right
        (false_of_lacks separate.listing hs ht hlist))
    · exact kind_eq_of_test (by simp) htuple ((listing t (by simp)).resolve_left
        fun htlist => false_of_lacks separate.listing ht hs htlist htuple)
  · exact kind_eq_of_test (by simp) (sets s (by simp)) (sets t (by simp))

/-! ### Two types that fail -/

theorem unify?_pair (hs : s ≠ .dynamic) (ht : t ≠ .dynamic) (hne : s ≠ t) :
    unify? [s, t] safety = merge? [s, t] safety := by
  have hconc : concrete [s, t] = [s, t] := concrete_eq_self (by simp [hs, ht])
  rw [unify?_of_apart, hconc]
  rw [hconc]
  exact ⟨s, by simp, t, by simp, hne⟩

/-- Types that clash have two among them that clash. -/
theorem exists_pair_of_clash (hne : types ≠ []) (solid : ∀ t ∈ types, t ≠ .dynamic)
    (h : Blueprint.of types safety = .clash) :
    ∃ s ∈ types, ∃ t ∈ types, s ≠ t ∧ unify? [s, t] safety = none := by
  have clash : ∀ {s t : Ty}, s ∈ types → t ∈ types → s ≠ t →
      Blueprint.Outline [s, t] safety .clash → unify? [s, t] safety = none := by
    intro s t hs ht hne outline
    rw [unify?_pair (solid s hs) (solid t ht) hne]
    exact merge?_of_clash (Blueprint.of_eq_of_outline (by simp) outline)
  obtain ⟨first, hfirst⟩ := List.exists_mem_of_ne_nil types hne
  have outline : Blueprint.Outline types safety (Blueprint.of types safety) :=
    Blueprint.outline_of hne
  rw [h] at outline
  generalize hb : Blueprint.clash = b at outline
  -- some type reads otherwise than the first, so these two do not read alike
  have unlike : ∀ {β : Type} {f : Ty → Option β} {n : β}, f first = some n →
      (∀ b, ∃ t ∈ types, f t ≠ some b) →
      ∃ t ∈ types, first ≠ t ∧ ∀ b, ∃ p ∈ [first, t], f p ≠ some b := by
    intro β f n hn differ
    obtain ⟨t, ht, hdiffer⟩ := differ n
    refine ⟨t, ht, fun heq => hdiffer (heq ▸ hn), fun b => ?_⟩
    by_cases hb : n = b
    · exact ⟨t, by simp, hb ▸ hdiffer⟩
    · exact ⟨first, by simp, by simpa [hn] using hb⟩
  cases outline with
  | unlikeObjects all differ =>
    split at hb
    · cases hb
    · rename_i hsafe
      obtain ⟨as, has⟩ : ∃ as, first.attributes? = some as := by
        have kind := all first hfirst
        cases first with
        | object as => exact ⟨as, rfl⟩
        | _ => cases kind
      obtain ⟨t, ht, hne, differ'⟩ := unlike (congrArg (Option.map Named.names) has) differ
      have outline : Blueprint.Outline [first, t] safety _ :=
        .unlikeObjects (by simpa using ⟨all first hfirst, all t ht⟩) differ'
      rw [if_neg hsafe] at outline
      exact ⟨first, hfirst, t, ht, hne, clash hfirst ht hne outline⟩
  | unlikeTuples all differ =>
    split at hb
    · cases hb
    · rename_i hsafe
      obtain ⟨ss, hss⟩ : ∃ ss, first.elements? = some ss := by
        have kind := all first hfirst
        cases first with
        | tuple ss => exact ⟨ss, rfl⟩
        | _ => cases kind
      obtain ⟨t, ht, hne, differ'⟩ := unlike (congrArg (Option.map List.length) hss) differ
      have outline : Blueprint.Outline [first, t] safety _ :=
        .unlikeTuples (by simpa using ⟨all first hfirst, all t ht⟩) differ'
      rw [if_neg hsafe] at outline
      exact ⟨first, hfirst, t, ht, hne, clash hfirst ht hne outline⟩
  | crossed object tuple =>
    obtain ⟨o, ho, hobject⟩ := object
    obtain ⟨t, ht, htuple⟩ := tuple
    have hne : o ≠ t := by
      rintro rfl
      cases o with
      | object => cases htuple
      | _ => cases hobject
    exact ⟨o, ho, t, ht, hne, clash ho ht hne
      (.crossed ⟨o, by simp, hobject⟩ ⟨t, by simp, htuple⟩)⟩
  | _ => cases hb

/-- The type is none of the collections and structures. -/
def IsLeaf (t : Ty) : Prop :=
  ∀ test ∈ [isMap, isList, isSet, isTuple, isObject], test t = false

/-- A leaf becomes another one only if both are primitives, and at a risk. -/
theorem IsLeaf.of_joins (leaf : s.IsLeaf) (hs : s ≠ .dynamic) (ht : t ≠ .dynamic) (hne : s ≠ t)
    (h : joins safety t s = true) :
    safety = .risky ∧ ∃ p q, s = .primitive p ∧ t = .primitive q ∧
      Primitive.convertible safety p q = true := by
  obtain ⟨converts, careful⟩ := (joins_iff.mp h).resolve_left hne
  obtain ⟨c, plan⟩ := converts.plan
  cases plan with
  | same => exact absurd rfl hne
  | pass => exact absurd rfl ht
  | later => exact absurd rfl hs
  | @primitive p q permitted =>
    refine ⟨careful.resolve_right fun hwidens => hne ?_, p, q, rfl, rfl, permitted⟩
    rw [show p = q by simpa [widens] using hwidens]
  | @sequence k =>
    cases k with
    | list => cases leaf isList (by simp)
    | set => cases leaf isSet (by simp)
  | positions | tuple => cases leaf isTuple (by simp)
  | map | select => cases leaf isMap (by simp)
  | gather | object => cases leaf isObject (by simp)

/-- Separate types that leave a choice, but none that all become, have two among them of which
neither becomes the other. -/
theorem exists_pair_of_choose (separate : Separate safety types) (apart : Apart types)
    (solid : ∀ t ∈ types, t ≠ .dynamic) (h : Blueprint.of types safety = .choose)
    (hnone : merge? types safety = none) :
    ∃ s ∈ types, ∃ t ∈ types, s ≠ t ∧ unify? [s, t] safety = none := by
  by_contra hcon
  push Not at hcon
  have common : ∀ s ∈ types, ∀ t ∈ types, s ≠ t → ∃ u, Common safety [s, t] u := by
    intro s hs t ht hne
    obtain ⟨u, hu⟩ := Option.ne_none_iff_exists'.mp (hcon s hs t ht hne)
    exact ⟨u, common_of_unify? hu⟩
  -- all are of one kind, which is none of a collection or structure
  have leaf : ∀ s ∈ types, s.IsLeaf := by
    intro s hs test htest
    obtain ⟨t, ht, hfalse⟩ := Blueprint.mixed_of_choose apart.ne_nil h test htest
    by_cases hne : s = t
    · rwa [hne]
    · obtain ⟨u, hu⟩ := common s hs t ht hne
      rw [test_eq_of_kind htest (hu.kind_eq separate hs ht (solid s hs) (solid t ht)), hfalse]
  -- so different ones are primitives, of which one is convertible to the other at a risk
  have joined : ∀ s ∈ types, ∀ t ∈ types, s ≠ t → safety = .risky ∧
      ∃ p q, s = .primitive p ∧ t = .primitive q ∧
        (Primitive.convertible safety p q = true ∨ Primitive.convertible safety q p = true) := by
    intro s hs t ht hne
    obtain ⟨u, hu⟩ := common s hs t ht hne
    rcases hu.of_pair (solid s hs) (solid t ht) with (back | there) | mapping | listing | sets
    · obtain ⟨hrisky, q, p, rfl, rfl, permitted⟩ :=
        (leaf t ht).of_joins (solid t ht) (solid s hs) hne.symm back
      exact ⟨hrisky, p, q, rfl, rfl, .inr permitted⟩
    · obtain ⟨hrisky, p, q, rfl, rfl, permitted⟩ :=
        (leaf s hs).of_joins (solid s hs) (solid t ht) hne there
      exact ⟨hrisky, p, q, rfl, rfl, .inl permitted⟩
    · have kind := mapping s (by simp)
      simp [leaf s hs isMap (by simp), leaf s hs isObject (by simp)] at kind
    · have kind := listing s (by simp)
      simp [leaf s hs isList (by simp), leaf s hs isTuple (by simp)] at kind
    · have kind := sets s (by simp)
      simp [leaf s hs isSet (by simp)] at kind
  obtain ⟨s, hs, t, ht, hne⟩ := apart
  obtain ⟨hrisky, p, q, rfl, rfl, permitted⟩ := joined s hs t ht hne
  -- text would be chosen, so there is none, and nothing else converts
  have notext : Ty.string ∉ types := by
    intro hstring
    rw [merge?_of_choose h, List.find?_eq_none] at hnone
    refine hnone _ (Preference.mem_sorted.mpr hstring) (joinedBy_iff.mpr fun r hr => ?_)
    by_cases hrs : r = .string
    · exact joins_iff.mpr (.inl hrs)
    · obtain ⟨-, p, q, rfl, hq, -⟩ := joined r hr .string hstring hrs
      exact joins_iff.mpr (.inr ⟨.primitive (by simp [Primitive.convertible]), .inl hrisky⟩)
  have hp : p ≠ .string := by
    rintro rfl
    exact notext hs
  have hq : q ≠ .string := by
    rintro rfl
    exact notext ht
  have hpq : p ≠ q := fun heq => hne (heq ▸ rfl)
  simp [Primitive.convertible, hp, hq, hpq, hpq.symm] at permitted

/-! ### From parts to types -/

/-- A pair of parts comes from a pair of types. -/
theorem exists_pair_of_filterMap {reader : Ty → Option Ty} {p q : Ty}
    (total : ∀ t ∈ types, ∃ p, reader t = some p)
    (h : [p, q].Sublist (types.filterMap reader)) :
    ∃ s t, [s, t].Sublist types ∧ [s, t].filterMap reader = [p, q] := by
  obtain ⟨l, hsub, hl⟩ := List.sublist_filterMap_iff.mp h
  have hlength : l.length = 2 := by
    have htotal : ∀ t ∈ l, (reader t).isSome = true := fun t ht =>
      Option.isSome_iff_exists.mpr (total t (hsub.subset ht))
    rw [← List.filterMap_length_eq_length.mpr htotal, ← hl]
    rfl
  obtain ⟨s, t, rfl⟩ := List.length_eq_two.mp hlength
  exact ⟨s, t, hsub, hl.symm⟩

/-- Parts for all readers fill the frame. -/
theorem isSome_fill? {frame : Frame} {readers : List (Ty → Option Ty)} {us : List Ty}
    (uniform : Blueprint.Uniform types frame readers) (length : readers.length = us.length) :
    (frame.fill? us).isSome = true := by
  cases uniform with
  | map | list | set =>
    obtain ⟨u, rfl⟩ := List.length_eq_one_iff.mp length.symm
    rfl
  | object | tuple => rfl

/-- Types of one kind have no common type exactly if, for some reader, their parts have none. -/
theorem merge?_eq_none_iff {frame : Frame} {readers : List (Ty → Option Ty)}
    (uniform : Blueprint.Uniform types frame readers) (hne : types ≠ [])
    (lawful : ∀ t ∈ types, t.Lawful) :
    merge? types safety = none ↔
      ∃ reader ∈ readers, unify? (types.filterMap reader) safety = none := by
  have each : ((readers.map fun reader => types.filterMap reader).mapM
      (unify? · safety)).isSome = true ↔
      ∀ reader ∈ readers, (unify? (types.filterMap reader) safety).isSome = true := by
    rw [isSome_mapM, List.forall_mem_map]
  rw [merge?_of_build (uniform.of_eq hne) lawful]
  cases hparts : (readers.map fun reader => types.filterMap reader).mapM (unify? · safety) with
  | none =>
    rw [hparts] at each
    simpa using each
  | some us =>
    -- all groups have a common type, and these fill the frame
    have hfill := isSome_fill? uniform (by simpa using (mapM_eq_some_iff.mp hparts).length_eq)
    rw [hparts] at each
    have hall := each.mp rfl
    constructor
    · intro h
      rw [Option.bind_some] at h
      rw [h] at hfill
      cases hfill
    · rintro ⟨reader, hreader, hnone⟩
      have hpart := hall reader hreader
      rw [hnone] at hpart
      cases hpart

/-- **Pairs.** If separate types have no common type, two of them have none. -/
theorem exists_pair_of_separate (separate : Separate safety ts) (hne : ts ≠ [])
    (lawful : ∀ t ∈ ts, t.Lawful) (h : unify? ts safety = none) :
    ∃ s t, [s, t].Sublist ts ∧ unify? [s, t] safety = none := by
  induction hn : depthAll ts using Nat.strongRecOn generalizing ts with
  | ind n ih =>
    subst hn
    have apart : Apart (concrete ts) := by
      by_contra same
      obtain ⟨u, hu⟩ := exists_unify?_of_not_apart hne same
      rw [hu ts (.refl ts)] at h
      cases h
    have solid : ∀ t ∈ concrete ts, t ≠ .dynamic := fun t ht => (mem_concrete.mp ht).2
    have lawful' : ∀ t ∈ concrete ts, t.Lawful := fun t ht => lawful t (mem_concrete.mp ht).1
    have separate' : Separate safety (concrete ts) :=
      separate.mono fun t ht => (mem_concrete.mp ht).1
    rw [unify?_of_apart apart] at h
    -- two types, in whatever order, or two parts
    have either : (∃ s ∈ concrete ts, ∃ t ∈ concrete ts, s ≠ t ∧ unify? [s, t] safety = none) →
        ∃ s t, [s, t].Sublist (concrete ts) ∧ unify? [s, t] safety = none := by
      rintro ⟨s, hs, t, ht, hne, hpair⟩
      rcases sublist_pair hs ht hne with hsub | hsub
      · exact ⟨s, t, hsub, hpair⟩
      · have hswap : (unify? [s, t] safety).isSome = (unify? [t, s] safety).isSome :=
          isSome_unify?_of_perm (.swap t s []) (by simpa using ⟨lawful' s hs, lawful' t ht⟩)
        rw [hpair] at hswap
        exact ⟨t, s, hsub, Option.isNone_iff_eq_none.mp (Option.isSome_eq_false_iff.mp hswap.symm)⟩
    suffices hpair : ∃ s t, [s, t].Sublist (concrete ts) ∧ unify? [s, t] safety = none by
      obtain ⟨s, t, hsub, hnone⟩ := hpair
      exact ⟨s, t, hsub.trans List.filter_sublist, hnone⟩
    cases hof : Blueprint.of (concrete ts) safety with
    | choose => exact either (exists_pair_of_choose separate' apart solid hof h)
    | clash => exact either (exists_pair_of_clash apart.ne_nil solid hof)
    | build frame groups =>
      obtain ⟨readers, uniform, rfl⟩ := Blueprint.exists_uniform_of_build hof separate'.toUnmixed
        fun hrisky t ht => (separate'.strict hrisky t ht).imp (·.here) (·.here)
      obtain ⟨reader, hreader, hgroup⟩ :=
        (merge?_eq_none_iff uniform apart.ne_nil lawful').mp h
      have hmem := List.mem_map_of_mem (f := fun reader => (concrete ts).filterMap reader) hreader
      have total : ∀ t ∈ concrete ts, ∃ p, reader t = some p := fun t ht =>
        (uniform.exists_part hreader ht).imp fun _ hp => hp.2
      have hgroup_ne : (concrete ts).filterMap reader ≠ [] := by
        obtain ⟨t, ht⟩ := List.exists_mem_of_ne_nil _ apart.ne_nil
        obtain ⟨p, hp⟩ := total t ht
        exact List.ne_nil_of_mem (List.mem_filterMap.mpr ⟨t, ht, hp⟩)
      obtain ⟨p, q, hsub, hpq⟩ := ih _ (depthAll_lt_of_group hof hmem)
        (separate'.group (exists_mem_of_group hof hmem)) hgroup_ne
        (lawful_of_group hof hmem lawful') hgroup rfl
      obtain ⟨s, t, hst, hread⟩ := exists_pair_of_filterMap total hsub
      refine ⟨s, t, hst, ?_⟩
      have hs : s ∈ concrete ts := hst.subset (by simp)
      have ht : t ∈ concrete ts := hst.subset (by simp)
      have hne : s ≠ t := by
        rintro rfl
        obtain ⟨r, hr⟩ := total s hs
        have hsame : unify? [p, q] safety = some r :=
          unify?_of_forall_eq (by simp) (by simp [← hread, hr])
        rw [hpq] at hsame
        cases hsame
      rw [unify?_pair (solid s hs) (solid t ht) hne, merge?_eq_none_iff
        (uniform.mono fun r hr => hst.subset hr) (by simp) fun r hr => lawful' r (hst.subset hr)]
      exact ⟨reader, hreader, hread ▸ hpq⟩

/-! ### What the fault names -/

/-- The two types have no common type, and any two that come before them have one. -/
def FirstApart (safety : Safety) (ts : List Ty) (left right : Ty) : Prop :=
  ∃ i j, i < j ∧ ts[i]? = some left ∧ ts[j]? = some right ∧
    (∀ u, unify [left, right] safety ≠ .ok u) ∧
    ∀ (i' j' : Nat) s t, i' < j' → i' < i ∨ i' = i ∧ j' < j → ts[i']? = some s →
      ts[j']? = some t → ∃ u, unify [s, t] safety = .ok u

theorem exists_unify_iff : (∃ u, unify ts safety = .ok u) ↔ (unify? ts safety).isSome = true := by
  simp only [unify_eq_ok_iff, Option.isSome_iff_exists]

/-- Whether two types have no common type. -/
def fails (safety : Safety) (p : Ty × Ty) : Bool := (unify? [p.1, p.2] safety).isNone

/-- The first two types that fail or, if there are none, the first and the last type. -/
def named (safety : Safety) (first : Ty) (rest : List Ty) : Ty × Ty :=
  ((pairs (first :: rest)).find? (fails safety)).getD (first, rest.getLastD first)

theorem unify_of_none {first : Ty} {rest : List Ty} (h : unify? (first :: rest) safety = none) :
    unify (first :: rest) safety = .error (.of (.noCommonType (named safety first rest).1
      (named safety first rest).2)) := by
  rw [unify, h]
  rfl

theorem find?_pairs_of_unify {fault : Fault} {left right : Ty} (h : unify ts safety = .error fault)
    (hcause : fault.cause = .noCommonType left right) :
    unify? ts safety = none ∧ ((pairs ts).find? (fails safety) = some (left, right) ∨
      (pairs ts).find? (fails safety) = none ∧ ts.head? = some left ∧
        ts.getLast? = some right) := by
  cases ts with
  | nil =>
    cases h
    cases hcause
  | cons first rest =>
    cases hu : unify? (first :: rest) safety with
    | some u =>
      rw [unify, hu] at h
      cases h
    | none =>
      rw [unify_of_none hu, named] at h
      refine ⟨rfl, ?_⟩
      cases h
      cases hcause
      cases (pairs (first :: rest)).find? (fails safety) with
      | some p => exact .inl rfl
      | none => exact .inr ⟨rfl, rfl, by simp [List.getLast?_cons, List.getLastD_eq_getLast?]⟩

theorem firstApart_of_find? {left right : Ty}
    (h : (pairs ts).find? (fails safety) = some (left, right)) :
    FirstApart safety ts left right := by
  obtain ⟨hfails, i, j, hij, hi, hj, hbefore⟩ := find?_pairs_eq_some h
  refine ⟨i, j, hij, hi, hj, fun u hu => ?_, fun i' j' s t hij' hlt hs ht => ?_⟩
  · rw [unify_eq_ok_iff] at hu
    simp [fails, hu] at hfails
  · have hno := hbefore i' j' s t hij' hlt hs ht
    rw [exists_unify_iff]
    simpa [fails] using hno

/-- One type, or two that have a common type, do not fail. -/
theorem three_le_length (hne : ts ≠ []) (h : unify? ts safety = none)
    (hpairs : ∀ s t, [s, t].Sublist ts → (unify? [s, t] safety).isSome = true) :
    3 ≤ ts.length := by
  match ts with
  | [] => exact absurd rfl hne
  | [t] =>
    rw [unify?_of_forall_eq (t := t) (by simp) (by simp)] at h
    cases h
  | [s, t] =>
    have hpair := hpairs s t (.refl _)
    rw [h] at hpair
    cases hpair
  | _ :: _ :: _ :: _ => simp

end Ty

/-- **The pair that is named.** The fault for types without a common type names the first two, in
the order given, that have no common type. Only if any two of at least three types have one does
it name the first and the last; this does not happen if no list occurs together with a set or a
tuple inside the types, no map with an object, and, where risks are taken, no tuple or object at
all. -/
theorem firstApart_of_unify {ts : List Ty} {safety : Safety} {fault : Fault} {left right : Ty}
    (lawful : ∀ t ∈ ts, t.Lawful) (h : Ty.unify ts safety = .error fault)
    (hcause : fault.cause = .noCommonType left right) :
    (Ty.FirstApart safety ts left right ∨
      (∀ (i j : Nat) s t, i < j → ts[i]? = some s → ts[j]? = some t →
        ∃ u, Ty.unify [s, t] safety = .ok u) ∧
        3 ≤ ts.length ∧ ts.head? = some left ∧ ts.getLast? = some right) ∧
    (Ty.Separate safety ts → Ty.FirstApart safety ts left right) := by
  obtain ⟨hnone, hfind | ⟨hfind, hfirst, hlast⟩⟩ := Ty.find?_pairs_of_unify h hcause
  · have apart := Ty.firstApart_of_find? hfind
    exact ⟨.inl apart, fun _ => apart⟩
  · have hpairs : ∀ s t, [s, t].Sublist ts → (Ty.unify? [s, t] safety).isSome = true := by
      intro s t hsub
      have hno := List.find?_eq_none.mp hfind (s, t) (Ty.mem_pairs_iff.mpr hsub)
      simpa [Ty.fails, Option.isSome_iff_ne_none] using hno
    have hne : ts ≠ [] := by
      rintro rfl
      cases hfirst
    refine ⟨.inr ⟨fun i j s t hij hs ht => ?_, Ty.three_le_length hne hnone hpairs, hfirst, hlast⟩,
      fun separate => ?_⟩
    · exact Ty.exists_unify_iff.mpr (hpairs s t (Ty.sublist_of_getElem? hij hs ht))
    · obtain ⟨s, t, hsub, hpair⟩ := Ty.exists_pair_of_separate separate hne lawful hnone
      have hsome := hpairs s t hsub
      rw [hpair] at hsome
      cases hsome

/-- A number goes along with a placeholder, but not with a list: these are named, though there is
no common type of the last two either. -/
theorem firstApart_number_and_list :
    let ts : List Ty := [.number, .dynamic, .list .number, .bool]
    (∀ t ∈ ts, t.Lawful) ∧
      Ty.unify ts .safe = .error (.of (.noCommonType .number (.list .number))) ∧
      Ty.Separate .safe ts ∧ Ty.FirstApart .safe ts .number (.list .number) := by
  intro ts
  have lawful : ∀ t ∈ ts, t.Lawful := by decide
  have hnone : Ty.unify? ts .safe = none := by cbv
  have hopen : Ty.unify? [.number, .dynamic] .safe = some .number := by cbv
  have hpair : Ty.unify? [.number, .list .number] .safe = none := by cbv
  have hunify : Ty.unify ts .safe = .error (.of (.noCommonType .number (.list .number))) := by
    rw [Ty.unify_of_none hnone]
    simp [Ty.named, Ty.pairs, Ty.fails, hopen, hpair]
  have lacks : ∀ {kind : Ty → Bool}, (∀ t ∈ ts, kind t = false) → kind .number = false →
      ∀ t ∈ ts, t.Lacks kind := by
    intro kind here hnumber t ht
    refine .intro (here t ht) fun p hp => ?_
    simp only [ts, List.mem_cons, List.not_mem_nil, or_false] at ht
    rcases ht with rfl | rfl | rfl | rfl <;> simp only [Ty.parts, List.mem_singleton,
      List.not_mem_nil] at hp
    subst hp
    exact .intro hnumber (by simp [Ty.parts])
  have separate : Ty.Separate .safe ts :=
    ⟨⟨.inr (lacks (by decide) rfl), .inr (lacks (by decide) rfl)⟩,
      .inr (lacks (by decide) rfl), fun hrisky => by cases hrisky⟩
  exact ⟨lawful, hunify, separate, (firstApart_of_unify lawful hunify rfl).2 separate⟩

/-- A set and two lists of pairs: any two have a common type, all three do not, and the first and
the last are named. -/
theorem not_firstApart_set_and_lists :
    let single : Ty := .tuple [.number]
    let first : Ty := .set (.tuple [single, single])
    let last : Ty := .list (.tuple [single, .list .number])
    let ts : List Ty := [first, .list (.tuple [.list .number, single]), last]
    (∀ t ∈ ts, t.Lawful) ∧ Ty.unify ts .safe = .error (.of (.noCommonType first last)) ∧
      (∀ p ∈ Ty.pairs ts, ∃ u, Ty.unify [p.1, p.2] .safe = .ok u) ∧
      ¬Ty.FirstApart .safe ts first last := by
  intro single first last ts
  have hnone : Ty.unify? ts .safe = none := by cbv
  have hsome : ∀ p ∈ Ty.pairs ts, (Ty.unify? [p.1, p.2] .safe).isSome = true := by
    simp only [ts, Ty.pairs, List.map_cons, List.map_nil, List.cons_append, List.nil_append,
      List.forall_mem_cons, List.not_mem_nil, false_imp_iff, implies_true, and_true]
    refine ⟨?_, ?_, ?_⟩ <;> cbv
  have hfind : (Ty.pairs ts).find? (Ty.fails .safe) = none :=
    List.find?_eq_none.mpr fun p hp => by
      simpa [Ty.fails, Option.isSome_iff_ne_none] using hsome p hp
  have hunify : Ty.unify ts .safe = .error (.of (.noCommonType first last)) := by
    rw [Ty.unify_of_none hnone, Ty.named, hfind]
    rfl
  have hpairs : ∀ p ∈ Ty.pairs ts, ∃ u, Ty.unify [p.1, p.2] .safe = .ok u := fun p hp =>
    Ty.exists_unify_iff.mpr (hsome p hp)
  refine ⟨by decide, hunify, hpairs, ?_⟩
  rintro ⟨i, j, -, -, -, hfails, -⟩
  obtain ⟨u, hu⟩ := hpairs (first, last) (by simp [ts, Ty.pairs])
  exact hfails u hu

end Retype
