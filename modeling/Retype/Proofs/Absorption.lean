import Retype.Proofs.OrderIndependence

/-!
# A common type added to its types

The common type of some types may be added to them without a change: it is the common type of all
of them together. What has to be seen is that the search, which now meets one type more, ends
where it ended before.

* **Built types.** The blueprint may be another one: objects of different names become a map, and
  with that map among them they are maps and objects. But the frame is the same, and each group
  has its own common type added to it (`exists_groups_append`), so the argument goes down the
  types.
* **Chosen types.** The type that is chosen now stands among the types a second time, at the end.
  Until the first of the two is placed the sort takes the same steps (`Greedy.exists_append`): what
  waits for the second copy waits for the first one anyway. If a cycle holds both back, what is
  placed is the same (`find?_sorted_append_self`).
-/

namespace Retype

/-- Repeating one of the types adds no type. -/
theorem Ty.mem_append_self {types : List Ty} {u t : Ty} (hu : u ∈ types) :
    t ∈ types ++ [u] ↔ t ∈ types := by
  rw [List.mem_append, List.mem_singleton]
  exact ⟨fun h => h.elim id fun heq => heq ▸ hu, .inl⟩

namespace Preference

section Copy

variable {types : List Ty} {u : Ty} {j : Nat}

/-! ### Sorting with a copy at the end -/

theorem getElem?_append_copy {i : Nat} (hi : i < types.length) :
    (types ++ [u])[i]? = types[i]? :=
  List.getElem?_append_left hi

/-- As long as a type is not placed, its copy keeps nothing back that it does not keep back. -/
theorem ready_append_iff {done : List Nat} (hj : types[j]? = some u) (pending : j ∉ done)
    {i : Nat} (hi : i < types.length) : Ready (types ++ [u]) done i ↔ Ready types done i := by
  constructor
  · rintro ⟨-, hpending, released⟩
    refine ⟨hi, hpending, fun k hk => released k ?_⟩
    obtain ⟨s, t, hs, ht, hlt⟩ := precedes_iff.mp hk
    have hklt := lt_length_of_precedes hk
    exact precedes_iff.mpr ⟨s, t, by rwa [getElem?_append_copy hklt],
      by rwa [getElem?_append_copy hi], hlt⟩
  · rintro ⟨-, hpending, released⟩
    refine ⟨by simp; omega, hpending, fun k hk => ?_⟩
    obtain ⟨s, t, hs, ht, hlt⟩ := precedes_iff.mp hk
    rw [getElem?_append_copy hi] at ht
    by_cases hklt : k < types.length
    · rw [getElem?_append_copy hklt] at hs
      exact released k (precedes_iff.mpr ⟨s, t, hs, ht, hlt⟩)
    · -- the copy itself: the type it is a copy of would have to be placed
      rw [List.getElem?_append_right (by omega), List.getElem?_singleton] at hs
      split at hs
      · cases hs
        exact absurd (released j (precedes_iff.mpr ⟨u, t, hj, ht, hlt⟩)) pending
      · cases hs

/-- **Step.** The earliest position that is ready is the same with the copy. -/
theorem Greedy.exists_next {done placed : List Nat} {next : Nat} (hj : types[j]? = some u)
    (pending : j ∉ done) (ready : Ready types done next)
    (earliest : ∀ i < next, ¬Ready types done i) (greedy : Greedy (types ++ [u]) done placed)
    (finished : ∀ i, ¬Ready (types ++ [u]) (done ++ placed) i) :
    ∃ rest, placed = next :: rest ∧ Greedy (types ++ [u]) (done ++ [next]) rest := by
  have ready' : Ready (types ++ [u]) done next := (ready_append_iff hj pending ready.lt).mpr ready
  cases greedy with
  | nil => exact absurd ready' (by simpa using finished next)
  | @cons _ rest next' hready hearliest after =>
    obtain rfl : next' = next := by
      rcases Nat.lt_trichotomy next' next with hlt | heq | hlt
      · have hbound : next' < types.length := Nat.lt_trans hlt ready.lt
        exact absurd ((ready_append_iff hj pending hbound).mp hready) (earliest next' hlt)
      · exact heq
      · exact absurd ready' (hearliest next hlt)
    exact ⟨rest, rfl, after⟩

/-- **Run.** Up to the type that is copied, the same is placed. -/
theorem Greedy.exists_append {done front back placed : List Nat} (hj : types[j]? = some u)
    (h : Greedy types done (front ++ j :: back)) (greedy : Greedy (types ++ [u]) done placed)
    (finished : ∀ i, ¬Ready (types ++ [u]) (done ++ placed) i) :
    ∃ rest, placed = front ++ j :: rest := by
  induction front generalizing done placed with
  | nil =>
    cases h with
    | cons ready earliest _ =>
      obtain ⟨rest, hrest, -⟩ :=
        Greedy.exists_next hj ready.pending ready earliest greedy finished
      exact ⟨rest, hrest⟩
  | cons next front ih =>
    have pending : j ∉ done := fun hmem =>
      h.split.1.pending (List.mem_append_left _ hmem)
    cases h with
    | cons ready earliest after =>
      obtain ⟨rest, rfl, hafter⟩ :=
        Greedy.exists_next hj pending ready earliest greedy finished
      obtain ⟨rest', rfl⟩ := ih after hafter (by simpa using finished)
      exact ⟨rest', rfl⟩

theorem Greedy.lt_length {placed : List Nat} (h : Greedy types [] placed) {i : Nat}
    (hi : i ∈ placed) : i < types.length := by
  obtain ⟨front, back, rfl⟩ := List.append_of_mem hi
  exact h.split.1.lt

theorem above_append (hu : u ∈ types) : Above (types ++ [u]) = Above types := by
  funext s t
  rw [Above, Above, Ty.mem_append_self hu]

theorem any_append_copy (good : Ty → Bool) {i : Nat} (hi : i < types.length) :
    (types ++ [u])[i]?.any good = types[i]?.any good := by
  rw [getElem?_append_copy hi]

/-- A good type that is placed first is placed first with its copy. -/
theorem find?_order_of_placed {good : Ty → Bool} {placed : List Nat} (hj : types[j]? = some u)
    (greedy : Greedy types [] placed)
    (hfind : placed.find? (fun i => types[i]?.any good) = some j) :
    (order (types ++ [u])).find? (fun i => (types ++ [u])[i]?.any good) = some j := by
  obtain ⟨hgood, front, back, rfl, hfront⟩ := List.find?_eq_some_iff_append.mp hfind
  obtain ⟨placed', horder, greedy', finished⟩ := exists_order_eq (types ++ [u])
  obtain ⟨rest, rfl⟩ := greedy.exists_append hj greedy' (by simpa using finished)
  rw [horder, List.append_assoc, List.cons_append]
  refine List.find?_eq_some_iff_append.mpr ⟨?_, front, _, rfl, fun k hk => ?_⟩
  · rwa [any_append_copy good (greedy.lt_length (by simp))]
  · rw [any_append_copy good (greedy.lt_length (List.mem_append_left _ hk))]
    exact hfront k hk

/-- A good type that is held back by a cycle comes first among what is left also with its copy:
the same positions are placed, and none of them is good. -/
theorem find?_order_of_held {good : Ty → Bool} {placed : List Nat} (hj : types[j]? = some u)
    (greedy : Greedy types [] placed) (finished : ∀ i, ¬Ready types placed i)
    (hnone : placed.find? (fun i => types[i]?.any good) = none)
    (hfind : ((List.range types.length).filter (!placed.contains ·)).find?
      (fun i => types[i]?.any good) = some j) :
    (order (types ++ [u])).find? (fun i => (types ++ [u])[i]?.any good) = some j := by
  obtain ⟨placed', horder, greedy', finished'⟩ := exists_order_eq (types ++ [u])
  obtain ⟨hgood, front, back, hsplit, hfront⟩ := List.find?_eq_some_iff_append.mp hfind
  have hleft : ∀ i ∈ front ++ j :: back, i < types.length ∧ i ∉ placed := by
    intro i hi
    rw [← hsplit] at hi
    simpa using hi
  have habove := above_append (List.mem_of_getElem? hj)
  have hplaced : ∀ i < types.length, (i ∈ placed' ↔ i ∈ placed) := by
    intro i hi
    have ht := List.getElem?_eq_getElem hi
    rw [mem_placed_iff greedy finished ht,
      mem_placed_iff greedy' finished' ((getElem?_append_copy hi).trans ht), habove]
  have hlast : types.length ∉ placed' := by
    rw [mem_placed_iff greedy' finished' (t := u) (by simp), habove,
      ← mem_placed_iff greedy finished hj]
    exact (hleft j (by simp)).2
  have hnone' : placed'.find? (fun i => (types ++ [u])[i]?.any good) = none := by
    refine List.find?_eq_none.mpr fun i hi => ?_
    have hlt := greedy'.lt_length hi
    rw [List.length_append, List.length_singleton] at hlt
    have hne : i ≠ types.length := fun heq => hlast (heq ▸ hi)
    have hi' : i < types.length := by omega
    rw [any_append_copy good hi']
    exact List.find?_eq_none.mp hnone i ((hplaced i hi').mp hi)
  have hrest : (List.range types.length).filter (!placed'.contains ·) = front ++ j :: back := by
    rw [← hsplit]
    refine List.filter_congr fun i hi => ?_
    rw [List.contains_eq_mem, List.contains_eq_mem,
      decide_eq_decide.mpr (hplaced i (List.mem_range.mp hi))]
  rw [horder, List.find?_append, hnone', Option.none_or, List.length_append,
    List.length_singleton, List.range_succ, List.filter_append, hrest, List.append_assoc,
    List.cons_append]
  refine List.find?_eq_some_iff_append.mpr ⟨?_, front, _, rfl, fun k hk => ?_⟩
  · rwa [any_append_copy good (hleft j (by simp)).1]
  · rw [any_append_copy good (hleft k (List.mem_append_left _ hk)).1]
    exact hfront k hk

/-- **The first good type stays the first** when it is added once more at the end. -/
theorem find?_sorted_append_self {good : Ty → Bool}
    (h : (sorted types).find? good = some u) : (sorted (types ++ [u])).find? good = some u := by
  rw [find?_sorted_eq, Option.bind_eq_some_iff] at h
  obtain ⟨j, hfind, hj⟩ := h
  -- it is enough to see that the same position comes first
  suffices hsame : (order (types ++ [u])).find? (fun i => (types ++ [u])[i]?.any good) = some j by
    rw [find?_sorted_eq, hsame, Option.bind_some,
      getElem?_append_copy (List.getElem?_eq_some_iff.mp hj).1, hj]
  obtain ⟨placed, horder, greedy, finished⟩ := exists_order_eq types
  rw [horder, List.find?_append] at hfind
  cases hplaced : placed.find? (fun i => types[i]?.any good) with
  | some i =>
    rw [hplaced, Option.some_or] at hfind
    exact find?_order_of_placed hj greedy (hplaced.trans hfind)
  | none =>
    rw [hplaced, Option.none_or] at hfind
    exact find?_order_of_held hj greedy finished hplaced hfind

end Copy

end Preference

namespace Ty

variable {safety : Safety} {types ts : List Ty} {u : Ty}

/-! ### Building with the common type among the types -/

/-- The readings of types, one more type at the end. -/
theorem filterMap_append_self {reader : Ty → Option Ty} {p : Ty} (h : reader u = some p) :
    (types ++ [u]).filterMap reader = types.filterMap reader ++ [p] := by
  rw [List.filterMap_append, List.filterMap_cons_some h, List.filterMap_nil]

theorem flatMap_parts_append {e : Ty} (h : u.parts = [e]) :
    (types ++ [u]).flatMap parts = types.flatMap parts ++ [e] := by
  rw [List.flatMap_append, List.flatMap_singleton, h]

/-- **Step.** With the type that was built among the types, the same frame is built, and each
group has its own common type added to it. -/
theorem exists_groups_append {frame : Frame} {groups : List (List Ty)} {us : List Ty}
    (hof : Blueprint.of types safety = .build frame groups)
    (hus : List.Forall₂ (fun group p => unify? group safety = some p) groups us)
    (hfill : frame.fill? us = some u) :
    ∃ groups', Blueprint.of (types ++ [u]) safety = .build frame groups' ∧
      List.Forall₂ (fun group' p => ∃ group ∈ groups, unify? group safety = some p ∧
        group' = group ++ [p]) groups' us := by
  have hne : types ++ [u] ≠ [] := by simp
  have hmem : u ∈ types ++ [u] := by simp
  have both : ∀ {Q : Ty → Prop}, (∀ t ∈ types, Q t) → Q u → ∀ t ∈ types ++ [u], Q t := by
    intro Q hall hu t ht
    rcases List.mem_append.mp ht with ht | ht
    · exact hall t ht
    · rwa [List.mem_singleton.mp ht]
  cases Blueprint.builds_of_build hof with
  | gather gathers =>
    -- the type that was built is a collection, so the parts of all are gathered in one of its kind
    obtain ⟨e, rest, he, hnil, rfl⟩ := List.forall₂_cons_left_iff.mp hus
    obtain rfl := List.forall₂_nil_left_iff.mp hnil
    have gathered : u.parts = [e] → List.Forall₂ (fun group' p =>
        ∃ group ∈ [types.flatMap parts], unify? group safety = some p ∧ group' = group ++ [p])
        [(types ++ [u]).flatMap parts] [e] := fun hparts =>
      .cons ⟨_, List.mem_singleton_self _, he, flatMap_parts_append hparts⟩ .nil
    cases gathers with
    | map all =>
      cases hfill
      exact ⟨_, Blueprint.of_eq_of_outline hne (.map ⟨_, hmem, rfl⟩ (both all (.inl rfl))),
        gathered rfl⟩
    | list all =>
      cases hfill
      exact ⟨_, Blueprint.of_eq_of_outline hne (.list ⟨_, hmem, rfl⟩ (both all (.inl rfl))),
        gathered rfl⟩
    | set all =>
      cases hfill
      exact ⟨_, Blueprint.of_eq_of_outline hne (.set (both all rfl)), gathered rfl⟩
  | @object names all =>
    cases hfill
    rw [List.forall₂_map_left_iff, forall₂_iff_getElem?] at hus
    obtain ⟨length, each⟩ := hus
    refine ⟨_, Blueprint.of_eq_of_outline hne (.object (both all ?_)), ?_⟩
    · rw [record, attributes?, Option.map_some, names_record length]
    · rw [Blueprint.attributeGroups, List.forall₂_map_left_iff, forall₂_iff_getElem?]
      refine ⟨length, fun i name p hname hp => ⟨_, List.mem_map_of_mem (List.mem_of_getElem? hname),
        each i name p hname hp, filterMap_append_self ?_⟩⟩
      exact attributeType?_record length each hname hp
  | @tuple n all =>
    cases hfill
    rw [List.forall₂_map_left_iff, forall₂_iff_getElem?, List.length_range] at hus
    obtain ⟨rfl, each⟩ := hus
    refine ⟨_, Blueprint.of_eq_of_outline hne (.tuple (both all rfl)), ?_⟩
    rw [Blueprint.elementGroups, List.forall₂_map_left_iff, forall₂_iff_getElem?]
    refine ⟨List.length_range, fun i k p hk hp => ⟨_, List.mem_map_of_mem (List.mem_of_getElem? hk),
      each i k p hk hp, filterMap_append_self ?_⟩⟩
    obtain ⟨hlt, hk⟩ := List.getElem?_eq_some_iff.mp hk
    rwa [← hk, List.getElem_range]

/-! ### Choosing with the common type among the types -/

/-- A mix of kinds stays a mix when one of the types is repeated. -/
theorem of_append_eq_choose (hu : u ∈ types) (h : Blueprint.of types safety = .choose) :
    Blueprint.of (types ++ [u]) safety = .choose := by
  have hmem : ∀ t, t ∈ types ++ [u] ↔ t ∈ types := fun t => mem_append_self hu
  have outline : Blueprint.Outline types safety (Blueprint.of types safety) :=
    Blueprint.outline_of (List.ne_nil_of_mem hu)
  rw [h] at outline
  generalize hb : Blueprint.choose = b at outline
  cases outline with
  | choose maps lists mixed uncrossed =>
    refine Blueprint.of_eq_of_outline (by simp) (.choose ?_ ?_ ?_ ?_)
    · simpa only [hmem] using maps
    · simpa only [hmem] using lists
    · simpa only [Mixed, hmem] using mixed
    · simpa only [hmem] using uncrossed
  | unlikeObjects | unlikeTuples => split at hb <;> cases hb
  | _ => cases hb

theorem joinedBy_append (hu : u ∈ types) :
    joinedBy safety (types ++ [u]) = joinedBy safety types := by
  funext v
  rw [Bool.eq_iff_iff, joinedBy_iff, joinedBy_iff]
  exact forall_congr' fun t => by rw [mem_append_self hu]

/-! ### The search as a whole -/

/-- What types that differ come to does not change when it is added to them, if this is so of the
groups that are brought together on the way. -/
theorem merge?_append_self
    (ih : ∀ group ∈ (Blueprint.of types safety).groups, ∀ p, unify? group safety = some p →
      unify? (group ++ [p]) safety = some p)
    (h : merge? types safety = some u) : merge? (types ++ [u]) safety = some u := by
  cases hof : Blueprint.of types safety with
  | clash =>
    rw [merge?_of_clash hof] at h
    cases h
  | choose =>
    have hu : u ∈ types := (mem_of_merge? hof h).1
    rw [merge?_of_choose hof] at h
    rw [merge?_of_choose (of_append_eq_choose hu hof), joinedBy_append hu]
    exact Preference.find?_sorted_append_self h
  | build frame groups =>
    rw [merge?_eq, hof] at h
    have joined : ∀ t ∈ types, joins safety u t = true := by simpa using List.find?_some h
    have hmem := List.mem_of_find?_eq_some h
    simp only [Blueprint.candidates, Option.mem_toList, Option.bind_eq_some_iff] at hmem
    obtain ⟨us, hus, hfill⟩ := hmem
    obtain ⟨groups', hof', hgroups⟩ := exists_groups_append hof (mapM_eq_some_iff.mp hus) hfill
    have hus' : groups'.mapM (unify? · safety) = some us := by
      refine mapM_eq_some_iff.mpr (hgroups.imp ?_)
      rintro group' p ⟨group, hgroup, hp, rfl⟩
      exact ih group (by rwa [hof]) p hp
    rw [merge?_eq, hof', Blueprint.candidates, hus', Option.bind_some, hfill, Option.toList_some]
    refine List.find?_cons_of_pos ?_
    rw [List.all_append, Bool.and_eq_true]
    exact ⟨List.all_eq_true.mpr joined, by simp [joins]⟩

theorem concrete_append_self (ts : List Ty) (hu : u ≠ .dynamic) :
    concrete (ts ++ [u]) = concrete ts ++ [u] := by
  rw [concrete, List.filter_append, ← concrete, List.filter_cons_of_pos, List.filter_nil]
  simpa [← isDynamic_iff] using hu

/-- **Run.** The search ends at the same type with that type among the types. -/
theorem unify?_append_self (h : unify? ts safety = some u) :
    unify? (ts ++ [u]) safety = some u := by
  induction hn : depthAll ts using Nat.strongRecOn generalizing ts u with
  | ind n ih =>
    subst hn
    rcases same_or_apart (concrete ts) with blank | ⟨v, mem, all⟩ | apart
    · have hne : ts ≠ [] := by
        rintro rfl
        rw [unify?_nil] at h
        cases h
      rw [unify?_of_blank hne blank] at h
      cases h
      refine unify?_of_blank (by simp) ?_
      rw [concrete, List.filter_append, ← concrete, blank]
      rfl
    · rw [unify?_of_same mem all] at h
      cases h
      have hconc := concrete_append_self ts (mem_concrete.mp mem).2
      refine unify?_of_same (by simp [hconc]) fun t ht => ?_
      rw [hconc, List.mem_append, List.mem_singleton] at ht
      exact ht.elim (all t) id
    · have hu : u ≠ .dynamic := fun hdyn => by
        obtain ⟨t, ht⟩ := List.exists_mem_of_ne_nil _ apart.ne_nil
        have hblank := (common_of_unify? h).eq_dynamic hdyn
        exact (mem_concrete.mp ht).2 (hblank t (mem_concrete.mp ht).1)
      have hconc := concrete_append_self ts hu
      have apart' : Apart (concrete (ts ++ [u])) := by
        obtain ⟨s, hs, t, ht, hne⟩ := apart
        rw [hconc]
        exact ⟨s, List.mem_append_left _ hs, t, List.mem_append_left _ ht, hne⟩
      rw [unify?_of_apart apart] at h
      rw [unify?_of_apart apart', hconc]
      refine merge?_append_self (fun group hg p hp => ih _ ?_ hp rfl) h
      calc depthAll group < depthAll (concrete ts) := Blueprint.depthAll_lt_of_mem_groups hg
        _ ≤ depthAll ts := depthAll_mono fun t ht => (mem_concrete.mp ht).1

end Ty

/-- **Absorption.** The common type of types is the common type of them and itself. -/
theorem unify_append_common {ts : List Ty} {safety : Safety} {u : Ty}
    (h : Ty.unify ts safety = .ok u) : Ty.unify (ts ++ [u]) safety = .ok u :=
  Ty.unify_eq_ok_iff.mpr (Ty.unify?_append_self (Ty.unify_eq_ok_iff.mp h))

/-- Objects of different names become a map, and with the map among them they are gathered as maps
and objects. Inside, one of two lists is chosen: neither is more general than the other, so it is
the first one. -/
theorem unify_append_common_objects :
    let first : Ty := .list (.tuple [.dynamic, .number])
    let ts : List Ty := [.record [("a", .set (.tuple [.dynamic, .dynamic])), ("b", first)],
      .dynamic, .record [("c", .list (.tuple [.number, .dynamic]))]]
    Ty.unify ts .risky = .ok (.map first) ∧
      Ty.unify (ts ++ [.map first]) .risky = .ok (.map first) := by
  intro first ts
  have h : Ty.unify ts .risky = .ok (.map first) := by cbv
  exact ⟨h, unify_append_common h⟩

end Retype
