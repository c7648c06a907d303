import Retype.Proofs.Conversion.Converts
import Retype.Unify

/-!
# Common types are reached

Every type reaches the common type that is found for it and others: it converts to it, and where
nothing is to be risked no primitive inside becomes another (`Ty.Reaches`). Placeholders, which
have no say in the search, reach everything.

So the conversions into a common type can always be given (`unifyWithConversions_eq`), and the
check that ends the search for a common type is needed only where one of the types is chosen: a
type that is *built* from common types of parts is reached by all the types as it stands
(`merge?_of_build`).
-/

namespace Retype

namespace Ty

/-- The type converts to the other, in safe mode without turning a primitive into another. -/
structure Reaches (safety : Safety) (t u : Ty) : Prop where
  converts : Converts safety t u
  careful : safety = .safe → widens t u = false

variable {safety : Safety}

/-! ### Types and the types they join -/

/-- No primitive becomes another by staying what it is. -/
theorem Lawful.widens_self {t : Ty} (h : t.Lawful) : widens t t = false := by
  unfold Lawful at h
  induction t with
  | primitive k => simp [widens]
  | sequence k e ih => rw [widens_sequence, ih (throughout_sequence.mp h).2]
  | map e ih => rw [widens_map, ih (throughout_map.mp h).2]
  | tuple ts ih =>
    rw [widens]
    refine widensEach_eq_false fun i s t hs ht => ?_
    obtain rfl : s = t := Option.some.inj (hs.symm.trans ht)
    have hmem := List.mem_of_getElem? hs
    exact ih s hmem ((throughout_tuple.mp h).2 s hmem)
  | object as ih =>
    rw [widens, widensAttributes_eq_any, List.any_eq_false]
    intro a ha
    obtain ⟨i, hi⟩ := List.getElem?_of_mem ha
    have hfind : Named.find? a.name as = some a := Named.find?_of_getElem? (Lawful.ascending h) hi
    simpa [hfind] using ih a ha ((throughout_object.mp h).2 a ha)
  | capsule n => simp [widens]
  | dynamic => simp [widens]

theorem Lawful.reaches_self {t : Ty} (h : t.Lawful) : Reaches safety t t :=
  ⟨converts_refl t, fun _ => h.widens_self⟩

theorem dynamic_reaches (u : Ty) : Reaches safety .dynamic u :=
  ⟨dynamic_converts u, fun _ => by simp [widens]⟩

theorem Reaches.joins {t u : Ty} (h : Reaches safety t u) : joins safety u t = true := by
  refine joins_iff.mpr (.inr ⟨h.converts, ?_⟩)
  cases safety with
  | safe => exact .inr (h.careful rfl)
  | risky => exact .inl rfl

theorem Lawful.reaches_of_joins {t u : Ty} (ht : t.Lawful) (h : joins safety u t = true) :
    Reaches safety t u := by
  rcases joins_iff.mp h with rfl | ⟨converts, careful⟩
  · exact ht.reaches_self
  · refine ⟨converts, fun hsafe => careful.resolve_left ?_⟩
    rw [hsafe]
    exact Safety.noConfusion

/-- **Soundness.** Placeholders aside, every type joins the common type. -/
theorem Common.eq_or_joins {ts : List Ty} {u t : Ty} (h : Common safety ts u) (ht : t ∈ ts) :
    t = .dynamic ∨ joins safety u t = true := by
  refine or_iff_not_imp_left.mpr fun hdyn => ?_
  have hmem : t ∈ concrete ts := mem_concrete.mpr ⟨ht, hdyn⟩
  cases h with
  | blank _ all => exact absurd (all t ht) hdyn
  | same _ all => exact joins_iff.mpr (.inl (all t hmem))
  | choose _ _ _ joined | map _ _ _ _ joined | list _ _ _ _ joined | set _ _ _ joined
  | object _ _ _ _ joined | tuple _ _ _ joined => exact joined t hmem

theorem Common.converts {ts : List Ty} {u t : Ty} (h : Common safety ts u) (ht : t ∈ ts) :
    Converts safety t u := by
  rcases h.eq_or_joins ht with rfl | joined
  · exact dynamic_converts u
  · exact .of_joins joined

theorem Common.reaches {ts : List Ty} {u t : Ty} (h : Common safety ts u) (ht : t ∈ ts)
    (lawful : t.Lawful) : Reaches safety t u := by
  rcases h.eq_or_joins ht with rfl | joined
  · exact dynamic_reaches u
  · exact lawful.reaches_of_joins joined

/-- The placeholder is a common type of placeholders only. -/
theorem Common.eq_dynamic {ts : List Ty} {u : Ty} (h : Common safety ts u) (hu : u = .dynamic) :
    ∀ t ∈ ts, t = .dynamic := by
  cases h with
  | blank _ all => exact all
  | same mem => exact absurd hu (mem_concrete.mp mem).2
  | choose _ mem => exact absurd hu (mem_concrete.mp mem).2
  | _ => cases hu

/-! ### From parts to wholes -/

theorem Reaches.sequence {k l : SequenceKind} {s t : Ty}
    (permitted : SequenceKind.convertible safety k l = true) (h : Reaches safety s t) :
    Reaches safety (.sequence k s) (.sequence l t) :=
  ⟨h.converts.sequence permitted, fun hsafe => by rw [widens_sequence, h.careful hsafe]⟩

theorem Reaches.map {s t : Ty} (h : Reaches safety s t) : Reaches safety (.map s) (.map t) :=
  ⟨h.converts.map, fun hsafe => by rw [widens_map, h.careful hsafe]⟩

/-- Parts that reach a type elect it, unless it is a placeholder for types that are known. -/
theorem elects_self {parts : List Ty} {e : Ty} (h : e = .dynamic → ∀ p ∈ parts, p = .dynamic) :
    Conversion.Elects safety parts e e := by
  by_cases hopen : e = .dynamic ∧ parts ≠ []
  · obtain ⟨rfl, hne⟩ := hopen
    exact .common hne (unify?_of_forall_eq hne (h rfl))
  · exact .declared fun hdyn => by_contra fun hne => hopen ⟨hdyn, hne⟩

theorem Reaches.positions {l : SequenceKind} {ss : List Ty} {e : Ty}
    (permitted : SequenceKind.convertible safety .list l = true)
    (blank : e = .dynamic → ∀ s ∈ ss, s = .dynamic) (each : ∀ s ∈ ss, Reaches safety s e) :
    Reaches safety (.tuple ss) (.sequence l e) := by
  refine ⟨.positions permitted (elects_self blank) fun s hs => (each s hs).converts, ?_⟩
  intro hsafe
  rw [widens, widensSome_eq_any, List.any_eq_false]
  exact fun s hs => by simpa using (each s hs).careful hsafe

theorem Reaches.gather {as : List (Attribute Ty)} {e : Ty}
    (blank : e = .dynamic → ∀ p ∈ as.map (·.type), p = .dynamic)
    (each : ∀ a ∈ as, Reaches safety a.type e) : Reaches safety (.object as) (.map e) := by
  refine ⟨.gather (elects_self blank) fun a ha => (each a ha).converts, fun hsafe => ?_⟩
  rw [widens, widensSomeAttribute_eq_any, List.any_eq_false]
  exact fun a ha => by simpa using (each a ha).careful hsafe

theorem Reaches.tuple {ss ts : List Ty} (arity : ss.length = ts.length)
    (each : ∀ (i : Nat) s t, ss[i]? = some s → ts[i]? = some t → Reaches safety s t) :
    Reaches safety (.tuple ss) (.tuple ts) := by
  refine ⟨.tuple arity fun i s t hs ht => (each i s t hs ht).converts, fun hsafe => ?_⟩
  rw [widens]
  exact widensEach_eq_false fun i s t hs ht => (each i s t hs ht).careful hsafe

/-- Objects of the same names reach one another name by name. -/
theorem Reaches.object {as bs : List (Attribute Ty)} (ascending : Named.Ascending as)
    (names : Named.names as = Named.names bs)
    (each : ∀ (i : Nat) (a b : Attribute Ty), as[i]? = some a → bs[i]? = some b →
      Reaches safety a.type b.type) :
    Reaches safety (.object as) (.object bs) := by
  have ascending' : Named.Ascending bs := by rwa [Named.Ascending, ← names]
  refine ⟨.objectOfNames ascending names fun i a b ha hb => (each i a b ha hb).converts, ?_⟩
  intro hsafe
  rw [widens, widensAttributes_eq_any, List.any_eq_false]
  intro a ha
  obtain ⟨i, hi⟩ := List.getElem?_of_mem ha
  obtain ⟨b, hb, hfind⟩ := Named.exists_find?_getElem? ascending' names.symm hi
  rw [show Named.find? a.name bs = some b from hfind]
  simpa using (each i a b hi hb).careful hsafe

/-! ### Types that are built -/

/-- What a blueprint builds from common types of its groups is reached by all the types. -/
theorem reaches_of_builds {types : List Ty} {frame : Frame} {groups : List (List Ty)}
    {us : List Ty} {u t : Ty} (h : Blueprint.Builds types frame groups)
    (lawful : ∀ t ∈ types, t.Lawful)
    (hus : List.Forall₂ (fun group u => unify? group safety = some u) groups us)
    (hfill : frame.fill? us = some u) (ht : t ∈ types) : Reaches safety t u := by
  -- a part that was brought together with others reaches what they have in common
  have part : ∀ {group : List Ty} {v p : Ty}, unify? group safety = some v → p ∈ group →
      p ∈ t.parts → Reaches safety p v := fun hv hp hpt =>
    (common_of_unify? hv).reaches hp ((lawful t ht).part hpt)
  cases h with
  | gather gathers =>
    obtain ⟨e, rest, he, hnil, rfl⟩ := List.forall₂_cons_left_iff.mp hus
    rw [List.forall₂_nil_left_iff] at hnil
    subst hnil
    have inside : ∀ p ∈ t.parts, p ∈ types.flatMap parts := fun p hp =>
      List.mem_flatMap.mpr ⟨t, ht, hp⟩
    have blank : e = .dynamic → ∀ p ∈ t.parts, p = .dynamic := fun hdyn p hp =>
      (common_of_unify? he).eq_dynamic hdyn p (inside p hp)
    have each : ∀ p ∈ t.parts, Reaches safety p e := fun p hp => part he (inside p hp) hp
    cases gathers with
    | map all =>
      cases hfill
      have kind := all t ht
      cases t with
      | map s => exact .map (each s (by simp [parts]))
      | object as => exact .gather blank fun a ha => each a.type (List.mem_map_of_mem ha)
      | _ => simp [isMap, isObject] at kind
    | list all =>
      cases hfill
      have kind := all t ht
      have permitted : ∀ k, SequenceKind.convertible safety k .list = true := fun _ => rfl
      cases t with
      | sequence k s => exact .sequence (permitted k) (each s (by simp [parts]))
      | tuple ss => exact .positions (permitted _) blank each
      | _ => simp [isList, isTuple] at kind
    | set all =>
      cases hfill
      have kind := all t ht
      cases t with
      | sequence k s =>
        cases k with
        | list => simp [isSet] at kind
        | set => exact .sequence (by simp [SequenceKind.convertible]) (each s (by simp [parts]))
      | _ => simp [isSet] at kind
  | @object names all =>
    cases hfill
    obtain ⟨as, has, hnames⟩ := Option.map_eq_some_iff.mp (all t ht)
    cases t with
    | object =>
      cases has
      have ascending : Named.Ascending as := Lawful.ascending (lawful _ ht)
      rw [List.forall₂_map_left_iff, forall₂_iff_getElem?] at hus
      refine .object ascending (hnames.trans (names_record hus.1).symm) fun i a b ha hb => ?_
      obtain ⟨f, hf, rfl⟩ := Option.map_eq_some_iff.mp ((List.getElem?_map ..).symm.trans hb)
      obtain ⟨hname, hu⟩ := List.getElem?_zip_eq_some.mp hf
      have hfind : attributeType? f.1 (.object as) = some a.type := by
        have hkey : Named.name a = f.1 := by
          rw [← hnames, Named.names, List.getElem?_map, ha] at hname
          exact Option.some.inj hname
        rw [← hkey, attributeType?, Named.find?_of_getElem? ascending ha]
        rfl
      exact part (hus.2 i f.1 f.2 hname hu) (List.mem_filterMap.mpr ⟨_, ht, hfind⟩)
        (mem_parts_of_attributeType? hfind)
    | _ => cases has
  | @tuple n all =>
    cases hfill
    obtain ⟨ss, hss, hlen⟩ := Option.map_eq_some_iff.mp (all t ht)
    cases t with
    | tuple =>
      cases hss
      rw [List.forall₂_map_left_iff, forall₂_iff_getElem?, List.length_range] at hus
      refine .tuple (hlen.trans hus.1) fun i s u hs hu => ?_
      have hi : i < n := hus.1 ▸ (List.getElem?_eq_some_iff.mp hu).1
      exact part (hus.2 i i u (List.getElem?_range hi) hu)
        (List.mem_filterMap.mpr ⟨_, ht, hs⟩) (List.mem_of_getElem? hs)
    | _ => cases hss

/-- **Building.** A type that is built needs no check: it is the common type as soon as every
group has one. -/
theorem merge?_of_build {types : List Ty} {frame : Frame} {groups : List (List Ty)}
    (h : Blueprint.of types safety = .build frame groups) (lawful : ∀ t ∈ types, t.Lawful) :
    merge? types safety = (groups.mapM fun group => unify? group safety).bind frame.fill? := by
  rw [merge?_eq, h, Blueprint.candidates]
  cases hbuilt : (groups.mapM fun group => unify? group safety).bind frame.fill? with
  | none => rfl
  | some u =>
    obtain ⟨us, hus, hfill⟩ := Option.bind_eq_some_iff.mp hbuilt
    have hall : types.all (joins safety u) = true := List.all_eq_true.mpr fun t ht =>
      (reaches_of_builds (Blueprint.builds_of_build h) lawful (mapM_eq_some_iff.mp hus) hfill
        ht).joins
    simp [hall]

/-! ### Conversions into the common type -/

theorem unify_eq_ok_iff {ts : List Ty} {u : Ty} :
    unify ts safety = .ok u ↔ unify? ts safety = some u := by
  cases ts with
  | nil => simp [unify, unify?_eq]
  | cons t ts =>
    rw [unify]
    cases unify? (t :: ts) safety <;> simp

/-- The fault of a search without result is about the types, not about the search. -/
theorem cause_of_unify {ts : List Ty} {fault : Fault} (h : unify ts safety = .error fault) :
    fault.cause = .nothingToUnify ∨ ∃ left right, fault.cause = .noCommonType left right := by
  cases ts with
  | nil =>
    cases h
    exact .inl rfl
  | cons t ts =>
    rw [unify] at h
    cases hu : unify? (t :: ts) safety with
    | some u =>
      rw [hu] at h
      cases h
    | none =>
      rw [hu] at h
      cases h
      exact .inr ⟨_, _, rfl⟩

/-- A type that converts to a common type has a conversion into it. -/
theorem exists_conversionInto {t u : Ty} (h : Converts safety t u) :
    ∃ c, conversionInto u safety t = .ok c := by
  unfold conversionInto
  split
  · exact ⟨_, rfl⟩
  · obtain ⟨c, hc⟩ := Option.isSome_iff_exists.mp h
    exact ⟨c, by rw [hc]⟩

/-- Conversions into a common type are found for all the types, in their order. -/
theorem exists_unifyWithConversions {ts : List Ty} {u : Ty} (h : unify ts safety = .ok u) :
    ∃ cs, unifyWithConversions ts safety = .ok (u, cs) ∧
      List.Forall₂ (fun t c => conversionInto u safety t = .ok c) ts cs := by
  have common := common_of_unify? (unify_eq_ok_iff.mp h)
  obtain ⟨cs, hcs⟩ := exists_mapM_eq_ok fun t ht => exists_conversionInto (common.converts ht)
  refine ⟨cs, ?_, mapM_eq_ok_iff.mp hcs⟩
  exact bind_eq_ok_iff.mpr ⟨u, h, bind_eq_ok_iff.mpr ⟨cs, hcs, rfl⟩⟩

/-- What is given with a common type: nothing to do for a type that is the common one already, and
the conversion that the search finds for any other. -/
theorem unifyWithConversions_eq_ok {ts : List Ty} {u : Ty} {cs : List Conversion}
    (h : unifyWithConversions ts safety = .ok (u, cs)) :
    unify? ts safety = some u ∧
      List.Forall₂ (fun t c => t = u ∧ c = .identity ∨ Conversion.between? t u safety = some c)
        ts cs := by
  obtain ⟨common, hcommon, h⟩ := bind_eq_ok_iff.mp h
  obtain ⟨conversions, hconversions, h⟩ := bind_eq_ok_iff.mp h
  cases h
  refine ⟨unify_eq_ok_iff.mp hcommon, (mapM_eq_ok_iff.mp hconversions).imp fun t c hinto => ?_⟩
  unfold conversionInto at hinto
  split at hinto
  · rename_i heq
    cases hinto
    exact .inl ⟨heq, rfl⟩
  · split at hinto
    · rename_i hbetween
      cases hinto
      exact .inr hbetween
    · cases hinto

end Ty

/-- **Reachability.** Every type is the common type or converts to it. So the common type is found
together with its conversions, one for each type in the order given, whenever it is found at all;
otherwise the fault is the same, and it is never that some type does not reach the common type. -/
theorem common_type_reachable (ts : List Ty) (safety : Safety) :
    (∀ u, Ty.unify ts safety = .ok u →
      (∀ t ∈ ts, t = u ∨ (Conversion.between? t u safety).isSome = true) ∧
      ∃ cs, Ty.unifyWithConversions ts safety = .ok (u, cs) ∧ cs.length = ts.length ∧
        ∀ (i : Nat) t c, ts[i]? = some t → cs[i]? = some c →
          if t = u then c = .identity else Conversion.between? t u safety = some c) ∧
    (∀ fault, Ty.unifyWithConversions ts safety = .error fault ↔
      Ty.unify ts safety = .error fault) ∧
    ∀ fault, Ty.unifyWithConversions ts safety = .error fault → fault.isInternal = false := by
  have failing : ∀ fault, Ty.unifyWithConversions ts safety = .error fault ↔
      Ty.unify ts safety = .error fault := by
    intro fault
    cases hu : Ty.unify ts safety with
    | ok u =>
      obtain ⟨cs, hcs, -⟩ := Ty.exists_unifyWithConversions hu
      simp [hcs]
    | error fault' =>
      have hfail : Ty.unifyWithConversions ts safety = .error fault' := by
        rw [Ty.unifyWithConversions, hu]
        rfl
      simp [hfail]
  refine ⟨fun u hu => ⟨fun t ht => ?_, ?_⟩, failing, fun fault h => ?_⟩
  · exact .inr ((Ty.common_of_unify? (Ty.unify_eq_ok_iff.mp hu)).converts ht)
  · obtain ⟨cs, hcs, hall⟩ := Ty.exists_unifyWithConversions hu
    obtain ⟨length, each⟩ := forall₂_iff_getElem?.mp hall
    refine ⟨cs, hcs, length.symm, fun i t c ht hc => ?_⟩
    have hinto := each i t c ht hc
    unfold Ty.conversionInto at hinto
    split at hinto
    · rename_i heq
      cases hinto
      rw [if_pos heq]
    · rename_i hne
      rw [if_neg hne]
      split at hinto
      · cases hinto
        assumption
      · cases hinto
  · rcases Ty.cause_of_unify ((failing fault).mp h) with hcause | ⟨left, right, hcause⟩ <;>
      simp [Fault.isInternal, hcause]

/-- A tuple and a list settle on a list, and a placeholder goes along. -/
theorem common_type_reachable_tuple_and_list :
    let ts : List Ty := [.tuple [.number, .dynamic], .dynamic, .list .number]
    Ty.unify ts .safe = .ok (.list .number) ∧
      (Conversion.between? (.tuple [.number, .dynamic]) (.list .number) .safe).isSome = true ∧
      ∃ cs, Ty.unifyWithConversions ts .safe = .ok (.list .number, cs) ∧ cs.length = 3 := by
  intro ts
  have hunify : Ty.unify ts .safe = .ok (.list .number) := by cbv
  obtain ⟨reached, cs, hcs, length, -⟩ := (common_type_reachable ts .safe).1 _ hunify
  have htuple := (reached (.tuple [.number, .dynamic]) (by simp [ts])).resolve_left (by simp)
  exact ⟨hunify, htuple, cs, hcs, length⟩

end Retype
