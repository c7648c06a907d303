import Retype.Proofs.Narrowest
import Retype.Proofs.Risk

/-!
# Risks keep common types

Types with a safe common type have one with leave to take risks (`isSome_unify?_risky`). For
definite types, without placeholders and optional marks, it is the same one (`unify?_risky_eq`).

With leave to take risks the same candidates are tried, but more of them pass, so the search could
stop at an earlier one. It does not, because the safe common type stands in front:

* a definite type that safely reaches another one is less general than it
  (`compare_eq_lt_of_reaches`): where the two differ, a set became a list, a tuple a list, or an
  object a map, and all these differences point in one direction;
* so the safe common type is more general than each of the other types. Whatever cycles there are
  among those, nothing holds it back and it holds back all of them (`leads_of_joined`).
-/

namespace Retype

namespace Ty

/-! ### The type that is reached is more general -/

/-- Definite objects of the same names are the same if their types are. -/
theorem attribute_eq_of_type_eq {as bs : List (Attribute Ty)} (has : (Ty.object as).Unmarked)
    (hbs : (Ty.object bs).Unmarked) (names : Named.names as = Named.names bs) {i : Nat}
    {a b : Attribute Ty} (ha : as[i]? = some a) (hb : bs[i]? = some b) (heq : a.type = b.type) :
    a = b := by
  have required : ∀ {as : List (Attribute Ty)} {a : Attribute Ty}, (Ty.object as).Unmarked →
      a ∈ as → a.optional = false := fun h ha =>
    (throughout_object.mp h).1 _ (List.mem_map_of_mem ha)
  have mark : a.optional = b.optional := by
    rw [required has (List.mem_of_getElem? ha), required hbs (List.mem_of_getElem? hb)]
  exact Attribute.ext (Named.name_eq_of_names names ha hb) mark heq

/-- **Generality.** A definite type that safely reaches another one is less general. -/
theorem compare_eq_lt_of_reaches {t u : Ty} (ht : t.Definite) (hu : u.Definite)
    (h : Reaches .safe t u) (hne : t ≠ u) : Preference.compare u t = .lt := by
  induction t generalizing u with
  | primitive p =>
    obtain ⟨c, plan⟩ := h.converts.plan
    cases plan with
    | same => exact absurd rfl hne
    | pass => exact absurd rfl hu.ne_dynamic
    | primitive =>
      have careful := h.careful rfl
      obtain rfl : p = _ := by simpa [widens] using careful
      exact absurd rfl hne
  | sequence k s ih =>
    obtain ⟨l, e, rfl, permitted, -⟩ := h.converts.of_sequence hu
    have hs : s.Definite := ht.part List.mem_cons_self
    have inside : s ≠ e → Preference.compare e s = .lt :=
      ih hs (hu.part List.mem_cons_self) (h.of_sequence hs.plain.lawful).2
    cases k <;> cases l
    · exact inside fun heq => hne (congrArg _ heq)
    · cases permitted
    · rfl
    · exact inside fun heq => hne (congrArg _ heq)
  | map s ih =>
    obtain ⟨e, rfl, -⟩ := h.converts.of_map hu
    have hs : s.Definite := ht.part List.mem_cons_self
    exact ih hs (hu.part List.mem_cons_self) (h.of_map hs.plain.lawful) fun heq =>
      hne (congrArg _ heq)
  | tuple ss ih =>
    rcases h.converts.of_tuple hu with ⟨us, rfl, -⟩ | ⟨e, rfl, -⟩
    · obtain ⟨length, each⟩ := h.of_tuple fun s (hs : s ∈ ss) => (ht.part hs).plain.lawful
      rw [Preference.compare, if_pos length.symm, Preference.compareAll_eq_zipWith]
      refine Preference.unanimous_zipWith_eq_lt length.symm (fun heq => hne (congrArg _ heq.symm))
        Preference.compare_self fun i u s hu' hs hus => ?_
      have hmem := List.mem_of_getElem? hs
      exact ih s hmem (ht.part hmem) (hu.part (List.mem_of_getElem? hu')) (each i s u hs hu')
        hus.symm
    · rfl
  | object as ih =>
    rcases h.converts.of_object ht.plain.lawful hu with ⟨bs, rfl, names, -⟩ | ⟨e, rfl, -⟩
    · rw [Preference.compare, if_pos names.symm, Preference.compareAttributes_eq_zipWith]
      refine Preference.unanimous_zipWith_eq_lt (Named.length_eq_of_names names).symm
        (fun heq => hne (congrArg _ heq.symm)) (fun a => Preference.compare_self a.type)
        fun i b a hb ha hba => ?_
      have hmem := List.mem_of_getElem? ha
      have hpart : a.type ∈ (Ty.object as).parts := List.mem_map_of_mem hmem
      have hpart' : b.type ∈ (Ty.object bs).parts := List.mem_map_of_mem (List.mem_of_getElem? hb)
      have reaches : Reaches .safe a.type b.type :=
        (h.of_object ht.plain.lawful).2 a hmem b
          (Named.find?_of_names ht.plain.lawful.ascending names ha hb)
          (Named.find?_of_names hu.plain.lawful.ascending names.symm hb ha)
      refine ih a hmem (ht.part hpart) (hu.part hpart') reaches fun heq => hba ?_
      exact (attribute_eq_of_type_eq ht.plain.unmarked hu.plain.unmarked names ha hb heq).symm
    · rfl
  | capsule n =>
    obtain ⟨c, plan⟩ := h.converts.plan
    cases plan with
    | same => exact absurd rfl hne
    | pass => exact absurd rfl hu.ne_dynamic
  | dynamic => exact absurd rfl ht.ne_dynamic

/-- **The leader.** A definite type that the others safely become leads them, whichever of them
are in question. -/
theorem leads_of_joined {types : List Ty} {u : Ty} (definite : ∀ t ∈ types, t.Definite)
    (mem : u ∈ types) (joined : joinedBy .safe types u = true) (good : Ty → Bool) :
    Preference.Leads types good u := by
  have above : ∀ t ∈ types, t ≠ u → Preference.compare u t = .lt := fun t ht hne =>
    compare_eq_lt_of_reaches (definite t ht) (definite u mem)
      ((definite t ht).plain.lawful.reaches_of_joins (joinedBy_iff.mp joined t ht)) hne
  refine .first (.intro u ?_) fun t ht _ _ hne => .single ⟨mem, above t ht hne⟩
  -- nothing is more general
  rintro t ⟨ht, hlt⟩
  by_cases heq : t = u
  · rw [heq, Preference.compare_self] at hlt
    cases hlt
  · rw [Preference.compare_swap, above t ht heq] at hlt
    cases hlt

/-! ### The same common type -/

/-- **Conservativity.** The safe common type of definite types is their common type with leave to
take risks. -/
theorem unify?_risky_eq {ts : List Ty} {u : Ty} (definite : ∀ t ∈ ts, t.Definite)
    (h : unify? ts .safe = some u) : unify? ts .risky = some u := by
  induction hn : depthAll ts using Nat.strongRecOn generalizing ts u with
  | ind n ih =>
    subst hn
    by_cases apart : Apart (concrete ts)
    · have definite' : ∀ t ∈ concrete ts, t.Definite := fun t ht =>
        definite t (mem_concrete.mp ht).1
      have lawful : ∀ t ∈ concrete ts, t.Lawful := fun t ht => (definite' t ht).plain.lawful
      rw [unify?_of_apart apart] at h ⊢
      cases hof : Blueprint.of (concrete ts) .safe with
      | clash =>
        rw [merge?_of_clash hof] at h
        cases h
      | choose =>
        have hof' : Blueprint.of (concrete ts) .risky = .choose := by
          rw [Blueprint.of_risky_eq apart.ne_nil (by simp [hof]), hof]
        obtain ⟨mem, joined⟩ := mem_of_merge? hof h
        refine merge?_of_leads hof' mem (joinedBy_iff.mpr fun t ht => ?_)
          (leads_of_joined definite' mem joined _)
        have converts : Converts .safe t u := .of_joins (joinedBy_iff.mp joined t ht)
        exact joins_iff.mpr (.inr ⟨converts.risky (lawful t ht), .inl rfl⟩)
      | build frame groups =>
        have hof' : Blueprint.of (concrete ts) .risky = .build frame groups := by
          rw [Blueprint.of_risky_eq apart.ne_nil (by simp [hof]), hof]
        rw [merge?_of_build hof lawful] at h
        rw [merge?_of_build hof' lawful]
        obtain ⟨us, hus, hfill⟩ := Option.bind_eq_some_iff.mp h
        refine Option.bind_eq_some_iff.mpr
          ⟨us, Conversion.mapM_eq_some_of_imp (fun group hg v hv => ?_) hus, hfill⟩
        refine ih _ (depthAll_lt_of_group hof hg) (fun p hp => ?_) hv rfl
        obtain ⟨t, ht, hpt⟩ := exists_mem_of_group hof hg p hp
        exact (definite' t ht).part hpt
    · have hne : ts ≠ [] := (common_of_unify? h).ne_nil
      obtain ⟨v, hv⟩ := exists_unify?_of_not_apart hne apart
      rw [hv ts (.refl ts)] at h ⊢
      exact h

end Ty

/-- **Risks extend unification.** Types with a safe common type have one with leave to take risks,
and it is the same one if the types have neither placeholders nor optional attributes. -/
theorem unify_risky_extends {ts : List Ty} {u : Ty} (lawful : ∀ t ∈ ts, t.Lawful)
    (h : Ty.unify ts .safe = .ok u) :
    ∃ u', Ty.unify ts .risky = .ok u' ∧
      ((∀ t ∈ ts, t.Unmarked ∧ t.hasDynamic = false) → u' = u) := by
  rw [Ty.unify_eq_ok_iff] at h
  obtain ⟨u', hu'⟩ := Option.isSome_iff_exists.mp
    (Ty.isSome_unify?_risky lawful (fun s _ hs t hst => hst.risky hs) (Nat.le_refl _)
      (Option.isSome_of_eq_some h))
  refine ⟨u', Ty.unify_eq_ok_iff.mpr hu', fun hall => ?_⟩
  have same := Ty.unify?_risky_eq
    (fun t ht => ⟨⟨(hall t ht).1, lawful t ht⟩, (hall t ht).2⟩) h
  exact Option.some.inj (hu'.symm.trans same)

/-- A set, a tuple and a list meet. At a risk the set would do as well, but the list is in front. -/
theorem unify_risky_extends_set_and_list :
    let ts : List Ty := [.set (.set .number), .tuple [.tuple [.number]], .list (.list .number)]
    (∀ t ∈ ts, t.Lawful ∧ t.Unmarked ∧ t.hasDynamic = false) ∧
      Ty.unify ts .safe = .ok (.list (.list .number)) ∧
      (∀ t ∈ ts, (Conversion.between? t (.set (.set .number)) .risky).isSome = true) ∧
      Ty.unify ts .risky = .ok (.list (.list .number)) := by
  intro ts
  have hall : ∀ t ∈ ts, t.Lawful ∧ t.Unmarked ∧ t.hasDynamic = false := by decide
  have hsafe : Ty.unify ts .safe = .ok (.list (.list .number)) := by cbv
  obtain ⟨u', hu', same⟩ := unify_risky_extends (fun t ht => (hall t ht).1) hsafe
  rw [same fun t ht => (hall t ht).2] at hu'
  refine ⟨hall, hsafe, fun t ht => ?_, hu'⟩
  simp only [ts, List.mem_cons, List.not_mem_nil, or_false] at ht
  rcases ht with rfl | rfl | rfl <;> cbv

end Retype
