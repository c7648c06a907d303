import Retype.Proofs.Ty.Refine

/-!
# Placeholders that are there already

A target is *grounded* in a source if it has placeholders only where the source has them
(`Ty.Grounded`): elsewhere it is complete, or the two have the same shape. Refining a grounded
type by the source changes nothing (`Grounded.eq_of_refines`), so a conversion to it leaves no
choice of type.

Common types are grounded in the types they bring together when these come from filling one
pattern from complete inputs: then at each placeholder of the pattern a type is blank or complete
(`Ty.Complete`), and the common type is blank only where all are (`grounded_of_common`).
-/

namespace Retype

namespace Ty

/-- Nothing is known of the type, or everything. -/
def Complete (t : Ty) : Prop := t = .dynamic ∨ t.hasDynamic = false

/-- The first type has a placeholder only where the second has one. -/
inductive Grounded : Ty → Ty → Prop
  | solid {t s : Ty} (complete : t.hasDynamic = false) : Grounded t s
  | blank : Grounded .dynamic .dynamic
  | sequence {k l : SequenceKind} {t s : Ty} (element : Grounded t s) :
      Grounded (.sequence k t) (.sequence l s)
  | map {t s : Ty} (element : Grounded t s) : Grounded (.map t) (.map s)
  | tuple {ts ss : List Ty} (length : ts.length = ss.length)
      (each : ∀ (i : Nat) t s, ts[i]? = some t → ss[i]? = some s → Grounded t s) :
      Grounded (.tuple ts) (.tuple ss)
  | object {bs as : List (Attribute Ty)} (names : Named.names bs = Named.names as)
      (each : ∀ (i : Nat) (b a : Attribute Ty), bs[i]? = some b → as[i]? = some a →
        Grounded b.type a.type) :
      Grounded (.object bs) (.object as)

theorem grounded_refl (t : Ty) : t.Grounded t := by
  induction t with
  | primitive k => exact .solid rfl
  | sequence k e ih => exact .sequence ih
  | map e ih => exact .map ih
  | tuple ts ih =>
    refine .tuple rfl fun i t s ht hs => ?_
    obtain rfl : t = s := Option.some.inj (ht.symm.trans hs)
    exact ih t (List.mem_of_getElem? ht)
  | object as ih =>
    refine .object rfl fun i b a hb ha => ?_
    obtain rfl : b = a := Option.some.inj (hb.symm.trans ha)
    exact ih b (List.mem_of_getElem? hb)
  | capsule n => exact .solid rfl
  | dynamic => exact .blank

/-- Refining a grounded type from the source changes nothing. -/
theorem Grounded.eq_of_refines {t s r : Ty} (h : t.Grounded s) (ht : t.Lawful) (hs : s.Lawful)
    (hr : Refines t s r) : r = t := by
  induction h generalizing r with
  | solid complete => exact hr.eq_of_hasDynamic complete
  | blank => cases hr <;> rfl
  | sequence _ ih =>
    cases hr with
    | sequence element =>
      rw [ih (throughout_sequence.mp ht).2 (throughout_sequence.mp hs).2 element]
  | map _ ih =>
    cases hr with
    | map element => rw [ih (throughout_map.mp ht).2 (throughout_map.mp hs).2 element]
  | @tuple ts ss length _ ih =>
    cases hr with
    | @tuple _ _ rs input length' each =>
      congr 1
      rw [← List.map_id rs, ← List.map_id ts]
      refine map_eq_map_of_getElem? length' fun i r t hr htt => ?_
      obtain ⟨s, hss⟩ := exists_getElem?_of_length input htt
      exact ih i t s htt hss ((throughout_tuple.mp ht).2 t (List.mem_of_getElem? htt))
        ((throughout_tuple.mp hs).2 s (List.mem_of_getElem? hss)) (each i t s r htt hss hr)
  | @object bs as names _ ih =>
    cases hr with
    | object layout found missing =>
      refine object_eq_of_layout layout fun i r b hr hb => ?_
      obtain ⟨a, ha, hfind⟩ :=
        Named.exists_find?_getElem? (Lawful.ascending hs) names.symm hb
      exact ih i b a hb ha ((throughout_object.mp ht).2 b (List.mem_of_getElem? hb))
        ((throughout_object.mp hs).2 a (List.mem_of_getElem? ha)) (found i b a r hb hr hfind)

/-- Marks do not matter to where the placeholders are. -/
theorem Grounded.stripped {t s : Ty} (h : t.Grounded s) : t.stripped.Grounded s := by
  induction h with
  | solid complete => exact .solid (by rw [hasDynamic_stripped, complete])
  | blank => exact .blank
  | sequence _ ih => exact .sequence ih
  | map _ ih => exact .map ih
  | tuple length _ ih =>
    refine .tuple (by simpa using length) fun i t s ht hs => ?_
    obtain ⟨t, ht', rfl⟩ := getElem?_strippedAll.mp ht
    exact ih i t s ht' hs
  | object names _ ih =>
    refine .object (by simpa using names) fun i b a hb ha => ?_
    obtain ⟨b, hb', rfl⟩ := getElem?_strippedAttributes.mp hb
    exact ih i b a hb' ha

theorem Grounded.eq_stripped_of_refines {t s r : Ty} (h : t.Grounded s) (ht : t.Lawful)
    (hs : s.Lawful) (hr : Refines t.stripped s r) : r = t.stripped :=
  h.stripped.eq_of_refines (Throughout.stripped stable_lawful ht) hs hr

/-! ### Complete inputs -/

/-- Blank and complete types have a complete common type, unless all of them are blank. -/
theorem blank_or_solid_of_common {safety : Safety} {ts : List Ty} {u : Ty}
    (h : Common safety ts u) (hall : ∀ t ∈ ts, t.Complete) :
    (u = .dynamic ∧ ∀ t ∈ ts, t = .dynamic) ∨ u.hasDynamic = false := by
  by_cases hne : concrete ts = []
  · left
    have hblank : ∀ t ∈ ts, t = .dynamic := by
      intro t ht
      by_contra hsolid
      have hmem : t ∈ concrete ts := mem_concrete.mpr ⟨ht, hsolid⟩
      rw [hne] at hmem
      cases hmem
    exact ⟨h.eq_of_forall_eq hblank, hblank⟩
  · right
    refine hasDynamic_common h hne fun t ht => ?_
    obtain ⟨hmem, hsolid⟩ := mem_concrete.mp ht
    exact (hall t hmem).resolve_left hsolid

theorem Complete.common {safety : Safety} {ts : List Ty} {u : Ty} (h : Common safety ts u)
    (hall : ∀ t ∈ ts, t.Complete) : u.Complete :=
  (blank_or_solid_of_common h hall).imp And.left id

theorem complete_merged {ts : List Ty} (hall : ∀ t ∈ ts, t.Complete) : (merged ts).Complete := by
  unfold merged
  cases hu : unify? ts .risky with
  | none => exact .inl rfl
  | some u => exact .common (common_of_unify? hu) hall

/-- The parts of a complete type are complete, unless it is blank. -/
theorem Complete.part {t p : Ty} (h : t.Complete) (hp : p ∈ t.parts) : p.Complete := by
  rcases h with rfl | h
  · cases hp
  · exact .inr ((hasDynamic_eq_false_iff.mp h).2 p hp)

/-- A type refined from a complete input has blank or complete types for its placeholders. -/
theorem Refines.fills_complete {d i r : Ty} (h : Refines d i r) (hi : i.Complete) :
    r.Fills Complete d := by
  have keep : ∀ d : Ty, d.Fills Complete d := fills_refl (.inl rfl)
  induction h with
  | blank => exact keep _
  | hole => exact .hole hi
  | primitive => exact .primitive
  | capsule => exact .capsule
  | map _ ih => exact .map (ih (hi.part (by simp [parts])))
  | gather _ ih =>
    exact .map (ih (complete_merged fun t ht => hi.part ht))
  | sequence _ ih => exact .sequence (ih (hi.part (by simp [parts])))
  | collect _ ih => exact .sequence (ih (complete_merged fun t ht => hi.part ht))
  | select layout _ ih =>
    exact .object (names_eq_of_layout layout) fun n r d hr hd =>
      ih n d r hd hr (hi.part (by simp [parts]))
  | @object ds is rs layout _ missing ih =>
    refine .object (names_eq_of_layout layout) fun n r d hr hd => ?_
    cases hfind : Named.find? d.name is with
    | none => exact missing n d r hd hr hfind ▸ keep _
    | some i =>
      exact ih n d i r hd hr hfind (hi.part (List.mem_map_of_mem (Named.mem_of_find? hfind).1))
  | tuple input length _ ih =>
    refine .tuple length fun n r d hr hd => ?_
    obtain ⟨i, hi'⟩ := exists_getElem?_of_length input hd
    exact ih n d i r hd hi' hr (hi.part (List.mem_of_getElem? hi'))

/-- **Grounding.** Types that fill one pattern, each placeholder by a blank or complete type, have
a common type that is grounded in each of them. -/
theorem grounded_of_common {safety : Safety} {ts : List Ty} {u p : Ty} (h : Common safety ts u)
    (hp : p.Lawful) (hall : ∀ t ∈ ts, t.Fills Complete p) : ∀ t ∈ ts, u.Grounded t := by
  refine Common.along_pattern (M := fun _ u t => u.Grounded t) (fun _ => grounded_refl _)
    (fun h hcomplete t ht => ?_) .sequence .map (fun hu ht each => ?_) (fun hu ht each => ?_)
    h hp hall
  · rcases blank_or_solid_of_common h hcomplete with ⟨rfl, hblank⟩ | hsolid
    · rw [hblank t ht]
      exact .blank
    · exact .solid hsolid
  · refine .tuple (hu.trans ht.symm) fun i u t hui hti => ?_
    obtain ⟨p, hpi⟩ := exists_getElem?_of_length hu.symm hui
    exact each i p u t hpi hui hti
  · refine .object (hu.trans ht.symm) fun i u t hui hti => ?_
    obtain ⟨p, hpi, -⟩ := Named.exists_getElem? hu.symm hui
    exact each i p u t hpi hui hti

end Ty

end Retype
