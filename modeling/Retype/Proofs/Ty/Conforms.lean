import Retype.Proofs.Named
import Retype.Proofs.Ty.Common

/-!
# Types that fill the placeholders of a pattern

A type fills a pattern if the two are the same tree except where the pattern has a placeholder;
there the type may have anything, or anything with a given property (`Ty.Fills`). Optional marks
play no part. With no condition on what stands for a placeholder, the type *conforms* to the
pattern (`Ty.Conforms`).

* Conformance is a preorder (`conforms_refl`, `Conforms.trans`), antisymmetric up to optional
  marks (`Conforms.antisymm`), and below a pattern without placeholders there is only the pattern
  itself (`Conforms.stripped_eq`).
* The common type of types that all fill a pattern fills it as well (`Fills.common`): types that
  agree wherever the pattern speaks are brought together only where it has placeholders.
-/

namespace Retype

namespace Ty

/-- The type is the pattern with its placeholders filled by types with the given property. -/
inductive Fills (P : Ty → Prop) : Ty → Ty → Prop
  | hole {t : Ty} (free : P t) : Fills P t .dynamic
  | primitive {k : Primitive} : Fills P (.primitive k) (.primitive k)
  | sequence {k : SequenceKind} {s p : Ty} (element : Fills P s p) :
      Fills P (.sequence k s) (.sequence k p)
  | map {s p : Ty} (element : Fills P s p) : Fills P (.map s) (.map p)
  | tuple {ss ps : List Ty} (length : ss.length = ps.length)
      (each : ∀ (i : Nat) s p, ss[i]? = some s → ps[i]? = some p → Fills P s p) :
      Fills P (.tuple ss) (.tuple ps)
  | object {as bs : List (Attribute Ty)} (names : Named.names as = Named.names bs)
      (each : ∀ (i : Nat) (a b : Attribute Ty), as[i]? = some a → bs[i]? = some b →
        Fills P a.type b.type) :
      Fills P (.object as) (.object bs)
  | capsule {n : String} : Fills P (.capsule n) (.capsule n)

/-- The type is the pattern except where the pattern has a placeholder. -/
def Conforms (t p : Ty) : Prop := t.Fills (fun _ => True) p

variable {P Q : Ty → Prop}

theorem fills_refl (h : P .dynamic) (t : Ty) : t.Fills P t := by
  induction t with
  | primitive k => exact .primitive
  | sequence k e ih => exact .sequence ih
  | map e ih => exact .map ih
  | tuple ts ih =>
    refine .tuple rfl fun i s p hs hp => ?_
    obtain rfl : s = p := Option.some.inj (hs.symm.trans hp)
    exact ih s (List.mem_of_getElem? hs)
  | object as ih =>
    refine .object rfl fun i a b ha hb => ?_
    obtain rfl : a = b := Option.some.inj (ha.symm.trans hb)
    exact ih a (List.mem_of_getElem? ha)
  | capsule n => exact .capsule
  | dynamic => exact .hole h

theorem conforms_refl (t : Ty) : t.Conforms t := fills_refl trivial t

theorem conforms_dynamic (t : Ty) : t.Conforms .dynamic := .hole trivial

theorem Fills.mono (hPQ : ∀ t, P t → Q t) {t p : Ty} (h : t.Fills P p) : t.Fills Q p := by
  induction h with
  | hole free => exact .hole (hPQ _ free)
  | primitive => exact .primitive
  | sequence _ ih => exact .sequence ih
  | map _ ih => exact .map ih
  | tuple length _ ih => exact .tuple length ih
  | object names _ ih => exact .object names ih
  | capsule => exact .capsule

theorem Fills.conforms {t p : Ty} (h : t.Fills P p) : t.Conforms p := h.mono fun _ _ => trivial

/-- Patterns may be filled one after the other. -/
theorem Conforms.trans {t p r : Ty} (htp : t.Conforms p) (hpr : p.Conforms r) : t.Conforms r := by
  unfold Conforms at *
  induction hpr generalizing t with
  | hole => exact .hole trivial
  | primitive => cases htp; exact .primitive
  | sequence _ ih => cases htp with | sequence h => exact .sequence (ih h)
  | map _ ih => cases htp with | map h => exact .map (ih h)
  | tuple length _ ih =>
    cases htp with
    | tuple length' each' =>
      refine .tuple (length'.trans length) fun i s p hs hp => ?_
      obtain ⟨m, hm⟩ := exists_getElem?_of_length length hp
      exact ih i m p hm hp (each' i s m hs hm)
  | object names _ ih =>
    cases htp with
    | object names' each' =>
      refine .object (names'.trans names) fun i a b ha hb => ?_
      obtain ⟨m, hm, -⟩ := Named.exists_getElem? names hb
      exact ih i m b hm hb (each' i a m ha hm)
  | capsule => cases htp; exact .capsule

/-! ### Optional marks -/

/-- The stripped tuple and the stripped object, position by position. -/
theorem getElem?_strippedAll {ts : List Ty} {i : Nat} {s : Ty} :
    (strippedAll ts)[i]? = some s ↔ ∃ t, ts[i]? = some t ∧ t.stripped = s := by
  rw [strippedAll_eq_map, List.getElem?_map, Option.map_eq_some_iff]

theorem getElem?_strippedAttributes {as : List (Attribute Ty)} {i : Nat} {b : Attribute Ty} :
    (strippedAttributes as)[i]? = some b ↔
      ∃ a, as[i]? = some a ∧ (⟨a.name, false, a.type.stripped⟩ : Attribute Ty) = b := by
  rw [strippedAttributes_eq_map, List.getElem?_map, Option.map_eq_some_iff]

@[simp] theorem length_strippedAll (ts : List Ty) : (strippedAll ts).length = ts.length := by
  simp [strippedAll_eq_map]

@[simp] theorem names_strippedAttributes (as : List (Attribute Ty)) :
    Named.names (strippedAttributes as) = Named.names as := by
  simp [strippedAttributes_eq_map, Named.names, Named.name, Function.comp_def]

/-- Marks on the pattern do not matter. -/
theorem fills_stripped {t p : Ty} : t.Fills P p.stripped ↔ t.Fills P p := by
  induction p generalizing t with
  | primitive k => exact Iff.rfl
  | sequence k e ih =>
    constructor
    · intro h
      cases h with | sequence h => exact .sequence (ih.mp h)
    · intro h
      cases h with | sequence h => exact .sequence (ih.mpr h)
  | map e ih =>
    constructor
    · intro h
      cases h with | map h => exact .map (ih.mp h)
    · intro h
      cases h with | map h => exact .map (ih.mpr h)
  | tuple ps ih =>
    constructor
    · intro h
      cases h with
      | tuple length each =>
        refine .tuple (by simpa using length) fun i s p hs hp => ?_
        exact (ih p (List.mem_of_getElem? hp)).mp
          (each i s _ hs (getElem?_strippedAll.mpr ⟨p, hp, rfl⟩))
    · intro h
      cases h with
      | tuple length each =>
        refine .tuple (by simpa using length) fun i s p hs hp => ?_
        obtain ⟨p, hp', rfl⟩ := getElem?_strippedAll.mp hp
        exact (ih p (List.mem_of_getElem? hp')).mpr (each i s p hs hp')
  | object bs ih =>
    constructor
    · intro h
      cases h with
      | object names each =>
        refine .object (by simpa using names) fun i a b ha hb => ?_
        exact (ih b (List.mem_of_getElem? hb)).mp
          (each i a _ ha (getElem?_strippedAttributes.mpr ⟨b, hb, rfl⟩))
    · intro h
      cases h with
      | object names each =>
        refine .object (by simpa using names) fun i a b ha hb => ?_
        obtain ⟨b, hb', rfl⟩ := getElem?_strippedAttributes.mp hb
        exact (ih b (List.mem_of_getElem? hb')).mpr (each i a b ha hb')
  | capsule n => exact Iff.rfl
  | dynamic => exact Iff.rfl

theorem conforms_stripped {t p : Ty} : t.Conforms p.stripped ↔ t.Conforms p := fills_stripped

theorem stripped_conforms (t : Ty) : t.stripped.Conforms t :=
  conforms_stripped.mp (conforms_refl _)

/-- Where the pattern has no placeholder there is nothing to choose. -/
theorem Conforms.stripped_eq {t p : Ty} (h : t.Conforms p) (hp : p.hasDynamic = false) :
    t.stripped = p.stripped := by
  unfold Conforms at h
  induction h with
  | hole => cases hp
  | primitive => rfl
  | sequence _ ih => rw [stripped, stripped, ih hp]
  | map _ ih => rw [stripped, stripped, ih hp]
  | tuple length _ ih =>
    have hparts := (hasDynamic_eq_false_iff.mp hp).2
    simp only [stripped, strippedAll_eq_map, tuple.injEq]
    refine map_eq_map_of_getElem? length fun i s p hs hp => ?_
    exact ih i s p hs hp (hparts p (List.mem_of_getElem? hp))
  | @object as bs names _ ih =>
    have hparts := (hasDynamic_eq_false_iff.mp hp).2
    have length : as.length = bs.length := by simpa [Named.names] using congrArg List.length names
    simp only [stripped, strippedAttributes_eq_map, object.injEq]
    refine map_eq_map_of_getElem? length fun i a b ha hb => ?_
    obtain ⟨a', ha', hname⟩ := Named.exists_getElem? names hb
    obtain rfl : a = a' := Option.some.inj (ha.symm.trans ha')
    have hb' : b.type ∈ (Ty.object bs).parts := List.mem_map_of_mem (List.mem_of_getElem? hb)
    rw [ih i a b ha hb (hparts _ hb'), show a.name = b.name from hname]
  | capsule => rfl

/-- Two types that conform to each other differ at most in their marks. -/
theorem Conforms.antisymm {t p : Ty} (htp : t.Conforms p) (hpt : p.Conforms t) :
    t.stripped = p.stripped := by
  unfold Conforms at *
  induction htp with
  | hole => cases hpt; rfl
  | primitive => rfl
  | sequence _ ih => cases hpt with | sequence h => rw [stripped, stripped, ih h]
  | map _ ih => cases hpt with | map h => rw [stripped, stripped, ih h]
  | tuple length _ ih =>
    cases hpt with
    | tuple _ each' =>
      simp only [stripped, strippedAll_eq_map, tuple.injEq]
      exact map_eq_map_of_getElem? length fun i s p hs hp => ih i s p hs hp (each' i p s hp hs)
  | @object as bs names _ ih =>
    cases hpt with
    | object _ each' =>
      have length : as.length = bs.length := by
        simpa [Named.names] using congrArg List.length names
      simp only [stripped, strippedAttributes_eq_map, object.injEq]
      refine map_eq_map_of_getElem? length fun i a b ha hb => ?_
      obtain ⟨a', ha', hname⟩ := Named.exists_getElem? names hb
      obtain rfl : a = a' := Option.some.inj (ha.symm.trans ha')
      rw [ih i a b ha hb (each' i b a hb ha), show a.name = b.name from hname]
  | capsule => rfl

/-! ### Common types -/

/-- **Induction.** Types that all fill a pattern are brought together along the pattern: outside
its placeholders part by part, at a placeholder as whatever stands there. A relation between the
pattern, the common type and each of the types that follows these steps holds of all of them. -/
theorem Common.along_pattern {safety : Safety} {M : Ty → Ty → Ty → Prop}
    (same : ∀ {p t : Ty}, t.Fills P p → M p t t)
    (hole : ∀ {ts : List Ty} {u : Ty}, Common safety ts u → (∀ t ∈ ts, P t) →
      ∀ t ∈ ts, M .dynamic u t)
    (sequence : ∀ {k : SequenceKind} {p u t : Ty}, M p u t →
      M (.sequence k p) (.sequence k u) (.sequence k t))
    (map : ∀ {p u t : Ty}, M p u t → M (.map p) (.map u) (.map t))
    (tuple : ∀ {ps us ts : List Ty}, us.length = ps.length → ts.length = ps.length →
      (∀ (i : Nat) p u t, ps[i]? = some p → us[i]? = some u → ts[i]? = some t → M p u t) →
      M (.tuple ps) (.tuple us) (.tuple ts))
    (object : ∀ {ps us ts : List (Attribute Ty)}, Named.names us = Named.names ps →
      Named.names ts = Named.names ps →
      (∀ (i : Nat) (p u t : Attribute Ty), ps[i]? = some p → us[i]? = some u → ts[i]? = some t →
        M p.type u.type t.type) →
      M (.object ps) (.object us) (.object ts))
    {ts : List Ty} {u p : Ty} (h : Common safety ts u) (hp : p.Lawful)
    (hall : ∀ t ∈ ts, t.Fills P p) : ∀ t ∈ ts, M p u t := by
  induction p generalizing ts u with
  | dynamic =>
    exact hole h fun t ht => by cases hall t ht with | hole free => exact free
  | primitive k =>
    intro t ht
    have heq : ∀ t ∈ ts, t = .primitive k := fun t ht => by cases hall t ht; rfl
    rw [h.eq_of_forall_eq heq, heq t ht]
    exact same .primitive
  | capsule n =>
    intro t ht
    have heq : ∀ t ∈ ts, t = .capsule n := fun t ht => by cases hall t ht; rfl
    rw [h.eq_of_forall_eq heq, heq t ht]
    exact same .capsule
  | sequence k e ih =>
    have heach : ∀ t ∈ ts, ∃ s, t = .sequence k s ∧ s.Fills P e := fun t ht => by
      cases hall t ht with | sequence element => exact ⟨_, rfl, element⟩
    rcases h.of_sequences (fun t ht => (heach t ht).imp fun _ => And.left) with
      hsame | ⟨e', rfl, inside⟩
    · exact fun t ht => hsame t ht ▸ same (hall t ht)
    -- the elements are brought together along the pattern of the element
    · have hparts : ∀ s ∈ ts.flatMap parts, M e e' s := by
        refine ih inside (throughout_sequence.mp hp).2 fun s hs => ?_
        obtain ⟨t, ht, hs⟩ := List.mem_flatMap.mp hs
        obtain ⟨s', rfl, hfill⟩ := heach t ht
        exact List.mem_singleton.mp hs ▸ hfill
      intro t ht
      obtain ⟨s, rfl, -⟩ := heach t ht
      exact sequence (hparts s (List.mem_flatMap.mpr ⟨_, ht, by simp [parts]⟩))
  | map e ih =>
    have heach : ∀ t ∈ ts, ∃ s, t = .map s ∧ s.Fills P e := fun t ht => by
      cases hall t ht with | map element => exact ⟨_, rfl, element⟩
    rcases h.of_maps (fun t ht => (heach t ht).imp fun _ => And.left) with
      hsame | ⟨e', rfl, inside⟩
    · exact fun t ht => hsame t ht ▸ same (hall t ht)
    · have hparts : ∀ s ∈ ts.flatMap parts, M e e' s := by
        refine ih inside (throughout_map.mp hp).2 fun s hs => ?_
        obtain ⟨t, ht, hs⟩ := List.mem_flatMap.mp hs
        obtain ⟨s', rfl, hfill⟩ := heach t ht
        exact List.mem_singleton.mp hs ▸ hfill
      intro t ht
      obtain ⟨s, rfl, -⟩ := heach t ht
      exact map (hparts s (List.mem_flatMap.mpr ⟨_, ht, by simp [parts]⟩))
  | tuple ps ih =>
    have heach : ∀ t ∈ ts, ∃ ss, t = .tuple ss ∧ ss.length = ps.length ∧
        ∀ (i : Nat) s p, ss[i]? = some s → ps[i]? = some p → s.Fills P p := fun t ht => by
      cases hall t ht with | tuple length each => exact ⟨_, rfl, length, each⟩
    rcases h.of_tuples (fun t ht => (heach t ht).imp fun _ h => ⟨h.1, h.2.1⟩) with
      hsame | ⟨us, rfl, length, inside⟩
    · exact fun t ht => hsame t ht ▸ same (hall t ht)
    -- the members at a position are brought together along the pattern there
    · have hparts : ∀ (i : Nat) p u, ps[i]? = some p → us[i]? = some u →
          ∀ s ∈ ts.filterMap (elementAt? i), M p u s := by
        intro i p u hpi hu
        have hmem := List.mem_of_getElem? hpi
        refine ih p hmem (inside i u hu) ((throughout_tuple.mp hp).2 p hmem) fun s hs => ?_
        obtain ⟨t, ht, hs⟩ := List.mem_filterMap.mp hs
        obtain ⟨ss, rfl, -, each⟩ := heach t ht
        exact each i s p hs hpi
      intro t ht
      obtain ⟨ss, rfl, hlen, -⟩ := heach t ht
      refine tuple length hlen fun i p u s hpi hu hs => hparts i p u hpi hu s ?_
      exact List.mem_filterMap.mpr ⟨_, ht, hs⟩
  | object bs ih =>
    have heach : ∀ t ∈ ts, ∃ as, t = .object as ∧ Named.names as = Named.names bs ∧
        ∀ (i : Nat) (a b : Attribute Ty), as[i]? = some a → bs[i]? = some b →
          a.type.Fills P b.type := fun t ht => by
      cases hall t ht with | object names each => exact ⟨_, rfl, names, each⟩
    -- names are ascending, so the attribute of a name stands at the position of the name
    have ascending : ∀ {as : List (Attribute Ty)}, Named.names as = Named.names bs →
        Named.Ascending as := Lawful.ascending_of_names hp
    rcases h.of_objects (fun t ht => (heach t ht).imp fun _ h => ⟨h.1, h.2.1⟩) with
      hsame | ⟨us, rfl, length, inside⟩
    · exact fun t ht => hsame t ht ▸ same (hall t ht)
    · have hparts : ∀ (i : Nat) (b : Attribute Ty) u, bs[i]? = some b → us[i]? = some u →
          ∀ s ∈ ts.filterMap (attributeType? b.name), M b.type u s := by
        intro i b u hb hu
        have hmem := List.mem_of_getElem? hb
        have hname : (Named.names bs)[i]? = some b.name := by
          rw [Named.names, List.getElem?_map, hb]
          rfl
        refine ih b hmem (inside i b.name u hname hu) ((throughout_object.mp hp).2 b hmem)
          fun s hs => ?_
        obtain ⟨t, ht, hs⟩ := List.mem_filterMap.mp hs
        obtain ⟨as, rfl, names, each⟩ := heach t ht
        obtain ⟨a, hfind, rfl⟩ := Option.map_eq_some_iff.mp hs
        exact each i a b (Named.getElem?_of_find? (ascending names) names hb hfind) hb
      intro t ht
      obtain ⟨as, rfl, names, -⟩ := heach t ht
      refine object (names_record length) names fun i b u a hb hu ha => ?_
      obtain ⟨f, hf, rfl⟩ := Option.map_eq_some_iff.mp ((List.getElem?_map ..).symm.trans hu)
      refine hparts i b f.2 hb (List.getElem?_zip_eq_some.mp hf).2 a.type ?_
      refine List.mem_filterMap.mpr ⟨_, ht, ?_⟩
      obtain ⟨a', ha', hfind⟩ := Named.exists_find?_getElem? (ascending names) names hb
      obtain rfl : a = a' := Option.some.inj (ha.symm.trans ha')
      exact Option.map_eq_some_iff.mpr ⟨a, hfind, rfl⟩

/-- **Closure.** Types that all fill a pattern have a common type that fills it, provided what
may stand for a placeholder is closed under common types. -/
theorem Fills.common {safety : Safety}
    (hP : ∀ {group : List Ty} {v : Ty}, Common safety group v → (∀ t ∈ group, P t) → P v)
    {ts : List Ty} {u p : Ty} (h : Common safety ts u) (hp : p.Lawful)
    (hall : ∀ t ∈ ts, t.Fills P p) : u.Fills P p := by
  obtain ⟨t, ht⟩ := List.exists_mem_of_ne_nil _ h.ne_nil
  refine Common.along_pattern (M := fun p u _ => u.Fills P p) id (fun h hall _ _ => .hole (hP h hall))
    .sequence .map (fun hu ht each => ?_) (fun hu ht each => ?_) h hp hall t ht
  · refine .tuple hu fun i u p hui hpi => ?_
    obtain ⟨t, hti⟩ := exists_getElem?_of_length ht hpi
    exact each i p u t hpi hui hti
  · refine .object hu fun i u p hui hpi => ?_
    obtain ⟨t, hti, -⟩ := Named.exists_getElem? ht hpi
    exact each i p u t hpi hui hti

/-- Types that conform to a pattern have a common type that conforms to it. -/
theorem Conforms.common {safety : Safety} {ts : List Ty} {u p : Ty} (h : Common safety ts u)
    (hp : p.Lawful) (hall : ∀ t ∈ ts, t.Conforms p) : u.Conforms p :=
  Fills.common (fun _ _ => trivial) h hp hall

end Ty

end Retype
