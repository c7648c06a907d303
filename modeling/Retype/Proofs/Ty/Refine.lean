import Retype.Proofs.Ty.Conforms
import Retype.Ty.Refine

/-!
# What refining a type does

`Ty.Refines declared input result` lists the ways in which a declared type takes on the parts of
an input where it has placeholders, one rule for each pair of shapes that fit; `refine_eq_ok_iff`
says that these are the ways in which `Ty.refine` succeeds, so what is said of refined types
elsewhere follows the rules.

* A refined type conforms to the declared one (`Refines.conforms`), and is the declared one if
  that has no placeholder (`Refines.eq_of_hasDynamic`).
* Layouts are those of the declared type and of the input (`Throughout.refines`).
* Marks on the declared type make no difference to what is filled in (`Refines.stripped`).
-/

namespace Retype

namespace Ty

/-- The declared type, an input that fits it, and the declared type with its placeholders filled
from the input. -/
inductive Refines : Ty → Ty → Ty → Prop
  /-- A placeholder fills nothing. -/
  | blank {d : Ty} : Refines d .dynamic d
  | hole {i : Ty} : Refines .dynamic i i
  | primitive {k : Primitive} {i : Ty} : Refines (.primitive k) i (.primitive k)
  | capsule {n : String} {i : Ty} : Refines (.capsule n) i (.capsule n)
  | map {d i r : Ty} (element : Refines d i r) : Refines (.map d) (.map i) (.map r)
  | gather {d r : Ty} {as : List (Attribute Ty)} (element : Refines d (merged (as.map (·.type))) r) :
      Refines (.map d) (.object as) (.map r)
  | sequence {k l : SequenceKind} {d i r : Ty} (element : Refines d i r) :
      Refines (.sequence k d) (.sequence l i) (.sequence k r)
  | collect {k : SequenceKind} {d r : Ty} {is : List Ty} (element : Refines d (merged is) r) :
      Refines (.sequence k d) (.tuple is) (.sequence k r)
  | select {ds rs : List (Attribute Ty)} {i : Ty} (layout : (object rs).layout = (object ds).layout)
      (each : ∀ (n : Nat) (d r : Attribute Ty), ds[n]? = some d → rs[n]? = some r →
        Refines d.type i r.type) :
      Refines (.object ds) (.map i) (.object rs)
  | object {ds is rs : List (Attribute Ty)} (layout : (object rs).layout = (object ds).layout)
      (found : ∀ (n : Nat) (d i r : Attribute Ty), ds[n]? = some d → rs[n]? = some r →
        Named.find? d.name is = some i → Refines d.type i.type r.type)
      (missing : ∀ (n : Nat) (d r : Attribute Ty), ds[n]? = some d → rs[n]? = some r →
        Named.find? d.name is = none → r.type = d.type) :
      Refines (.object ds) (.object is) (.object rs)
  | tuple {ds is rs : List Ty} (input : is.length = ds.length) (length : rs.length = ds.length)
      (each : ∀ (n : Nat) (d i r : Ty), ds[n]? = some d → is[n]? = some i → rs[n]? = some r →
        Refines d i r) :
      Refines (.tuple ds) (.tuple is) (.tuple rs)

/-! ### The recursion through lists -/

theorem refineAll_eq_mapM (ds is : List Ty) :
    refineAll ds is = (ds.zip is).mapM fun p => refine p.1 p.2 := by
  induction ds generalizing is with
  | nil => simp [refineAll, pure, Except.pure]
  | cons d ds ih =>
    cases is with
    | nil => simp [refineAll, pure, Except.pure]
    | cons i is =>
      rw [refineAll, List.zip_cons_cons, List.mapM_cons, ← ih]
      rfl

theorem refineFrom_eq_mapM (ds : List (Attribute Ty)) (i : Ty) :
    refineFrom ds i = ds.mapM fun d => (refine d.type i).map fun t => ⟨d.name, d.optional, t⟩ := by
  induction ds with
  | nil => simp [refineFrom, pure, Except.pure]
  | cons d ds ih =>
    rw [refineFrom, List.mapM_cons, ← ih]
    cases refine d.type i <;> rfl

theorem refineNamed_eq_mapM (ds is : List (Attribute Ty)) :
    refineNamed ds is = ds.mapM fun d =>
      (match Named.find? d.name is with
        | some i => refine d.type i.type
        | none => .ok d.type).map fun t => ⟨d.name, d.optional, t⟩ := by
  induction ds with
  | nil => simp [refineNamed, pure, Except.pure]
  | cons d ds ih =>
    rw [refineNamed, List.mapM_cons, ← ih]
    rcases d with ⟨name, optional, t⟩
    dsimp only
    cases Named.find? name is with
    | none => rfl
    | some i =>
      dsimp only
      cases refine t i.type <;> rfl

/-- Lists of attributes that come from one another by a change of types. -/
theorem layout_eq_of_forall₂ {ds rs : List (Attribute Ty)} {f : Attribute Ty → Except Fault Ty}
    (h : List.Forall₂
      (fun d r => (f d).map (fun t => (⟨d.name, d.optional, t⟩ : Attribute Ty)) = .ok r) ds rs) :
    (object rs).layout = (object ds).layout := by
  rw [layout_object, layout_object]
  induction h with
  | nil => rfl
  | cons hd _ ih =>
    obtain ⟨t, -, rfl⟩ := map_eq_ok_iff.mp hd
    rw [List.map_cons, List.map_cons, ih]

/-- Lists of attributes of one layout, and a type for each that a step gives. -/
theorem forall₂_of_layout_eq {ds rs : List (Attribute Ty)} {f : Attribute Ty → Except Fault Ty}
    (hlayout : (object rs).layout = (object ds).layout)
    (heach : ∀ (n : Nat) (d r : Attribute Ty), ds[n]? = some d → rs[n]? = some r →
      f d = .ok r.type) :
    List.Forall₂
      (fun d r => (f d).map (fun t => (⟨d.name, d.optional, t⟩ : Attribute Ty)) = .ok r) ds rs := by
  rw [layout_object, layout_object] at hlayout
  have hlen : rs.length = ds.length := by simpa using congrArg List.length hlayout
  refine forall₂_iff_getElem?.mpr ⟨hlen.symm, fun n d r hd hr => ?_⟩
  have hmark := congrArg (·[n]?) hlayout
  simp only [List.getElem?_map, hd, hr, Option.map_some, Option.some.injEq, Prod.mk.injEq] at hmark
  rw [heach n d r hd hr, Except.map, ← hmark.1, ← hmark.2]

theorem refine_dynamic_right (d : Ty) : d.refine .dynamic = .ok d := by
  cases d <;> simp [refine]

/-- **Inversion.** Refining succeeds exactly under one of the rules. -/
theorem refine_eq_ok_iff {d i r : Ty} : d.refine i = .ok r ↔ Refines d i r := by
  constructor
  · intro h
    induction d generalizing i r with
    | dynamic =>
      cases i <;> (simp only [refine, Except.ok.injEq] at h; subst h; exact .hole)
    | primitive k =>
      cases i <;> (simp only [refine, Except.ok.injEq] at h; subst h; exact .primitive)
    | capsule n =>
      cases i <;> (simp only [refine, Except.ok.injEq] at h; subst h; exact .capsule)
    | sequence k e ih =>
      cases i with
      | dynamic => cases h; exact .blank
      | sequence l i =>
        obtain ⟨r, hr, rfl⟩ := map_eq_ok_iff.mp h
        exact .sequence (ih hr)
      | tuple is =>
        obtain ⟨r, hr, rfl⟩ := map_eq_ok_iff.mp h
        exact .collect (ih hr)
      | _ => cases h
    | map e ih =>
      cases i with
      | dynamic => cases h; exact .blank
      | map i =>
        obtain ⟨r, hr, rfl⟩ := map_eq_ok_iff.mp h
        exact .map (ih hr)
      | object as =>
        obtain ⟨r, hr, rfl⟩ := map_eq_ok_iff.mp h
        exact .gather (ih hr)
      | _ => cases h
    | tuple ds ih =>
      cases i with
      | dynamic => cases h; exact .blank
      | tuple is =>
        rw [refine] at h
        split at h
        · rename_i hlen
          obtain ⟨rs, hrs, rfl⟩ := map_eq_ok_iff.mp h
          rw [refineAll_eq_mapM, mapM_eq_ok_iff, forall₂_iff_getElem?] at hrs
          obtain ⟨hrlen, heach⟩ := hrs
          refine .tuple hlen (by simpa [hlen] using hrlen.symm) fun n d i r hd hi hr => ?_
          exact ih d (List.mem_of_getElem? hd)
            (heach n (d, i) r (List.getElem?_zip_eq_some.mpr ⟨hd, hi⟩) hr)
        · cases h
      | _ => cases h
    | object ds ih =>
      cases i with
      | dynamic => cases h; exact .blank
      | map i =>
        obtain ⟨rs, hrs, rfl⟩ := map_eq_ok_iff.mp h
        rw [refineFrom_eq_mapM, mapM_eq_ok_iff] at hrs
        refine .select (layout_eq_of_forall₂ hrs) fun n d r hd hr => ?_
        obtain ⟨t, ht, rfl⟩ := map_eq_ok_iff.mp ((forall₂_iff_getElem?.mp hrs).2 n d r hd hr)
        exact ih d (List.mem_of_getElem? hd) ht
      | object is =>
        obtain ⟨rs, hrs, rfl⟩ := map_eq_ok_iff.mp h
        rw [refineNamed_eq_mapM, mapM_eq_ok_iff] at hrs
        refine .object (layout_eq_of_forall₂ hrs) (fun n d i r hd hr hi => ?_)
          fun n d r hd hr hi => ?_
        · obtain ⟨t, ht, rfl⟩ := map_eq_ok_iff.mp ((forall₂_iff_getElem?.mp hrs).2 n d r hd hr)
          rw [hi] at ht
          exact ih d (List.mem_of_getElem? hd) ht
        · obtain ⟨t, ht, rfl⟩ := map_eq_ok_iff.mp ((forall₂_iff_getElem?.mp hrs).2 n d r hd hr)
          rw [hi] at ht
          exact (Except.ok.inj ht).symm
      | _ => cases h
  · intro h
    induction h with
    | blank => exact refine_dynamic_right _
    | @hole i => cases i <;> rfl
    | @primitive k i => cases i <;> rfl
    | @capsule n i => cases i <;> rfl
    | map _ ih => rw [refine, ih]; rfl
    | gather _ ih => rw [refine, ih]; rfl
    | sequence _ ih => rw [refine, ih]; rfl
    | collect _ ih => rw [refine, ih]; rfl
    | @select ds rs i layout _ ih =>
      rw [refine, refineFrom_eq_mapM, mapM_eq_ok_iff.mpr (forall₂_of_layout_eq layout ih)]
      rfl
    | @object ds is rs layout found missing ih =>
      rw [refine, refineNamed_eq_mapM,
        mapM_eq_ok_iff.mpr (forall₂_of_layout_eq layout fun n d r hd hr => ?_)]
      · rfl
      · cases hi : Named.find? d.name is with
        | none => rw [missing n d r hd hr hi]
        | some i => exact ih n d i r hd hr hi
    | @tuple ds is rs input length each ih =>
      have hrs : refineAll ds is = .ok rs := by
        rw [refineAll_eq_mapM, mapM_eq_ok_iff, forall₂_iff_getElem?]
        refine ⟨by simp [input, length], fun n p r hp hr => ?_⟩
        obtain ⟨hd, hi⟩ := List.getElem?_zip_eq_some.mp hp
        exact ih n p.1 p.2 r hd hi hr
      rw [refine, if_pos input, hrs]
      rfl

/-! ### Refined types -/

theorem Refines.unique {d i r r' : Ty} (h : Refines d i r) (h' : Refines d i r') : r = r' :=
  Except.ok.inj ((refine_eq_ok_iff.mpr h).symm.trans (refine_eq_ok_iff.mpr h'))

theorem names_eq_of_layout {as bs : List (Attribute Ty)}
    (h : (object as).layout = (object bs).layout) : Named.names as = Named.names bs := by
  simpa [Named.names, Named.name, Function.comp_def] using congrArg (List.map Prod.fst) h

theorem length_eq_of_layout {as bs : List (Attribute Ty)}
    (h : (object as).layout = (object bs).layout) : as.length = bs.length := by
  simpa using congrArg List.length h

/-- Objects of one layout are the same if their attributes have the same types. -/
theorem object_eq_of_layout {as bs : List (Attribute Ty)}
    (h : (object as).layout = (object bs).layout)
    (heach : ∀ (n : Nat) (a b : Attribute Ty), as[n]? = some a → bs[n]? = some b →
      a.type = b.type) : object as = object bs := by
  rw [layout_object, layout_object] at h
  congr 1
  refine List.ext_getElem? fun n => ?_
  have hn := congrArg (·[n]?) h
  simp only [List.getElem?_map] at hn
  cases ha : as[n]? with
  | none =>
    rw [ha, Option.map_none, eq_comm, Option.map_eq_none_iff] at hn
    exact hn.symm
  | some a =>
    obtain ⟨b, hb, heq⟩ := Option.map_eq_some_iff.mp (hn.symm.trans (by rw [ha, Option.map_some]))
    rw [hb, Option.some.injEq]
    exact Attribute.ext (congrArg Prod.fst heq).symm (congrArg Prod.snd heq).symm
      (heach n a b ha hb)

/-- An object has the layouts of another of its own layout if its attributes have. -/
theorem throughout_object_of_layout {q : List (String × Bool) → Prop}
    {as bs : List (Attribute Ty)} (h : (object as).layout = (object bs).layout)
    (hb : (object bs).Throughout q)
    (heach : ∀ (n : Nat) (a b : Attribute Ty), as[n]? = some a → bs[n]? = some b →
      b.type.Throughout q → a.type.Throughout q) : (object as).Throughout q := by
  refine throughout_object.mpr ⟨?_, fun a ha => ?_⟩
  · rw [← layout_object, h]
    exact hb.here
  · obtain ⟨n, ha⟩ := List.getElem?_of_mem ha
    obtain ⟨b, hbn⟩ := exists_getElem?_of_length (length_eq_of_layout h).symm ha
    exact heach n a b ha hbn ((throughout_object.mp hb).2 b (List.mem_of_getElem? hbn))

/-- A refined type conforms to the declared one. -/
theorem Refines.conforms {d i r : Ty} (h : Refines d i r) : r.Conforms d := by
  induction h with
  | blank => exact conforms_refl _
  | hole => exact conforms_dynamic _
  | primitive => exact .primitive
  | capsule => exact .capsule
  | map _ ih | gather _ ih => exact .map ih
  | sequence _ ih | collect _ ih => exact .sequence ih
  | select layout _ ih =>
    exact .object (names_eq_of_layout layout) fun n r d hr hd => ih n d r hd hr
  | @object ds is rs layout _ missing ih =>
    refine .object (names_eq_of_layout layout) fun n r d hr hd => ?_
    cases hi : Named.find? d.name is with
    | none => exact missing n d r hd hr hi ▸ conforms_refl _
    | some i => exact ih n d i r hd hr hi
  | tuple input length _ ih =>
    refine .tuple length fun n r d hr hd => ?_
    obtain ⟨i, hi⟩ := exists_getElem?_of_length input hd
    exact ih n d i r hd hi hr

/-- A declared type without placeholders stays. -/
theorem Refines.eq_of_hasDynamic {d i r : Ty} (h : Refines d i r) (hd : d.hasDynamic = false) :
    r = d := by
  induction h with
  | blank => rfl
  | hole => cases hd
  | primitive => rfl
  | capsule => rfl
  | map _ ih | gather _ ih => rw [ih hd]
  | sequence _ ih | collect _ ih => rw [ih hd]
  | select layout _ ih =>
    have hparts := (hasDynamic_eq_false_iff.mp hd).2
    refine object_eq_of_layout layout fun n r d hr hd => ih n d r hd hr (hparts _ ?_)
    exact List.mem_map_of_mem (List.mem_of_getElem? hd)
  | @object ds is rs layout _ missing ih =>
    have hparts := (hasDynamic_eq_false_iff.mp hd).2
    refine object_eq_of_layout layout fun n r d hr hd => ?_
    cases hi : Named.find? d.name is with
    | none => exact missing n d r hd hr hi
    | some i =>
      exact ih n d i r hd hr hi (hparts _ (List.mem_map_of_mem (List.mem_of_getElem? hd)))
  | @tuple ds is rs input length _ ih =>
    have hparts := (hasDynamic_eq_false_iff.mp hd).2
    congr 1
    rw [← List.map_id rs, ← List.map_id ds]
    refine map_eq_map_of_getElem? length fun n r d hr hd => ?_
    obtain ⟨i, hi⟩ := exists_getElem?_of_length input hd
    exact ih n d i r hd hi hr (hparts _ (List.mem_of_getElem? hd))

theorem Refines.eq_of_solid {t s r : Ty} (h : Refines t.stripped s r)
    (solid : t.hasDynamic = false) : r = t.stripped :=
  h.eq_of_hasDynamic (by rwa [hasDynamic_stripped])

variable {q : List (String × Bool) → Prop}

/-- A merged type has the layouts of the parts. -/
theorem throughout_merged (hq : Stable q) {ts : List Ty} (h : ∀ t ∈ ts, t.Throughout q) :
    (merged ts).Throughout q := by
  unfold merged
  cases hu : unify? ts .risky with
  | none => exact throughout_dynamic.mpr hq.nil
  | some u => exact Throughout.common hq (common_of_unify? hu) h

/-- A refined type has the layouts of the declared one and of the input. -/
theorem Throughout.refines (hq : Stable q) {d i r : Ty} (h : Refines d i r)
    (hd : d.Throughout q) (hi : i.Throughout q) : r.Throughout q := by
  induction h with
  | blank => exact hd
  | hole => exact hi
  | primitive => exact hd
  | capsule => exact hd
  | map _ ih =>
    exact throughout_map.mpr ⟨hq.nil, ih (throughout_map.mp hd).2 (throughout_map.mp hi).2⟩
  | gather _ ih =>
    refine throughout_map.mpr ⟨hq.nil, ih (throughout_map.mp hd).2 (throughout_merged hq ?_)⟩
    simpa using (throughout_object.mp hi).2
  | sequence _ ih =>
    exact throughout_sequence.mpr
      ⟨hq.nil, ih (throughout_sequence.mp hd).2 (throughout_sequence.mp hi).2⟩
  | collect _ ih =>
    exact throughout_sequence.mpr ⟨hq.nil,
      ih (throughout_sequence.mp hd).2 (throughout_merged hq (throughout_tuple.mp hi).2)⟩
  | select layout _ ih =>
    refine throughout_object_of_layout layout hd fun n r d hr hd' hdt => ?_
    exact ih n d r hd' hr hdt (throughout_map.mp hi).2
  | @object ds is rs layout _ missing ih =>
    refine throughout_object_of_layout layout hd fun n r d hr hd' hdt => ?_
    cases hfind : Named.find? d.name is with
    | none => exact missing n d r hd' hr hfind ▸ hdt
    | some i =>
      exact ih n d i r hd' hr hfind hdt
        ((throughout_object.mp hi).2 i (Named.mem_of_find? hfind).1)
  | tuple input length _ ih =>
    refine throughout_tuple.mpr ⟨hq.nil, fun r hr => ?_⟩
    obtain ⟨n, hr⟩ := List.getElem?_of_mem hr
    obtain ⟨d, hd'⟩ := exists_getElem?_of_length length.symm hr
    obtain ⟨i, hi'⟩ := exists_getElem?_of_length input hd'
    exact ih n d i r hd' hi' hr ((throughout_tuple.mp hd).2 d (List.mem_of_getElem? hd'))
      ((throughout_tuple.mp hi).2 i (List.mem_of_getElem? hi'))

theorem Plain.refines {d i r : Ty} (h : Refines d i r) (hd : d.Plain) (hi : i.Plain) : r.Plain :=
  ⟨Throughout.refines stable_unmarked h hd.unmarked hi.unmarked,
    Throughout.refines stable_lawful h hd.lawful hi.lawful⟩

/-! ### Marks -/

/-- Stripping keeps objects of one layout so. -/
theorem layout_stripped_congr {as bs : List (Attribute Ty)}
    (h : (object as).layout = (object bs).layout) :
    (object as).stripped.layout = (object bs).stripped.layout := by
  simpa [stripped, strippedAttributes_eq_map, Function.comp_def] using
    congrArg (List.map fun x => (x.1, false)) h

/-- Refining a stripped type gives the stripped result. -/
theorem Refines.stripped {d i r : Ty} (h : Refines d i r) (hi : i.Unmarked) :
    Refines d.stripped i r.stripped := by
  unfold Unmarked at hi
  induction h with
  | blank => exact .blank
  | hole =>
    rw [Unmarked.stripped_eq hi]
    exact .hole
  | primitive => exact .primitive
  | capsule => exact .capsule
  | map _ ih => exact .map (ih (throughout_map.mp hi).2)
  | gather _ ih =>
    refine .gather (ih (throughout_merged stable_unmarked ?_))
    simpa using (throughout_object.mp hi).2
  | sequence _ ih => exact .sequence (ih (throughout_sequence.mp hi).2)
  | collect _ ih =>
    exact .collect (ih (throughout_merged stable_unmarked (throughout_tuple.mp hi).2))
  | select layout _ ih =>
    refine .select (layout_stripped_congr layout) fun n d r hd' hr' => ?_
    obtain ⟨d, hd, rfl⟩ := getElem?_strippedAttributes.mp hd'
    obtain ⟨r, hr, rfl⟩ := getElem?_strippedAttributes.mp hr'
    exact ih n d r hd hr (throughout_map.mp hi).2
  | object layout _ missing ih =>
    refine .object (layout_stripped_congr layout) (fun n d i r hd' hr' hfind => ?_)
      fun n d r hd' hr' hfind => ?_
    · obtain ⟨d, hd, rfl⟩ := getElem?_strippedAttributes.mp hd'
      obtain ⟨r, hr, rfl⟩ := getElem?_strippedAttributes.mp hr'
      exact ih n d i r hd hr hfind ((throughout_object.mp hi).2 i (Named.mem_of_find? hfind).1)
    · obtain ⟨d, hd, rfl⟩ := getElem?_strippedAttributes.mp hd'
      obtain ⟨r, hr, rfl⟩ := getElem?_strippedAttributes.mp hr'
      exact congrArg Ty.stripped (missing n d r hd hr hfind)
  | tuple input length _ ih =>
    refine .tuple (by simpa using input) (by simpa using length) fun n d i r hd' hi' hr' => ?_
    obtain ⟨d, hd, rfl⟩ := getElem?_strippedAll.mp hd'
    obtain ⟨r, hr, rfl⟩ := getElem?_strippedAll.mp hr'
    exact ih n d i r hd hi' hr ((throughout_tuple.mp hi).2 i (List.mem_of_getElem? hi'))

end Ty

end Retype
