import Retype.Proofs.Homogeneity
import Retype.Proofs.Ty.Aligned

/-!
# The type predicted for an unknown

The type of a converted unknown is found from the types alone: the parts of the source are brought
together first, and the target is refined by the result. A known value goes the other way: its
parts are converted first, each to a type of its own, and brought together afterwards. The two
orders may end in different types, neither of which conforms to the other
(`not_conforms_convert_unknown`), and so may an optional attribute that a map leaves out.

`Ty.Foreseen precision target source` says where the prediction can be trusted, from the types
alone: that every value of the source gets the predicted type, or that it gets one that conforms
to it. What has to be known is local: where parts of different types go into one collection
(`Ty.Converges`), the types that the parts get, brought together, must agree with the refined type
of the parts brought together. Parts whose types are known exactly are brought together in one way
only, so for these the condition is about one common type; it holds if they are aligned with the
element type (`Ty.Aligned`). `conforms_convert_unknown` carries this from types to values, which
may have nulls and unknowns anywhere inside.

* `Settles.realizes_of_converges`: what converted parts settle on realizes the prediction;
* `Yields.realizes_of_foreseen`: one conversion, by induction on what it yields;
* `Yields.conforms_of_collects`: the local condition cannot be dropped, as a structure whose parts
  have types known exactly gets a type as predicted only if the condition holds of it.
-/

namespace Retype

namespace Ty

/-! ### Predicted types and types that values get -/

/-- What a prediction says of its placeholders: that they stay, or nothing. -/
inductive Precision
  | exact
  | rough

/-- What may stand for a placeholder of a predicted type. -/
def Precision.Admits : Precision → Ty → Prop
  | .exact, t => t = .dynamic
  | .rough, _ => True

/-- The type is one that is predicted. -/
def Realizes (precision : Precision) (t predicted : Ty) : Prop := t.Fills precision.Admits predicted

variable {precision sharp : Precision}

theorem realizes_refl (precision : Precision) (t : Ty) : Realizes precision t t := by
  cases precision with
  | exact => exact fills_refl (P := Precision.exact.Admits) rfl t
  | rough => exact fills_refl trivial t

theorem Realizes.common {safety : Safety} {ts : List Ty} {u p : Ty} (h : Common safety ts u)
    (hp : p.Lawful) (hall : ∀ t ∈ ts, Realizes precision t p) : Realizes precision u p := by
  refine Fills.common (fun {group v} hv hgroup => ?_) h hp hall
  cases precision with
  | exact => exact hv.eq_of_forall_eq hgroup
  | rough => trivial

/-- A type that is predicted exactly is the predicted one. -/
theorem Realizes.eq {t p : Ty} (h : Realizes .exact t p) (ht : t.Plain) (hp : p.Plain) : t = p := by
  have back : p.Conforms t := by
    unfold Realizes at h
    clear ht hp
    induction h with
    | hole free =>
      rw [show _ = Ty.dynamic from free]
      exact conforms_refl _
    | primitive => exact .primitive
    | sequence _ ih => exact .sequence ih
    | map _ ih => exact .map ih
    | tuple length _ ih => exact .tuple length.symm fun i s p hs hp => ih i p s hp hs
    | object names _ ih => exact .object names.symm fun i a b ha hb => ih i b a hb ha
    | capsule => exact .capsule
  rw [← ht.unmarked.stripped_eq, ← hp.unmarked.stripped_eq]
  exact h.conforms.antisymm back

/-! ### Where predictions can be trusted -/

/-- Whatever types the parts get, if these are as predicted for each part, what they have in common
is as predicted for the parts together. -/
inductive Converges (precision sharp : Precision) (declared : Ty) (sources : List Ty) : Prop
  | intro {parts : List Ty} {whole : Ty} (ways : TwoWays declared sources parts whole)
      (agree : ∀ types, (∀ t ∈ types, t.Plain) → List.Forall₂ (Realizes sharp) types parts →
        ∀ u, unify? types .risky = some u → Realizes precision u whole)

/-- The type predicted for the unknown of the source is one that known values get. -/
inductive Foreseen : Precision → Ty → Ty → Prop
  /-- Nothing is predicted beyond what the target says. -/
  | vague {precision : Precision} {t s : Ty}
      (vague : ∀ r, Refines t.stripped s r → ∀ x : Ty, x.Plain → x.Conforms t →
        Realizes precision x r) : Foreseen precision t s
  | whole {precision : Precision} {s : Ty} : Foreseen precision .dynamic s
  | sequence {precision : Precision} {k l : SequenceKind} {t s : Ty}
      (element : Foreseen precision t s) : Foreseen precision (.sequence k t) (.sequence l s)
  | map {precision : Precision} {t s : Ty} (element : Foreseen precision t s) :
      Foreseen precision (.map t) (.map s)
  | tuple {precision : Precision} {ts ss : List Ty}
      (each : ∀ (i : Nat) t s, ts[i]? = some t → ss[i]? = some s → Foreseen precision t s) :
      Foreseen precision (.tuple ts) (.tuple ss)
  | object {precision : Precision} {bs as : List (Attribute Ty)}
      (each : ∀ b ∈ bs, ∀ a, Named.find? b.name as = some a → Foreseen precision b.type a.type) :
      Foreseen precision (.object bs) (.object as)
  /-- An entry that the map may not have is predicted as the null that stands for it. -/
  | select {precision : Precision} {bs : List (Attribute Ty)} {s : Ty}
      (each : ∀ b ∈ bs, Foreseen precision b.type s)
      (missing : ∀ b ∈ bs, b.optional = true → ∀ r, Refines b.type.stripped s r →
        Realizes precision b.type.stripped r) : Foreseen precision (.object bs) (.map s)
  /-- Parts that may have any type are brought together before they are converted. -/
  | collect {precision : Precision} {k : SequenceKind} {ss : List Ty} :
      Foreseen precision (.sequence k .dynamic) (.tuple ss)
  | gather {precision : Precision} {as : List (Attribute Ty)} :
      Foreseen precision (.map .dynamic) (.object as)
  | positions {precision sharp : Precision} {k : SequenceKind} {t : Ty} {ss : List Ty}
      (each : ∀ s ∈ ss, Foreseen sharp t s) (converges : Converges precision sharp t ss) :
      Foreseen precision (.sequence k t) (.tuple ss)
  | attributes {precision sharp : Precision} {t : Ty} {as : List (Attribute Ty)}
      (each : ∀ a ∈ as, Foreseen sharp t a.type)
      (converges : Converges precision sharp t (as.map (·.type))) :
      Foreseen precision (.map t) (.object as)

theorem Foreseen.of_solid {t s : Ty} (solid : t.hasDynamic = false) : Foreseen precision t s := by
  refine .vague fun r hr x hx hconf => ?_
  rw [hr.eq_of_solid solid, ← hconf.stripped_eq solid, hx.unmarked.stripped_eq]
  exact realizes_refl precision x

theorem merged_nil : merged [] = .dynamic := by
  rw [merged, unify?_eq]
  rfl

section Parts

variable {t p : Ty} {ss ps : List Ty}

/-- Parts whose types are known exactly have one type in common. -/
theorem Converges.of_unify? (ht : t.Lawful) (hss : ∀ s ∈ ss, s.Plain) (ways : TwoWays t ss ps p)
    (agree : ∀ u, unify? ps .risky = some u → Realizes precision u p) :
    Converges precision .exact t ss := by
  refine .intro ways fun types plain htypes => ?_
  have hsame : List.Forall₂ (· = ·) types ps := forall₂_of_mem htypes fun x hx q hq h =>
    h.eq (plain x hx) (plain_of_refines ht ways.each hss q hq)
  rw [List.forall₂_eq_eq_eq] at hsame
  rwa [hsame]

theorem Converges.of_aligned (aligned : Aligned t ss) (ht : t.Lawful) (hss : ∀ s ∈ ss, s.Plain)
    (ways : TwoWays t ss ps p) : Converges .rough .exact t ss :=
  .of_unify? ht hss ways fun _ => aligned.conforms ht hss ways

/-- Parts that are predicted as the whole is agree with it. -/
theorem Converges.of_conforms (hp : p.Lawful) (ways : TwoWays t ss ps p)
    (all : ∀ q ∈ ps, q.Conforms p) : Converges .rough .rough t ss := by
  refine .intro ways fun types _ htypes u hu => Conforms.common (common_of_unify? hu) hp ?_
  intro x hx
  obtain ⟨q, hq, hxq⟩ := exists_of_mem_right htypes.flip hx
  exact Conforms.trans hxq (all q hq)

/-- The parts of a source that go into one collection, and how it is built. -/
inductive Collects : (Ty → Ty) → Ty → List Ty → Prop
  | positions {k : SequenceKind} {ss : List Ty} : Collects (.sequence k) (.tuple ss) ss
  | attributes {as : List (Attribute Ty)} : Collects .map (.object as) (as.map (·.type))

theorem Collects.parts_eq {build : Ty → Ty} {source : Ty} (h : Collects build source ss) :
    source.parts = ss := by
  cases h <;> rfl

theorem Collects.lawful {build : Ty → Ty} {source : Ty} (h : Collects build source ss)
    (ht : (build t).Lawful) : t.Lawful := by
  cases h with
  | positions => exact (throughout_sequence.mp ht).2
  | attributes => exact (throughout_map.mp ht).2

theorem Collects.foreseen {build : Ty → Ty} {source : Ty} (h : Collects build source ss)
    (each : ∀ s ∈ ss, Foreseen sharp t s) (converges : Converges precision sharp t ss) :
    Foreseen precision (build t) source := by
  cases h with
  | positions => exact .positions each converges
  | attributes => exact .attributes (fun a ha => each a.type (List.mem_map_of_mem ha)) converges

theorem Collects.refines {build : Ty → Ty} {source : Ty} (h : Collects build source ss)
    (hp : Refines t.stripped (merged ss) p) : Refines (build t).stripped source (build p) := by
  cases h with
  | positions => exact .collect hp
  | attributes => exact .gather hp

theorem Collects.conforms {build : Ty → Ty} {source e : Ty} (h : Collects build source ss)
    (hconf : (build e).Conforms (build p)) : e.Conforms p := by
  cases h with
  | positions => cases hconf with | sequence element => exact element
  | attributes => cases hconf with | map element => exact element

end Parts

end Ty

namespace Value

/-- In a well-formed value only marked types make a mark. -/
theorem WellFormed.unmarked {v : Value} (hv : v.WellFormed) (h : v.ty.Unmarked) : v.Unmarked := by
  unfold Ty.Unmarked at h
  induction v with
  | null t | unknown t =>
    refine .intro (fun s hs => ?_) (by simp [members])
    rw [List.mem_singleton.mp hs]
    exact h
  | string a | number a | bool a | capsule n a =>
    exact .intro (by simp [recorded]) (by simp [members])
  | sequence k e items ih =>
    have he := (Ty.throughout_sequence.mp h).2
    refine .intro (fun s hs => ?_) fun m hm => ih m hm (hv.member hm) ?_
    · rw [List.mem_singleton.mp hs]
      exact he
    · rw [hv.here.1 e rfl m hm]
      exact he
  | map e entries ih =>
    have he := (Ty.throughout_map.mp h).2
    refine .intro (fun s hs => ?_) fun m hm => ?_
    · rw [List.mem_singleton.mp hs]
      exact he
    · obtain ⟨x, hx, rfl⟩ := List.mem_map.mp hm
      refine ih x hx (hv.member hm) ?_
      rw [hv.here.1 e rfl x.2 hm]
      exact he
  | tuple items ih =>
    rw [ty, tyAll_eq_map] at h
    refine .intro (by simp [recorded]) fun m hm => ih m hm (hv.member hm) ?_
    exact (Ty.throughout_tuple.mp h).2 m.ty (List.mem_map_of_mem hm)
  | object attributes ih =>
    rw [ty, tyAttributes_eq_map] at h
    refine .intro (by simp [recorded]) fun m hm => ?_
    obtain ⟨x, hx, rfl⟩ := List.mem_map.mp hm
    refine ih x hx (hv.member hm) ?_
    exact (Ty.throughout_object.mp h).2 ⟨x.1, false, x.2.ty⟩ (List.mem_map.mpr ⟨x, hx, rfl⟩)

end Value

namespace Conversion

open Ty

variable {convert : Value → Ty → Except Fault Value} {precision sharp : Precision}

/-! ### What parts settle on -/

/-- Parts settle on a type as predicted if what their types have in common is. -/
theorem Settles.realizes {declared e p : Ty} {ws vs : List Value}
    (h : Settles convert declared ws e vs)
    (solid : declared.hasDynamic = false → p = declared.stripped)
    (unified : ∀ u, unify? (ws.map Value.ty) .risky = some u → Realizes precision u p) :
    Realizes precision e p := by
  cases h with
  | fixed hsolid =>
    rw [solid hsolid]
    exact realizes_refl precision _
  | alike _ nonempty all =>
    exact unified e (unify?_of_forall_eq (by simpa using nonempty) (List.forall_mem_map.mpr all))
  | again _ _ hcommon => exact unified e hcommon

/-- Conversely, they settle on what their types have in common. -/
theorem Settles.eq_of_unify? {declared e u : Ty} {ws vs : List Value}
    (h : Settles convert declared ws e vs)
    (solid : declared.hasDynamic = false → ∀ w ∈ ws, w.ty = declared.stripped)
    (unified : unify? (ws.map Value.ty) .risky = some u) : u = e := by
  have common := common_of_unify? unified
  cases h with
  | fixed hsolid => exact common.eq_of_forall_eq (List.forall_mem_map.mpr (solid hsolid))
  | alike _ _ all => exact common.eq_of_forall_eq (List.forall_mem_map.mpr all)
  | again _ _ hcommon => exact Option.some.inj (unified.symm.trans hcommon)

/-- Parts whose types are as predicted, for one and the same prediction, settle on such a type. -/
theorem Settles.realizes_of_forall {declared e p : Ty} {ws vs : List Value}
    (h : Settles convert declared ws e vs) (hp : p.Lawful)
    (solid : declared.hasDynamic = false → p = declared.stripped)
    (hws : ∀ w ∈ ws, Realizes precision w.ty p) : Realizes precision e p :=
  h.realizes solid fun _ hu => .common (common_of_unify? hu) hp (List.forall_mem_map.mpr hws)

/-- Parts that may have any type are converted to their common type, which is predicted. -/
theorem Settles.eq_merged {u e : Ty} {ss : List Ty} {ws vs : List Value}
    (settles : Settles convert u ws e vs) (unified : unify? ss .risky = some u)
    (hplain : ∀ s ∈ ss, s.Plain) (hsolid : ∀ s ∈ ss, s.hasDynamic = false) : e = merged ss := by
  have common := common_of_unify? unified
  rw [(settles.eq_of_solid (common.solid hsolid)).1,
    (Plain.common common hplain).unmarked.stripped_eq, merged, unified]
  rfl

/-- The parts of a structure go into a collection: what they settle on is as predicted for its
elements. -/
theorem Settles.realizes_of_converges {t e p : Ty} {ss : List Ty} {ws vs : List Value}
    (settles : Settles convert t ws e vs) (hp : Refines t.stripped (merged ss) p)
    (length : ss.length = ws.length) (converges : Converges precision sharp t ss)
    (each : ∀ (i : Nat) s w q, ss[i]? = some s → ws[i]? = some w → Refines t.stripped s q →
      Realizes sharp w.ty q ∧ w.Sound) : Realizes precision e p := by
  obtain ⟨ways, agree⟩ := converges
  obtain ⟨plen, hparts⟩ := forall₂_iff_getElem?.mp ways.each
  rw [ways.together.unique hp] at agree
  have hws : List.Forall₂ (fun w q => Realizes sharp w.ty q ∧ w.Sound) ws _ :=
    forall₂_of_source length plen fun i s w q hs hw hq =>
      each i s w q hs hw (hparts i s q hs hq)
  refine settles.realizes hp.eq_of_solid (agree _ (List.forall_mem_map.mpr fun w hw => ?_) ?_)
  · obtain ⟨q, -, -, hsound⟩ := exists_of_mem_right hws.flip hw
    exact hsound.ty_plain
  · exact List.forall₂_map_left_iff.mpr (hws.imp fun _ _ hw => hw.1)

/-- **Step.** Where the prediction can be trusted, a conversion yields a value whose type is as
predicted. -/
theorem Yields.realizes_of_foreseen (hconvert : SoundBy convert) {s t r : Ty} {v w : Value}
    (h : Yields convert .risky s t v w) (hv : v.Sound) (hhom : v.Homogeneous) (hty : v.ty = s)
    (hs : s.hasDynamic = false) (ht : t.Lawful) (hforeseen : Foreseen precision t s)
    (hr : Refines t.stripped s r) : Realizes precision w.ty r := by
  have hplain : s.Plain := hty ▸ hv.ty_plain
  have hsound : w.ty.Conforms t ∧ w.Sound := h.sound hconvert hv hplain.lawful ht
  induction h generalizing r precision with
  | null _ _ refines | unknown _ _ refines =>
    cases hty
    rw [hr.unique refines]
    exact realizes_refl _ _
  | @keep t v =>
    rw [hty, hr.eq_of_solid hs, hplain.unmarked.stripped_eq]
    exact realizes_refl _ t
  | pass =>
    rw [hty, hr.unique .hole]
    exact realizes_refl _ _
  | blankNull | blankUnknown | later => cases hs
  | primitive _ data converted =>
    rw [(Value.ty_toPrimitive data converted).1, hr.unique .primitive]
    exact .primitive
  | emptySequence refines =>
    cases hty
    cases hr with
    | sequence element =>
      have hown := (throughout_sequence.mp hplain.unmarked).2
      rw [element.unique (refines.stripped hown)]
      exact realizes_refl _ _
  | emptyMap refines =>
    cases hty
    cases hr with
    | map element =>
      have hown := (throughout_map.mp hplain.unmarked).2
      rw [element.unique (refines.stripped hown)]
      exact realizes_refl _ _
  | emptyTuple =>
    cases hr with
    | collect element =>
      rw [merged_nil] at element
      rw [element.unique .blank]
      exact realizes_refl _ _
  | emptyObject =>
    cases hr with
    | gather element =>
      rw [List.map_nil, merged_nil] at element
      rw [element.unique .blank]
      exact realizes_refl _ _
  | @sequence k l m s t own e items ws vs nonempty length each settles ih =>
    cases hty
    have ht' := (throughout_sequence.mp ht).2
    have hs' : s.Plain := hplain.part (by simp [parts])
    cases hforeseen with
    | vague hvague => exact hvague r hr _ hsound.2.ty_plain hsound.1
    | sequence element =>
      cases hr with
      | @sequence _ _ _ _ p refines =>
        have hp : p.Plain := .refines refines (Lawful.plain_stripped ht') hs'
        rw [Value.ty_collect]
        refine .sequence (settles.realizes_of_forall hp.lawful refines.eq_of_solid ?_)
        refine forall_mem_of_getElem? length fun i x w hx hw => ?_
        have hmem := List.mem_of_getElem? hx
        exact ih i x w hx hw (hv.member hmem) (hhom.member hmem) (hhom.here s rfl x hmem) hs ht'
          element refines hs' ((each i x w hx hw).sound hconvert (hv.member hmem) hs'.lawful ht')
  | @map s t own e entries ws vs nonempty length each settles ih =>
    cases hty
    have ht' := (throughout_map.mp ht).2
    have hs' : s.Plain := hplain.part (by simp [parts])
    cases hforeseen with
    | vague hvague => exact hvague r hr _ hsound.2.ty_plain hsound.1
    | map element =>
      cases hr with
      | @map _ _ p refines =>
        have hp : p.Plain := .refines refines (Lawful.plain_stripped ht') hs'
        refine .map (settles.realizes_of_forall hp.lawful refines.eq_of_solid ?_)
        refine forall_mem_of_getElem? length fun i x w hx hw => ?_
        have hmem := List.mem_map_of_mem (f := Prod.snd) (List.mem_of_getElem? hx)
        exact ih i x w hx hw (hv.member hmem) (hhom.member hmem) (hhom.here s rfl x.2 hmem) hs ht'
          element refines hs' ((each i x w hx hw).sound hconvert (hv.member hmem) hs'.lawful ht')
  | @positions l ss t u e items ws vs nonempty elects arity length each settles ih =>
    have ht' := (throughout_sequence.mp ht).2
    have hss : ∀ s ∈ ss, s.Plain := fun s hs => hplain.part hs
    have hparts := (hasDynamic_eq_false_iff.mp hs).2
    cases elects with
    | common _ unified =>
      cases hr with
      | collect refines =>
        rw [Value.ty_collect, settles.eq_merged unified hss hparts, refines.unique .hole]
        exact realizes_refl _ _
    | declared settled =>
      cases hforeseen with
      | vague hvague => exact hvague r hr _ hsound.2.ty_plain hsound.1
      | collect =>
        rw [settled rfl] at arity
        exact absurd (List.eq_nil_of_length_eq_zero arity.symm) nonempty
      | positions foreseen converges =>
        cases hr with
        | collect refines =>
          rw [Value.ty_collect]
          refine .sequence (settles.realizes_of_converges refines (arity.trans length) converges ?_)
          intro i s w q hsi hw hq
          obtain ⟨x, hx⟩ := exists_getElem?_of_length length hw
          have hmem := List.mem_of_getElem? hx
          have hsmem := List.mem_of_getElem? hsi
          have hw' := (each i s x w hsi hx hw).sound hconvert (hv.member hmem) (hss s hsmem).lawful
            ht'
          exact ⟨ih i s x w hsi hx hw (hv.member hmem) (hhom.member hmem)
            (Value.ty_of_tuple hty hx hsi) (hparts s hsmem) ht' (foreseen s hsmem) hq (hss s hsmem)
            hw', hw'.2⟩
  | @gather as t u e attributes ws vs nonempty elects names length each settles ih =>
    have ht' := (throughout_map.mp ht).2
    have hss : ∀ s ∈ as.map (·.type), s.Plain := fun s hs => hplain.part hs
    have hparts := (hasDynamic_eq_false_iff.mp hs).2
    have hlen := Named.length_eq_of_names names
    cases elects with
    | common _ unified =>
      cases hr with
      | gather refines =>
        rw [Value.ty, settles.eq_merged unified hss hparts, refines.unique .hole]
        exact realizes_refl _ _
    | declared settled =>
      cases hforeseen with
      | vague hvague => exact hvague r hr _ hsound.2.ty_plain hsound.1
      | gather =>
        rw [List.map_eq_nil_iff.mp (settled rfl)] at hlen
        exact absurd (List.eq_nil_of_length_eq_zero hlen.symm) nonempty
      | attributes foreseen converges =>
        cases hr with
        | gather refines =>
          refine .map (settles.realizes_of_converges refines ?_ converges ?_)
          · rw [List.length_map, hlen, length]
          intro i s w q hsi hw hq
          obtain ⟨a, ha, rfl⟩ := Option.map_eq_some_iff.mp ((List.getElem?_map ..).symm.trans hsi)
          obtain ⟨x, hx⟩ := exists_getElem?_of_length length hw
          have hmem := List.mem_map_of_mem (f := Prod.snd) (List.mem_of_getElem? hx)
          have hamem := List.mem_of_getElem? ha
          have hsmem := List.mem_of_getElem? hsi
          have hw' := (each i a x w ha hx hw).sound hconvert (hv.member hmem) (hss _ hsmem).lawful
            ht'
          exact ⟨ih i a x w ha hx hw (hv.member hmem) (hhom.member hmem)
            (Value.ty_of_object hty hx ha) (hparts _ hsmem) ht' (foreseen a hamem) hq (hss _ hsmem)
            hw', hw'.2⟩
  | @tuple ss ts items ws arity source length each ih =>
    cases hforeseen with
    | vague hvague => exact hvague r hr _ hsound.2.ty_plain hsound.1
    | tuple foreseen =>
      cases hr with
      | @tuple _ _ rs input rlen refines =>
        rw [length_strippedAll] at rlen
        refine Value.fills_tuple ?_ fun i w p hw hp => ?_
        · exact (length.symm.trans source.symm).trans (arity.trans rlen.symm)
        · obtain ⟨x, hx⟩ := exists_getElem?_of_length length hw
          obtain ⟨s, hsi⟩ := exists_getElem?_of_length source hx
          obtain ⟨t, hti⟩ := exists_getElem?_of_length arity.symm hsi
          have hmem := List.mem_of_getElem? hx
          have hs' : s.Plain := hplain.part (List.mem_of_getElem? hsi)
          have ht' := (throughout_tuple.mp ht).2 t (List.mem_of_getElem? hti)
          refine ih i s t x w hsi hti hx hw (hv.member hmem) (hhom.member hmem)
            (Value.ty_of_tuple hty hx hsi)
            ((hasDynamic_eq_false_iff.mp hs).2 s (List.mem_of_getElem? hsi)) ht'
            (foreseen i t s hti hsi)
            (refines i t.stripped s p (getElem?_strippedAll.mpr ⟨t, hti, rfl⟩) hsi hp) hs' ?_
          exact (each i s t x w hsi hti hx hw).sound hconvert (hv.member hmem) hs'.lawful ht'
  | @object as bs attributes filled names known targets found missing ih =>
    cases hforeseen with
    | vague hvague => exact hvague r hr _ hsound.2.ty_plain hsound.1
    | object foreseen =>
      cases hr with
      | @object _ _ rs layout refines absent =>
        have hrs : Named.names rs = Named.names bs := by
          rw [names_eq_of_layout layout, names_strippedAttributes]
        refine Value.fills_object (targets.trans hrs.symm) fun i w p hw hp => ?_
        obtain ⟨b, hb, -⟩ := Named.exists_getElem? targets.symm hw
        have hb' := getElem?_strippedAttributes.mpr ⟨b, hb, rfl⟩
        have ht' := (throughout_object.mp ht).2 b (List.mem_of_getElem? hb)
        cases hx : Named.find? b.name attributes with
        | none =>
          have ha : Named.find? b.name as = none := by
            by_contra hfind
            obtain ⟨a, ha⟩ := Option.ne_none_iff_exists'.mp hfind
            obtain ⟨x, hx'⟩ := Named.exists_find? names.symm ha
            rw [hx] at hx'
            cases hx'
          rw [(missing i b w hb hw hx).2, absent i _ p hb' hp ha]
          exact realizes_refl _ _
        | some x =>
          obtain ⟨a, ha⟩ := Named.exists_find? names hx
          have hmem := List.mem_map_of_mem (f := Prod.snd) (Named.mem_of_find? hx).1
          have hpart : a.type ∈ (Ty.object as).parts :=
            List.mem_map_of_mem (Named.mem_of_find? ha).1
          refine ih i b a x w hb hw ha hx (hv.member hmem) (hhom.member hmem)
            (Value.ty_of_find? hty hv.here.names ha hx)
            ((hasDynamic_eq_false_iff.mp hs).2 _ hpart) ht'
            (foreseen b (List.mem_of_getElem? hb) a ha) (refines i _ a p hb' hp ha)
            (hplain.part hpart) ?_
          exact (found i b a x w hb hw ha hx).sound hconvert (hv.member hmem)
            (hplain.part hpart).lawful ht'
  | @select s own bs entries filled permitted known targets found missing ih =>
    cases hty
    have hs' : s.Plain := hplain.part (by simp [parts])
    cases hforeseen with
    | vague hvague => exact hvague r hr _ hsound.2.ty_plain hsound.1
    | select foreseen absent =>
      cases hr with
      | @select _ rs _ layout refines =>
        have hrs : Named.names rs = Named.names bs := by
          rw [names_eq_of_layout layout, names_strippedAttributes]
        refine Value.fills_object (targets.trans hrs.symm) fun i w p hw hp => ?_
        obtain ⟨b, hb, -⟩ := Named.exists_getElem? targets.symm hw
        have hbmem := List.mem_of_getElem? hb
        have hrefines := refines i _ p (getElem?_strippedAttributes.mpr ⟨b, hb, rfl⟩) hp
        have ht' := (throughout_object.mp ht).2 b hbmem
        cases hx : Named.find? b.name entries with
        | none =>
          obtain ⟨hoptional, hnull⟩ := missing i b w hb hw hx
          rw [hnull]
          exact absent b hbmem hoptional p.type hrefines
        | some x =>
          have hmem := List.mem_map_of_mem (f := Prod.snd) (Named.mem_of_find? hx).1
          refine ih i b x w hb hw hx (hv.member hmem) (hhom.member hmem)
            (hhom.here s rfl x.2 hmem) hs ht' (foreseen b hbmem) hrefines hs' ?_
          exact (found i b x w hb hw hx).sound hconvert (hv.member hmem) hs'.lawful ht'

/-- **Inversion.** What the parts of a structure become on their way into a collection. -/
theorem Yields.collected {build : Ty → Ty} {source t : Ty} {ss : List Ty} {v w : Value}
    (h : Yields convert .risky source (build t) v w) (collects : Collects build source ss)
    (data : v.isConcrete = true) (hv : v.Sound) (hhom : v.Homogeneous) (hty : v.ty = source) :
    ss = [] ∨ ∃ u e ws vs, w.ty = build e ∧ Elects .risky ss t u ∧ Settles convert u ws e vs ∧
      ss.length = ws.length ∧ ∀ (i : Nat) s w, ss[i]? = some s → ws[i]? = some w →
        ∃ x, Yields convert .risky s u x w ∧ x.Sound ∧ x.Homogeneous ∧ x.ty = s := by
  cases collects with
  | positions =>
    cases h with
    | null | unknown => cases data
    | emptyTuple => exact .inl rfl
    | @positions _ _ _ u e items ws vs nonempty elects arity length each settles =>
      refine .inr ⟨u, e, ws, vs, Value.ty_collect .., elects, settles, arity.trans length, ?_⟩
      intro i s w hs hw
      obtain ⟨x, hx⟩ := exists_getElem?_of_length length hw
      have hmem := List.mem_of_getElem? hx
      exact ⟨x, each i s x w hs hx hw, hv.member hmem, hhom.member hmem,
        Value.ty_of_tuple hty hx hs⟩
  | @attributes as =>
    cases h with
    | null | unknown => cases data
    | emptyObject => exact .inl rfl
    | @gather _ _ u e attributes ws vs nonempty elects names length each settles =>
      have hlen : (as.map (·.type)).length = ws.length := by
        rw [List.length_map, Named.length_eq_of_names names, length]
      refine .inr ⟨u, e, ws, vs, rfl, elects, settles, hlen, fun i s w hs hw => ?_⟩
      obtain ⟨a, ha, rfl⟩ := Option.map_eq_some_iff.mp ((List.getElem?_map ..).symm.trans hs)
      obtain ⟨x, hx⟩ := exists_getElem?_of_length length hw
      have hmem := List.mem_map_of_mem (f := Prod.snd) (List.mem_of_getElem? hx)
      exact ⟨x.2, each i a x w ha hx hw, hv.member hmem, hhom.member hmem,
        Value.ty_of_object hty hx ha⟩

/-- A structure whose parts have types known exactly gets a type as predicted only if the two
orders agree. -/
theorem Yields.conforms_of_collects (hconvert : SoundBy convert) {build : Ty → Ty}
    {source t p e : Ty} {ss ps : List Ty} {v w : Value}
    (h : Yields convert .risky source (build t) v w) (collects : Collects build source ss)
    (data : v.isConcrete = true) (hv : v.Sound) (hhom : v.Homogeneous) (hty : v.ty = source)
    (hsolid : ∀ s ∈ ss, s.hasDynamic = false) (hplain : ∀ s ∈ ss, s.Plain) (ht : t.Lawful)
    (foreseen : ∀ s ∈ ss, Foreseen .exact t s) (ways : TwoWays t ss ps p)
    (hw : w.ty.Conforms (build p)) (unified : unify? ps .risky = some e) : e.Conforms p := by
  obtain ⟨plen, hrefines⟩ := forall₂_iff_getElem?.mp ways.each
  obtain rfl | ⟨u, e', ws, vs, hbuilt, elects, settles, length, each⟩ :=
    h.collected collects data hv hhom hty
  · obtain rfl := List.forall₂_nil_left_iff.mp ways.each
    rw [unify?_nil] at unified
    cases unified
  rw [hbuilt] at hw
  cases elects with
  | common _ unified' =>
    -- the sources are their own refined types, and their common type is predicted
    exact Aligned.whole.conforms ht hplain ways unified
  | declared =>
    have hws : List.Forall₂ (fun w q => w.ty = q ∧ w.ty.Conforms t ∧ w.Sound) ws ps := by
      refine forall₂_of_source length plen fun i s w q hs hw hq => ?_
      obtain ⟨x, hyields, hx, hhom, hxty⟩ := each i s w hs hw
      have hsmem := List.mem_of_getElem? hs
      have hsound := hyields.sound hconvert hx (hplain s hsmem).lawful ht
      refine ⟨?_, hsound⟩
      exact (hyields.realizes_of_foreseen hconvert hx hhom hxty (hsolid s hsmem) ht
        (foreseen s hsmem) (hrefines i s q hs hq)).eq hsound.2.ty_plain
        (plain_of_refines ht ways.each hplain q (List.mem_of_getElem? hq))
    have htypes : ws.map Value.ty = ps := by
      rw [← List.forall₂_eq_eq_eq, List.forall₂_map_left_iff]
      exact hws.imp fun _ _ hw => hw.1
    have heq : e = e' := by
      refine settles.eq_of_unify? (fun solid w hw => ?_) (htypes ▸ unified)
      obtain ⟨q, -, -, hconf, hsound⟩ := exists_of_mem_right hws.flip hw
      exact hsound.ty_eq hconf solid
    rw [heq]
    exact collects.conforms hw

/-- An unknown stays one: it is kept if it has the target type already, and otherwise takes the
type that comes of refining the target. -/
theorem refines_of_convert_unknown {s t : Ty} {u : Value}
    (h : (Value.unknown s).convert t = .ok u) :
    (s = t ∧ u = .unknown s) ∨ ∃ r, Refines t.stripped s r ∧ u = .unknown r := by
  obtain ⟨hsame, rfl⟩ | ⟨below, c, -, hc, happly⟩ := convertWithin_cases h
  · exact .inl ⟨hsame, rfl⟩
  · have plan : Plan .risky s t c := plan_of_between? hc
    rw [(plan.applyWith_blank _).2] at happly
    obtain ⟨r, hr, rfl⟩ := map_eq_ok_iff.mp happly
    exact .inr ⟨r, refine_eq_ok_iff.mp hr, rfl⟩

end Conversion

/-- **Prediction.** A known value and the unknown of its type, which has neither placeholders nor
marks, are converted to one target. The unknown stays one, of a type that conforms to the target
as that of the value does. Where the prediction can be trusted, the type of the value conforms to
that of the unknown, and is the same if the prediction is exact. Where parts go into one
collection, this is so if the parts are predicted as the whole is, or if they are aligned with the
element type; and if their types are known exactly, it is so exactly if the two orders of bringing
them together agree. -/
theorem conforms_convert_unknown {v w u : Value} {source want : Ty} (hv : v.WellFormed)
    (hnames : v.Lawful) (hty : v.ty = source) (hsolid : source.hasDynamic = false)
    (hmarks : source.Unmarked) (hwant : want.Lawful) (hw : v.convert want = .ok w)
    (hu : (Value.unknown source).convert want = .ok u) :
    (∃ t, u = .unknown t) ∧ w.ty.Conforms want.stripped ∧ u.ty.Conforms want.stripped ∧
      (want.Foreseen .rough source → w.ty.Conforms u.ty) ∧
      (want.Foreseen .exact source → w.ty = u.ty) ∧
      ∀ build t ss ps p, want = build t → Ty.Collects build source ss → t.TwoWays ss ps p →
        ((∀ s ∈ ss, t.Foreseen .rough s) → (∀ q ∈ ps, q.Conforms p) → w.ty.Conforms u.ty) ∧
        ((∀ s ∈ ss, t.Foreseen .exact s) → t.Aligned ss → w.ty.Conforms u.ty) ∧
        ((∀ s ∈ ss, t.Foreseen .exact s) → v.isConcrete = true →
          (w.ty.Conforms u.ty ↔ ∀ e, Ty.unify? ps .risky = some e → e.Conforms p)) := by
  subst hty
  have hsound := hv.sound (hv.unmarked hmarks) hnames
  have hwty := Conversion.sound_convert hsound hwant hw
  have huty := Conversion.sound_convert (Value.sound_unknown hsound.ty_plain) hwant hu
  rw [Ty.conforms_stripped, Ty.conforms_stripped]
  have refines := Conversion.refines_of_convert_unknown hu
  by_cases hsame : v.ty = want
  · -- both have the target type already
    have hunknown : ∃ t, u = .unknown t :=
      refines.elim (fun h => ⟨_, h.2⟩) fun ⟨r, _, hr⟩ => ⟨r, hr⟩
    subst hsame
    have heq : w.ty = u.ty :=
      (hwty.2.ty_eq hwty.1 hsolid).trans (huty.2.ty_eq huty.1 hsolid).symm
    have hconf : w.ty.Conforms u.ty := heq ▸ Ty.conforms_refl _
    refine ⟨hunknown, hwty.1, huty.1, fun _ => hconf, fun _ => heq, ?_⟩
    intro build t ss ps p hbuild collects
    generalize v.ty = source at hbuild collects
    cases collects <;> cases hbuild
  obtain ⟨r, hr, rfl⟩ := refines.resolve_left fun h => hsame h.1
  obtain ⟨below, c, -, hc, happly⟩ :=
    (Conversion.convertWithin_cases hw).resolve_left fun h => hsame h.1
  have hconvert : Conversion.SoundBy (Value.convertWithin below) :=
    Conversion.sound_convertWithin below
  have hyields := Conversion.yields_of_apply (Conversion.plan_of_between? hc) hsound
    (Ty.conforms_refl _) happly
  have hrplain : r.Plain := .refines hr hwant.plain_stripped hsound.ty_plain
  have trusted : ∀ {precision}, want.Foreseen precision v.ty → w.ty.Realizes precision r :=
    fun hforeseen => hyields.realizes_of_foreseen hconvert hsound hv.homogeneous rfl hsolid hwant
      hforeseen hr
  refine ⟨⟨r, rfl⟩, hwty.1, huty.1, trusted, fun hforeseen => ?_, ?_⟩
  · exact (trusted hforeseen).eq hwty.2.ty_plain hrplain
  intro build t ss ps p hbuild collects ways
  subst hbuild
  obtain rfl : r = build p := hr.unique (collects.refines ways.together)
  have ht := collects.lawful hwant
  have hplain : ∀ s ∈ ss, s.Plain := fun s hs => hsound.ty_plain.part (collects.parts_eq ▸ hs)
  have hdefinite : ∀ s ∈ ss, s.hasDynamic = false := fun s hs =>
    (Ty.hasDynamic_eq_false_iff.mp hsolid).2 s (collects.parts_eq ▸ hs)
  refine ⟨fun hrough hall => ?_, fun hexact aligned => ?_, fun hexact data => ⟨?_, fun agree => ?_⟩⟩
  · have hp := collects.lawful hrplain.lawful
    exact trusted (collects.foreseen hrough (.of_conforms hp ways hall))
  · exact trusted (collects.foreseen hexact (.of_aligned aligned ht hplain ways))
  · intro hconf e
    exact hyields.conforms_of_collects hconvert collects data hsound hv.homogeneous rfl hdefinite
      hplain ht hexact ways hconf
  · have converges : Ty.Converges .rough .exact t ss := .of_unify? ht hplain ways agree
    exact trusted (collects.foreseen hexact converges)

/-- A list of objects of which one lacks an attribute that is left open: its type is found in the
other, whether the objects are converted before or after they are brought together. -/
theorem conforms_convert_unknown_tuple_to_list :
    let v : Value := .tuple [.object [], .object [("a", .number ⟨1, 0⟩)]]
    let filled : Ty := .object [⟨"a", false, .number⟩]
    let source : Ty := .tuple [.object [], filled]
    let element : Ty := .object [⟨"a", true, .dynamic⟩]
    let want : Ty := .list element
    let w : Value := .list filled
      [.object [("a", .null .number)], .object [("a", .number ⟨1, 0⟩)]]
    let u : Value := .unknown (.list filled)
    v.WellFormed ∧ v.Lawful ∧ v.ty = source ∧ source.hasDynamic = false ∧ source.Unmarked ∧
      want.Lawful ∧ v.isConcrete = true ∧ element.Aligned [.object [], filled] ∧
      want.Foreseen .rough source ∧ want.Foreseen .exact source ∧ v.convert want = .ok w ∧
      (Value.unknown source).convert want = .ok u ∧ w.ty.Conforms u.ty ∧ w.ty = u.ty := by
  intro v filled source element want w u
  let blank : Ty := .object [⟨"a", false, .dynamic⟩]
  have ways : element.TwoWays [.object [], filled] [blank, filled] filled := by
    have unified : Ty.unify? [.object [], filled] .risky = some (.map .number) := by cbv
    have absent : Ty.Refines element.stripped (.object []) blank := Ty.refine_eq_ok_iff.mp rfl
    have own : Ty.Refines element.stripped filled filled := Ty.refine_eq_ok_iff.mp rfl
    refine ⟨.cons absent (.cons own .nil), ?_⟩
    rw [Ty.merged, unified]
    exact Ty.refine_eq_ok_iff.mp rfl
  have plain : ∀ s ∈ [.object [], filled], s.Plain := by
    simp only [List.forall_mem_cons]
    exact ⟨⟨by decide, by decide⟩, ⟨by decide, by decide⟩, by simp⟩
  have each : ∀ s ∈ [.object [], filled], element.Foreseen .exact s := by
    have opened : ∀ as, element.Foreseen .exact (.object as) := fun as =>
      .object fun b hb a _ => by
        rw [List.mem_singleton.mp hb]
        exact .whole
    simp only [List.forall_mem_cons]
    exact ⟨opened _, opened _, by simp⟩
  have aligned : element.Aligned [.object [], filled] := by
    refine .scattered (s := .number) ?_ ?_
    · simp only [List.forall_mem_cons]
      exact ⟨⟨[], rfl, by simp⟩, ⟨_, rfl, by simp⟩, by simp⟩
    · intro b hb _
      rw [List.mem_singleton.mp hb]
      exact ⟨filled, by simp, rfl⟩
  have rough : want.Foreseen .rough source :=
    .positions each (.of_aligned aligned (by decide) plain ways)
  have exactly : want.Foreseen .exact source := by
    refine .positions each (.of_unify? (by decide) plain ways fun e he => ?_)
    have unified : Ty.unify? [blank, filled] .risky = some filled := by cbv
    obtain rfl := Option.some.inj (unified.symm.trans he)
    exact Ty.realizes_refl .exact filled
  have hw : v.convert want = .ok w := by cbv
  have hu : (Value.unknown source).convert want = .ok u := by cbv
  have predicted := conforms_convert_unknown (v := v) (by decide) (by decide) rfl (by decide)
    (by decide) (by decide) hw hu
  exact ⟨by decide, by decide, rfl, by decide, by decide, by decide, rfl, aligned, rough, exactly,
    hw, hu, predicted.2.2.2.1 rough, predicted.2.2.2.2.1 exactly⟩

/-- Objects that all have a number, some of them beside a text, in a list of objects: brought
together they are maps of texts, and so a text is predicted; converted first they keep the
number. -/
theorem not_conforms_convert_unknown :
    let v : Value := .tuple [.object [("a", .number ⟨1, 0⟩), ("b", .string "x")],
      .object [("a", .number ⟨2, 0⟩)]]
    let source : Ty := .tuple [.object [⟨"a", false, .number⟩, ⟨"b", false, .string⟩],
      .object [⟨"a", false, .number⟩]]
    let want : Ty := .list (.object [⟨"a", false, .dynamic⟩, ⟨"b", true, .string⟩])
    let w : Value := .list (.object [⟨"a", false, .number⟩, ⟨"b", false, .string⟩])
      [.object [("a", .number ⟨1, 0⟩), ("b", .string "x")],
        .object [("a", .number ⟨2, 0⟩), ("b", .null .string)]]
    let u : Value := .unknown
      (.list (.object [⟨"a", false, .string⟩, ⟨"b", false, .string⟩]))
    v.WellFormed ∧ v.Lawful ∧ v.ty = source ∧ source.hasDynamic = false ∧ source.Unmarked ∧
      want.Lawful ∧ v.isConcrete = true ∧ v.convert want = .ok w ∧
      (Value.unknown source).convert want = .ok u ∧ ¬w.ty.Conforms u.ty := by
  intro v source want w u
  have hw : v.convert want = .ok w := by cbv
  have hu : (Value.unknown source).convert want = .ok u := by cbv
  refine ⟨by decide, by decide, rfl, by decide, by decide, by decide, rfl, hw, hu, fun h => ?_⟩
  cases h with
  | sequence h => cases h with | object _ each => cases each 0 _ _ rfl rfl

end Retype
