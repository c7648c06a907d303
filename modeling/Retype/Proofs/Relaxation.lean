import Retype.Proofs.Idempotence

/-!
# Further optional attributes

A target with further attributes marked optional asks for less (`Ty.Relaxes`). What a value becomes
under the stricter target it also becomes under the relaxed one: a mark makes a difference only
where an attribute is absent, and there the stricter target is a failure.

The two conversions do not take the same way. Marks are part of a type, so one of them may keep a
value whose type is the target, where the other goes through all its parts. The argument follows
the plan of the stricter target.

* **Marks aside, the targets are one type** (`Relaxes.stripped_eq`), so nulls and unknowns get the
  same type, empty collections refine to the same element type (`Relaxes.refine_stripped`), and
  parts settle in the same way (`settle_congr`).
* **What conforms is kept.** Where a type conforms to one target it conforms to the other, and both
  plans keep the value (`Plan.apply_of_conforms`). This is the case that one side decides at once.
* **Otherwise the plans have one shape**, and a loop over parts that succeeds under one of them
  succeeds under the other with the same results (`eachPart_of_imp` and its companions).
-/

namespace Retype

namespace Ty

/-! ### Targets that ask for less -/

/-- The type is the declared one, except that further attributes may be marked optional. -/
inductive Relaxes : Ty → Ty → Prop
  | primitive {k : Primitive} : Relaxes (.primitive k) (.primitive k)
  | sequence {k : SequenceKind} {t d : Ty} (element : Relaxes t d) :
      Relaxes (.sequence k t) (.sequence k d)
  | map {t d : Ty} (element : Relaxes t d) : Relaxes (.map t) (.map d)
  | tuple {ts ds : List Ty} (length : ts.length = ds.length)
      (each : ∀ (i : Nat) t d, ts[i]? = some t → ds[i]? = some d → Relaxes t d) :
      Relaxes (.tuple ts) (.tuple ds)
  | object {as ds : List (Attribute Ty)} (names : Named.names as = Named.names ds)
      (marks : ∀ (i : Nat) (a d : Attribute Ty), as[i]? = some a → ds[i]? = some d →
        d.optional = true → a.optional = true)
      (each : ∀ (i : Nat) (a d : Attribute Ty), as[i]? = some a → ds[i]? = some d →
        Relaxes a.type d.type) :
      Relaxes (.object as) (.object ds)
  | capsule {n : String} : Relaxes (.capsule n) (.capsule n)
  | dynamic : Relaxes .dynamic .dynamic

theorem relaxes_refl (t : Ty) : t.Relaxes t := by
  induction t with
  | primitive k => exact .primitive
  | sequence k e ih => exact .sequence ih
  | map e ih => exact .map ih
  | tuple ts ih =>
    refine .tuple rfl fun i s t hs ht => ?_
    obtain rfl : s = t := Option.some.inj (hs.symm.trans ht)
    exact ih s (List.mem_of_getElem? hs)
  | object as ih =>
    refine .object rfl (fun i a b ha hb => ?_) fun i a b ha hb => ?_
    · obtain rfl : a = b := Option.some.inj (ha.symm.trans hb)
      exact id
    · obtain rfl : a = b := Option.some.inj (ha.symm.trans hb)
      exact ih a (List.mem_of_getElem? ha)
  | capsule n => exact .capsule
  | dynamic => exact .dynamic

theorem Relaxes.exists_object {t : Ty} {ds : List (Attribute Ty)} (h : t.Relaxes (.object ds)) :
    ∃ as, t = .object as ∧ Named.names as = Named.names ds := by
  cases h with
  | object names => exact ⟨_, rfl, names⟩

/-- An attribute is declared, under its name; it is optional if it is declared so. -/
theorem Relaxes.exists_declared {as ds : List (Attribute Ty)}
    (h : (Ty.object as).Relaxes (.object ds)) {a : Attribute Ty} (ha : a ∈ as) :
    ∃ d ∈ ds, d.name = a.name ∧ a.type.Relaxes d.type ∧
      (d.optional = true → a.optional = true) := by
  cases h with
  | object names marks each =>
    obtain ⟨i, ha⟩ := List.getElem?_of_mem ha
    obtain ⟨d, hd, hname⟩ := Named.exists_getElem? names.symm ha
    exact ⟨d, List.mem_of_getElem? hd, hname, each i a d ha hd, marks i a d ha hd⟩

theorem Relaxes.stripped_eq {t d : Ty} (h : t.Relaxes d) : t.stripped = d.stripped := by
  induction h with
  | primitive | capsule | dynamic => rfl
  | sequence _ ih | map _ ih => rw [stripped, stripped, ih]
  | tuple length _ ih =>
    simp only [stripped, strippedAll_eq_map, tuple.injEq]
    exact map_eq_map_of_getElem? length ih
  | object names _ _ ih =>
    simp only [stripped, strippedAttributes_eq_map, object.injEq]
    refine map_eq_map_of_getElem? (Named.length_eq_of_names names) fun i a d ha hd => ?_
    have hname : a.name = d.name := Named.name_eq_of_names names ha hd
    rw [ih i a d ha hd, hname]

/-- The two are alike as patterns. -/
theorem Relaxes.conforms_iff {s t d : Ty} (h : t.Relaxes d) : s.Conforms t ↔ s.Conforms d := by
  rw [← conforms_stripped, h.stripped_eq, conforms_stripped]

theorem Relaxes.conforms {t d : Ty} (h : t.Relaxes d) : t.Conforms d :=
  h.conforms_iff.mp (conforms_refl t)

theorem Relaxes.fits {t d i : Ty} (h : t.Relaxes d) (fits : d.Fits i) : t.Fits i := by
  induction fits generalizing t with
  | blank => exact .blank
  | hole => cases h; exact .hole
  | primitive => cases h; exact .primitive
  | capsule => cases h; exact .capsule
  | map _ ih => cases h with | map element => exact .map (ih element)
  | gather _ ih => cases h with | map element => exact .gather (ih element)
  | sequence _ ih => cases h with | sequence element => exact .sequence (ih element)
  | collect _ ih => cases h with | sequence element => exact .collect (ih element)
  | @select ds i _ ih =>
    obtain ⟨as, rfl, -⟩ := h.exists_object
    refine .select fun a ha => ?_
    obtain ⟨d, hd, -, relaxes, -⟩ := h.exists_declared ha
    exact ih d hd relaxes
  | @object ds is _ ih =>
    obtain ⟨as, rfl, -⟩ := h.exists_object
    refine .object fun a ha i hi => ?_
    obtain ⟨d, hd, hname, relaxes, -⟩ := h.exists_declared ha
    exact ih d hd i (hname ▸ hi) relaxes
  | tuple length _ ih =>
    cases h with
    | tuple length' each =>
      refine .tuple (length.trans length'.symm) fun n t i ht hi => ?_
      obtain ⟨d, hd⟩ := exists_getElem?_of_length length'.symm ht
      exact ih n d i hd hi (each n t d ht hd)

/-- Marks aside, both are refined to the same type. -/
theorem Relaxes.refine_stripped {t d i r : Ty} (h : t.Relaxes d) (hi : i.Unmarked)
    (refine : d.refine i = .ok r) : ∃ r', t.refine i = .ok r' ∧ r'.stripped = r.stripped := by
  have refines := refine_eq_ok_iff.mp refine
  obtain ⟨r', refines'⟩ := fits_iff.mp (h.fits refines.fits)
  have hstripped := refines'.stripped hi
  rw [h.stripped_eq] at hstripped
  exact ⟨r', refine_eq_ok_iff.mpr refines', hstripped.unique (refines.stripped hi)⟩

end Ty

namespace Conversion

open Ty

variable {safety : Safety} {convert : Value → Ty → Except Fault Value}

/-- Parts on their way into a collection go to types of which one relaxes the other. -/
theorem Elects.exists_relaxed {parts : List Ty} {t d e : Ty} (h : t.Relaxes d)
    (elects : Elects safety parts d e) : ∃ e', Elects safety parts t e' ∧ e'.Relaxes e := by
  cases elects with
  | common nonempty unified =>
    cases h
    exact ⟨e, .common nonempty unified, relaxes_refl e⟩
  | declared settled =>
    refine ⟨t, .declared fun hdyn => settled ?_, h⟩
    subst hdyn
    cases h
    rfl

theorem Elects.relaxes {parts : List Ty} {t d e e' : Ty} (elects : Elects safety parts d e)
    (elects' : Elects safety parts t e') (h : t.Relaxes d) : e'.Relaxes e := by
  obtain ⟨u, hu, relaxes⟩ := elects.exists_relaxed h
  rwa [elects'.unique hu]

end Conversion

namespace Ty

variable {safety : Safety}

/-- What converts to a type converts to the relaxed one. -/
theorem Converts.relaxed {s t d : Ty} (converts : Converts safety s d) (h : t.Relaxes d)
    (hs : s.Lawful) : Converts safety s t := by
  obtain ⟨c, plan⟩ := converts.plan
  unfold Lawful at hs
  induction plan generalizing t with
  | same => exact Conforms.converts (h.conforms_iff.mpr (conforms_refl _)) hs
  | pass =>
    cases h
    exact converts_dynamic _
  | later => exact dynamic_converts t
  | primitive permitted =>
    cases h
    exact .primitive permitted
  | sequence permitted element ih =>
    cases h with
    | sequence h =>
      exact .sequence permitted (ih (converts_of_plan element) h (throughout_sequence.mp hs).2)
  | positions permitted elects length each ih =>
    cases h with
    | sequence h =>
      obtain ⟨e', elects', he⟩ := elects.exists_relaxed h
      refine .positions permitted elects' fun s hs' => ?_
      obtain ⟨i, hi⟩ := List.getElem?_of_mem hs'
      obtain ⟨c, hc⟩ := exists_getElem?_of_length length.symm hi
      exact ih i s c hi hc (converts_of_plan (each i s c hi hc)) he
        ((throughout_tuple.mp hs).2 s hs')
  | map element ih =>
    cases h with
    | map h => exact .map (ih (converts_of_plan element) h (throughout_map.mp hs).2)
  | gather elects names each ih =>
    cases h with
    | map h =>
      obtain ⟨e', elects', he⟩ := elects.exists_relaxed h
      refine .gather elects' fun a ha => ?_
      obtain ⟨i, hi⟩ := List.getElem?_of_mem ha
      obtain ⟨c, hc, -⟩ := Named.exists_getElem? names.symm hi
      exact ih i a c hi hc (converts_of_plan (each i a c hi hc)) he
        ((throughout_object.mp hs).2 a ha)
  | tuple arity length each ih =>
    cases h with
    | tuple length' h =>
      refine .tuple (arity.trans length'.symm) fun i s t hi ht => ?_
      obtain ⟨d, hd⟩ := exists_getElem?_of_length length'.symm ht
      obtain ⟨c, hc⟩ := exists_getElem?_of_length length.symm hi
      exact ih i s d c hi hd hc (converts_of_plan (each i s d c hi hd hc)) (h i t d ht hd)
        ((throughout_tuple.mp hs).2 s (List.mem_of_getElem? hi))
  | object known targets found missing ih =>
    subst targets
    obtain ⟨bs, rfl, names⟩ := h.exists_object
    refine .object (fun a ha => ?_) (fun b hb a hfind => ?_) fun b hb hnone => ?_
    · rw [Named.contains_iff, names, ← Named.contains_iff]
      exact known a ha
    · obtain ⟨d, hd, hname, relaxes, -⟩ := h.exists_declared hb
      obtain ⟨slot, hslot, rfl⟩ := List.mem_map.mp hd
      rw [← hname] at hfind
      exact ih slot hslot a hfind (converts_of_plan (found slot hslot a hfind)) relaxes
        ((throughout_object.mp hs).2 a (Named.mem_of_find? hfind).1)
    · obtain ⟨d, hd, hname, -, mark⟩ := h.exists_declared hb
      obtain ⟨slot, hslot, rfl⟩ := List.mem_map.mp hd
      exact mark (missing slot hslot (hname ▸ hnone))
  | select permitted targets each ih =>
    subst targets
    obtain ⟨bs, rfl, -⟩ := h.exists_object
    refine .select permitted fun b hb => ?_
    obtain ⟨d, hd, -, relaxes, -⟩ := h.exists_declared hb
    obtain ⟨slot, hslot, rfl⟩ := List.mem_map.mp hd
    exact ih slot hslot (converts_of_plan (each slot hslot)) relaxes (throughout_map.mp hs).2

end Ty

namespace Conversion

open Ty

variable {safety : Safety} {convert : Value → Ty → Except Fault Value}

/-! ### Loops over parts -/

theorem locate_map_of_imp {step : Step} {x y : Except Fault Value} {p : Step × Value}
    (h : ((locate step x).map fun v => (step, v)) = .ok p) (himp : ∀ w, x = .ok w → y = .ok w) :
    ((locate step y).map fun v => (step, v)) = .ok p := by
  obtain ⟨w, hw, rfl⟩ := map_eq_ok_iff.mp h
  exact locate_map_eq_ok (himp w (locate_eq_ok_iff.mp hw))

theorem eachPart_of_imp {f g : Value → Except Fault Value} {parts done : List (Step × Value)}
    {items : List Value} (values : parts.map Prod.snd = items)
    (himp : ∀ x ∈ items, ∀ w, f x = .ok w → g x = .ok w)
    (h : eachPart f parts = .ok done) : eachPart g parts = .ok done := by
  subst values
  refine mapM_eq_ok_beside rfl h fun i part part' done hpart hpart' hdone => ?_
  obtain rfl : part = part' := Option.some.inj (hpart.symm.trans hpart')
  exact locate_map_of_imp hdone
    (himp part.2 (List.mem_map_of_mem (List.mem_of_getElem? hpart)))

theorem applyAll_of_imp {cs cs' : List Conversion} {items : List Value}
    {done : List (Step × Value)} (length : cs.length = cs'.length)
    (himp : ∀ (i : Nat) c c' x w, cs[i]? = some c → cs'[i]? = some c' → items[i]? = some x →
      applyWith convert c x = .ok w → applyWith convert c' x = .ok w)
    (h : applyAll convert cs (Value.indexed items) = .ok done) :
    applyAll convert cs' (Value.indexed items) = .ok done := by
  rw [applyAll_eq_mapM] at h ⊢
  refine mapM_eq_ok_beside (by simp [length]) h fun i p p' done hp hp' hdone => ?_
  obtain ⟨hc, hpart⟩ := List.getElem?_zip_eq_some.mp hp
  obtain ⟨hc', hpart'⟩ := List.getElem?_zip_eq_some.mp hp'
  obtain heq : p.2 = p'.2 := Option.some.inj (hpart.symm.trans hpart')
  have hx : items[i]? = some p.2.2 := by
    rw [← map_snd_indexed items, List.getElem?_map, hpart, Option.map_some]
  rw [← heq]
  exact locate_map_of_imp hdone fun w => himp i p.1 p'.1 p.2.2 w hc hc' hx

theorem gather_of_imp {cs cs' : List (String × Conversion)} {attributes : List (String × Value)}
    {v : Value} {done : List (Step × Value)} (names : Named.names attributes = Named.names cs)
    (names' : Named.names attributes = Named.names cs') (ascending : Named.Ascending attributes)
    (himp : ∀ (i : Nat) (c c' : String × Conversion) (x : String × Value) w, cs[i]? = some c →
      cs'[i]? = some c' → attributes[i]? = some x → applyWith convert c.2 x.2 = .ok w →
      applyWith convert c'.2 x.2 = .ok w)
    (h : (attributes.mapM fun a =>
      match applyNamed convert cs a.1 a.2 with
      | some result => (locate (.attr a.1) result).map fun v => (Step.attr a.1, v)
      | none => wrongShape .object v) = .ok done) :
    (attributes.mapM fun a =>
      match applyNamed convert cs' a.1 a.2 with
      | some result => (locate (.attr a.1) result).map fun v => (Step.attr a.1, v)
      | none => wrongShape .object v) = .ok done := by
  refine mapM_eq_ok_beside rfl h fun i x x' done hx hx' hdone => ?_
  obtain rfl : x = x' := Option.some.inj (hx.symm.trans hx')
  have asc : Named.Ascending cs := by rwa [Named.Ascending, ← names]
  have asc' : Named.Ascending cs' := by rwa [Named.Ascending, ← names']
  obtain ⟨c, hc, hfind⟩ := Named.exists_find?_getElem? asc names.symm hx
  obtain ⟨c', hc', hfind'⟩ := Named.exists_find?_getElem? asc' names'.symm hx
  rw [applyNamed_eq_map, show Named.find? x.1 cs = some c from hfind] at hdone
  rw [applyNamed_eq_map, show Named.find? x.1 cs' = some c' from hfind']
  exact locate_map_of_imp hdone fun w => himp i c c' x w hc hc' hx

theorem absent_of_relaxes {a d : Attribute Ty} {w : Value} (h : a.type.Relaxes d.type)
    (mark : d.optional = true → a.optional = true) (habsent : absent d = .ok w) :
    absent a = .ok w := by
  rw [absent] at habsent ⊢
  split at habsent
  · rename_i optional
    rw [if_pos (mark optional), h.stripped_eq, habsent]
  · cases habsent

/-- Names are known to both, and a slot without an entry is filled with the same null. -/
theorem assemble_of_imp {step : String → Step} {slots slots' : List (Slot Conversion)}
    {entries : List (String × Value)} {w : Value}
    (h : (Ty.object (slots'.map (·.target))).Relaxes (.object (slots.map (·.target))))
    (himp : ∀ slot ∈ slots, ∀ slot' ∈ slots', ∀ x w,
      slot.target.name = slot'.target.name → slot'.target.type.Relaxes slot.target.type →
      Named.find? slot.target.name entries = some x →
      applyWith convert slot.conversion x.2 = .ok w →
      applyWith convert slot'.conversion x.2 = .ok w)
    (happly : ((checkNames slots entries).bind fun _ =>
      (fill convert step slots entries).map .object) = .ok w) :
    ((checkNames slots' entries).bind fun _ =>
      (fill convert step slots' entries).map .object) = .ok w := by
  obtain ⟨_, hcheck, happly⟩ := bind_eq_ok_iff.mp happly
  obtain ⟨filled, hfill, rfl⟩ := map_eq_ok_iff.mp happly
  cases h with
  | object names marks each =>
    refine bind_eq_ok_iff.mpr ⟨(), checkNames_eq_ok fun x hx => ?_, ?_⟩
    · rw [Named.contains_iff, names, ← Named.contains_iff]
      exact contains_of_checkNames hcheck x hx
    refine map_eq_ok_iff.mpr ⟨filled, ?_, rfl⟩
    rw [fill_eq_mapM] at hfill ⊢
    refine mapM_eq_ok_beside (by simpa using (Named.length_eq_of_names names).symm) hfill
      fun i slot slot' done hslot hslot' hdone => ?_
    have htarget : (slots.map (·.target))[i]? = some slot.target := by
      rw [List.getElem?_map, hslot, Option.map_some]
    have htarget' : (slots'.map (·.target))[i]? = some slot'.target := by
      rw [List.getElem?_map, hslot', Option.map_some]
    have hname : slot.target.name = slot'.target.name :=
      Named.name_eq_of_names names.symm htarget htarget'
    have relaxes := each i slot'.target slot.target htarget' htarget
    obtain ⟨w, hw, rfl⟩ := map_eq_ok_iff.mp hdone
    refine map_eq_ok_iff.mpr ⟨w, ?_, by rw [hname]⟩
    rw [← hname]
    cases hx : Named.find? slot.target.name entries with
    | none =>
      rw [hx] at hw
      exact absent_of_relaxes relaxes (marks i _ _ htarget' htarget) hw
    | some x =>
      rw [hx] at hw
      exact locate_eq_ok_iff.mpr (himp slot (List.mem_of_getElem? hslot) slot'
        (List.mem_of_getElem? hslot') x w hname relaxes hx (locate_eq_ok_iff.mp hw))

theorem settle_congr {t d : Ty} (h : t.stripped = d.stripped) (parts : List (Step × Value)) :
    settle convert t parts = settle convert d parts := by
  have hopen : t.hasDynamic = d.hasDynamic := by
    rw [← hasDynamic_stripped t, h, hasDynamic_stripped]
  unfold settle
  rw [hopen, h]

/-- A collection is put together from the same parts in the same way. -/
theorem build_of_imp {t d : Ty} {parts parts' : Except Fault (List (Step × Value))}
    {build : Ty × List Value → Value} {w : Value} (hstripped : t.stripped = d.stripped)
    (himp : ∀ done, parts = .ok done → parts' = .ok done)
    (h : (parts.bind fun parts => (settle convert d parts).map build) = .ok w) :
    (parts'.bind fun parts => (settle convert t parts).map build) = .ok w := by
  obtain ⟨done, hdone, h⟩ := bind_eq_ok_iff.mp h
  rw [himp done hdone, Except.bind, settle_congr hstripped, h]

theorem ite_of_imp {p : Prop} [Decidable p] {x x' y y' : Except Fault Value} {w : Value}
    (hx : x = .ok w → x' = .ok w) (hy : y = .ok w → y' = .ok w)
    (h : (if p then x else y) = .ok w) : (if p then x' else y') = .ok w := by
  by_cases hp : p
  · rw [if_pos hp] at h ⊢
    exact hx h
  · rw [if_neg hp] at h ⊢
    exact hy h

theorem applyWith_covering_of_imp {t d : Ty} {inner inner' : Conversion} {v w : Value}
    (hstripped : t.stripped = d.stripped)
    (himp : v.isConcrete = true → applyWith convert inner v = .ok w →
      applyWith convert inner' v = .ok w)
    (h : applyWith convert (.covering d.stripped inner) v = .ok w) :
    applyWith convert (.covering t.stripped inner') v = .ok w := by
  rw [hstripped]
  cases v with
  | null i | unknown i => exact h
  | _ => exact himp rfl h

/-- An empty collection gets its element type from what was recorded. -/
theorem refine_of_relaxes {t d own : Ty} (build : Ty → Value) {w : Value} (h : t.Relaxes d)
    (hown : own.Unmarked) (hrefine : ((d.refine own).map fun e => build e.stripped) = .ok w) :
    ((t.refine own).map fun e => build e.stripped) = .ok w := by
  obtain ⟨r, hr, rfl⟩ := map_eq_ok_iff.mp hrefine
  obtain ⟨r', hr', heq⟩ := h.refine_stripped hown hr
  exact map_eq_ok_iff.mpr ⟨r', hr', congrArg build heq⟩

/-- Where the type conforms to the target already, both plans keep the value. -/
theorem Plan.apply_of_kept {s t d : Ty} {c c' : Conversion} {v w : Value} (plan : Plan safety s d c)
    (plan' : Plan safety s t c') (h : t.Relaxes d) (conforms : s.Conforms d) (plain : s.Plain)
    (hv : v.Inhabits s) (happly : applyWith convert c v = .ok w) :
    applyWith convert c' v = .ok w := by
  rw [plan.apply_of_conforms conforms plain hv] at happly
  rw [plan'.apply_of_conforms (h.conforms_iff.mpr conforms) plain hv, happly]

/-- **Step.** What a plan makes of a value, a plan for the relaxed target makes of it too. -/
theorem Plan.apply_of_relaxes {s t d : Ty} {c c' : Conversion} {v w : Value}
    (plan : Plan safety s d c) (plan' : Plan safety s t c') (h : t.Relaxes d) (plain : s.Plain)
    (hv : v.Inhabits s) (happly : applyWith convert c v = .ok w) :
    applyWith convert c' v = .ok w := by
  induction plan generalizing v w t c' with
  | same solid => exact apply_of_kept (.same solid) plan' h (conforms_refl _) plain hv happly
  | pass =>
    cases h
    cases plan' with
    | same solid | later solid => exact absurd rfl solid
    | pass => exact happly
  | later solid =>
    have hty := hv.ty
    cases plan' with
    | same solid => exact absurd rfl solid
    | pass => cases h; exact absurd rfl solid
    | later =>
      -- only the null and the unknown have the placeholder as their type
      cases v with
      | null i | unknown i =>
        obtain rfl : i = .dynamic := hty
        cases happly
        rw [applyWith, h.stripped_eq]
      | _ => cases hty
  | primitive permitted =>
    cases h
    cases plan' with
    | same solid =>
      exact apply_of_kept (.primitive permitted) (.same solid) .primitive (conforms_refl _) plain hv
        happly
    | primitive => exact happly
  | @sequence k l s d c permitted element ih =>
    cases h with
    | @sequence _ t _ h =>
      have relaxes : (Ty.sequence l t).Relaxes (.sequence l d) := .sequence h
      cases plan' with
      | same solid =>
        -- the relaxed target is the type of the value, and the other one is not
        exact apply_of_kept (.sequence permitted element) (.same solid) relaxes relaxes.conforms
          plain hv happly
      | @sequence _ _ _ _ c' _ element' =>
        refine applyWith_covering_of_imp relaxes.stripped_eq (fun data hin => ?_) happly
        obtain ⟨items, rfl, hitems⟩ := hv.items data
        have plain' : s.Plain := plain.part (by simp [parts])
        rw [applyWith] at hin ⊢
        refine ite_of_imp (refine_of_relaxes (.sequence l · []) h plain'.unmarked) ?_ hin
        refine build_of_imp h.stripped_eq fun done => ?_
        refine eachPart_of_imp (map_snd_indexed items) fun x hx w => ?_
        exact ih element' h plain' (hitems x hx)
  | @positions l ss d e cs permitted elects length each ih =>
    cases h with
    | @sequence _ t _ h =>
      have relaxes : (Ty.sequence l t).Relaxes (.sequence l d) := .sequence h
      cases plan' with
      | @positions _ _ _ e' cs' _ elects' length' each' =>
        refine applyWith_covering_of_imp relaxes.stripped_eq (fun data hin => ?_) happly
        obtain ⟨items, rfl, hlen, hitems⟩ := hv.positions data
        have he := elects.relaxes elects' h
        rw [applyWith, if_pos (hlen.symm.trans length)] at hin
        rw [applyWith, if_pos (hlen.symm.trans length')]
        refine ite_of_imp (fun hempty => by rwa [he.stripped_eq]) ?_ hin
        refine build_of_imp he.stripped_eq fun done => ?_
        refine applyAll_of_imp (length.symm.trans length') fun i c c' x w hc hc' hx => ?_
        obtain ⟨s, hs⟩ := exists_getElem?_of_length hlen hx
        exact ih i s c hs hc (each' i s c' hs hc') he (plain.part (List.mem_of_getElem? hs))
          (hitems i s x hs hx)
  | @map s d c element ih =>
    cases h with
    | @map t _ h =>
      have relaxes : (Ty.map t).Relaxes (.map d) := .map h
      cases plan' with
      | same solid =>
        exact apply_of_kept (.map element) (.same solid) relaxes relaxes.conforms plain hv happly
      | @map _ _ c' element' =>
        refine applyWith_covering_of_imp relaxes.stripped_eq (fun data hin => ?_) happly
        obtain ⟨entries, rfl, hentries⟩ := hv.entries data
        have plain' : s.Plain := plain.part (by simp [parts])
        rw [applyWith] at hin ⊢
        refine ite_of_imp (refine_of_relaxes (.map · []) h plain'.unmarked) ?_ hin
        refine build_of_imp h.stripped_eq fun done => ?_
        refine eachPart_of_imp (map_snd_keyed entries) (List.forall_mem_map.mpr fun x hx w => ?_)
        exact ih element' h plain' (hentries x hx)
  | @gather as d e cs elects names each ih =>
    cases h with
    | @map t _ h =>
      have relaxes : (Ty.map t).Relaxes (.map d) := .map h
      cases plan' with
      | @gather _ _ e' cs' elects' names' each' =>
        refine applyWith_covering_of_imp relaxes.stripped_eq (fun data hin => ?_) happly
        obtain ⟨attributes, rfl, ascending, hnames, hfields, -⟩ := hv.fields data
        have he := elects.relaxes elects' h
        rw [applyWith] at hin ⊢
        refine ite_of_imp (fun hempty => by rwa [he.stripped_eq]) ?_ hin
        refine build_of_imp he.stripped_eq fun done => ?_
        refine gather_of_imp (hnames.symm.trans names) (hnames.symm.trans names') ascending
          fun i c c' x w hc hc' hx => ?_
        obtain ⟨a, ha, -⟩ := Named.exists_getElem? hnames hx
        exact ih i a c ha hc (each' i a c' ha hc') he
          (plain.part (List.mem_map_of_mem (List.mem_of_getElem? ha))) (hfields i a x ha hx)
  | @tuple ss ds cs arity length each ih =>
    cases h with
    | @tuple ts _ tlength h =>
      have relaxes : (Ty.tuple ts).Relaxes (.tuple ds) := .tuple tlength h
      cases plan' with
      | same solid =>
        exact apply_of_kept (.tuple arity length each) (.same solid) relaxes relaxes.conforms plain
          hv happly
      | @tuple _ _ cs' arity' length' each' =>
        refine applyWith_covering_of_imp relaxes.stripped_eq (fun data hin => ?_) happly
        obtain ⟨items, rfl, hlen, hitems⟩ := hv.positions data
        rw [applyWith, if_pos (hlen.symm.trans length)] at hin
        rw [applyWith, if_pos (hlen.symm.trans length')]
        obtain ⟨done, hdone, rfl⟩ := map_eq_ok_iff.mp hin
        refine map_eq_ok_iff.mpr ⟨done, ?_, rfl⟩
        refine applyAll_of_imp (length.symm.trans length') (fun i c c' x w hc hc' hx => ?_) hdone
        obtain ⟨s, hs⟩ := exists_getElem?_of_length hlen hx
        obtain ⟨d, hd⟩ := exists_getElem?_of_length arity.symm hs
        obtain ⟨t, ht⟩ := exists_getElem?_of_length arity'.symm hs
        exact ih i s d c hs hd hc (each' i s t c' hs ht hc') (h i t d ht hd)
          (plain.part (List.mem_of_getElem? hs)) (hitems i s x hs hx)
  | @object as ds slots known targets found missing ih =>
    obtain ⟨ts, rfl, -⟩ := h.exists_object
    cases plan' with
    | same solid =>
      exact apply_of_kept (.object known targets found missing) (.same solid) h h.conforms plain hv
        happly
    | @object _ _ slots' _ targets' found' _ =>
      refine applyWith_covering_of_imp h.stripped_eq (fun data hin => ?_) happly
      obtain ⟨attributes, rfl, -, hnames, -, hfields⟩ := hv.fields data
      subst targets targets'
      refine assemble_of_imp h (fun slot hslot slot' hslot' x w hname relaxes hx => ?_) hin
      obtain ⟨a, ha⟩ := Named.exists_find? hnames hx
      exact ih slot hslot a ha (found' slot' hslot' a (hname ▸ ha)) relaxes
        (plain.part (List.mem_map_of_mem (Named.mem_of_find? ha).1)) (hfields _ a x ha hx)
  | @select s ds slots permitted targets each ih =>
    obtain ⟨ts, rfl, -⟩ := h.exists_object
    cases plan' with
    | @select _ _ slots' _ targets' each' =>
      refine applyWith_covering_of_imp h.stripped_eq (fun data hin => ?_) happly
      obtain ⟨entries, rfl, hentries⟩ := hv.entries data
      subst targets targets'
      refine assemble_of_imp h (fun slot hslot slot' hslot' x w _ relaxes hx => ?_) hin
      exact ih slot hslot (each' slot' hslot') relaxes (plain.part (by simp [parts]))
        (hentries x (Named.mem_of_find? hx).1)

end Conversion

/-- **Optional marks only turn failures into results.** What a well-formed value without marks in
its recorded types is converted to under a target, it is converted to under every target with
further attributes marked optional: the very same value. -/
theorem convert_of_relaxes {v w : Value} {want relaxed : Ty} (wellFormed : v.WellFormed)
    (unmarked : v.Unmarked) (lawful : v.Lawful) (h : relaxed.Relaxes want)
    (hw : v.convert want = .ok w) : v.convert relaxed = .ok w := by
  have plain := (wellFormed.sound unmarked lawful).ty_plain
  have hv : v.Inhabits v.ty := ⟨wellFormed, lawful, rfl⟩
  by_cases conforms : v.ty.Conforms want
  · rw [Value.convert_of_conforms hv plain conforms] at hw
    rw [Value.convert_of_conforms hv plain (h.conforms_iff.mpr conforms), hw]
  · have hne : v.ty ≠ want := fun heq => conforms (heq ▸ Ty.conforms_refl _)
    have hne' : v.ty ≠ relaxed := fun heq => conforms (heq ▸ h.conforms)
    rw [Value.convert_eq, if_neg hne] at hw
    split at hw
    · rename_i c hc
      have plan := Conversion.plan_of_between? hc
      obtain ⟨c', hc'⟩ := Option.isSome_iff_exists.mp
        ((Ty.converts_of_plan plan).relaxed h plain.lawful)
      rw [Value.convert_of_between? hne' hc']
      exact plan.apply_of_relaxes (Conversion.plan_of_between? hc') h plain hv hw
    · cases hw

/-- A set of objects of the declared type is kept as it is. With a mark the types differ, so every
object is taken apart and put together again, the null and the unknown are retyped, and the set is
collected anew. -/
theorem convert_of_relaxes_set :
    let row : Ty := .object [⟨"a", false, .string⟩, ⟨"b", false, .list .bool⟩]
    let relaxed : Ty := .object [⟨"a", false, .string⟩, ⟨"b", true, .list .bool⟩]
    let v : Value := .tuple [.set row [.object [("a", .null .string), ("b", .list .bool [])],
      .unknown row], .tuple [.bool true, .string "x"]]
    let w : Value := .tuple [.set row [.object [("a", .null .string), ("b", .list .bool [])],
      .unknown row], .list .string [.string "true", .string "x"]]
    v.WellFormed ∧ v.Unmarked ∧ v.Lawful ∧
      (Ty.tuple [.set relaxed, .list .dynamic]).Relaxes (.tuple [.set row, .list .dynamic]) ∧
      v.convert (.tuple [.set row, .list .dynamic]) = .ok w ∧
      v.convert (.tuple [.set relaxed, .list .dynamic]) = .ok w := by
  intro row relaxed v w
  have hrow : relaxed.Relaxes row := by
    refine .object rfl (fun i a d ha hd => ?_) fun i a d ha hd => ?_
    · rcases i with _ | _ | i <;> cases ha <;> cases hd <;> decide
    · rcases i with _ | _ | i <;> cases ha <;> cases hd <;> exact Ty.relaxes_refl _
  have h : (Ty.tuple [.set relaxed, .list .dynamic]).Relaxes
      (.tuple [.set row, .list .dynamic]) := by
    refine .tuple rfl fun i t d ht hd => ?_
    rcases i with _ | _ | i <;> cases ht <;> cases hd
    · exact .sequence hrow
    · exact Ty.relaxes_refl _
  have hw : v.convert (.tuple [.set row, .list .dynamic]) = .ok w := by cbv
  exact ⟨by decide, by decide, by decide, h, hw,
    convert_of_relaxes (by decide) (by decide) (by decide) h hw⟩

end Retype
