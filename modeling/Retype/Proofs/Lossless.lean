import Retype.Proofs.Conversion.Faults
import Retype.Proofs.Prediction
import Retype.Proofs.Value.Embeds

/-!
# Safe conversions are total and lossless

Between types without placeholders and without optional attributes a safe conversion converts
every value of its source type (`Plan.exists_apply`), and values that it makes equal were equal
before (`safe_total_lossless`).

* Nothing can fail: of the faults of `Conversion.Raises`, a text is never read as another
  primitive and a map never becomes an object, because there is no safe plan for that, and the
  type of a null, an unknown or an empty collection is refined without fault, because all sources
  of a type without optional attributes have one frame (`Unmarked.rigid`).
* Nothing is lost: what a safe conversion yields holds all the data of the value it came from
  (`Yields.embeds`). In particular no two items of a set become equal, so that none of them is
  dropped.
-/

namespace Retype

/-! ### Nothing is lost -/

namespace Value

theorem Inhabits.sound {v : Value} {t : Ty} (h : v.Inhabits t) (ht : t.Unmarked) : v.Sound :=
  h.wellFormed.sound (h.wellFormed.unmarked (h.ty ▸ ht)) h.lawful

theorem toPrimitive_self {p : Primitive} {v : Value} (hv : v.ty = .primitive p) :
    v.toPrimitive p = .ok v := by
  cases v <;> cases hv <;> rfl

/-- A primitive that is safely turned into another is written out. -/
theorem embeds_of_toPrimitive {p q : Primitive} {v w : Value}
    (permitted : Primitive.convertible .safe p q = true) (hty : v.ty = .primitive p)
    (data : v.isConcrete = true) (h : v.toPrimitive q = .ok w) : v.Embeds w := by
  cases v with
  | string a =>
    cases hty
    cases q with
    | string => cases h; exact .string
    | number | bool => simp [Primitive.convertible] at permitted
  | number d =>
    cases hty
    cases q with
    | string => cases h; exact .numberText rfl
    | number => cases h; exact .number
    | bool => simp [Primitive.convertible] at permitted
  | bool b =>
    cases hty
    cases q with
    | string => cases h; exact .boolText rfl
    | bool => cases h; exact .bool
    | number => simp [Primitive.convertible] at permitted
  | null t | unknown t => cases data
  | _ => cases hty

/-- What the items of a well-formed set become, if nothing of them is lost, is a set without
duplicates: different items stay different. -/
theorem collect_of_embeds {k l : SequenceKind} {s e : Ty} {items ws : List Value}
    (hv : (Value.sequence k s items).WellFormed) (kinds : k = .list → l = .list)
    (length : items.length = ws.length)
    (each : ∀ (i : Nat) v w, items[i]? = some v → ws[i]? = some w → v.Embeds w) :
    collect l e ws = .sequence l e ws := by
  refine collect_eq_sequence fun hl => ?_
  subst hl
  cases k with
  | list => cases kinds rfl
  | set =>
    -- all items have the recorded type, so equal results would come from equal items
    refine pairwise_of_forall₂ (forall₂_iff_getElem?.mpr ⟨length, each⟩) (hv.here.2 s items rfl)
      fun x hx x' hx' w w' hxw hxw' hdiff hw hw' => ?_
    by_contra hsame
    have hty : x.ty = x'.ty := (hv.here.1 s rfl x hx).trans (hv.here.1 s rfl x' hx').symm
    have hxx : same x x' = true := hxw.same_of_same hxw' (by simpa using hsame) hty
      (Everywhere.member hv hx) (Everywhere.member hv hx')
    rw [hdiff (hxw.isUnknown_eq.trans hw) (hxw'.isUnknown_eq.trans hw')] at hxx
    cases hxx

end Value

namespace Conversion

variable {convert : Value → Ty → Except Fault Value}

theorem list_of_convertible {k l : SequenceKind}
    (h : SequenceKind.convertible .safe k l = true) (hk : k = .list) : l = .list := by
  subst hk
  cases l with
  | list => rfl
  | set => simp [SequenceKind.convertible] at h

/-- **Step.** What a safe conversion between types without placeholders yields holds all the data
of the value that it converts. -/
theorem Yields.embeds {s t : Ty} {v w : Value} (h : Yields convert .safe s t v w)
    (converts : Ty.Converts .safe s t) (hv : v.Inhabits s) (hs : s.Lawful)
    (solid : s.hasDynamic = false) (solid' : t.hasDynamic = false) : v.Embeds w := by
  unfold Ty.Lawful at hs
  induction h with
  | null => exact .null
  | unknown => exact .unknown
  | keep => exact Value.embeds_refl hv.lawful
  | pass => cases solid'
  | blankNull | blankUnknown | later => cases solid
  | primitive permitted data converted =>
    exact Value.embeds_of_toPrimitive permitted hv.ty data converted
  | @emptySequence k l m s t own r refines =>
    obtain ⟨permitted, -⟩ := Ty.converts_sequence_iff.mp converts
    obtain ⟨rfl, rfl⟩ : m = k ∧ own = s := by simpa [Value.ty] using hv.ty
    exact .sequence (list_of_convertible permitted) rfl (by simp)
  | @sequence k l m s t own e items ws vs nonempty length each settles ih =>
    obtain ⟨permitted, element⟩ := Ty.converts_sequence_iff.mp converts
    obtain ⟨rfl, rfl⟩ : m = k ∧ own = s := by simpa [Value.ty] using hv.ty
    obtain ⟨-, rfl⟩ := settles.eq_of_solid solid'
    have heach : ∀ (i : Nat) x w, items[i]? = some x → vs[i]? = some w → x.Embeds w := by
      intro i x w hx hw
      have hmem := List.mem_of_getElem? hx
      exact ih i x w hx hw element (hv.member hmem (hv.wellFormed.here.1 own rfl x hmem))
        (Ty.throughout_sequence.mp hs).2 solid solid'
    rw [Value.collect_of_embeds hv.wellFormed (list_of_convertible permitted) length heach]
    exact .sequence (list_of_convertible permitted) length heach
  | emptyMap => exact .map rfl (by simp)
  | @map s t own e entries ws vs nonempty length each settles ih =>
    have element := Ty.converts_map_iff.mp converts
    obtain rfl : own = s := by simpa [Value.ty] using hv.ty
    obtain ⟨-, rfl⟩ := settles.eq_of_solid solid'
    refine .map ((Named.names_zip length).symm) fun i x y hx hy => ?_
    have hmem : x.2 ∈ (Value.map own entries).members :=
      List.mem_map_of_mem (List.mem_of_getElem? hx)
    exact ih i x y.2 hx (List.getElem?_zip_eq_some.mp hy).2 element
      (hv.member hmem (hv.wellFormed.here.1 own rfl x.2 hmem)) (Ty.throughout_map.mp hs).2 solid
      solid'
  | @emptyTuple l t =>
    have ht : t ≠ .dynamic := (Ty.hasDynamic_eq_false_iff (t := t)).mp solid' |>.1
    obtain ⟨permitted, -⟩ := (Ty.converts_positions_iff ht).mp converts
    obtain rfl := list_of_convertible permitted rfl
    exact .positions rfl (by simp)
  | @positions l ss t u e items ws vs nonempty elects arity length each settles ih =>
    obtain rfl := elects.eq_of_solid solid'
    obtain ⟨-, rfl⟩ := settles.eq_of_solid solid'
    have ht : u ≠ .dynamic := (Ty.hasDynamic_eq_false_iff (t := u)).mp solid' |>.1
    obtain ⟨permitted, parts⟩ := (Ty.converts_positions_iff ht).mp converts
    obtain rfl := list_of_convertible permitted rfl
    obtain ⟨_, ⟨⟩, -, hitems⟩ := hv.positions rfl
    refine .positions length fun i x w hx hw => ?_
    obtain ⟨s, hsi⟩ := exists_getElem?_of_length arity hx
    have hmem := List.mem_of_getElem? hsi
    exact ih i s x w hsi hx hw (parts s hmem) (hitems i s x hsi hx)
      ((Ty.throughout_tuple.mp hs).2 s hmem) ((Ty.hasDynamic_eq_false_iff.mp solid).2 s hmem) solid'
  | emptyObject => exact .gather rfl (by simp)
  | @gather as t u e attributes ws vs nonempty elects names length each settles ih =>
    obtain rfl := elects.eq_of_solid solid'
    obtain ⟨-, rfl⟩ := settles.eq_of_solid solid'
    have ht : u ≠ .dynamic := (Ty.hasDynamic_eq_false_iff (t := u)).mp solid' |>.1
    have parts := (Ty.converts_gather_iff ht).mp converts
    obtain ⟨_, ⟨⟩, -, -, hfields, -⟩ := hv.fields rfl
    refine .gather (Named.names_zip length).symm fun i x y hx hy => ?_
    obtain ⟨a, ha, -⟩ := Named.exists_getElem? names hx
    have hmem := List.mem_of_getElem? ha
    exact ih i a x y.2 ha hx (List.getElem?_zip_eq_some.mp hy).2 (parts a hmem)
      (hfields i a x ha hx) ((Ty.throughout_object.mp hs).2 a hmem)
      ((Ty.hasDynamic_eq_false_iff.mp solid).2 _ (List.mem_map_of_mem hmem)) solid'
  | @tuple ss ts items ws arity source length each ih =>
    obtain ⟨-, parts⟩ := Ty.converts_tuple_iff.mp converts
    obtain ⟨_, ⟨⟩, -, hitems⟩ := hv.positions rfl
    refine .tuple length fun i x w hx hw => ?_
    obtain ⟨s, hsi⟩ := exists_getElem?_of_length source hx
    obtain ⟨t, hti⟩ := exists_getElem?_of_length arity.symm hsi
    have hmem := List.mem_of_getElem? hsi
    exact ih i s t x w hsi hti hx hw (parts i s t hsi hti) (hitems i s x hsi hx)
      ((Ty.throughout_tuple.mp hs).2 s hmem) ((Ty.hasDynamic_eq_false_iff.mp solid).2 s hmem)
      ((Ty.hasDynamic_eq_false_iff.mp solid').2 t (List.mem_of_getElem? hti))
  | @object as bs attributes filled names known targets found missing ih =>
    obtain ⟨-, parts, -⟩ := (Ty.converts_object_iff (Ty.Lawful.ascending hs)).mp converts
    obtain ⟨_, ⟨⟩, hasc, -, -, hfields⟩ := hv.fields rfl
    refine .object (fun x hx => ?_) fun x hx y hy => ?_
    · rw [Named.contains_iff, targets, ← Named.contains_iff]
      exact Named.contains_of_names names known x hx
    · -- the attribute of that name in the source, in the target and in the value
      obtain ⟨hymem, hyname⟩ := Named.mem_of_find? hy
      obtain ⟨i, hyi⟩ := List.getElem?_of_mem hymem
      obtain ⟨b, hb, hbname⟩ := Named.exists_getElem? targets.symm hyi
      have hname : b.name = x.1 := hbname.trans hyname
      obtain ⟨j, hxj⟩ := List.getElem?_of_mem hx
      have hxfind : Named.find? b.name attributes = some x :=
        hname ▸ Named.find?_of_getElem? hasc hxj
      obtain ⟨a, ha⟩ := Named.exists_find? names hxfind
      have hamem := (Named.mem_of_find? ha).1
      have hbmem := List.mem_of_getElem? hb
      exact ih i b a x y hb hyi ha hxfind (parts b hbmem a ha) (hfields _ a x ha hxfind)
        ((Ty.throughout_object.mp hs).2 a hamem)
        ((Ty.hasDynamic_eq_false_iff.mp solid).2 _ (List.mem_map_of_mem hamem))
        ((Ty.hasDynamic_eq_false_iff.mp solid').2 _ (List.mem_map_of_mem hbmem))
  | select permitted => cases permitted

end Conversion

/-! ### Nothing fails -/

namespace Ty

theorem Unmarked.rigid {t : Ty} (h : t.Unmarked) : t.Rigid .safe := by
  unfold Unmarked at h
  induction t with
  | dynamic | primitive | capsule => exact .leaf rfl
  | sequence k e ih => exact .sequence (ih (throughout_sequence.mp h).2)
  | map e ih => exact .map (ih (throughout_map.mp h).2)
  | tuple ts ih => exact .tuple fun t ht => ih t ht ((throughout_tuple.mp h).2 t ht)
  | object as ih =>
    refine .object rfl (fun a ha => ?_) fun a ha => ih a ha ((throughout_object.mp h).2 a ha)
    exact (throughout_object.mp h).1 _ (List.mem_map_of_mem ha)

end Ty

namespace Conversion

variable {convert : Value → Ty → Except Fault Value}

/-- Where types convert safely only a null, an unknown or an empty collection can fail, and only if
the types do not fit. -/
theorem Raises.misfit_of_safe {cause : Cause} {s t : Ty} {v : Value} (raises : Raises cause s t v)
    (converts : Ty.Converts .safe s t) : v.isBlank = true ∧ ¬t.Fits s := by
  cases raises with
  | @literal q text other =>
    have permitted := Ty.converts_primitive_iff.mp converts
    cases q with
    | string => exact absurd rfl other
    | number | bool => simp [Primitive.convertible] at permitted
  | unsupported | missing => cases (Ty.converts_select_iff.mp converts).1
  | misfit blank clash => exact ⟨blank, clash⟩

/-- To a type without optional attributes that is safely converted to nothing fails. -/
theorem not_raises_of_safe {cause : Cause} {s t : Ty} {v : Value}
    (converts : Ty.Converts .safe s t) (hs : s.Plain) (ht : t.Plain) : ¬Raises cause s t v := by
  intro raises
  obtain ⟨-, clash⟩ := raises.misfit_of_safe converts
  obtain ⟨c, plan⟩ := converts.plan
  exact clash (plan.fits hs.lawful ht.lawful (.rigid ht.unmarked.rigid))

/-- A plan for a definite type does not fail if the types convert safely, also if it was made
without regard to safety. -/
theorem Plan.exists_apply {safety : Safety} {s t : Ty} {c : Conversion} {v : Value}
    (plan : Plan safety s t c) (safe : Ty.Converts .safe s t) (hs : s.Plain) (ht : t.Definite)
    (hv : v.Inhabits s) : ∃ w, applyWith convert c v = .ok w := by
  cases happly : applyWith convert c v with
  | ok w => exact ⟨w, rfl⟩
  | error f =>
    have touches := (touches_of_apply plan ht.solid hv happly).converts safe hs.lawful ht.solid
    obtain ⟨s', t', v', ⟨raises, converts⟩, hs', ht', -⟩ := touches.exists_part
      (P := Ty.Plain) (Q := fun _ => True) (fun _ h _ => h.part) (by simp) hs ht.plain trivial
    exact absurd raises (not_raises_of_safe converts hs' ht')

/-- What comes of a value whose type is definite is sound, of one type in each collection, and of a
type that conforms to the target. -/
theorem Plan.sound_of_apply {safety : Safety} {s t : Ty} {c : Conversion} {v w : Value}
    (plan : Plan safety s t c) (hs : s.Definite) (ht : t.Lawful) (hv : v.Inhabits s)
    (h : c.apply v = .ok w) : w.ty.Conforms t ∧ w.Sound ∧ w.Homogeneous := by
  have hsound := hv.sound hs.plain.unmarked
  have yields := yields_of_apply plan hsound (hv.ty ▸ Ty.conforms_refl _) h
  obtain ⟨hconf, hw⟩ := yields.sound sound_convert hsound hs.plain.lawful ht
  obtain ⟨-, hhom⟩ := yields.homogeneous_of_complete homogeneousBy_convert hsound
    hv.wellFormed.homogeneous hv.ty hs.solid ht
  exact ⟨hconf, hw, hhom⟩

theorem Plan.embeds {s t : Ty} {c : Conversion} {v w : Value} (plan : Plan .safe s t c)
    (hs : s.Definite) (ht : t.hasDynamic = false) (hv : v.Inhabits s) (h : c.apply v = .ok w) :
    v.Embeds w := by
  have yields := yields_of_apply plan (hv.sound hs.plain.unmarked) (hv.ty ▸ Ty.conforms_refl _) h
  exact yields.embeds (Ty.converts_of_plan plan) hv hs.plain.lawful hs.solid ht

end Conversion

/-- **Safe conversions are total and lossless.** Between types without placeholders and without
optional attributes, a safe conversion converts every value of the source, and values that become
equal were equal. -/
theorem safe_total_lossless {source target : Ty} {c : Conversion} (hs : source.Definite)
    (ht : target.Definite) (hc : Conversion.between? source target .safe = some c) :
    (∀ v : Value, v.Inhabits source → ∃ w, c.apply v = .ok w) ∧
      ∀ v v' w w' : Value, v.Inhabits source → v'.Inhabits source → c.apply v = .ok w →
        c.apply v' = .ok w' → w.same w' = true → v.same v' = true := by
  have plan := Conversion.plan_of_between? hc
  have safe := Ty.converts_of_plan plan
  refine ⟨fun v hv => plan.exists_apply safe hs.plain ht hv,
    fun v v' w w' hv hv' hw hw' hsame => ?_⟩
  have embeds := plan.embeds hs ht.solid hv hw
  have embeds' := plan.embeds hs ht.solid hv' hw'
  exact embeds.same_of_same embeds' hsame (hv.ty.trans hv'.ty.symm) hv.wellFormed hv'.wellFormed

/-- A set of tuples becomes a set of lists of texts. The numbers `1` and `1.0` are equal, and so
are the sets that hold them, in whatever order. -/
theorem safe_total_lossless_set_of_tuples :
    let source : Ty := .set (.tuple [.number, .bool])
    let target : Ty := .set (.list .string)
    let v : Value := .set (.tuple [.number, .bool])
      [.tuple [.number ⟨1, 0⟩, .bool true], .tuple [.null .number, .unknown .bool]]
    let v' : Value := .set (.tuple [.number, .bool])
      [.tuple [.null .number, .unknown .bool], .tuple [.number ⟨10, 1⟩, .bool true]]
    let written : Conversion := .covering .string (.primitive .string)
    let c : Conversion := .covering target (.eachItem .set
      (.covering (.list .string) (.positions .list [written, written] .string)) (.list .string))
    source.Definite ∧ target.Definite ∧ Conversion.between? source target .safe = some c ∧
      v.Inhabits source ∧ v'.Inhabits source ∧
      ∃ w w', c.apply v = .ok w ∧ c.apply v' = .ok w' ∧ w.same w' = true ∧ v.same v' = true := by
  intro source target v v' written c
  have hs : source.Definite := ⟨⟨by decide, by decide⟩, by decide⟩
  have ht : target.Definite := ⟨⟨by decide, by decide⟩, by decide⟩
  have hv : v.Inhabits source := by decide
  have hv' : v'.Inhabits source := by decide
  have hc : Conversion.between? source target .safe = some c := by cbv
  obtain ⟨total, lossless⟩ := safe_total_lossless hs ht hc
  obtain ⟨w, hw⟩ := total v hv
  obtain ⟨w', hw'⟩ := total v' hv'
  have hequal : ((c.apply v).toOption.bind fun w => (c.apply v').toOption.map w.same) =
      some true := by decide +kernel
  have hsame : w.same w' = true := by simpa [hw, hw', Except.toOption] using hequal
  exact ⟨hs, ht, hc, hv, hv', w, w', hw, hw', hsame, lossless v v' w w' hv hv' hw hw' hsame⟩

end Retype
