import Retype.Proofs.Conversion.Converts
import Retype.Proofs.Homogeneity
import Retype.Proofs.Propagation

/-!
# Where a conversion fails

To a type without placeholders a conversion treats every part of a value by the two types that
belong to it. `Conversion.Touches R source target v` says that on this way it gets to a part of
`v`, with a source and a target of its own, of which `R` holds. `Conversion.Raises` lists what
can fail right there:

* a text that is to be a number or a truth value and cannot be read as one;
* the entries of a map that are to be the attributes of an object: one may be missing, and one
  may have a name that the object does not have;
* a null, an unknown or an empty collection, whose new type is refined from the old one.

`touches_of_apply` says that there is no other way to fail: shapes, lengths and names are right
because the value has the source type, and nothing is left to settle. The types of a part that is
touched convert because those of the whole do (`Touches.converts`).
-/

namespace Retype

namespace Value

/-! ### Values of a type -/

/-- A well-formed value of the given type. -/
structure Inhabits (v : Value) (t : Ty) : Prop where
  wellFormed : v.WellFormed
  lawful : v.Lawful
  ty : v.ty = t

instance (v : Value) (t : Ty) : Decidable (v.Inhabits t) :=
  decidable_of_iff (v.WellFormed ∧ v.Lawful ∧ v.ty = t)
    ⟨fun ⟨wellFormed, lawful, ty⟩ => ⟨wellFormed, lawful, ty⟩,
      fun ⟨wellFormed, lawful, ty⟩ => ⟨wellFormed, lawful, ty⟩⟩

theorem Inhabits.member {v m : Value} {s t : Ty} (h : v.Inhabits s) (hm : m ∈ v.members)
    (hty : m.ty = t) : m.Inhabits t :=
  ⟨Everywhere.member h.wellFormed hm, Everywhere.member h.lawful hm, hty⟩

/-- Data of a list or set type: items of the element type. -/
theorem Inhabits.items {v : Value} {k : SequenceKind} {s : Ty} (h : v.Inhabits (.sequence k s))
    (data : v.isConcrete = true) :
    ∃ items, v = .sequence k s items ∧ ∀ x ∈ items, x.Inhabits s := by
  have hty := h.ty
  cases v with
  | sequence l own items =>
    cases hty
    exact ⟨items, rfl, fun x hx => h.member hx (h.wellFormed.here.1 s rfl x hx)⟩
  | null i | unknown i => cases data
  | _ => cases hty

/-- Data of a map type: entries of the element type. -/
theorem Inhabits.entries {v : Value} {s : Ty} (h : v.Inhabits (.map s))
    (data : v.isConcrete = true) :
    ∃ entries, v = .map s entries ∧ ∀ x ∈ entries, x.2.Inhabits s := by
  have hty := h.ty
  cases v with
  | map own entries =>
    cases hty
    refine ⟨entries, rfl, fun x hx => ?_⟩
    have hmem : x.2 ∈ (Value.map s entries).members := List.mem_map_of_mem hx
    exact h.member hmem (h.wellFormed.here.1 s rfl x.2 hmem)
  | null i | unknown i => cases data
  | _ => cases hty

/-- Data of a tuple type: items of the types at their positions. -/
theorem Inhabits.positions {v : Value} {ss : List Ty} (h : v.Inhabits (.tuple ss))
    (data : v.isConcrete = true) :
    ∃ items, v = .tuple items ∧ ss.length = items.length ∧
      ∀ (i : Nat) s x, ss[i]? = some s → items[i]? = some x → x.Inhabits s := by
  have hty := h.ty
  cases v with
  | tuple items =>
    have htys : items.map Value.ty = ss := by
      rwa [Value.ty, tyAll_eq_map, Ty.tuple.injEq] at hty
    refine ⟨items, rfl, by simp [← htys], fun i s x hs hx => ?_⟩
    exact h.member (List.mem_of_getElem? hx) (ty_of_tuple hty hx hs)
  | null i | unknown i => cases data
  | _ => cases hty

/-- Data of an object type: attributes of the types of their names. -/
theorem Inhabits.fields {v : Value} {as : List (Attribute Ty)} (h : v.Inhabits (.object as))
    (data : v.isConcrete = true) :
    ∃ attributes, v = .object attributes ∧ Named.Ascending attributes ∧
      Named.names as = Named.names attributes ∧
      (∀ (i : Nat) (a : Attribute Ty) (x : String × Value), as[i]? = some a →
        attributes[i]? = some x → x.2.Inhabits a.type) ∧
      ∀ key (a : Attribute Ty) (x : String × Value), Named.find? key as = some a →
        Named.find? key attributes = some x → x.2.Inhabits a.type := by
  have hty := h.ty
  cases v with
  | object attributes =>
    have hnames : Named.names as = Named.names attributes := (names_of_object hty).symm
    have hasc : Named.Ascending attributes := h.lawful.here.2
    refine ⟨attributes, rfl, hasc, hnames, fun i a x ha hx => ?_, fun key a x ha hx => ?_⟩
    · exact h.member (List.mem_map_of_mem (List.mem_of_getElem? hx)) (ty_of_object hty hx ha)
    · exact h.member (List.mem_map_of_mem (Named.mem_of_find? hx).1) (ty_of_find? hty hasc ha hx)
  | null i | unknown i => cases data
  | _ => cases hty

/-- A null, an unknown, or a collection without members: only its type says anything. -/
def isBlank : Value → Bool
  | .null _ | .unknown _ => true
  | .sequence _ _ items => items.isEmpty
  | .map _ entries => entries.isEmpty
  | _ => false

end Value

namespace Conversion

variable {convert : Value → Ty → Except Fault Value} {R : Ty → Ty → Value → Prop}

/-- On its way from the source to the target a conversion of the value gets to a part, with its
own source and target, of which the relation holds. -/
inductive Touches (R : Ty → Ty → Value → Prop) : Ty → Ty → Value → Prop
  | here {s t : Ty} {v : Value} (holds : R s t v) : Touches R s t v
  | sequence {k l m : SequenceKind} {s t own : Ty} {items : List Value} {v : Value}
      (item : v ∈ items) (inside : Touches R s t v) :
      Touches R (.sequence k s) (.sequence l t) (.sequence m own items)
  | map {s t own : Ty} {entries : List (String × Value)} {x : String × Value} (entry : x ∈ entries)
      (inside : Touches R s t x.2) : Touches R (.map s) (.map t) (.map own entries)
  | positions {l : SequenceKind} {ss : List Ty} {s t : Ty} {items : List Value} {v : Value}
      {i : Nat} (source : ss[i]? = some s) (item : items[i]? = some v)
      (inside : Touches R s t v) : Touches R (.tuple ss) (.sequence l t) (.tuple items)
  | gather {as : List (Attribute Ty)} {a : Attribute Ty} {t : Ty}
      {attributes : List (String × Value)} {x : String × Value} {i : Nat}
      (source : as[i]? = some a) (field : attributes[i]? = some x)
      (inside : Touches R a.type t x.2) : Touches R (.object as) (.map t) (.object attributes)
  | tuple {ss ts : List Ty} {s t : Ty} {items : List Value} {v : Value} {i : Nat}
      (source : ss[i]? = some s) (target : ts[i]? = some t) (item : items[i]? = some v)
      (inside : Touches R s t v) : Touches R (.tuple ss) (.tuple ts) (.tuple items)
  | object {as bs : List (Attribute Ty)} {a b : Attribute Ty}
      {attributes : List (String × Value)} {x : String × Value} (target : b ∈ bs)
      (source : Named.find? b.name as = some a) (field : Named.find? b.name attributes = some x)
      (inside : Touches R a.type b.type x.2) :
      Touches R (.object as) (.object bs) (.object attributes)
  | select {s own : Ty} {bs : List (Attribute Ty)} {b : Attribute Ty}
      {entries : List (String × Value)} {x : String × Value} (target : b ∈ bs)
      (entry : Named.find? b.name entries = some x) (inside : Touches R s b.type x.2) :
      Touches R (.map s) (.object bs) (.map own entries)

/-- Where the types convert, so do those of each part that is touched. -/
theorem Touches.converts {safety : Safety} {s t : Ty} {v : Value} (h : Touches R s t v)
    (converts : Ty.Converts safety s t) (hs : s.Lawful) (solid : t.hasDynamic = false) :
    Touches (fun s t v => R s t v ∧ Ty.Converts safety s t) s t v := by
  unfold Ty.Lawful at hs
  induction h with
  | here holds => exact .here ⟨holds, converts⟩
  | sequence item _ ih =>
    obtain ⟨-, element⟩ := Ty.converts_sequence_iff.mp converts
    exact .sequence item (ih element (Ty.throughout_sequence.mp hs).2 solid)
  | map entry _ ih =>
    have element := Ty.converts_map_iff.mp converts
    exact .map entry (ih element (Ty.throughout_map.mp hs).2 solid)
  | @positions l ss s t items v i source item _ ih =>
    have ht : t ≠ .dynamic := (Ty.hasDynamic_eq_false_iff (t := t)).mp solid |>.1
    obtain ⟨-, each⟩ := (Ty.converts_positions_iff ht).mp converts
    have hmem := List.mem_of_getElem? source
    exact .positions source item (ih (each s hmem) ((Ty.throughout_tuple.mp hs).2 s hmem) solid)
  | @gather as a t attributes x i source field _ ih =>
    have ht : t ≠ .dynamic := (Ty.hasDynamic_eq_false_iff (t := t)).mp solid |>.1
    have each := (Ty.converts_gather_iff ht).mp converts
    have hmem := List.mem_of_getElem? source
    exact .gather source field (ih (each a hmem) ((Ty.throughout_object.mp hs).2 a hmem) solid)
  | @tuple ss ts s t items v i source target item _ ih =>
    obtain ⟨-, each⟩ := Ty.converts_tuple_iff.mp converts
    exact .tuple source target item (ih (each i s t source target)
      ((Ty.throughout_tuple.mp hs).2 s (List.mem_of_getElem? source))
      ((Ty.hasDynamic_eq_false_iff.mp solid).2 t (List.mem_of_getElem? target)))
  | @object as bs a b attributes x target source field _ ih =>
    obtain ⟨-, each, -⟩ := (Ty.converts_object_iff (Ty.Lawful.ascending hs)).mp converts
    exact .object target source field (ih (each b target a source)
      ((Ty.throughout_object.mp hs).2 a (Named.mem_of_find? source).1)
      ((Ty.hasDynamic_eq_false_iff.mp solid).2 _ (List.mem_map_of_mem target)))
  | @select s own bs b entries x target entry _ ih =>
    obtain ⟨-, each⟩ := Ty.converts_select_iff.mp converts
    exact .select target entry (ih (each b target) (Ty.throughout_map.mp hs).2
      ((Ty.hasDynamic_eq_false_iff.mp solid).2 _ (List.mem_map_of_mem target)))

/-- What the parts of a type inherit holds of the target of a part that is touched, and what the
members of a value inherit of the part itself. -/
theorem Touches.exists_part {P : Ty → Prop} {Q : Value → Prop}
    (parts : ∀ t, P t → ∀ p ∈ t.parts, P p) (members : ∀ v, Q v → ∀ m ∈ v.members, Q m)
    {s t : Ty} {v : Value} (h : Touches R s t v) (hs : P s) (ht : P t) (hv : Q v) :
    ∃ s' t' v', R s' t' v' ∧ P s' ∧ P t' ∧ Q v' := by
  induction h with
  | here holds => exact ⟨_, _, _, holds, hs, ht, hv⟩
  | sequence item _ ih =>
    exact ih (parts _ hs _ (by simp [Ty.parts])) (parts _ ht _ (by simp [Ty.parts]))
      (members _ hv _ item)
  | map entry _ ih =>
    exact ih (parts _ hs _ (by simp [Ty.parts])) (parts _ ht _ (by simp [Ty.parts]))
      (members _ hv _ (List.mem_map_of_mem entry))
  | positions source item _ ih =>
    exact ih (parts _ hs _ (List.mem_of_getElem? source)) (parts _ ht _ (by simp [Ty.parts]))
      (members _ hv _ (List.mem_of_getElem? item))
  | gather source field _ ih =>
    exact ih (parts _ hs _ (List.mem_map_of_mem (List.mem_of_getElem? source)))
      (parts _ ht _ (by simp [Ty.parts]))
      (members _ hv _ (List.mem_map_of_mem (List.mem_of_getElem? field)))
  | tuple source target item _ ih =>
    exact ih (parts _ hs _ (List.mem_of_getElem? source))
      (parts _ ht _ (List.mem_of_getElem? target)) (members _ hv _ (List.mem_of_getElem? item))
  | object target source field _ ih =>
    exact ih (parts _ hs _ (List.mem_map_of_mem (Named.mem_of_find? source).1))
      (parts _ ht _ (List.mem_map_of_mem target))
      (members _ hv _ (List.mem_map_of_mem (Named.mem_of_find? field).1))
  | select target entry _ ih =>
    exact ih (parts _ hs _ (by simp [Ty.parts])) (parts _ ht _ (List.mem_map_of_mem target))
      (members _ hv _ (List.mem_map_of_mem (Named.mem_of_find? entry).1))

/-- What can fail in the conversion of a part, its own parts aside. -/
inductive Raises : Cause → Ty → Ty → Value → Prop
  | literal {q : Primitive} {text : String} (other : q ≠ .string)
      (unreadable : ∀ w, (Value.string text).toPrimitive q ≠ .ok w) :
      Raises (.invalidLiteral q text) .string (.primitive q) (.string text)
  | unsupported {s own : Ty} {bs : List (Attribute Ty)} {entries : List (String × Value)}
      {x : String × Value} (entry : x ∈ entries) (extra : Named.contains x.1 bs = false) :
      Raises (.unsupportedAttribute x.1) (.map s) (.object bs) (.map own entries)
  | missing {s own : Ty} {bs : List (Attribute Ty)} {b : Attribute Ty}
      {entries : List (String × Value)} (target : b ∈ bs) (required : b.optional = false)
      (absent : Named.find? b.name entries = none) :
      Raises (.missingAttribute b.name) (.map s) (.object bs) (.map own entries)
  | misfit {s t d i : Ty} {v : Value} (blank : v.isBlank = true) (clash : ¬t.Fits s) :
      Raises (.inconsistent (.notRefinable d i)) s t v

/-! ### Failures of the parts of the interpreter -/

theorem locate_eq_error {α : Type} {step : Step} {x : Except Fault α} {f : Fault}
    (h : locate step x = .error f) : ∃ f', x = .error f' ∧ f = f'.within step := by
  obtain ⟨f', hx, rfl⟩ := mapError_eq_error_iff.mp h
  exact ⟨f', hx, rfl⟩

theorem settle_of_solid {declared : Ty} (solid : declared.hasDynamic = false)
    (parts : List (Step × Value)) :
    settle convert declared parts = .ok (declared.stripped, parts.map Prod.snd) := by
  unfold settle
  rw [if_neg (by simp [solid])]

/-- With nothing to settle, a collection fails only as its parts do. -/
theorem eq_error_of_settle {declared : Ty} {parts : Except Fault (List (Step × Value))}
    {build : Ty × List Value → Value} {f : Fault}
    (h : (parts.bind fun parts => (settle convert declared parts).map build) = .error f)
    (solid : declared.hasDynamic = false) : parts = .error f := by
  rcases bind_eq_error_iff.mp h with hparts | ⟨done, -, hsettle⟩
  · exact hparts
  · rw [settle_of_solid solid] at hsettle
    cases hsettle

theorem exists_of_eachPart_error {g : Value → Except Fault Value} {parts : List (Step × Value)}
    {f : Fault} (h : eachPart g parts = .error f) :
    ∃ part ∈ parts, ∃ f', g part.2 = .error f' ∧ f = f'.within part.1 := by
  obtain ⟨part, hpart, hfail⟩ := exists_of_mapM_eq_error h
  exact ⟨part, hpart, locate_eq_error (map_eq_error_iff.mp hfail)⟩

/-- Conversions beside the items of a list stand at the positions of the items. -/
theorem exists_of_mem_zip_indexed {cs : List Conversion} {items : List Value}
    {p : Conversion × Step × Value} (h : p ∈ cs.zip (Value.indexed items)) :
    ∃ i : Nat, cs[i]? = some p.1 ∧ items[i]? = some p.2.2 ∧ p.2.1 = .index i := by
  obtain ⟨i, hi⟩ := List.getElem?_of_mem h
  obtain ⟨hc, hpart⟩ := List.getElem?_zip_eq_some.mp hi
  have hv : items[i]? = some p.2.2 := by
    rw [← map_snd_indexed items, List.getElem?_map, hpart, Option.map_some]
  have hstep : p.2 = (.index i, p.2.2) := Option.some.inj (hpart.symm.trans (getElem?_indexed hv))
  exact ⟨i, hc, hv, congrArg Prod.fst hstep⟩

theorem exists_of_applyAll_error {cs : List Conversion} {items : List Value} {f : Fault}
    (h : applyAll convert cs (Value.indexed items) = .error f) :
    ∃ (i : Nat) (c : Conversion) (v : Value), cs[i]? = some c ∧ items[i]? = some v ∧
      ∃ f', applyWith convert c v = .error f' ∧ f = f'.within (.index i) := by
  rw [applyAll_eq_mapM] at h
  obtain ⟨p, hp, hfail⟩ := exists_of_mapM_eq_error h
  obtain ⟨i, hc, hv, hstep⟩ := exists_of_mem_zip_indexed hp
  obtain ⟨f', hf', rfl⟩ := locate_eq_error (map_eq_error_iff.mp hfail)
  exact ⟨i, p.1, p.2.2, hc, hv, f', hf', by rw [hstep]⟩

theorem exists_of_gather_error {cs : List (String × Conversion)}
    {attributes : List (String × Value)} {v : Value} {f : Fault}
    (hnames : Named.names attributes = Named.names cs) (hasc : Named.Ascending attributes)
    (h : (attributes.mapM fun a =>
      match applyNamed convert cs a.1 a.2 with
      | some result => (locate (.attr a.1) result).map fun v => (Step.attr a.1, v)
      | none => wrongShape .object v) = .error f) :
    ∃ (i : Nat) (c : String × Conversion) (x : String × Value), cs[i]? = some c ∧
      attributes[i]? = some x ∧
      ∃ f', applyWith convert c.2 x.2 = .error f' ∧ f = f'.within (.attr x.1) := by
  obtain ⟨x, hx, hfail⟩ := exists_of_mapM_eq_error h
  obtain ⟨i, hi⟩ := List.getElem?_of_mem hx
  have hasc' : Named.Ascending cs := by rwa [Named.Ascending, ← hnames]
  obtain ⟨c, hc, hfind⟩ := Named.exists_find?_getElem? hasc' hnames.symm hi
  rw [applyNamed_eq_map, show Named.find? x.1 cs = some c from hfind] at hfail
  exact ⟨i, c, x, hc, hi, locate_eq_error (map_eq_error_iff.mp hfail)⟩

theorem exists_of_fill_error {step : String → Step} {slots : List (Slot Conversion)}
    {entries : List (String × Value)} {f : Fault} (h : fill convert step slots entries = .error f) :
    ∃ slot ∈ slots,
      (∃ x, Named.find? slot.target.name entries = some x ∧
        ∃ f', applyWith convert slot.conversion x.2 = .error f' ∧
          f = f'.within (step slot.target.name)) ∨
      (Named.find? slot.target.name entries = none ∧ slot.target.optional = false ∧
        f.cause = .missingAttribute slot.target.name) := by
  rw [fill_eq_mapM] at h
  obtain ⟨slot, hslot, hfail⟩ := exists_of_mapM_eq_error h
  refine ⟨slot, hslot, ?_⟩
  have hstep := map_eq_error_iff.mp hfail
  cases hx : Named.find? slot.target.name entries with
  | some x =>
    rw [hx] at hstep
    exact .inl ⟨x, rfl, locate_eq_error hstep⟩
  | none =>
    rw [hx] at hstep
    dsimp only [absent] at hstep
    split at hstep
    · cases hstep
    · rename_i hrequired
      cases hstep
      exact .inr ⟨rfl, by simpa using hrequired, rfl⟩

theorem exists_of_checkNames_error {slots : List (Slot Conversion)}
    {entries : List (String × Value)} {f : Fault} (h : checkNames slots entries = .error f) :
    ∃ x ∈ entries, Named.contains x.1 (slots.map (·.target)) = false ∧
      f.cause = .unsupportedAttribute x.1 := by
  unfold checkNames at h
  split at h
  · rename_i x hx
    cases h
    refine ⟨x, List.mem_of_find?_eq_some hx, ?_, rfl⟩
    simpa [Named.contains, Named.name, Function.comp_def] using List.find?_some hx
  · cases h

/-! ### Failures of a plan -/

theorem not_fits_of_refine {d i : Ty} {f : Fault} (h : d.refine i = .error f) : ¬d.Fits i := by
  intro fits
  obtain ⟨r, hr⟩ := Ty.fits_iff.mp fits
  rw [Ty.refine_eq_ok_iff.mpr hr] at h
  cases h

/-- A part of which only the type matters fails if the refined type, or the refined element type,
does not fit. -/
theorem raises_of_refine {s t d i : Ty} {v : Value} {f : Fault} (blank : v.isBlank = true)
    (fits : t.Fits s → d.Fits i) (h : d.refine i = .error f) : Raises f.cause s t v := by
  obtain ⟨d', i', rfl⟩ := Ty.notRefinable_of_refine h
  exact .misfit blank fun hfits => not_fits_of_refine h (fits hfits)

/-- Nulls and unknowns fail by their types; data by the inner plan. -/
theorem touches_of_covering {s t : Ty} {inner : Conversion} {v : Value} {f : Fault}
    (hty : v.ty = s)
    (hinner : v.isConcrete = true → applyWith convert inner v = .error f →
      Touches (Raises f.cause) s t v)
    (h : applyWith convert (.covering t.stripped inner) v = .error f) :
    Touches (Raises f.cause) s t v := by
  cases v with
  | null i | unknown i =>
    obtain rfl : i = s := hty
    exact .here (raises_of_refine rfl Ty.Fits.stripped (map_eq_error_iff.mp h))
  | _ => exact hinner rfl h

theorem raises_of_toPrimitive {safety : Safety} {p q : Primitive} {v : Value} {f : Fault}
    (permitted : Primitive.convertible safety p q = true) (hty : v.ty = .primitive p)
    (h : v.toPrimitive q = .error f) : Raises f.cause (.primitive p) (.primitive q) v := by
  cases v with
  | string text =>
    cases hty
    cases q with
    | string => cases h
    | number =>
      cases hread : Decimal.parse? text with
      | none =>
        simp only [Value.toPrimitive, hread, Option.elim] at h
        cases h
        exact .literal (by decide) (by simp [Value.toPrimitive, hread])
      | some d =>
        simp only [Value.toPrimitive, hread, Option.elim] at h
        cases h
    | bool =>
      cases hread : boolOfText? text with
      | none =>
        simp only [Value.toPrimitive, hread, Option.elim] at h
        cases h
        exact .literal (by decide) (by simp [Value.toPrimitive, hread])
      | some b =>
        simp only [Value.toPrimitive, hread, Option.elim] at h
        cases h
  | number d =>
    cases hty
    cases q with
    | bool => simp [Primitive.convertible] at permitted
    | _ => cases h
  | bool b =>
    cases hty
    cases q with
    | number => simp [Primitive.convertible] at permitted
    | _ => cases h
  | null i | unknown i => cases h
  | _ => cases hty

/-- **Inversion.** To a type without placeholders, the conversion of a value fails only at a part
where something can fail. -/
theorem touches_of_apply {safety : Safety} {s t : Ty} {c : Conversion} {v : Value} {f : Fault}
    (plan : Plan safety s t c) (ht : t.hasDynamic = false) (hv : v.Inhabits s)
    (h : applyWith convert c v = .error f) : Touches (Raises f.cause) s t v := by
  induction plan generalizing v f with
  | same solid =>
    refine touches_of_covering hv.ty (fun _ hin => ?_) h
    cases hin
  | pass => cases ht
  | later =>
    -- only the null and the unknown have the placeholder as their type
    have hty := hv.ty
    cases v with
    | null i | unknown i =>
      obtain rfl : i = .dynamic := hty
      cases h
    | _ => cases hty
  | primitive permitted =>
    refine touches_of_covering hv.ty (fun _ hin => ?_) h
    exact .here (raises_of_toPrimitive permitted hv.ty hin)
  | @sequence k l s t c permitted element ih =>
    refine touches_of_covering hv.ty (fun data hin => ?_) h
    obtain ⟨items, rfl, hitems⟩ := hv.items data
    rw [applyWith] at hin
    split at hin
    · rename_i hempty
      refine .here (raises_of_refine hempty (fun fits => ?_) (map_eq_error_iff.mp hin))
      cases fits with | sequence element => exact element
    · obtain ⟨part, hpart, f', hfail, rfl⟩ :=
        exists_of_eachPart_error (eq_error_of_settle hin ht)
      have hx := mem_of_mem_indexed hpart
      have inside := ih ht (hitems _ hx) hfail
      exact .sequence hx inside
  | @positions l ss t u cs permitted elects length each ih =>
    refine touches_of_covering hv.ty (fun data hin => ?_) h
    obtain rfl := elects.eq_of_solid ht
    obtain ⟨items, rfl, hlen, hitems⟩ := hv.positions data
    rw [applyWith, if_pos (hlen.symm.trans length)] at hin
    split at hin
    · cases hin
    · obtain ⟨i, c, x, hc, hx, f', hfail, rfl⟩ :=
        exists_of_applyAll_error (eq_error_of_settle hin ht)
      obtain ⟨s, hsi⟩ := exists_getElem?_of_length length hc
      have inside := ih i s c hsi hc ht (hitems i s x hsi hx) hfail
      exact .positions hsi hx inside
  | @map s t c element ih =>
    refine touches_of_covering hv.ty (fun data hin => ?_) h
    obtain ⟨entries, rfl, hentries⟩ := hv.entries data
    rw [applyWith] at hin
    split at hin
    · rename_i hempty
      refine .here (raises_of_refine hempty (fun fits => ?_) (map_eq_error_iff.mp hin))
      cases fits with | map element => exact element
    · obtain ⟨part, hpart, f', hfail, rfl⟩ :=
        exists_of_eachPart_error (eq_error_of_settle hin ht)
      obtain ⟨e, he, rfl⟩ := List.mem_map.mp hpart
      have inside := ih ht (hentries e he) hfail
      exact .map he inside
  | @gather as t u cs elects names each ih =>
    refine touches_of_covering hv.ty (fun data hin => ?_) h
    obtain rfl := elects.eq_of_solid ht
    obtain ⟨attributes, rfl, hasc, hnames, hfields, -⟩ := hv.fields data
    rw [applyWith] at hin
    split at hin
    · cases hin
    · obtain ⟨i, c, x, hc, hx, f', hfail, rfl⟩ :=
        exists_of_gather_error (hnames.symm.trans names) hasc (eq_error_of_settle hin ht)
      obtain ⟨a, ha, -⟩ := Named.exists_getElem? names hc
      have inside := ih i a c ha hc ht (hfields i a x ha hx) hfail
      exact .gather ha hx inside
  | @tuple ss ts cs arity length each ih =>
    refine touches_of_covering hv.ty (fun data hin => ?_) h
    obtain ⟨items, rfl, hlen, hitems⟩ := hv.positions data
    rw [applyWith, if_pos (hlen.symm.trans length)] at hin
    obtain ⟨i, c, x, hc, hx, f', hfail, rfl⟩ :=
      exists_of_applyAll_error (map_eq_error_iff.mp hin)
    obtain ⟨s, hsi⟩ := exists_getElem?_of_length length hc
    obtain ⟨t, hti⟩ := exists_getElem?_of_length arity.symm hsi
    have inside := ih i s t c hsi hti hc
      ((Ty.hasDynamic_eq_false_iff.mp ht).2 t (List.mem_of_getElem? hti)) (hitems i s x hsi hx)
      hfail
    exact .tuple hsi hti hx inside
  | @object as bs slots known targets found missing ih =>
    refine touches_of_covering hv.ty (fun data hin => ?_) h
    subst targets
    obtain ⟨attributes, rfl, -, hnames, -, hfields⟩ := hv.fields data
    rw [applyWith] at hin
    rcases bind_eq_error_iff.mp hin with hin | ⟨_, -, hin⟩
    · -- every name of the value is a name of the source, and so of the target
      obtain ⟨x, hx, hextra, -⟩ := exists_of_checkNames_error hin
      have hknown : Named.contains x.1 (slots.map (·.target)) = true :=
        Named.contains_of_names hnames known x hx
      rw [hextra] at hknown
      cases hknown
    · obtain ⟨slot, hslot, ⟨x, hx, f', hfail, rfl⟩ | ⟨hnone, hrequired, -⟩⟩ :=
        exists_of_fill_error (map_eq_error_iff.mp hin)
      · obtain ⟨a, ha⟩ := Named.exists_find? hnames hx
        have htarget : slot.target ∈ slots.map (·.target) := List.mem_map_of_mem hslot
        have inside := ih slot hslot a ha
          ((Ty.hasDynamic_eq_false_iff.mp ht).2 _ (List.mem_map_of_mem htarget))
          (hfields _ a x ha hx) hfail
        exact .object htarget ha hx inside
      · -- a required attribute is there, since the source has it
        have habsent := Named.find?_eq_none_of_names hnames hnone
        rw [missing slot hslot habsent] at hrequired
        cases hrequired
  | @select s bs slots permitted targets each ih =>
    refine touches_of_covering hv.ty (fun data hin => ?_) h
    subst targets
    obtain ⟨entries, rfl, hentries⟩ := hv.entries data
    rw [applyWith] at hin
    rcases bind_eq_error_iff.mp hin with hin | ⟨_, -, hin⟩
    · obtain ⟨x, hx, hextra, hcause⟩ := exists_of_checkNames_error hin
      exact .here (hcause ▸ .unsupported hx hextra)
    · obtain ⟨slot, hslot, ⟨x, hx, f', hfail, rfl⟩ | ⟨hnone, hrequired, hcause⟩⟩ :=
        exists_of_fill_error (map_eq_error_iff.mp hin)
      · have htarget : slot.target ∈ slots.map (·.target) := List.mem_map_of_mem hslot
        have inside := ih slot hslot
          ((Ty.hasDynamic_eq_false_iff.mp ht).2 _ (List.mem_map_of_mem htarget))
          (hentries x (Named.mem_of_find? hx).1) hfail
        exact .select htarget hx inside
      · exact .here (hcause ▸ .missing (List.mem_map_of_mem hslot) hrequired hnone)

end Conversion

end Retype
