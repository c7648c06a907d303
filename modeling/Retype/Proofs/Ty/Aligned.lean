import Retype.Proofs.Ty.Refine
import Retype.Proofs.Unification

/-!
# Refining before or after types are brought together

A declared type can be refined by several sources in two orders: by each of them, or by what they
have in common (`Ty.TwoWays`). The common type of the refined types need not be the refined type,
or even conform to it, as a common type is chosen from the outermost constructors inward and may
pass over what is declared.

It does conform where the choice is made along the declared type: the sources are *aligned* with
it (`Ty.Aligned`). Sources of one kind are, if their parts are with the parts of the declared type
(`sequences`, `maps`, `tuples`, `objects`, `selects`), and so are objects of different names, if
their attributes have all the same type (`scattered`), which is then that of the elements of the
map they have in common.

* `exists_parts_of_unify?`: types of one kind are brought together part by part, in the same way
  at every depth;
* `Common.conforms_of_filled`: a pattern and one way of filling it have the latter in common;
* `Aligned.conforms_of_unify?`: the two orders beside each other, by induction on how the sources
  are aligned;
* `Aligned.conforms`: the main result, for sources that may have nothing in common.
-/

namespace Retype

namespace Blueprint

open Ty

variable {types : List Ty} {frame : Frame} {readers : List (Ty → Option Ty)}

theorem Uniform.ne_dynamic (h : Uniform types frame readers) {t : Ty} (ht : t ∈ types) :
    t ≠ .dynamic := by
  rintro rfl
  cases h with
  | map all | list all | set all | object all | tuple all =>
    cases all _ ht

/-- A plain type is its own frame, filled with its own parts. -/
theorem Uniform.exists_fill (h : Uniform types frame readers) {t : Ty} (ht : t ∈ types)
    (plain : t.Plain) :
    ∃ us, List.Forall₂ (fun reader u => reader t = some u) readers us ∧
      frame.fill? us = some t := by
  cases h with
  | map all =>
    have kind := all t ht
    cases t with
    | map e => exact ⟨[e], .cons rfl .nil, rfl⟩
    | _ => cases kind
  | list all | set all =>
    have kind := all t ht
    cases t with
    | sequence k e =>
      cases k <;> cases kind
      exact ⟨[e], .cons rfl .nil, rfl⟩
    | _ => cases kind
  | object all =>
    obtain ⟨as, has, rfl⟩ := Option.map_eq_some_iff.mp (all t ht)
    cases t with
    | object =>
      cases has
      refine ⟨as.map (·.type), ?_, ?_⟩
      · rw [Named.names, List.map_map, List.forall₂_map_left_iff, List.forall₂_map_right_iff,
          List.forall₂_same]
        intro a ha
        rw [Function.comp_apply, attributeType?, Named.find?_of_mem plain.lawful.ascending ha]
        rfl
      · have unmarked : ∀ a ∈ as, a.optional = false := by
          simpa using (throughout_object.mp plain.unmarked).1
        rw [Frame.fill?, record, Named.names, List.zip_map', List.map_map, Option.some.injEq,
          object.injEq]
        conv_rhs => rw [← List.map_id as]
        refine List.map_congr_left fun a ha => ?_
        exact Attribute.ext rfl (unmarked a ha).symm rfl
    | _ => cases has
  | tuple all =>
    obtain ⟨ss, hss, rfl⟩ := Option.map_eq_some_iff.mp (all t ht)
    cases t with
    | tuple =>
      cases hss
      refine ⟨ss, ?_, rfl⟩
      rw [List.forall₂_map_left_iff, forall₂_iff_getElem?, List.length_range]
      refine ⟨rfl, fun i k u hk hu => ?_⟩
      obtain ⟨hi, hk⟩ := List.getElem?_eq_some_iff.mp hk
      rw [← hk, List.getElem_range]
      exact hu
    | _ => cases hss

end Blueprint

namespace Ty

variable {safety : Safety} {ts : List Ty} {u : Ty}

/-! ### Types of one kind, part by part -/

/-- **Inversion.** Types of one kind have a common type if their parts have, reader by reader. -/
theorem exists_parts_of_unify? {frame : Frame} {readers : List (Ty → Option Ty)}
    (uniform : Blueprint.Uniform ts frame readers) (plain : ∀ t ∈ ts, t.Plain)
    (h : unify? ts safety = some u) :
    ∃ us, List.Forall₂ (fun reader u => unify? (ts.filterMap reader) safety = some u) readers us ∧
      frame.fill? us = some u := by
  have hconc : concrete ts = ts := concrete_eq_self fun t ht => uniform.ne_dynamic ht
  rcases same_or_apart ts with rfl | ⟨v, mem, all⟩ | apart
  · rw [unify?_nil] at h
    cases h
  · -- copies of one type have its parts in common
    rw [unify?_of_forall_eq (List.ne_nil_of_mem mem) all] at h
    cases h
    obtain ⟨us, hus, hfill⟩ := uniform.exists_fill mem (plain u mem)
    refine ⟨us, hus.imp fun reader p hp => ?_, hfill⟩
    refine unify?_of_forall_eq (List.ne_nil_of_mem (List.mem_filterMap.mpr ⟨u, mem, hp⟩)) ?_
    intro x hx
    obtain ⟨t, ht, hx⟩ := List.mem_filterMap.mp hx
    rw [all t ht, hp] at hx
    exact (Option.some.inj hx).symm
  · rw [← hconc] at apart
    rw [unify?_of_apart apart, hconc, merge?_of_build (uniform.of_eq (hconc ▸ apart.ne_nil))
      fun t ht => (plain t ht).lawful] at h
    obtain ⟨us, hus, hfill⟩ := Option.bind_eq_some_iff.mp h
    exact ⟨us, List.forall₂_map_left_iff.mp (mapM_eq_some_iff.mp hus), hfill⟩

theorem unify?_sequences {k : SequenceKind} (hts : ∀ t ∈ ts, ∃ e, t = .sequence k e)
    (plain : ∀ t ∈ ts, t.Plain) (h : unify? ts safety = some u) :
    ∃ e, u = .sequence k e ∧ unify? (ts.filterMap element?) safety = some e := by
  have uniform : Blueprint.Uniform ts (.sequence k) [element?] := by
    cases k with
    | list => exact .list fun t ht => by obtain ⟨e, rfl⟩ := hts t ht; rfl
    | set => exact .set fun t ht => by obtain ⟨e, rfl⟩ := hts t ht; rfl
  obtain ⟨us, hus, hfill⟩ := exists_parts_of_unify? uniform plain h
  obtain ⟨e, rest, he, hnil, rfl⟩ := List.forall₂_cons_left_iff.mp hus
  obtain rfl := List.forall₂_nil_left_iff.mp hnil
  cases hfill
  exact ⟨e, rfl, he⟩

theorem unify?_maps (hts : ∀ t ∈ ts, ∃ e, t = .map e) (plain : ∀ t ∈ ts, t.Plain)
    (h : unify? ts safety = some u) :
    ∃ e, u = .map e ∧ unify? (ts.filterMap element?) safety = some e := by
  have uniform : Blueprint.Uniform ts .map [element?] :=
    .map fun t ht => by obtain ⟨e, rfl⟩ := hts t ht; rfl
  obtain ⟨us, hus, hfill⟩ := exists_parts_of_unify? uniform plain h
  obtain ⟨e, rest, he, hnil, rfl⟩ := List.forall₂_cons_left_iff.mp hus
  obtain rfl := List.forall₂_nil_left_iff.mp hnil
  cases hfill
  exact ⟨e, rfl, he⟩

theorem unify?_tuples {n : Nat} (hts : ∀ t ∈ ts, ∃ ss, t = .tuple ss ∧ ss.length = n)
    (plain : ∀ t ∈ ts, t.Plain) (h : unify? ts safety = some u) :
    ∃ us, u = .tuple us ∧ us.length = n ∧
      ∀ (i : Nat) p, us[i]? = some p → unify? (ts.filterMap (elementAt? i)) safety = some p := by
  have uniform : Blueprint.Uniform ts .tuple ((List.range n).map elementAt?) :=
    .tuple fun t ht => by obtain ⟨ss, rfl, rfl⟩ := hts t ht; rfl
  obtain ⟨us, hus, hfill⟩ := exists_parts_of_unify? uniform plain h
  cases hfill
  rw [List.forall₂_map_left_iff, forall₂_iff_getElem?, List.length_range] at hus
  refine ⟨us, rfl, hus.1.symm, fun i p hp => hus.2 i i p ?_ hp⟩
  exact List.getElem?_range (hus.1 ▸ (List.getElem?_eq_some_iff.mp hp).1)

theorem unify?_objects {names : List String}
    (hts : ∀ t ∈ ts, ∃ as, t = .object as ∧ Named.names as = names) (plain : ∀ t ∈ ts, t.Plain)
    (h : unify? ts safety = some u) :
    ∃ us, u = record (names.zip us) ∧ names.length = us.length ∧
      ∀ (i : Nat) name p, names[i]? = some name → us[i]? = some p →
        unify? (ts.filterMap (attributeType? name)) safety = some p := by
  have uniform : Blueprint.Uniform ts (.object names) (names.map attributeType?) :=
    .object fun t ht => by obtain ⟨as, rfl, rfl⟩ := hts t ht; rfl
  obtain ⟨us, hus, hfill⟩ := exists_parts_of_unify? uniform plain h
  cases hfill
  rw [List.forall₂_map_left_iff, forall₂_iff_getElem?] at hus
  exact ⟨us, rfl, hus.1, hus.2⟩

/-! ### A pattern that is filled in one way -/

theorem getElem?_of_record {names : List String} {us : List Ty} {i : Nat} {a : Attribute Ty}
    (h : ((names.zip us).map fun f => (⟨f.1, false, f.2⟩ : Attribute Ty))[i]? = some a) :
    names[i]? = some a.name ∧ us[i]? = some a.type := by
  obtain ⟨f, hf, rfl⟩ := Option.map_eq_some_iff.mp ((List.getElem?_map ..).symm.trans h)
  exact List.getElem?_zip_eq_some.mp hf

/-- Copies of a pattern and of one type that fills it have that type in common. -/
theorem Common.conforms_of_filled {d r : Ty} (h : Common safety ts u) (hd : d.Lawful)
    (hr : r.Conforms d) (mem : r ∈ ts) (all : ∀ t ∈ ts, t = d ∨ t = r) : u.Conforms r := by
  unfold Conforms at hr
  induction hr generalizing ts u with
  | @hole r =>
    by_cases hdyn : r = .dynamic
    · rw [hdyn]
      exact conforms_dynamic u
    · have hu : u ≠ .dynamic := fun hu => hdyn (h.eq_dynamic hu r mem)
      have heq : u = r := (h.of_concrete hu).eq_of_forall_eq fun t ht =>
        (all t (mem_concrete.mp ht).1).resolve_left (mem_concrete.mp ht).2
      rw [heq]
      exact conforms_refl r
  | primitive | capsule =>
    rw [h.eq_of_forall_eq fun t ht => (all t ht).elim id id]
    exact conforms_refl _
  | @sequence k r d _ ih =>
    have hts : ∀ t ∈ ts, ∃ e, t = .sequence k e := fun t ht =>
      (all t ht).elim (fun h => ⟨d, h⟩) fun h => ⟨r, h⟩
    rcases h.of_sequences hts with same | ⟨e, rfl, inside⟩
    · rw [← same _ mem]
      exact conforms_refl _
    · refine .sequence (ih inside (throughout_sequence.mp hd).2 ?_ fun x hx => ?_)
      · exact List.mem_flatMap.mpr ⟨_, mem, by simp [parts]⟩
      · obtain ⟨t, ht, hx⟩ := List.mem_flatMap.mp hx
        rcases all t ht with rfl | rfl
        · exact .inl (List.mem_singleton.mp hx)
        · exact .inr (List.mem_singleton.mp hx)
  | @map r d _ ih =>
    have hts : ∀ t ∈ ts, ∃ e, t = .map e := fun t ht =>
      (all t ht).elim (fun h => ⟨d, h⟩) fun h => ⟨r, h⟩
    rcases h.of_maps hts with same | ⟨e, rfl, inside⟩
    · rw [← same _ mem]
      exact conforms_refl _
    · refine .map (ih inside (throughout_map.mp hd).2 ?_ fun x hx => ?_)
      · exact List.mem_flatMap.mpr ⟨_, mem, by simp [parts]⟩
      · obtain ⟨t, ht, hx⟩ := List.mem_flatMap.mp hx
        rcases all t ht with rfl | rfl
        · exact .inl (List.mem_singleton.mp hx)
        · exact .inr (List.mem_singleton.mp hx)
  | @tuple rs ds length each ih =>
    have hts : ∀ t ∈ ts, ∃ xs, t = .tuple xs ∧ xs.length = rs.length := fun t ht =>
      (all t ht).elim (fun h => ⟨ds, h, length.symm⟩) fun h => ⟨rs, h, rfl⟩
    rcases h.of_tuples hts with same | ⟨us, rfl, hlen, inside⟩
    · rw [← same _ mem]
      exact conforms_refl _
    · refine .tuple hlen fun i u r hu hr => ?_
      obtain ⟨d, hdi⟩ := exists_getElem?_of_length length.symm hr
      refine ih i r d hr hdi (inside i u hu) ((throughout_tuple.mp hd).2 d
        (List.mem_of_getElem? hdi)) (List.mem_filterMap.mpr ⟨_, mem, hr⟩) fun x hx => ?_
      obtain ⟨t, ht, hx⟩ := List.mem_filterMap.mp hx
      rcases all t ht with rfl | rfl
      · exact .inl (Option.some.inj (hx.symm.trans hdi))
      · exact .inr (Option.some.inj (hx.symm.trans hr))
  | @object rs ds names each ih =>
    have hts : ∀ t ∈ ts, ∃ xs, t = .object xs ∧ Named.names xs = Named.names rs := fun t ht =>
      (all t ht).elim (fun h => ⟨ds, h, names.symm⟩) fun h => ⟨rs, h, rfl⟩
    rcases h.of_objects hts with same | ⟨us, rfl, hlen, inside⟩
    · rw [← same _ mem]
      exact conforms_refl _
    · have asc : Named.Ascending ds := hd.ascending
      refine .object (names_record hlen) fun i a r ha hr => ?_
      obtain ⟨hname, hu⟩ := getElem?_of_record ha
      obtain ⟨d, hdi, hfind⟩ := Named.exists_find?_getElem? asc names.symm hr
      have hrfind : Named.find? r.name rs = some r :=
        Named.find?_of_getElem? (hd.ascending_of_names names) hr
      have hrname : (Named.names rs)[i]? = some r.name := by
        rw [Named.names, List.getElem?_map, hr]
        rfl
      rw [Option.some.inj (hname.symm.trans hrname)] at hname
      refine ih i r d hr hdi (inside i r.name a.type hname hu)
        ((throughout_object.mp hd).2 d (List.mem_of_getElem? hdi)) ?_ fun x hx => ?_
      · exact List.mem_filterMap.mpr ⟨_, mem, Option.map_eq_some_iff.mpr ⟨r, hrfind, rfl⟩⟩
      · obtain ⟨t, ht, hx⟩ := List.mem_filterMap.mp hx
        rcases all t ht with rfl | rfl
        · obtain ⟨d', hd', rfl⟩ := Option.map_eq_some_iff.mp hx
          exact .inl (congrArg Attribute.type (Option.some.inj (hd'.symm.trans hfind)))
        · obtain ⟨r', hr', rfl⟩ := Option.map_eq_some_iff.mp hx
          exact .inr (congrArg Attribute.type (Option.some.inj (hr'.symm.trans hrfind)))

/-! ### The two orders -/

/-- The two orders for sources that go into one collection: the types that come of refining the
declared type by each of them, and the type that comes of refining it by what they have in
common. -/
structure TwoWays (declared : Ty) (sources parts : List Ty) (whole : Ty) : Prop where
  each : List.Forall₂ (Refines declared.stripped) sources parts
  together : Refines declared.stripped (merged sources) whole

/-- What a type has to fill an attribute with: an object what it has under the name, a map its
element. Of what is lacking nothing is known. -/
def supplied (name : String) : Ty → Ty
  | .object as => ((Named.find? name as).map (·.type)).getD .dynamic
  | .map element => element
  | _ => .dynamic

theorem supplied_object_of_forall {name : String} {as : List (Attribute Ty)} {s : Ty}
    (h : ∀ a ∈ as, a.type = s) :
    supplied name (.object as) = .dynamic ∨ supplied name (.object as) = s := by
  rw [supplied]
  cases hfind : Named.find? name as with
  | none => exact .inl rfl
  | some a => exact .inr (h a (Named.mem_of_find? hfind).1)

theorem Plain.supplied {name : String} {s : Ty} (h : s.Plain) : (supplied name s).Plain := by
  have blank : Ty.dynamic.Plain :=
    ⟨throughout_dynamic.mpr stable_unmarked.nil, throughout_dynamic.mpr stable_lawful.nil⟩
  cases s with
  | map e => exact h.part (List.mem_singleton_self e)
  | object as =>
    rw [Ty.supplied]
    cases hfind : Named.find? name as with
    | none => exact blank
    | some a => exact h.part (List.mem_map_of_mem (Named.mem_of_find? hfind).1)
  | _ => exact blank

theorem plain_map_supplied {name : String} {ss : List Ty} (hss : ∀ s ∈ ss, s.Plain) :
    ∀ y ∈ ss.map (supplied name), y.Plain :=
  List.forall_mem_map.mpr fun s hs => (hss s hs).supplied

/-- An object is refined attribute by attribute. -/
theorem Refines.of_object {bs : List (Attribute Ty)} {s q : Ty}
    (h : Refines (Ty.object bs).stripped s q) :
    ∃ rs, q = .object rs ∧ Named.names rs = Named.names bs ∧
      ∀ (i : Nat) (b r : Attribute Ty), bs[i]? = some b → rs[i]? = some r →
        Refines b.type.stripped (supplied b.name s) r.type := by
  have stripped : ∀ {i : Nat} {b : Attribute Ty}, bs[i]? = some b →
      (strippedAttributes bs)[i]? = some ⟨b.name, false, b.type.stripped⟩ := fun hb =>
    getElem?_strippedAttributes.mpr ⟨_, hb, rfl⟩
  generalize hd : (Ty.object bs).stripped = d at h
  rw [Ty.stripped] at hd
  cases h with
  | hole | primitive | capsule | map | gather | sequence | collect | tuple => cases hd
  | blank =>
    subst hd
    refine ⟨_, rfl, names_strippedAttributes bs, fun i b r hb hr => ?_⟩
    obtain rfl := Option.some.inj ((stripped hb).symm.trans hr)
    exact .blank
  | select layout each =>
    cases hd
    refine ⟨_, rfl, (names_eq_of_layout layout).trans (names_strippedAttributes bs), ?_⟩
    exact fun i b r hb hr => each i _ r (stripped hb) hr
  | @object _ is rs layout found missing =>
    cases hd
    refine ⟨rs, rfl, (names_eq_of_layout layout).trans (names_strippedAttributes bs), ?_⟩
    intro i b r hb hr
    cases hfind : Named.find? b.name is with
    | none =>
      rw [missing i _ r (stripped hb) hr hfind, supplied, hfind]
      exact .blank
    | some a =>
      rw [supplied, hfind]
      exact found i _ a r (stripped hb) hr hfind

/-- Sources that are brought together along the declared type. -/
inductive Aligned : Ty → List Ty → Prop
  /-- Nothing is left open. -/
  | solid {t : Ty} {ss : List Ty} (solid : t.hasDynamic = false) : Aligned t ss
  | whole {ss : List Ty} : Aligned .dynamic ss
  /-- All sources are the same, placeholders aside. -/
  | alike {t s : Ty} {ss : List Ty} (all : ∀ x ∈ ss, x = .dynamic ∨ x = s) : Aligned t ss
  | sequences {k l : SequenceKind} {t : Ty} {ss : List Ty} (all : ∀ s ∈ ss, ∃ e, s = .sequence l e)
      (inside : Aligned t (ss.filterMap element?)) : Aligned (.sequence k t) ss
  | maps {t : Ty} {ss : List Ty} (all : ∀ s ∈ ss, ∃ e, s = .map e)
      (inside : Aligned t (ss.filterMap element?)) : Aligned (.map t) ss
  | tuples {ts ss : List Ty} (all : ∀ s ∈ ss, ∃ es, s = .tuple es ∧ es.length = ts.length)
      (inside : ∀ (i : Nat) t, ts[i]? = some t → Aligned t (ss.filterMap (elementAt? i))) :
      Aligned (.tuple ts) ss
  | objects {bs : List (Attribute Ty)} {names : List String} {ss : List Ty}
      (all : ∀ s ∈ ss, ∃ as, s = .object as ∧ Named.names as = names)
      (inside : ∀ b ∈ bs, Aligned b.type (ss.map (supplied b.name))) : Aligned (.object bs) ss
  | selects {bs : List (Attribute Ty)} {ss : List Ty} (all : ∀ s ∈ ss, ∃ e, s = .map e)
      (inside : ∀ b ∈ bs, Aligned b.type (ss.map (supplied b.name))) : Aligned (.object bs) ss
  /-- Objects of any names have one type for all attributes, and some object has each attribute
  that is left open. -/
  | scattered {bs : List (Attribute Ty)} {s : Ty} {ss : List Ty}
      (all : ∀ x ∈ ss, ∃ as, x = .object as ∧ ∀ a ∈ as, a.type = s)
      (present : ∀ b ∈ bs, b.type.hasDynamic = true → ∃ x ∈ ss, supplied b.name x = s) :
      Aligned (.object bs) ss

section Agree

variable {t m p : Ty} {ss ps : List Ty}

/-- Refined types have a common type that conforms to the declared one. -/
theorem conforms_stripped_of_unify? (ht : t.Lawful)
    (each : List.Forall₂ (Refines t.stripped) ss ps) (unified : unify? ps safety = some u) :
    u.Conforms t.stripped := by
  refine .common (common_of_unify? unified) (ht.stripped stable_lawful) fun q hq => ?_
  obtain ⟨s, -, hs⟩ := exists_of_mem_right each hq
  exact hs.conforms

/-- Sources that are the same, placeholders aside, refine to types that agree with what refines
by that one. -/
theorem conforms_of_alike (ht : t.Lawful) (each : List.Forall₂ (Refines t.stripped) ss ps)
    (together : Refines t.stripped m p) (mem : m ∈ ss) (all : ∀ s ∈ ss, s = .dynamic ∨ s = m)
    (unified : unify? ps safety = some u) : u.Conforms p := by
  obtain ⟨q, hq, hmq⟩ := exists_of_mem_right each.flip mem
  rw [← together.unique hmq] at hq
  refine (common_of_unify? unified).conforms_of_filled (ht.stripped stable_lawful)
    together.conforms hq fun x hx => ?_
  obtain ⟨s, hs, hsx⟩ := exists_of_mem_right each hx
  rcases all s hs with rfl | rfl
  · exact .inl (hsx.unique .blank)
  · exact .inr (hsx.unique together)

/-- Refined objects agree if they do in each attribute. -/
theorem conforms_of_supplied {bs : List (Attribute Ty)} (ht : (Ty.object bs).Lawful)
    (each : List.Forall₂ (Refines (Ty.object bs).stripped) ss ps) (plain : ∀ q ∈ ps, q.Plain)
    (together : Refines (Ty.object bs).stripped m p) (unified : unify? ps safety = some u)
    (inside : ∀ b ∈ bs, ∀ qs r x,
      List.Forall₂ (Refines b.type.stripped) (ss.map (supplied b.name)) qs →
      Refines b.type.stripped (supplied b.name m) r → unify? qs safety = some x → x.Conforms r) :
    u.Conforms p := by
  have hps : ∀ q ∈ ps, ∃ rs, q = .object rs ∧ Named.names rs = Named.names bs := by
    intro q hq
    obtain ⟨s, -, hs⟩ := exists_of_mem_right each hq
    obtain ⟨rs, rfl, names, -⟩ := hs.of_object
    exact ⟨rs, rfl, names⟩
  obtain ⟨rs, rfl, names, whole⟩ := together.of_object
  obtain ⟨us, rfl, hlen, parts⟩ := unify?_objects hps plain unified
  refine .object ((names_record hlen).trans names.symm) fun i a r ha hr => ?_
  obtain ⟨hname, hu⟩ := getElem?_of_record ha
  obtain ⟨b, hb, -⟩ := Named.exists_getElem? names.symm hr
  have hbname : (Named.names bs)[i]? = some b.name := by
    rw [Named.names, List.getElem?_map, hb]
    rfl
  refine inside b (List.mem_of_getElem? hb) _ r.type a.type ?_ (whole i b r hb hr)
    (parts i b.name a.type hbname hu)
  rw [← List.filterMap_eq_map]
  refine forall₂_filterMap each fun s _ q _ hs => ?_
  obtain ⟨rs', rfl, names', refines⟩ := hs.of_object
  obtain ⟨r', hr', hfind⟩ :=
    Named.exists_find?_getElem? (ht.ascending_of_names names') names' hb
  exact ⟨_, r'.type, rfl, Option.map_eq_some_iff.mpr ⟨r', hfind, rfl⟩, refines i b r' hb hr'⟩

/-- What objects of the same names have in common supplies what they supply. -/
theorem supplied_of_objects {names : List String} {name : String}
    (hss : ∀ s ∈ ss, ∃ as, s = .object as ∧ Named.names as = names) (plain : ∀ s ∈ ss, s.Plain)
    (h : unify? ss safety = some m) :
    unify? (ss.map (supplied name)) safety = some (supplied name m) := by
  obtain ⟨us, rfl, hlen, parts⟩ := unify?_objects hss plain h
  by_cases hname : name ∈ names
  · obtain ⟨i, hi⟩ := List.getElem?_of_mem hname
    obtain ⟨x, hx⟩ := exists_getElem?_of_length hlen.symm hi
    have hread : ss.map (supplied name) = ss.filterMap (attributeType? name) := by
      rw [← List.filterMap_eq_map]
      refine List.filterMap_congr fun s hs => ?_
      obtain ⟨as, rfl, rfl⟩ := hss s hs
      rw [← Named.contains_iff, ← Named.isSome_find?, Option.isSome_iff_exists] at hname
      obtain ⟨a, ha⟩ := hname
      simp [attributeType?, supplied, ha]
    have hbuilt : attributeType? name (record (names.zip us)) = some x :=
      attributeType?_record hlen parts hi hx
    rw [hread, parts i name x hi hx]
    exact congrArg (some <| Option.getD · .dynamic) hbuilt.symm
  · have lacks : ∀ as : List (Attribute Ty), Named.names as = names →
        supplied name (.object as) = .dynamic := by
      rintro as rfl
      rw [← Named.contains_iff, ← Named.isSome_find?, Option.not_isSome_iff_eq_none] at hname
      rw [supplied, hname]
      rfl
    have hblank : ∀ x ∈ ss.map (supplied name), x = .dynamic := by
      intro x hx
      obtain ⟨s, hs, rfl⟩ := List.mem_map.mp hx
      obtain ⟨as, rfl, has⟩ := hss s hs
      exact lacks as has
    have hne : ss.map (supplied name) ≠ [] := by
      simpa using (common_of_unify? h).ne_nil
    rw [unify?_of_forall_eq hne hblank]
    exact congrArg some (lacks _ (names_record hlen)).symm

theorem supplied_of_maps {name : String} (hss : ∀ s ∈ ss, ∃ e, s = .map e)
    (plain : ∀ s ∈ ss, s.Plain) (h : unify? ss safety = some m) :
    unify? (ss.map (supplied name)) safety = some (supplied name m) := by
  obtain ⟨e, rfl, he⟩ := unify?_maps hss plain h
  have hread : ss.map (supplied name) = ss.filterMap element? := by
    rw [← List.filterMap_eq_map]
    refine List.filterMap_congr fun s hs => ?_
    obtain ⟨e, rfl⟩ := hss s hs
    rfl
  rw [hread, he]
  rfl

/-- Objects whose attributes all have one type have a map of that type in common, or an object
whose attributes all have it. -/
theorem supplied_of_scattered {s : Ty} {name : String}
    (hss : ∀ x ∈ ss, ∃ as, x = .object as ∧ ∀ a ∈ as, a.type = s)
    (h : unify? ss safety = some m) : supplied name m = .dynamic ∨ supplied name m = s := by
  have hparts : ∀ p ∈ m.parts, p = s := by
    refine (common_of_unify? h).forall_parts (fun hv hall => hv.eq_of_forall_eq hall) ?_
    intro t ht p hp
    obtain ⟨as, rfl, has⟩ := hss t (mem_concrete.mp ht).1
    obtain ⟨a, ha, rfl⟩ := List.mem_map.mp hp
    exact has a ha
  cases m with
  | map e => exact .inr (hparts e (by simp [parts]))
  | object as =>
    exact supplied_object_of_forall fun a ha => hparts a.type (List.mem_map_of_mem ha)
  | _ => exact .inl rfl

theorem plain_filterMap {reader : Ty → Option Ty} (hss : ∀ s ∈ ss, s.Plain)
    (hreader : ∀ s y, reader s = some y → y ∈ s.parts) : ∀ y ∈ ss.filterMap reader, y.Plain := by
  intro y hy
  obtain ⟨s, hs, hy⟩ := List.mem_filterMap.mp hy
  exact (hss s hs).part (hreader s y hy)

theorem plain_of_refines (ht : t.Lawful) (each : List.Forall₂ (Refines t.stripped) ss ps)
    (hss : ∀ s ∈ ss, s.Plain) : ∀ q ∈ ps, q.Plain := by
  intro q hq
  obtain ⟨s, hs, hsq⟩ := exists_of_mem_right each hq
  exact .refines hsq ht.plain_stripped (hss s hs)

/-- **Step.** Aligned sources refine the declared type to types whose common type conforms to what
the common type of the sources refines it to. -/
theorem Aligned.conforms_of_unify? (h : Aligned t ss) (ht : t.Lawful) (hss : ∀ s ∈ ss, s.Plain)
    (hm : unify? ss safety = some m) (each : List.Forall₂ (Refines t.stripped) ss ps)
    (together : Refines t.stripped m p) (unified : unify? ps safety = some u) : u.Conforms p := by
  unfold Ty.Lawful at ht
  have plain := plain_of_refines ht each hss
  induction h generalizing ps m p u with
  | solid solid =>
    rw [together.eq_of_solid solid]
    exact conforms_stripped_of_unify? ht each unified
  | @whole ss =>
    have hsame : List.Forall₂ (· = ·) ss ps := each.imp fun s q hq => Refines.unique .hole hq
    rw [List.forall₂_eq_eq_eq] at hsame
    subst hsame
    obtain rfl : m = u := Option.some.inj (hm.symm.trans unified)
    rw [together.unique .hole]
    exact conforms_refl m
  | @alike t s ss all =>
    have common := common_of_unify? hm
    by_cases hdyn : m = .dynamic
    · rw [hdyn] at together
      rw [together.unique .blank]
      exact conforms_stripped_of_unify? ht each unified
    · -- the sources that are no placeholder are copies of one, which is then their common type
      have hconc : ∀ x ∈ concrete ss, x = s := fun x hx =>
        (all x (mem_concrete.mp hx).1).resolve_left (mem_concrete.mp hx).2
      have common' := common.of_concrete hdyn
      obtain rfl := common'.eq_of_forall_eq hconc
      obtain ⟨x, hx⟩ := List.exists_mem_of_ne_nil _ common'.ne_nil
      have mem : m ∈ ss := hconc x hx ▸ (mem_concrete.mp hx).1
      exact conforms_of_alike ht each together mem all unified
  | @sequences k l t ss all _ ih =>
    obtain ⟨e, rfl, he⟩ := unify?_sequences all hss hm
    have hps : ∀ q ∈ ps, ∃ x, q = .sequence k x := by
      intro q hq
      obtain ⟨s, hs, hsq⟩ := exists_of_mem_right each hq
      obtain ⟨e, rfl⟩ := all s hs
      cases hsq
      exact ⟨_, rfl⟩
    obtain ⟨x, rfl, hx⟩ := unify?_sequences hps plain unified
    have hparts : ∀ y ∈ ss.filterMap element?, y.Plain :=
      plain_filterMap hss fun _ _ => mem_parts_of_element?
    have heach : List.Forall₂ (Refines t.stripped) (ss.filterMap element?)
        (ps.filterMap element?) := by
      refine forall₂_filterMap each fun s hs q _ hsq => ?_
      obtain ⟨e, rfl⟩ := all s hs
      cases hsq with
      | sequence element => exact ⟨_, _, rfl, rfl, element⟩
    have ht' := (throughout_sequence.mp ht).2
    cases together with
    | sequence element =>
      exact .sequence (ih ht' hparts he heach element hx (plain_of_refines ht' heach hparts))
  | @maps t ss all _ ih =>
    obtain ⟨e, rfl, he⟩ := unify?_maps all hss hm
    have hps : ∀ q ∈ ps, ∃ x, q = .map x := by
      intro q hq
      obtain ⟨s, hs, hsq⟩ := exists_of_mem_right each hq
      obtain ⟨e, rfl⟩ := all s hs
      cases hsq
      exact ⟨_, rfl⟩
    obtain ⟨x, rfl, hx⟩ := unify?_maps hps plain unified
    have hparts : ∀ y ∈ ss.filterMap element?, y.Plain :=
      plain_filterMap hss fun _ _ => mem_parts_of_element?
    have heach : List.Forall₂ (Refines t.stripped) (ss.filterMap element?)
        (ps.filterMap element?) := by
      refine forall₂_filterMap each fun s hs q _ hsq => ?_
      obtain ⟨e, rfl⟩ := all s hs
      cases hsq with
      | map element => exact ⟨_, _, rfl, rfl, element⟩
    have ht' := (throughout_map.mp ht).2
    cases together with
    | map element =>
      exact .map (ih ht' hparts he heach element hx (plain_of_refines ht' heach hparts))
  | @tuples ts ss all _ ih =>
    obtain ⟨ms, rfl, hms, own⟩ := unify?_tuples all hss hm
    have hps : ∀ q ∈ ps, ∃ xs, q = .tuple xs ∧ xs.length = ts.length := by
      intro q hq
      obtain ⟨s, hs, hsq⟩ := exists_of_mem_right each hq
      obtain ⟨es, rfl, hes⟩ := all s hs
      cases hsq with
      | tuple input length => exact ⟨_, rfl, length.trans (length_strippedAll ts)⟩
    obtain ⟨xs, rfl, hxs, inside⟩ := unify?_tuples hps plain unified
    cases together with
    | @tuple _ _ rs input length refines =>
      rw [length_strippedAll] at length
      refine .tuple (hxs.trans length.symm) fun i x r hx hr => ?_
      obtain ⟨t, hti⟩ := exists_getElem?_of_length length.symm hr
      obtain ⟨e, he⟩ := exists_getElem?_of_length (hms.trans length.symm) hr
      have hti' := getElem?_strippedAll.mpr ⟨t, hti, rfl⟩
      have ht' := (throughout_tuple.mp ht).2 t (List.mem_of_getElem? hti)
      have hparts : ∀ y ∈ ss.filterMap (elementAt? i), y.Plain :=
        plain_filterMap hss fun _ _ => mem_parts_of_elementAt?
      have heach : List.Forall₂ (Refines t.stripped) (ss.filterMap (elementAt? i))
          (ps.filterMap (elementAt? i)) := by
        refine forall₂_filterMap each fun s hs q _ hsq => ?_
        obtain ⟨es, rfl, hes⟩ := all s hs
        cases hsq with
        | @tuple _ _ qs _ hqs refines =>
          rw [length_strippedAll] at hqs
          obtain ⟨y, hy⟩ := exists_getElem?_of_length hes hti
          obtain ⟨z, hz⟩ := exists_getElem?_of_length hqs hti
          exact ⟨y, z, hy, hz, refines i _ y z hti' hy hz⟩
      exact ih i t hti ht' hparts (own i e he) heach (refines i _ e r hti' he hr) (inside i x hx)
        (plain_of_refines ht' heach hparts)
  | @objects bs names ss all _ ih =>
    refine conforms_of_supplied ht each plain together unified ?_
    intro b hb qs r x heach refines hx
    have ht' := (throughout_object.mp ht).2 b hb
    have hparts : ∀ y ∈ ss.map (supplied b.name), y.Plain := plain_map_supplied hss
    exact ih b hb ht' hparts (supplied_of_objects all hss hm) heach refines hx
      (plain_of_refines ht' heach hparts)
  | @selects bs ss all _ ih =>
    refine conforms_of_supplied ht each plain together unified ?_
    intro b hb qs r x heach refines hx
    have ht' := (throughout_object.mp ht).2 b hb
    have hparts : ∀ y ∈ ss.map (supplied b.name), y.Plain := plain_map_supplied hss
    exact ih b hb ht' hparts (supplied_of_maps all hss hm) heach refines hx
      (plain_of_refines ht' heach hparts)
  | @scattered bs s ss all present =>
    refine conforms_of_supplied ht each plain together unified ?_
    intro b hb qs r x heach refines hx
    have ht' := (throughout_object.mp ht).2 b hb
    -- an attribute that is left open is refined by the one type, in some object at least
    cases hopen : b.type.hasDynamic with
    | false =>
      rw [refines.eq_of_solid hopen]
      exact conforms_stripped_of_unify? ht' heach hx
    | true =>
      rcases supplied_of_scattered all hm with hblank | hone
      · rw [hblank] at refines
        rw [refines.unique .blank]
        exact conforms_stripped_of_unify? ht' heach hx
      · rw [hone] at refines
        obtain ⟨x₀, hx₀, hs⟩ := present b hb hopen
        refine conforms_of_alike ht' heach refines (List.mem_map.mpr ⟨x₀, hx₀, hs⟩) (fun y hy => ?_)
          hx
        obtain ⟨x, hxs, rfl⟩ := List.mem_map.mp hy
        obtain ⟨as, rfl, has⟩ := all x hxs
        exact supplied_object_of_forall has

/-- **Agreement.** For aligned sources the two orders agree. -/
theorem Aligned.conforms (h : Aligned t ss) (ht : t.Lawful) (hss : ∀ s ∈ ss, s.Plain)
    (ways : TwoWays t ss ps p) (unified : unify? ps .risky = some u) : u.Conforms p := by
  have together := ways.together
  unfold merged at together
  cases hm : unify? ss .risky with
  | some m =>
    rw [hm] at together
    exact h.conforms_of_unify? ht hss hm ways.each together unified
  | none =>
    -- nothing is refined by sources that have nothing in common
    rw [hm] at together
    rw [together.unique .blank]
    exact conforms_stripped_of_unify? ht ways.each unified

end Agree

end Ty

end Retype
