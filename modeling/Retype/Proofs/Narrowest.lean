import Retype.Proofs.Unification

/-!
# The common type is the narrowest

Whatever all the types convert to without risk, their safe common type converts to as well, if
the target is definite: it has neither placeholders nor optional attributes (`narrow_of_common`).

A safe conversion keeps most of the shape of its source: it leads from a map to a map, from a list
to a list, from a set to a list or set, from a tuple to a tuple or a list, from an object to an
object of the same names or a map (`Converts.of_map` and its companions). So the target fixes what
the parts of all the types convert to, and narrowness passes from the groups of parts to the
types, one way of building a common type at a time (`Narrow.map` and its companions).
-/

namespace Retype

namespace Ty

/-! ### What a safe conversion leads to -/

theorem Converts.of_map {s target : Ty} (h : Converts .safe (.map s) target)
    (definite : target.Definite) : ∃ e, target = .map e ∧ Converts .safe s e := by
  obtain ⟨c, plan⟩ := h.plan
  cases plan with
  | same => exact ⟨s, rfl, converts_refl s⟩
  | pass => exact absurd rfl definite.ne_dynamic
  | map element => exact ⟨_, rfl, converts_of_plan element⟩
  | select permitted => cases permitted

theorem Converts.of_sequence {k : SequenceKind} {s target : Ty}
    (h : Converts .safe (.sequence k s) target) (definite : target.Definite) :
    ∃ l e, target = .sequence l e ∧ SequenceKind.convertible .safe k l = true ∧
      Converts .safe s e := by
  obtain ⟨c, plan⟩ := h.plan
  cases plan with
  | same => exact ⟨k, s, rfl, by cases k <;> rfl, converts_refl s⟩
  | pass => exact absurd rfl definite.ne_dynamic
  | sequence permitted element => exact ⟨_, _, rfl, permitted, converts_of_plan element⟩

theorem Converts.of_list {s target : Ty} (h : Converts .safe (.list s) target)
    (definite : target.Definite) : ∃ e, target = .list e ∧ Converts .safe s e := by
  obtain ⟨l, e, rfl, permitted, he⟩ := h.of_sequence definite
  cases l with
  | list => exact ⟨e, rfl, he⟩
  | set => cases permitted

theorem Converts.of_tuple {ss : List Ty} {target : Ty} (h : Converts .safe (.tuple ss) target)
    (definite : target.Definite) :
    (∃ ts, target = .tuple ts ∧ ss.length = ts.length ∧
      ∀ (i : Nat) s t, ss[i]? = some s → ts[i]? = some t → Converts .safe s t) ∨
    ∃ e, target = .list e ∧ ∀ s ∈ ss, Converts .safe s e := by
  obtain ⟨c, plan⟩ := h.plan
  cases plan with
  | same =>
    refine .inl ⟨ss, rfl, rfl, fun i s t hs ht => ?_⟩
    obtain rfl : s = t := Option.some.inj (hs.symm.trans ht)
    exact converts_refl s
  | pass => exact absurd rfl definite.ne_dynamic
  | tuple arity length each =>
    refine .inl ⟨_, rfl, arity, fun i s t hs ht => ?_⟩
    obtain ⟨c, hc⟩ := exists_getElem?_of_length length.symm hs
    exact converts_of_plan (each i s t c hs ht hc)
  | @positions l _ _ _ _ permitted elects length each =>
    cases elects with
    | common => cases definite.solid
    | declared =>
      cases l with
      | set => cases permitted
      | list =>
        refine .inr ⟨_, rfl, fun s hs => ?_⟩
        obtain ⟨i, hi⟩ := List.getElem?_of_mem hs
        obtain ⟨c, hc⟩ := exists_getElem?_of_length length.symm hi
        exact converts_of_plan (each i s c hi hc)

/-- Where nothing is optional, an object converts to an object of its names, or to a map. -/
theorem Converts.of_object {as : List (Attribute Ty)} {target : Ty}
    (h : Converts .safe (.object as) target) (lawful : (Ty.object as).Lawful)
    (definite : target.Definite) :
    (∃ bs, target = .object bs ∧ Named.names as = Named.names bs ∧
      ∀ (i : Nat) (a b : Attribute Ty), as[i]? = some a → bs[i]? = some b →
        Converts .safe a.type b.type) ∨
    ∃ e, target = .map e ∧ ∀ a ∈ as, Converts .safe a.type e := by
  obtain ⟨c, plan⟩ := h.plan
  cases plan with
  | same =>
    refine .inl ⟨as, rfl, rfl, fun i a b ha hb => ?_⟩
    obtain rfl : a = b := Option.some.inj (ha.symm.trans hb)
    exact converts_refl a.type
  | pass => exact absurd rfl definite.ne_dynamic
  | @object _ bs slots known targets found missing =>
    subst targets
    have required : ∀ slot ∈ slots, slot.target.optional = false := fun slot hslot =>
      (throughout_object.mp definite.plain.unmarked).1 (slot.target.name, slot.target.optional)
        (List.mem_map_of_mem (List.mem_map_of_mem hslot))
    have names : Named.names as = Named.names (slots.map (·.target)) :=
      Conversion.names_eq_of_required lawful.ascending definite.plain.lawful.ascending known
        missing required
    refine .inl ⟨_, rfl, names, fun i a b ha hb => ?_⟩
    obtain ⟨a', ha', hfind⟩ := Named.exists_find?_getElem? lawful.ascending names hb
    obtain rfl : a = a' := Option.some.inj (ha.symm.trans ha')
    obtain ⟨slot, hslot, rfl⟩ := List.mem_map.mp (List.mem_of_getElem? hb)
    exact converts_of_plan (found slot hslot a hfind)
  | gather elects names each =>
    cases elects with
    | common => cases definite.solid
    | declared =>
      refine .inr ⟨_, rfl, fun a ha => ?_⟩
      obtain ⟨i, hi⟩ := List.getElem?_of_mem ha
      obtain ⟨c, hc, -⟩ := Named.exists_getElem? names.symm hi
      exact converts_of_plan (each i a c hi hc)

/-- A map or an object converts to a map, part by part, or to an object of its names. -/
theorem Converts.of_mapping {t target : Ty} (h : Converts .safe t target)
    (kind : t.isMap = true ∨ t.isObject = true) (lawful : t.Lawful)
    (definite : target.Definite) :
    (∃ e, target = .map e ∧ ∀ p ∈ t.parts, Converts .safe p e) ∨
      ∃ bs, target = .object bs ∧ t.attributes?.map Named.names = some (Named.names bs) := by
  cases t with
  | map s =>
    obtain ⟨e, rfl, he⟩ := h.of_map definite
    exact .inl ⟨e, rfl, by simpa [parts] using he⟩
  | object as =>
    rcases h.of_object lawful definite with ⟨bs, rfl, names, -⟩ | ⟨e, rfl, he⟩
    · exact .inr ⟨bs, rfl, congrArg some names⟩
    · exact .inl ⟨e, rfl, by simpa [parts] using he⟩
  | _ => simp [isMap, isObject] at kind

/-- A list or a tuple converts to a list, part by part, or to a tuple of its length. -/
theorem Converts.of_listing {t target : Ty} (h : Converts .safe t target)
    (kind : t.isList = true ∨ t.isTuple = true) (definite : target.Definite) :
    (∃ e, target = .list e ∧ ∀ p ∈ t.parts, Converts .safe p e) ∨
      ∃ ts, target = .tuple ts ∧ t.elements?.map List.length = some ts.length := by
  cases t with
  | sequence k s =>
    cases k with
    | set => simp [isList, isTuple] at kind
    | list =>
      obtain ⟨e, rfl, he⟩ := h.of_list definite
      exact .inl ⟨e, rfl, by simpa [parts] using he⟩
  | tuple ss =>
    rcases h.of_tuple definite with ⟨ts, rfl, length, -⟩ | ⟨e, rfl, he⟩
    · exact .inr ⟨ts, rfl, congrArg some length⟩
    · exact .inl ⟨e, rfl, he⟩
  | _ => simp [isList, isTuple] at kind

/-! ### From groups of parts to the types -/

/-- Every definite target that the types convert to is one that the given type converts to. -/
def Narrow (types : List Ty) (u : Ty) : Prop :=
  ∀ target, target.Definite → (∀ t ∈ types, Converts .safe t target) → Converts .safe u target

section Narrow

variable {types : List Ty} {e : Ty}

theorem Narrow.map (apart : Apart types) (lawful : ∀ t ∈ types, t.Lawful)
    (all : ∀ t ∈ types, t.isMap = true ∨ t.isObject = true)
    (loose : (∃ t ∈ types, t.isMap = true) ∨
      ∀ names, ∃ t ∈ types, t.attributes?.map Named.names ≠ some names)
    (inside : Narrow (types.flatMap parts) e) : Narrow types (.map e) := by
  intro target definite hall
  have each : ∀ t ∈ types, (∃ e, target = .map e ∧ ∀ p ∈ t.parts, Converts .safe p e) ∨
      ∃ bs, target = .object bs ∧ t.attributes?.map Named.names = some (Named.names bs) :=
    fun t ht => (hall t ht).of_mapping (all t ht) (lawful t ht) definite
  -- maps, and objects whose names differ, have only maps above them
  obtain ⟨e', rfl⟩ : ∃ e, target = .map e := by
    rcases loose with ⟨t, ht, kind⟩ | differ
    · cases t with
      | map s => exact ((hall _ ht).of_map definite).imp fun _ h => h.1
      | _ => cases kind
    · obtain ⟨t, ht⟩ := List.exists_mem_of_ne_nil _ apart.ne_nil
      rcases each t ht with ⟨e, he, -⟩ | ⟨bs, rfl, -⟩
      · exact ⟨e, he⟩
      · obtain ⟨t', ht', hne⟩ := differ (Named.names bs)
        rcases each t' ht' with ⟨e, he, -⟩ | ⟨bs', hbs', names⟩
        · exact ⟨e, he⟩
        · cases hbs'
          exact absurd names hne
  refine (inside e' (definite.part (by simp [parts])) fun p hp => ?_).map
  obtain ⟨t, ht, hpt⟩ := List.mem_flatMap.mp hp
  rcases each t ht with ⟨e, he, hparts⟩ | ⟨bs, hbs, -⟩
  · cases he
    exact hparts p hpt
  · cases hbs

theorem Narrow.list (apart : Apart types)
    (all : ∀ t ∈ types, t.isList = true ∨ t.isTuple = true)
    (loose : (∃ t ∈ types, t.isList = true) ∨
      ∀ n, ∃ t ∈ types, t.elements?.map List.length ≠ some n)
    (inside : Narrow (types.flatMap parts) e) : Narrow types (.list e) := by
  intro target definite hall
  have each : ∀ t ∈ types, (∃ e, target = .list e ∧ ∀ p ∈ t.parts, Converts .safe p e) ∨
      ∃ us, target = .tuple us ∧ t.elements?.map List.length = some us.length :=
    fun t ht => (hall t ht).of_listing (all t ht) definite
  -- lists, and tuples whose lengths differ, have only lists above them
  obtain ⟨e', rfl⟩ : ∃ e, target = .list e := by
    rcases loose with ⟨t, ht, kind⟩ | differ
    · cases t with
      | sequence k s =>
        cases k with
        | list => exact ((hall _ ht).of_list definite).imp fun _ h => h.1
        | set => cases kind
      | _ => cases kind
    · obtain ⟨t, ht⟩ := List.exists_mem_of_ne_nil _ apart.ne_nil
      rcases each t ht with ⟨e, he, -⟩ | ⟨us, rfl, -⟩
      · exact ⟨e, he⟩
      · obtain ⟨t', ht', hne⟩ := differ us.length
        rcases each t' ht' with ⟨e, he, -⟩ | ⟨us', hus', length⟩
        · exact ⟨e, he⟩
        · cases hus'
          exact absurd length hne
  refine (inside e' (definite.part (by simp [parts])) fun p hp => ?_).sequence rfl
  obtain ⟨t, ht, hpt⟩ := List.mem_flatMap.mp hp
  rcases each t ht with ⟨e, he, hparts⟩ | ⟨us, hus, -⟩
  · cases he
    exact hparts p hpt
  · cases hus

theorem Narrow.set (apart : Apart types) (all : ∀ t ∈ types, t.isSet = true)
    (inside : Narrow (types.flatMap parts) e) : Narrow types (.set e) := by
  intro target definite hall
  have each : ∀ t ∈ types, ∃ l e, target = .sequence l e ∧ ∀ p ∈ t.parts, Converts .safe p e := by
    intro t ht
    have kind := all t ht
    cases t with
    | sequence k s =>
      obtain ⟨l, e, rfl, -, he⟩ := (hall _ ht).of_sequence definite
      exact ⟨l, e, rfl, by simpa [parts] using he⟩
    | _ => cases kind
  obtain ⟨t, ht⟩ := List.exists_mem_of_ne_nil _ apart.ne_nil
  obtain ⟨l, e', rfl, -⟩ := each t ht
  refine (inside e' (definite.part (by simp [parts])) fun p hp => ?_).sequence
    (by simp [SequenceKind.convertible])
  obtain ⟨t, ht, hpt⟩ := List.mem_flatMap.mp hp
  obtain ⟨l, e, he, hparts⟩ := each t ht
  cases he
  exact hparts p hpt

theorem Narrow.tuple {us : List Ty} (apart : Apart types)
    (all : ∀ t ∈ types, t.elements?.map List.length = some us.length)
    (inside : ∀ (i : Nat) u, us[i]? = some u → Narrow (types.filterMap (elementAt? i)) u) :
    Narrow types (.tuple us) := by
  intro target definite hall
  have each : ∀ t ∈ types, ∃ ss, t = .tuple ss ∧ ss.length = us.length := by
    intro t ht
    have hlength := all t ht
    cases t with
    | tuple ss => exact ⟨ss, rfl, Option.some.inj hlength⟩
    | _ => cases hlength
  -- what stands at a position of some tuple converts to what the target has for it
  have group : ∀ {i : Nat} {e : Ty}, (∀ ss, Ty.tuple ss ∈ types → ∀ p, ss[i]? = some p →
      Converts .safe p e) → ∀ p ∈ types.filterMap (elementAt? i), Converts .safe p e := by
    intro i e h p hp
    obtain ⟨t, ht, hp⟩ := List.mem_filterMap.mp hp
    obtain ⟨ss, rfl, -⟩ := each t ht
    exact h ss ht p hp
  obtain ⟨t, ht⟩ := List.exists_mem_of_ne_nil _ apart.ne_nil
  obtain ⟨ss, rfl, hlength⟩ := each t ht
  rcases (hall _ ht).of_tuple definite with ⟨vs, rfl, arity, -⟩ | ⟨e, rfl, -⟩
  · refine .tuple (hlength.symm.trans arity) fun i u v hu hv => ?_
    refine inside i u hu v (definite.part (List.mem_of_getElem? hv)) (group fun ss hss p hp => ?_)
    rcases (hall _ hss).of_tuple definite with ⟨_, hvs, -, heach⟩ | ⟨e, he, -⟩
    · cases hvs
      exact heach i p v hp hv
    · cases he
  · have he : e.Definite := definite.part (by simp [parts])
    refine .positions rfl (.declared fun hdyn => absurd hdyn he.ne_dynamic) fun u hu => ?_
    obtain ⟨i, hi⟩ := List.getElem?_of_mem hu
    refine inside i u hi e he (group fun ss hss p hp => ?_)
    rcases (hall _ hss).of_tuple definite with ⟨_, hvs, -⟩ | ⟨_, he, hparts⟩
    · cases hvs
    · cases he
      exact hparts p (List.mem_of_getElem? hp)

theorem Narrow.object {names : List String} {us : List Ty} (apart : Apart types)
    (lawful : ∀ t ∈ types, t.Lawful)
    (all : ∀ t ∈ types, t.attributes?.map Named.names = some names)
    (length : names.length = us.length)
    (inside : ∀ (i : Nat) name u, names[i]? = some name → us[i]? = some u →
      Narrow (types.filterMap (attributeType? name)) u) :
    Narrow types (record (names.zip us)) := by
  intro target definite hall
  have each : ∀ t ∈ types, ∃ as, t = .object as ∧ Named.names as = names := by
    intro t ht
    have hnames := all t ht
    cases t with
    | object as => exact ⟨as, rfl, Option.some.inj hnames⟩
    | _ => cases hnames
  -- what some object has under a name converts to what the target has for it
  have group : ∀ {name : String} {e : Ty}, (∀ as, Ty.object as ∈ types → Named.names as = names →
      ∀ a, Named.find? name as = some a → Converts .safe a.type e) →
      ∀ p ∈ types.filterMap (attributeType? name), Converts .safe p e := by
    intro name e h p hp
    obtain ⟨t, ht, hp⟩ := List.mem_filterMap.mp hp
    obtain ⟨as, rfl, hnames⟩ := each t ht
    obtain ⟨a, ha, rfl⟩ := Option.map_eq_some_iff.mp hp
    exact h as ht hnames a ha
  obtain ⟨t, ht⟩ := List.exists_mem_of_ne_nil _ apart.ne_nil
  obtain ⟨as, rfl, hnames⟩ := each t ht
  have hrecord := names_record length
  rcases (hall _ ht).of_object (lawful _ ht) definite with ⟨bs, rfl, hbs, -⟩ | ⟨e, rfl, -⟩
  · refine .objectOfNames ?_ (hrecord.trans (hnames.symm.trans hbs)) fun i u b hu hb => ?_
    · rw [Named.Ascending, hrecord, ← hnames]
      exact (lawful _ ht).ascending
    obtain ⟨f, hf, rfl⟩ := Option.map_eq_some_iff.mp ((List.getElem?_map ..).symm.trans hu)
    obtain ⟨hname, hfu⟩ := List.getElem?_zip_eq_some.mp hf
    have hkey : Named.name b = f.1 := by
      rw [← hnames, hbs, Named.names, List.getElem?_map, hb] at hname
      exact Option.some.inj hname
    refine inside i f.1 f.2 hname hfu b.type
      (definite.part (List.mem_map_of_mem (List.mem_of_getElem? hb)))
      (group fun as' has' hnames' a ha => ?_)
    rcases (hall _ has').of_object (lawful _ has') definite with
      ⟨_, hbs', names, heach⟩ | ⟨e, he, -⟩
    · cases hbs'
      rw [← hkey] at ha
      exact heach i a b (Named.getElem?_of_find? (lawful _ has').ascending names hb ha) hb
    · cases he
  · have he : e.Definite := definite.part (by simp [parts])
    refine .gather (.declared fun hdyn => absurd hdyn he.ne_dynamic) fun u hu => ?_
    obtain ⟨f, hf, rfl⟩ := List.mem_map.mp hu
    obtain ⟨i, hi⟩ := List.getElem?_of_mem hf
    obtain ⟨hname, hfu⟩ := List.getElem?_zip_eq_some.mp hi
    refine inside i f.1 f.2 hname hfu e he (group fun as' has' _ a ha => ?_)
    rcases (hall _ has').of_object (lawful _ has') definite with ⟨_, hbs', -⟩ | ⟨_, he, hparts⟩
    · cases hbs'
    · cases he
      exact hparts a (Named.mem_of_find? ha).1

/-- Placeholders ask nothing of a target. -/
theorem Narrow.of_concrete {u : Ty} (h : Narrow (concrete types) u) : Narrow types u :=
  fun target definite hall => h target definite fun t ht => hall t (mem_concrete.mp ht).1

end Narrow

/-- **Narrowness.** A safe common type is below every definite target of the types. -/
theorem narrow_of_common {ts : List Ty} {u : Ty} (h : Common .safe ts u)
    (lawful : ∀ t ∈ ts, t.Lawful) : Narrow ts u := by
  have lawful' : ∀ {ts : List Ty}, (∀ t ∈ ts, t.Lawful) → ∀ t ∈ concrete ts, t.Lawful :=
    fun h t ht => h t (mem_concrete.mp ht).1
  have below : ∀ {ts group : List Ty}, (∀ t ∈ ts, t.Lawful) →
      (∀ p ∈ group, ∃ t ∈ concrete ts, p ∈ t.parts) → ∀ p ∈ group, p.Lawful := by
    intro ts group hts hgroup p hp
    obtain ⟨t, ht, hpt⟩ := hgroup p hp
    exact Throughout.part (lawful' hts t ht) hpt
  induction h with
  | blank => exact fun target _ _ => dynamic_converts target
  | same mem | choose _ mem => exact fun target _ hall => hall _ (mem_concrete.mp mem).1
  | map apart all loose _ _ ih =>
    exact .of_concrete (.map apart (lawful' lawful) all loose
      (ih (below lawful fun _ => List.mem_flatMap.mp)))
  | list apart all loose _ _ ih =>
    exact .of_concrete (.list apart all loose (ih (below lawful fun _ => List.mem_flatMap.mp)))
  | set apart all _ _ ih =>
    exact .of_concrete (.set apart all (ih (below lawful fun _ => List.mem_flatMap.mp)))
  | object apart all length _ _ ih =>
    exact .of_concrete (.object apart (lawful' lawful) all length fun i name u hname hu =>
      ih i name u hname hu (below lawful fun _ => mem_parts_of_mem_attributes))
  | tuple apart all _ _ ih =>
    exact .of_concrete (.tuple apart all fun i u hu =>
      ih i u hu (below lawful fun _ => mem_parts_of_mem_elements))

end Ty

/-- **The narrowest type.** If every type converts without risk to a target that has neither
placeholders nor optional attributes, then so does the safe common type. The types themselves may
have both. -/
theorem unify_narrowest {ts : List Ty} {u target : Ty} (lawful : ∀ t ∈ ts, t.Lawful)
    (hunify : Ty.unify ts .safe = .ok u) (names : target.Lawful) (marks : target.Unmarked)
    (solid : target.hasDynamic = false)
    (hall : ∀ t ∈ ts, (Conversion.between? t target .safe).isSome = true) :
    (Conversion.between? u target .safe).isSome = true :=
  Ty.narrow_of_common (Ty.common_of_unify? (Ty.unify_eq_ok_iff.mp hunify)) lawful target
    ⟨⟨marks, names⟩, solid⟩ hall

/-- Tuples of sets and a list of lists settle on a list of lists; it becomes a list of lists of
text, as all of them do. -/
theorem unify_narrowest_tuples_and_list :
    let ts : List Ty := [.tuple [.set .number, .list .number], .list (.list .number)]
    let target : Ty := .list (.list .string)
    Ty.unify ts .safe = .ok (.list (.list .number)) ∧ target.Lawful ∧ target.Unmarked ∧
      (∀ t ∈ ts, t.Lawful ∧ (Conversion.between? t target .safe).isSome = true) ∧
      (Conversion.between? (.list (.list .number)) target .safe).isSome = true := by
  intro ts target
  have hunify : Ty.unify ts .safe = .ok (.list (.list .number)) := by cbv
  have hall : ∀ t ∈ ts, t.Lawful ∧ (Conversion.between? t target .safe).isSome = true := by
    intro t ht
    simp only [ts, List.mem_cons, List.not_mem_nil, or_false] at ht
    rcases ht with rfl | rfl
    · exact ⟨by decide, by cbv⟩
    · exact ⟨by decide, by cbv⟩
  exact ⟨hunify, by decide, by decide, hall, unify_narrowest (fun t ht => (hall t ht).1) hunify
    (by decide) (by decide) (by decide) fun t ht => (hall t ht).2⟩

end Retype
