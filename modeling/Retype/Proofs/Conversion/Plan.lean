import Retype.Proofs.Ty.Common

/-!
# Which plan leads from one type to another

`Conversion.Plan safety source target plan` lists the plans that `Conversion.between?` makes, one
rule for each pair of shapes that convert. The search for a plan is opened once, in
`rule_of_between?`: it says how a conversion is found from those of the parts, and
`plan_of_between?` follows by going down the source. A plan is for values of the source type: it
says nothing about what becomes of them, which is the business of `Conversion.applyWith`.
-/

namespace Retype

namespace Conversion

/-- The type that parts are converted to on the way into a collection: the declared element type,
or the common type of the parts where that is left open. -/
inductive Elects (safety : Safety) (parts : List Ty) : Ty → Ty → Prop
  | common {u : Ty} (nonempty : parts ≠ []) (unified : Ty.unify? parts safety = some u) :
      Elects safety parts .dynamic u
  | declared {t : Ty} (settled : t = .dynamic → parts = []) : Elects safety parts t t

/-- The plans for turning values of one type into values of another. -/
inductive Plan (safety : Safety) : Ty → Ty → Conversion → Prop
  | same {t : Ty} (solid : t ≠ .dynamic) : Plan safety t t (.covering t.stripped .identity)
  | pass {s : Ty} : Plan safety s .dynamic .identity
  | later {t : Ty} (solid : t ≠ .dynamic) : Plan safety .dynamic t (.deferred t)
  | primitive {p q : Primitive} (permitted : Primitive.convertible safety p q = true) :
      Plan safety (.primitive p) (.primitive q)
        (.covering (Ty.primitive q).stripped (.primitive q))
  | sequence {k l : SequenceKind} {s t : Ty} {c : Conversion}
      (permitted : SequenceKind.convertible safety k l = true) (element : Plan safety s t c) :
      Plan safety (.sequence k s) (.sequence l t)
        (.covering (Ty.sequence l t).stripped (.eachItem l c t))
  | positions {l : SequenceKind} {ss : List Ty} {t e : Ty} {cs : List Conversion}
      (permitted : SequenceKind.convertible safety .list l = true) (elects : Elects safety ss t e)
      (length : ss.length = cs.length)
      (each : ∀ (i : Nat) s c, ss[i]? = some s → cs[i]? = some c → Plan safety s e c) :
      Plan safety (.tuple ss) (.sequence l t)
        (.covering (Ty.sequence l t).stripped (.positions l cs e))
  | map {s t : Ty} {c : Conversion} (element : Plan safety s t c) :
      Plan safety (.map s) (.map t) (.covering (Ty.map t).stripped (.eachEntry c t))
  | gather {as : List (Attribute Ty)} {t e : Ty} {cs : List (String × Conversion)}
      (elects : Elects safety (as.map (·.type)) t e) (names : Named.names as = Named.names cs)
      (each : ∀ (i : Nat) (a : Attribute Ty) (c : String × Conversion), as[i]? = some a →
        cs[i]? = some c → Plan safety a.type e c.2) :
      Plan safety (.object as) (.map t) (.covering (Ty.map t).stripped (.gather cs e))
  | tuple {ss ts : List Ty} {cs : List Conversion} (arity : ss.length = ts.length)
      (length : ss.length = cs.length)
      (each : ∀ (i : Nat) s t c, ss[i]? = some s → ts[i]? = some t → cs[i]? = some c →
        Plan safety s t c) :
      Plan safety (.tuple ss) (.tuple ts) (.covering (Ty.tuple ts).stripped (.tuple cs))
  | object {as bs : List (Attribute Ty)} {slots : List (Slot Conversion)}
      (known : ∀ a ∈ as, Named.contains a.name bs = true) (targets : slots.map (·.target) = bs)
      (found : ∀ slot ∈ slots, ∀ a, Named.find? slot.target.name as = some a →
        Plan safety a.type slot.target.type slot.conversion)
      (missing : ∀ slot ∈ slots, Named.find? slot.target.name as = none →
        slot.target.optional = true) :
      Plan safety (.object as) (.object bs) (.covering (Ty.object bs).stripped (.object slots))
  | select {s : Ty} {bs : List (Attribute Ty)} {slots : List (Slot Conversion)}
      (permitted : safety = .risky) (targets : slots.map (·.target) = bs)
      (each : ∀ slot ∈ slots, Plan safety s slot.target.type slot.conversion) :
      Plan safety (.map s) (.object bs) (.covering (Ty.object bs).stripped (.select slots))

/-- What parts are converted to, read off the search. -/
theorem elects_of_eq {safety : Safety} {parts : List Ty} {t e : Ty}
    (h : (if t.isDynamic && !parts.isEmpty then Ty.unify? parts safety else some t) = some e) :
    Elects safety parts t e := by
  split at h
  · rename_i hopen
    simp only [Bool.and_eq_true, Ty.isDynamic_iff, Bool.not_eq_true', List.isEmpty_eq_false_iff]
      at hopen
    obtain ⟨rfl, hne⟩ := hopen
    exact .common hne h
  · rename_i hfixed
    cases h
    refine .declared fun hdyn => ?_
    simpa [hdyn, Ty.isDynamic] using hfixed

/-- A slot for each attribute, filled in by a step that keeps the attribute. -/
theorem slots_of_mapM {bs : List (Attribute Ty)} {slots : List (Slot Conversion)}
    {f : Attribute Ty → Option (Slot Conversion)} (h : bs.mapM f = some slots)
    (hkeep : ∀ b slot, f b = some slot → slot.target = b) :
    slots.map (·.target) = bs ∧ ∀ slot ∈ slots, f slot.target = some slot := by
  have hall := mapM_eq_some_iff.mp h
  constructor
  · clear h
    induction hall with
    | nil => rfl
    | cons hb _ ih => rw [List.map_cons, ih, hkeep _ _ hb]
  · intro slot hslot
    obtain ⟨b, -, hb⟩ := exists_of_mem_right hall hslot
    rwa [hkeep b slot hb]

/-- Where nothing is optional, nothing is missing, so source and target have the same names. -/
theorem names_eq_of_required {as : List (Attribute Ty)} {slots : List (Slot Conversion)}
    (hs : Named.Ascending as) (ht : Named.Ascending (slots.map (·.target)))
    (known : ∀ a ∈ as, Named.contains a.name (slots.map (·.target)) = true)
    (missing : ∀ slot ∈ slots, Named.find? slot.target.name as = none →
      slot.target.optional = true)
    (required : ∀ slot ∈ slots, slot.target.optional = false) :
    Named.names as = Named.names (slots.map (·.target)) := by
  refine Named.names_eq_of_contains hs ht known fun b hb => ?_
  obtain ⟨slot, hslot, rfl⟩ := List.mem_map.mp hb
  rw [← Named.isSome_find?]
  by_contra hnone
  have hoptional := missing slot hslot (Option.not_isSome_iff_eq_none.mp hnone)
  rw [required slot hslot] at hoptional
  cases hoptional

/-! ### One step of the search -/

/-- The conversions that the search finds, one rule for each pair of shapes that convert; those of
the parts are again found by the search. -/
inductive Rule (safety : Safety) : Ty → Ty → Conversion → Prop
  | same {t : Ty} (solid : t ≠ .dynamic) : Rule safety t t (.covering t.stripped .identity)
  | pass {s : Ty} : Rule safety s .dynamic .identity
  | later {t : Ty} (solid : t ≠ .dynamic) : Rule safety .dynamic t (.deferred t)
  | primitive {p q : Primitive} (permitted : Primitive.convertible safety p q = true) :
      Rule safety (.primitive p) (.primitive q)
        (.covering (Ty.primitive q).stripped (.primitive q))
  | sequence {k l : SequenceKind} {s t : Ty} {c : Conversion}
      (permitted : SequenceKind.convertible safety k l = true)
      (element : between? s t safety = some c) :
      Rule safety (.sequence k s) (.sequence l t)
        (.covering (Ty.sequence l t).stripped (.eachItem l c t))
  | positions {l : SequenceKind} {ss : List Ty} {t e : Ty} {cs : List Conversion}
      (permitted : SequenceKind.convertible safety .list l = true) (elects : Elects safety ss t e)
      (length : ss.length = cs.length)
      (each : ∀ (i : Nat) s c, ss[i]? = some s → cs[i]? = some c → between? s e safety = some c) :
      Rule safety (.tuple ss) (.sequence l t)
        (.covering (Ty.sequence l t).stripped (.positions l cs e))
  | map {s t : Ty} {c : Conversion} (element : between? s t safety = some c) :
      Rule safety (.map s) (.map t) (.covering (Ty.map t).stripped (.eachEntry c t))
  | gather {as : List (Attribute Ty)} {t e : Ty} {cs : List (String × Conversion)}
      (elects : Elects safety (as.map (·.type)) t e) (names : Named.names as = Named.names cs)
      (each : ∀ (i : Nat) (a : Attribute Ty) (c : String × Conversion), as[i]? = some a →
        cs[i]? = some c → between? a.type e safety = some c.2) :
      Rule safety (.object as) (.map t) (.covering (Ty.map t).stripped (.gather cs e))
  | tuple {ss ts : List Ty} {cs : List Conversion} (arity : ss.length = ts.length)
      (length : ss.length = cs.length)
      (each : ∀ (i : Nat) s t c, ss[i]? = some s → ts[i]? = some t → cs[i]? = some c →
        between? s t safety = some c) :
      Rule safety (.tuple ss) (.tuple ts) (.covering (Ty.tuple ts).stripped (.tuple cs))
  /-- What the source lacks has to be optional, and is left open. -/
  | object {as bs : List (Attribute Ty)} {slots : List (Slot Conversion)}
      (known : ∀ a ∈ as, Named.contains a.name bs = true) (targets : slots.map (·.target) = bs)
      (found : ∀ slot ∈ slots, ∀ a, Named.find? slot.target.name as = some a →
        between? a.type slot.target.type safety = some slot.conversion)
      (missing : ∀ slot ∈ slots, Named.find? slot.target.name as = none →
        slot.target.optional = true ∧ slot.conversion = .deferred slot.target.type) :
      Rule safety (.object as) (.object bs) (.covering (Ty.object bs).stripped (.object slots))
  | select {s : Ty} {bs : List (Attribute Ty)} {slots : List (Slot Conversion)}
      (permitted : safety = .risky) (targets : slots.map (·.target) = bs)
      (each : ∀ slot ∈ slots, between? s slot.target.type safety = some slot.conversion) :
      Rule safety (.map s) (.object bs) (.covering (Ty.object bs).stripped (.select slots))

/-- **Inversion.** A conversion that is found is found under one of the rules. -/
theorem rule_of_between? {source target : Ty} {safety : Safety} {c : Conversion}
    (h : between? source target safety = some c) : Rule safety source target c := by
  rw [between?.eq_def] at h
  obtain ⟨inner, hinner, rfl⟩ := Option.map_eq_some_iff.mp h
  split at hinner
  · rename_i hsame
    cases hinner
    subst hsame
    by_cases hdyn : source = .dynamic
    · subst hdyn
      exact .pass
    · simpa [covered, hdyn] using Rule.same hdyn
  · split at hinner
    · cases hinner
      simpa [covered, Ty.isDynamic] using Rule.pass
    · rename_i hdyn
      cases hinner
      have hrule : Rule safety .dynamic target (.deferred target) := .later hdyn
      simpa [covered, Ty.isDynamic] using hrule
    · -- plain data
      split at hinner
      · rename_i permitted
        cases hinner
        exact .primitive permitted
      · cases hinner
    · -- a list or set, into a list or set
      split at hinner
      · rename_i permitted
        obtain ⟨c, hc, rfl⟩ := Option.map_eq_some_iff.mp hinner
        exact .sequence permitted hc
      · cases hinner
    · -- a tuple, into a list or set
      split at hinner
      · rename_i permitted
        obtain ⟨e, he, hinner⟩ := Option.bind_eq_some_iff.mp hinner
        obtain ⟨cs, hcs, rfl⟩ := Option.map_eq_some_iff.mp hinner
        obtain ⟨length, each⟩ := forall₂_iff_getElem?.mp (mapM_eq_some_iff.mp hcs)
        exact .positions permitted (elects_of_eq he) length each
      · cases hinner
    · -- a map, into a map
      obtain ⟨c, hc, rfl⟩ := Option.map_eq_some_iff.mp hinner
      exact .map hc
    · -- an object, into a map
      obtain ⟨e, he, hinner⟩ := Option.bind_eq_some_iff.mp hinner
      obtain ⟨cs, hcs, rfl⟩ := Option.map_eq_some_iff.mp hinner
      obtain ⟨length, each⟩ := forall₂_iff_getElem?.mp (mapM_eq_some_iff.mp hcs)
      refine .gather (elects_of_eq (by simpa using he)) ?_ fun i a c ha hc => ?_
      · refine map_eq_map_of_getElem? length fun i a c ha hc => ?_
        obtain ⟨c, -, rfl⟩ := Option.map_eq_some_iff.mp (each i a c ha hc)
        rfl
      · obtain ⟨c, hfound, rfl⟩ := Option.map_eq_some_iff.mp (each i a c ha hc)
        exact hfound
    · -- a tuple, into a tuple
      split at hinner
      · rename_i arity
        obtain ⟨cs, hcs, rfl⟩ := Option.map_eq_some_iff.mp hinner
        simp only [List.mapM_subtype, List.unattach_attach] at hcs
        obtain ⟨length, each⟩ := forall₂_iff_getElem?.mp (mapM_eq_some_iff.mp hcs)
        refine .tuple arity (by simpa [arity] using length) fun i s t c hs ht hc => ?_
        exact each i (s, t) c (List.getElem?_zip_eq_some.mpr ⟨hs, ht⟩) hc
      · cases hinner
    · -- an object, into an object
      split at hinner
      · rename_i known
        obtain ⟨slots, hslots, rfl⟩ := Option.map_eq_some_iff.mp hinner
        obtain ⟨targets, each⟩ := slots_of_mapM hslots fun b slot hb => by
          split at hb
          · obtain ⟨c, -, rfl⟩ := Option.map_eq_some_iff.mp hb
            rfl
          · split at hb <;> cases hb
            rfl
        refine .object (by simpa using known) targets (fun slot hslot a ha => ?_)
          fun slot hslot hnone => ?_
        · have hfound := each slot hslot
          split at hfound
          · rename_i a' ha'
            obtain rfl : a = a' := Option.some.inj (ha.symm.trans ha')
            obtain ⟨c, hc, hslot'⟩ := Option.map_eq_some_iff.mp hfound
            rw [← hslot']
            exact hc
          · rename_i hnone
            rw [ha] at hnone
            cases hnone
        · have hfound := each slot hslot
          split at hfound
          · rename_i a ha
            rw [hnone] at ha
            cases ha
          · split at hfound
            · rename_i optional
              refine ⟨optional, ?_⟩
              rw [← Option.some.inj hfound]
            · cases hfound
      · cases hinner
    · -- a map, into an object
      split at hinner
      · rename_i permitted
        obtain ⟨slots, hslots, rfl⟩ := Option.map_eq_some_iff.mp hinner
        obtain ⟨targets, each⟩ := slots_of_mapM hslots fun b slot hb => by
          obtain ⟨c, -, rfl⟩ := Option.map_eq_some_iff.mp hb
          rfl
        refine .select permitted targets fun slot hslot => ?_
        obtain ⟨c, hc, hslot'⟩ := Option.map_eq_some_iff.mp (each slot hslot)
        rw [← hslot']
        exact hc
      · cases hinner
    · cases hinner

/-! ### The whole plan -/

/-- **Inversion.** A plan that is found is made under one of the rules, and so are its parts. -/
theorem plan_of_between? {source target : Ty} {safety : Safety} {c : Conversion}
    (h : between? source target safety = some c) : Plan safety source target c := by
  induction hn : source.depth using Nat.strongRecOn generalizing source target c with
  | ind n ih =>
    subst hn
    have ih : ∀ {p : Ty}, p ∈ source.parts → ∀ {t : Ty} {c : Conversion},
        between? p t safety = some c → Plan safety p t c :=
      fun hp _ _ h => ih _ (Ty.depth_lt_of_mem_parts hp) h rfl
    cases rule_of_between? h with
    | same solid => exact .same solid
    | pass => exact .pass
    | later solid => exact .later solid
    | primitive permitted => exact .primitive permitted
    | sequence permitted element => exact .sequence permitted (ih List.mem_cons_self element)
    | positions permitted elects length each =>
      exact .positions permitted elects length fun i s c hs hc =>
        ih (List.mem_of_getElem? hs) (each i s c hs hc)
    | map element => exact .map (ih List.mem_cons_self element)
    | gather elects names each =>
      exact .gather elects names fun i a c ha hc =>
        ih (List.mem_map_of_mem (List.mem_of_getElem? ha)) (each i a c ha hc)
    | tuple arity length each =>
      exact .tuple arity length fun i s t c hs ht hc =>
        ih (List.mem_of_getElem? hs) (each i s t c hs ht hc)
    | object known targets found missing =>
      exact .object known targets
        (fun slot hslot a ha =>
          ih (List.mem_map_of_mem (Named.mem_of_find? ha).1) (found slot hslot a ha))
        fun slot hslot hnone => (missing slot hslot hnone).1
    | select permitted targets each =>
      exact .select permitted targets fun slot hslot => ih List.mem_cons_self (each slot hslot)

end Conversion

end Retype
