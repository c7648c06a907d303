import Retype.Convert
import Retype.Proofs.OrderIndependence

/-!
# Leave to take risks only adds conversions

Where there is a safe conversion there is one with leave to take risks (`Converts.risky`), and to a
target without placeholders it is the same plan (`between?_risky_of_safe`).

The two are looked for in the same way, but for one point: the parts of a tuple or an object that
go to a placeholder have a common type first, and with leave to take risks that may be another one.
So the first statement goes together with one about common types: types that have a safe common
type have one with leave to take risks (`isSome_unify?_risky`). Their blueprint is the same, because
only types without a safe common type are treated differently (`of_risky_eq`); what is built needs
no check, and what may be chosen safely may be chosen.
-/

namespace Retype

theorem Primitive.convertible_risky {p q : Primitive} (h : convertible .safe p q = true) :
    convertible .risky p q = true := by
  revert h
  cases p <;> cases q <;> decide

namespace Blueprint

/-- Types that come together safely come together in the same way at a risk. -/
theorem of_risky_eq {types : List Ty} (hne : types ≠ []) (h : of types .safe ≠ .clash) :
    of types .risky = of types .safe := by
  refine of_eq_of_outline hne ?_
  generalize hof : of types .safe = b at h
  have outline : Outline types .safe b := hof ▸ outline_of hne
  cases outline with
  | map some all => exact .map some all
  | list some all => exact .list some all
  | set all => exact .set all
  | object all => exact .object all
  | tuple all => exact .tuple all
  | choose maps lists mixed uncrossed => exact .choose maps lists mixed uncrossed
  | unlikeObjects | unlikeTuples | crossed => exact absurd rfl h

end Blueprint

namespace Ty

/-- A frame that can be filled can be filled with as many other parts. -/
theorem isSome_fill?_of_length {frame : Frame} {us us' : List Ty} (hlen : us.length = us'.length)
    (h : (frame.fill? us).isSome = true) : (frame.fill? us').isSome = true := by
  have rel : Option.Rel (fun _ _ => True) (frame.fill? us) (frame.fill? us') :=
    congruence_true.fill? frame (forall₂_iff_getElem?.mpr ⟨hlen, fun _ _ _ _ _ => trivial⟩)
  rwa [← (rel_iff.mp rel).1]

/-- Types of which the groups have common types have one, if it is to be built. -/
theorem isSome_merge?_of_build {types : List Ty} {frame : Frame} {groups : List (List Ty)}
    (lawful : ∀ t ∈ types, t.Lawful) (hsafe : Blueprint.of types .safe = .build frame groups)
    (hrisky : Blueprint.of types .risky = .build frame groups)
    (each : ∀ group ∈ groups, (unify? group .safe).isSome = true →
      (unify? group .risky).isSome = true)
    (h : (merge? types .safe).isSome = true) : (merge? types .risky).isSome = true := by
  rw [merge?_of_build hsafe lawful] at h
  obtain ⟨u, hu⟩ := Option.isSome_iff_exists.mp h
  obtain ⟨us, hus, hfill⟩ := Option.bind_eq_some_iff.mp hu
  have hgroups : (groups.mapM fun group => unify? group .risky).isSome = true := by
    rw [isSome_mapM]
    have hsome := isSome_mapM.mp (Option.isSome_of_eq_some hus)
    exact fun group hg => each group hg (hsome group hg)
  obtain ⟨us', hus'⟩ := Option.isSome_iff_exists.mp hgroups
  have hlen : us.length = us'.length :=
    (mapM_eq_some_iff.mp hus).length_eq.symm.trans (mapM_eq_some_iff.mp hus').length_eq
  rw [merge?_of_build hrisky lawful, hus']
  exact isSome_fill?_of_length hlen (Option.isSome_of_eq_some hfill)

/-- **Common types.** Types with a safe common type have one with leave to take risks, provided
that no conversion from types of their depth is lost. -/
theorem isSome_unify?_risky {n : Nat} {ts : List Ty} (lawful : ∀ t ∈ ts, t.Lawful)
    (risky : ∀ s : Ty, s.depth ≤ n → s.Lawful → ∀ t, Converts .safe s t → Converts .risky s t)
    (hn : depthAll ts ≤ n) (h : (unify? ts .safe).isSome = true) :
    (unify? ts .risky).isSome = true := by
  induction hm : depthAll ts using Nat.strongRecOn generalizing ts with
  | ind m ih =>
    subst hm
    by_cases apart : Apart (concrete ts)
    · have lawful' : ∀ t ∈ concrete ts, t.Lawful := fun t ht => lawful t (mem_concrete.mp ht).1
      rw [unify?_of_apart apart] at h ⊢
      cases hof : Blueprint.of (concrete ts) .safe with
      | clash =>
        rw [merge?_of_clash hof] at h
        cases h
      | choose =>
        have hof' : Blueprint.of (concrete ts) .risky = .choose := by
          rw [Blueprint.of_risky_eq apart.ne_nil (by simp [hof]), hof]
        rw [merge?_of_choose hof, List.find?_isSome] at h
        rw [merge?_of_choose hof', List.find?_isSome]
        obtain ⟨u, hu, hjoined⟩ := h
        refine ⟨u, hu, joinedBy_iff.mpr fun t ht => ?_⟩
        have hdepth : t.depth ≤ n := Nat.le_trans (depth_le_depthAll (mem_concrete.mp ht).1) hn
        have converts : Converts .safe t u := .of_joins (joinedBy_iff.mp hjoined t ht)
        exact joins_iff.mpr (.inr ⟨risky t hdepth (lawful' t ht) u converts, .inl rfl⟩)
      | build frame groups =>
        have hof' : Blueprint.of (concrete ts) .risky = .build frame groups := by
          rw [Blueprint.of_risky_eq apart.ne_nil (by simp [hof]), hof]
        refine isSome_merge?_of_build lawful' hof hof' (fun group hg hgroup => ?_) h
        have hlt := depthAll_lt_of_group hof hg
        exact ih _ hlt (lawful_of_group hof hg lawful') (by omega) hgroup rfl
    · have hne : ts ≠ [] := by
        rintro rfl
        rw [unify?_nil] at h
        cases h
      obtain ⟨u, hu⟩ := exists_unify?_of_not_apart hne apart
      rw [hu ts (.refl ts)]
      rfl

/-- The type that parts are converted to may be another at a risk, but there is one. -/
theorem exists_elects_risky {parts : List Ty} {t e : Ty} (lawful : ∀ p ∈ parts, p.Lawful)
    (risky : ∀ s : Ty, s.depth ≤ depthAll parts → s.Lawful → ∀ t, Converts .safe s t →
      Converts .risky s t)
    (elects : Conversion.Elects .safe parts t e) (each : ∀ p ∈ parts, Converts .safe p e) :
    ∃ e', Conversion.Elects .risky parts t e' ∧ ∀ p ∈ parts, Converts .risky p e' := by
  cases elects with
  | declared settled =>
    refine ⟨t, .declared settled, fun p hp => ?_⟩
    exact risky p (depth_le_depthAll hp) (lawful p hp) t (each p hp)
  | common nonempty unified =>
    obtain ⟨u, hu⟩ := Option.isSome_iff_exists.mp
      (isSome_unify?_risky lawful risky (Nat.le_refl _) (Option.isSome_of_eq_some unified))
    exact ⟨u, .common nonempty hu, fun p hp => (common_of_unify? hu).converts hp⟩

/-- **Existence.** What converts safely converts with leave to take risks. -/
theorem Converts.risky {s t : Ty} (hs : s.Lawful) (h : Converts .safe s t) :
    Converts .risky s t := by
  induction hn : s.depth using Nat.strongRecOn generalizing s t with
  | ind n ih =>
    subst hn
    have below : ∀ p : Ty, p.depth < s.depth → p.Lawful → ∀ t, Converts .safe p t →
        Converts .risky p t := fun p hp hlawful t hpt => ih _ hp hlawful hpt rfl
    have part : ∀ p ∈ s.parts, ∀ t, Converts .safe p t → Converts .risky p t := fun p hp =>
      below p (depth_lt_of_mem_parts hp) (Throughout.part hs hp)
    obtain ⟨c, plan⟩ := h.plan
    cases plan with
    | same => exact converts_refl _
    | pass => exact converts_dynamic _
    | later => exact dynamic_converts _
    | primitive permitted => exact .primitive (Primitive.convertible_risky permitted)
    | sequence permitted element =>
      refine .sequence (by simp [SequenceKind.convertible]) ?_
      exact part _ (by simp [parts]) _ (converts_of_plan element)
    | map element => exact .map (part _ (by simp [parts]) _ (converts_of_plan element))
    | @positions l ss t e cs permitted elects length each =>
      have each : ∀ s ∈ ss, Converts .safe s e := fun s hs => by
        obtain ⟨i, hi⟩ := List.getElem?_of_mem hs
        obtain ⟨c, hc⟩ := exists_getElem?_of_length length.symm hi
        exact converts_of_plan (each i s c hi hc)
      have lawful : ∀ p ∈ ss, p.Lawful := fun p hp => Throughout.part hs hp
      obtain ⟨e', elects', each'⟩ := exists_elects_risky lawful
        (fun p hp => below p (by simp only [depth]; omega)) elects each
      exact .positions (by simp [SequenceKind.convertible]) elects' each'
    | @gather as t e cs elects names each =>
      have each : ∀ p ∈ as.map (·.type), Converts .safe p e := fun p hp => by
        obtain ⟨a, ha, rfl⟩ := List.mem_map.mp hp
        obtain ⟨i, hi⟩ := List.getElem?_of_mem ha
        obtain ⟨c, hc, -⟩ := Named.exists_getElem? names.symm hi
        exact converts_of_plan (each i a c hi hc)
      have lawful : ∀ p ∈ as.map (·.type), p.Lawful := fun p hp => Throughout.part hs hp
      obtain ⟨e', elects', each'⟩ := exists_elects_risky lawful
        (fun p hp => below p (by simp only [depth, depthAttributes_eq]; omega)) elects each
      exact .gather elects' fun a ha => each' a.type (List.mem_map_of_mem ha)
    | tuple arity =>
      obtain ⟨-, each⟩ := converts_tuple_iff.mp h
      exact .tuple arity fun i s t hs ht =>
        part s (List.mem_of_getElem? hs) t (each i s t hs ht)
    | object known =>
      obtain ⟨-, found, missing⟩ := (converts_object_iff (Lawful.ascending hs)).mp h
      refine .object known (fun b hb a ha => ?_) missing
      exact part a.type (List.mem_map_of_mem (Named.mem_of_find? ha).1) b.type (found b hb a ha)
    | select permitted => cases permitted

end Ty

/-! ### The same plan -/

namespace Conversion

/-- A step that keeps the results of another on each member keeps those for the list. -/
theorem mapM_eq_some_of_imp {α β : Type} {f g : α → Option β} {as : List α} {bs : List β}
    (himp : ∀ a ∈ as, ∀ b, f a = some b → g a = some b) (h : as.mapM f = some bs) :
    as.mapM g = some bs :=
  mapM_eq_some_iff.mpr (forall₂_of_mem (mapM_eq_some_iff.mp h) fun a ha b _ => himp a ha b)

/-- Parts that go to an element type without placeholders are converted to that type. -/
theorem elected_of_solid {t : Ty} (solid : t.hasDynamic = false) (nonempty : Bool)
    (common : Option Ty) : (if t.isDynamic && nonempty then common else some t) = some t := by
  have ht : t.isDynamic = false := by
    rw [Bool.eq_false_iff, Ne, Ty.isDynamic_iff]
    exact (Ty.hasDynamic_eq_false_iff.mp solid).1
  rw [ht, Bool.false_and, if_neg Bool.false_ne_true]

/-- **Same plan.** To a target without placeholders, a safe plan is the plan that is made with leave
to take risks. -/
theorem between?_risky_of_safe {source target : Ty} {c : Conversion}
    (solid : target.hasDynamic = false) (h : between? source target .safe = some c) :
    between? source target .risky = some c := by
  induction hn : source.depth using Nat.strongRecOn generalizing source target c with
  | ind n ih =>
    subst hn
    have ih : ∀ {p : Ty}, p ∈ source.parts → ∀ {t : Ty} {c : Conversion}, t.hasDynamic = false →
        between? p t .safe = some c → between? p t .risky = some c :=
      fun hp _ _ solid h => ih _ (Ty.depth_lt_of_mem_parts hp) solid h rfl
    have parts := (Ty.hasDynamic_eq_false_iff.mp solid).2
    rw [between?.eq_def] at h ⊢
    obtain ⟨inner, hinner, rfl⟩ := Option.map_eq_some_iff.mp h
    refine Option.map_eq_some_iff.mpr ⟨inner, ?_, rfl⟩
    split at hinner
    · rename_i hsame
      rwa [if_pos hsame]
    · rename_i hne
      rw [if_neg hne]
      split at hinner
      · cases solid
      · -- a placeholder is converted later, whatever may be risked
        cases target with
        | dynamic => cases solid
        | _ => exact hinner
      · -- plain data
        split at hinner
        · rename_i permitted
          rwa [if_pos (Primitive.convertible_risky permitted)]
        · cases hinner
      · -- a list or set, into a list or set
        split at hinner
        · obtain ⟨c, hc, rfl⟩ := Option.map_eq_some_iff.mp hinner
          rw [if_pos (by simp [SequenceKind.convertible])]
          have element := parts _ List.mem_cons_self
          exact Option.map_eq_some_iff.mpr ⟨c, ih List.mem_cons_self element hc, rfl⟩
        · cases hinner
      · -- a tuple, into a list or set
        split at hinner
        · have element := parts _ List.mem_cons_self
          rw [elected_of_solid element, Option.bind_some] at hinner
          obtain ⟨cs, hcs, rfl⟩ := Option.map_eq_some_iff.mp hinner
          rw [if_pos (by simp [SequenceKind.convertible]), elected_of_solid element,
            Option.bind_some]
          exact Option.map_eq_some_iff.mpr
            ⟨cs, mapM_eq_some_of_imp (fun s hs c hc => ih hs element hc) hcs, rfl⟩
        · cases hinner
      · -- a map, into a map
        obtain ⟨c, hc, rfl⟩ := Option.map_eq_some_iff.mp hinner
        have element := parts _ List.mem_cons_self
        exact Option.map_eq_some_iff.mpr ⟨c, ih List.mem_cons_self element hc, rfl⟩
      · -- an object, into a map
        have element := parts _ List.mem_cons_self
        rw [elected_of_solid element, Option.bind_some] at hinner
        obtain ⟨cs, hcs, rfl⟩ := Option.map_eq_some_iff.mp hinner
        rw [elected_of_solid element, Option.bind_some]
        refine Option.map_eq_some_iff.mpr
          ⟨cs, mapM_eq_some_of_imp (fun a ha part hpart => ?_) hcs, rfl⟩
        obtain ⟨c, hc, rfl⟩ := Option.map_eq_some_iff.mp hpart
        exact Option.map_eq_some_iff.mpr ⟨c, ih (List.mem_map_of_mem ha) element hc, rfl⟩
      · -- a tuple, into a tuple
        split at hinner
        · rename_i arity
          obtain ⟨cs, hcs, rfl⟩ := Option.map_eq_some_iff.mp hinner
          rw [if_pos arity]
          refine Option.map_eq_some_iff.mpr
            ⟨cs, mapM_eq_some_of_imp (fun p _ c hc => ?_) hcs, rfl⟩
          obtain ⟨hs, ht⟩ := List.of_mem_zip p.2
          exact ih hs (parts _ ht) hc
        · cases hinner
      · -- an object, into an object
        split at hinner
        · rename_i known
          obtain ⟨slots, hslots, rfl⟩ := Option.map_eq_some_iff.mp hinner
          rw [if_pos known]
          refine Option.map_eq_some_iff.mpr
            ⟨slots, mapM_eq_some_of_imp (fun b hb slot hslot => ?_) hslots, rfl⟩
          split at hslot
          · rename_i a ha
            obtain ⟨c, hc, rfl⟩ := Option.map_eq_some_iff.mp hslot
            have hmem := (Named.mem_of_find? ha).1
            exact Option.map_eq_some_iff.mpr
              ⟨c, ih (List.mem_map_of_mem hmem) (parts _ (List.mem_map_of_mem hb)) hc, rfl⟩
          · exact hslot
        · cases hinner
      · -- a map, into an object: never safe
        cases hinner
      · cases hinner

end Conversion

/-- **Risks only add conversions.** Where there is a safe conversion there is one with leave to take
risks, and to a target without placeholders the two give the same result, be it a value or a fault,
on every value. -/
theorem risk_only_adds {source target : Ty} {c : Conversion} (hs : source.Lawful)
    (h : Conversion.between? source target .safe = some c) :
    ∃ c', Conversion.between? source target .risky = some c' ∧
      (target.hasDynamic = false → ∀ v : Value, c'.apply v = c.apply v) := by
  have safe : Ty.Converts .safe source target := Option.isSome_of_eq_some h
  obtain ⟨c', hc'⟩ := Option.isSome_iff_exists.mp (safe.risky hs)
  refine ⟨c', hc', fun solid v => ?_⟩
  rw [Conversion.between?_risky_of_safe solid h] at hc'
  rw [Option.some.inj hc']

/-- An object with a set and a tuple, into a map of lists: the results are the same also on a text,
which is no object. -/
theorem risk_only_adds_object_to_map :
    let source : Ty := .object [⟨"a", false, .set .number⟩, ⟨"b", false, .tuple [.bool]⟩]
    let target : Ty := .map (.list .string)
    let written : Conversion := .covering .string (.primitive .string)
    let c : Conversion := .covering target (.gather
      [("a", .covering (.list .string) (.eachItem .list written .string)),
        ("b", .covering (.list .string) (.positions .list [written] .string))] (.list .string))
    source.Lawful ∧ Conversion.between? source target .safe = some c ∧
      ∃ c', Conversion.between? source target .risky = some c' ∧
        c'.apply (.string "x") = c.apply (.string "x") ∧
        c.apply (.string "x") =
          .error (.of (.inconsistent (.wrongShape .object .string))) := by
  intro source target written c
  have h : Conversion.between? source target .safe = some c := by cbv
  obtain ⟨c', hc', hsame⟩ := risk_only_adds (by decide) h
  exact ⟨by decide, h, c', hc', hsame (by decide) _, rfl⟩

end Retype
