import Retype.Proofs.Conversion.Faults
import Retype.Proofs.OrderIndependence

/-!
# Widening towards text

Types that are brought together at a risk have a common type in which primitives become text. A
text itself stays one, at every depth, except where sets meet lists or tuples: there one of the
types is chosen as it stands, by what kind of collection it is, and what it has inside may be a
number where another of the types has a text.

`Ty.Together` lists the groups of types that are brought together on the way to a common type: the
types themselves and, where the common type is built, the groups of parts that it is built from.
`touches_choice` says that a text that cannot be read is met only below a type that was chosen
from a group in which sets meet lists or tuples (`Ty.Chosen`). Of different primitives text is
chosen (`merge?_of_string`), and no other mix of kinds has a common type.
-/

namespace Retype

namespace Ty

variable {ts types : List Ty} {s t u : Ty}

/-- The groups of types that are brought together on the way to a common type. -/
inductive Together (safety : Safety) (ts : List Ty) : List Ty → Prop
  | whole : Together safety ts ts
  | part {types group : List Ty} {frame : Frame} {groups : List (List Ty)}
      (outer : Together safety ts types) (apart : Apart types)
      (builds : Blueprint.of types safety = .build frame groups) (mem : group ∈ groups) :
      Together safety ts group

/-- There are sets among the types, and lists or tuples as well. -/
def SetsMeetLists (types : List Ty) : Prop :=
  (∃ t ∈ types, t.isSet = true) ∧ ∃ t ∈ types, t.isList = true ∨ t.isTuple = true

/-- The type and another that is chosen for it are brought together in a group where sets meet
lists or tuples. -/
def Chosen (ts : List Ty) (s u : Ty) : Prop :=
  ∃ group, Together .risky ts group ∧ s ∈ group ∧ u ∈ group ∧
    unify? group .risky = some u ∧ SetsMeetLists group

/-! ### Choices -/

/-- **Text first.** Of primitives among which there is text, text is chosen. -/
theorem merge?_of_string (h : Blueprint.of types .risky = .choose) (mem : Ty.string ∈ types)
    (all : ∀ t ∈ types, ∃ p, t = .primitive p) : merge? types .risky = some .string := by
  refine merge?_of_leads h mem (joinedBy_iff.mpr fun t ht => ?_) (.first ?_ fun v hv _ _ hne => ?_)
  · obtain ⟨p, rfl⟩ := all t ht
    exact joins_iff.mpr (.inr ⟨.primitive (by simp [Primitive.convertible]), .inl rfl⟩)
  · -- nothing is more general than text
    refine .intro _ fun t below => ?_
    obtain ⟨ht, hlt⟩ := below
    obtain ⟨p, rfl⟩ := all t ht
    cases p <;> simp [Preference.compare, Preference.comparePrimitive] at hlt
  · obtain ⟨p, rfl⟩ := all v hv
    refine .single ⟨mem, ?_⟩
    cases p with
    | string => exact absurd rfl hne
    | number | bool => rfl

/-- What converts to a list or set is a list, a set or a tuple. -/
theorem Converts.into_sequence {k : SequenceKind} {e : Ty} (h : Converts .risky t (.sequence k e))
    (solid : t ≠ .dynamic) : t.isSet = true ∨ t.isList = true ∨ t.isTuple = true := by
  obtain ⟨c, plan⟩ := h.plan
  cases plan with
  | same => cases k <;> simp [isSet, isList]
  | later => exact absurd rfl solid
  | @sequence k => cases k <;> simp [isSet, isList]
  | positions => simp [isTuple]

/-- What converts to a map or an object is a map or an object. -/
theorem Converts.into_mapping (h : Converts .risky t u) (solid : t ≠ .dynamic)
    (hu : u.isMap = true ∨ u.isObject = true) : t.isMap = true ∨ t.isObject = true := by
  obtain ⟨c, plan⟩ := h.plan
  cases plan with
  | same => exact hu
  | later => exact absurd rfl solid
  | map | select => exact .inl rfl
  | gather | object => exact .inr rfl
  | _ => simp [isMap, isObject] at hu

/-- Types that leave a choice, and of which one is converted to by all, are primitives, or sets
with lists or tuples. -/
theorem primitive_or_setsMeetLists (apart : Apart types) (h : Blueprint.of types .risky = .choose)
    (mem : u ∈ types) (solid : ∀ t ∈ types, t ≠ .dynamic)
    (converts : ∀ t ∈ types, Converts .risky t u) :
    (∀ t ∈ types, ∃ p, t = .primitive p) ∨ SetsMeetLists types := by
  obtain ⟨maps, lists, mixed⟩ := Blueprint.kinds_of_choose apart.ne_nil h
  have mapping (hu : u.isMap = true ∨ u.isObject = true) : False := by
    have all : ∀ t ∈ types, t.isMap = true ∨ t.isObject = true := fun t ht =>
      (converts t ht).into_mapping (solid t ht) hu
    by_cases some : ∃ t ∈ types, t.isMap = true
    · obtain ⟨t, ht, hmap, hobject⟩ := maps some
      simpa [hmap, hobject] using all t ht
    · obtain ⟨t, ht, hobject⟩ := mixed isObject (by simp)
      exact some ⟨t, ht, (all t ht).resolve_right (by simp [hobject])⟩
  cases u with
  | primitive q =>
    refine .inl fun t ht => ?_
    obtain ⟨c, plan⟩ := (converts t ht).plan
    cases plan with
    | same => exact ⟨q, rfl⟩
    | later => exact absurd rfl (solid _ ht)
    | @primitive p => exact ⟨p, rfl⟩
  | sequence k e =>
    have all : ∀ t ∈ types, t.isSet = true ∨ t.isList = true ∨ t.isTuple = true := fun t ht =>
      (converts t ht).into_sequence (solid t ht)
    refine .inr ⟨?_, ?_⟩
    · by_cases some : ∃ t ∈ types, t.isList = true
      · obtain ⟨t, ht, hlist, htuple⟩ := lists some
        exact ⟨t, ht, (all t ht).resolve_right (by simp [hlist, htuple])⟩
      · refine ⟨_, mem, ?_⟩
        cases k with
        | list => exact absurd ⟨_, mem, rfl⟩ some
        | set => rfl
    · obtain ⟨t, ht, hset⟩ := mixed isSet (by simp)
      exact ⟨t, ht, (all t ht).resolve_left (by simp [hset])⟩
  | map e => exact (mapping (.inl rfl)).elim
  | object as => exact (mapping (.inr rfl)).elim
  | tuple us =>
    obtain ⟨t, ht, htuple⟩ := mixed isTuple (by simp)
    obtain ⟨c, plan⟩ := (converts t ht).plan
    cases plan with
    | later => exact absurd rfl (solid _ ht)
    | _ => cases htuple
  | capsule n =>
    obtain ⟨s, hs, t, ht, hne⟩ := apart
    have single : ∀ t ∈ types, t = .capsule n := by
      intro t ht
      obtain ⟨c, plan⟩ := (converts t ht).plan
      cases plan with
      | same => rfl
      | later => exact absurd rfl (solid _ ht)
    exact absurd ((single s hs).trans (single t ht).symm) hne
  | dynamic => exact absurd rfl (solid _ mem)

end Ty

namespace Conversion

open Ty

variable {L R : Ty → Ty → Value → Prop} {cause : Cause}

/-! ### Along the way to a common type -/

/-- A type that is kept as it is has no text to read. -/
theorem not_touches_literal {q : Primitive} {text : String} {s t : Ty} {v : Value}
    (h : Touches (Raises (.invalidLiteral q text)) s t v) (ht : t.Lawful) : s ≠ t := by
  unfold Lawful at ht
  induction h with
  | here holds =>
    cases holds with
    | literal other => exact fun heq => other (by simpa using heq.symm)
  | sequence _ _ ih =>
    intro heq
    cases heq
    exact ih (throughout_sequence.mp ht).2 rfl
  | map _ _ ih =>
    intro heq
    cases heq
    exact ih (throughout_map.mp ht).2 rfl
  | positions | gather | select => exact fun heq => by cases heq
  | @tuple ss ts s t items v i source target _ _ ih =>
    intro heq
    cases heq
    exact ih ((throughout_tuple.mp ht).2 t (List.mem_of_getElem? target))
      (Option.some.inj (source.symm.trans target))
  | @object as bs a b attributes x target source _ _ ih =>
    intro heq
    cases heq
    obtain ⟨i, hi⟩ := List.getElem?_of_mem target
    have hfind : Named.find? b.name as = some b := Named.find?_of_getElem? (Lawful.ascending ht) hi
    exact ih ((throughout_object.mp ht).2 b target)
      (congrArg Attribute.type (Option.some.inj (source.symm.trans hfind)))

/-- **Step.** What is touched on the way to a type that is built is touched on the way from a part
to the common type of its group. -/
theorem touches_of_builds {safety : Safety} {types : List Ty} {frame : Frame}
    {groups : List (List Ty)} {us : List Ty} {s u : Ty} {v : Value}
    (h : Blueprint.Builds types frame groups)
    (hus : List.Forall₂ (fun group u => unify? group safety = some u) groups us)
    (hfill : frame.fill? us = some u) (hs : s ∈ types)
    (leaf : ∀ s t v, L s t v → ∃ k, s = .primitive k)
    (part : ∀ group ∈ groups, ∀ p ∈ group, ∀ e, unify? group safety = some e →
      ∀ v, Touches L p e v → Touches R p e v)
    (touches : Touches L s u v) : Touches R s u v := by
  cases h with
  | gather gathers =>
    obtain ⟨e, rest, he, hnil, rfl⟩ := List.forall₂_cons_left_iff.mp hus
    rw [List.forall₂_nil_left_iff] at hnil
    subst hnil
    have inside : ∀ p ∈ s.parts, ∀ v, Touches L p e v → Touches R p e v := fun p hp =>
      part _ (by simp) p (List.mem_flatMap.mpr ⟨s, hs, hp⟩) e he
    cases gathers with
    | map all =>
      cases hfill
      have kind := all s hs
      cases touches with
      | here holds =>
        obtain ⟨k, rfl⟩ := leaf _ _ _ holds
        simp [isMap, isObject] at kind
      | map entry below => exact .map entry (inside _ (by simp [parts]) _ below)
      | gather source field below =>
        exact .gather source field
          (inside _ (List.mem_map_of_mem (List.mem_of_getElem? source)) _ below)
    | list all =>
      cases hfill
      have kind := all s hs
      cases touches with
      | here holds =>
        obtain ⟨k, rfl⟩ := leaf _ _ _ holds
        simp [isList, isTuple] at kind
      | sequence item below => exact .sequence item (inside _ (by simp [parts]) _ below)
      | positions source item below =>
        exact .positions source item (inside _ (List.mem_of_getElem? source) _ below)
    | set all =>
      cases hfill
      have kind := all s hs
      cases touches with
      | here holds =>
        obtain ⟨k, rfl⟩ := leaf _ _ _ holds
        cases kind
      | sequence item below => exact .sequence item (inside _ (by simp [parts]) _ below)
      | positions => cases kind
  | @object names all =>
    cases hfill
    obtain ⟨as, has, hnames⟩ := Option.map_eq_some_iff.mp (all s hs)
    cases s with
    | object =>
      cases has
      rw [List.forall₂_map_left_iff, forall₂_iff_getElem?] at hus
      cases touches with
      | here holds =>
        obtain ⟨k, hk⟩ := leaf _ _ _ holds
        cases hk
      | @object _ _ a b attributes x target source field below =>
        obtain ⟨f, hf, rfl⟩ := List.mem_map.mp target
        obtain ⟨i, hi⟩ := List.getElem?_of_mem hf
        obtain ⟨hname, hu⟩ := List.getElem?_zip_eq_some.mp hi
        have hfind : attributeType? f.1 (.object as) = some a.type := by
          rw [attributeType?, source]
          rfl
        refine .object target source field ?_
        exact part _ (List.mem_map_of_mem (List.mem_of_getElem? hname)) a.type
          (List.mem_filterMap.mpr ⟨_, hs, hfind⟩) f.2 (hus.2 i f.1 f.2 hname hu) x.2 below
    | _ => cases has
  | @tuple n all =>
    cases hfill
    obtain ⟨ss, hss, hlen⟩ := Option.map_eq_some_iff.mp (all s hs)
    cases s with
    | tuple =>
      cases hss
      rw [List.forall₂_map_left_iff, forall₂_iff_getElem?, List.length_range] at hus
      cases touches with
      | here holds =>
        obtain ⟨k, hk⟩ := leaf _ _ _ holds
        cases hk
      | @tuple _ _ s t items v i source target item below =>
        have hi : i < n := hus.1 ▸ (List.getElem?_eq_some_iff.mp target).1
        have hrange := List.getElem?_range hi
        refine .tuple source target item ?_
        exact part _ (List.mem_map_of_mem (List.mem_of_getElem? hrange)) s
          (List.mem_filterMap.mpr ⟨_, hs, source⟩) t (hus.2 i i t hrange target) v below
    | _ => cases hss

/-- **Run.** Below every text that is read on the way to a common type there is a choice. -/
theorem touches_choice {ts types : List Ty} {s u : Ty} {v : Value} {q : Primitive} {text : String}
    (together : Together .risky ts types) (lawful : ∀ t ∈ types, t.Lawful)
    (solid : ∀ t ∈ types, t.hasDynamic = false) (hu : unify? types .risky = some u) (hs : s ∈ types)
    (h : Touches (Raises (.invalidLiteral q text)) s u v) :
    Touches (fun s u v => Chosen ts s u ∧ Touches (Raises (.invalidLiteral q text)) s u v)
      s u v := by
  induction hn : depthAll types using Nat.strongRecOn generalizing types s u v with
  | ind n ih =>
    subst hn
    have known : ∀ t ∈ types, t ≠ .dynamic := fun t ht =>
      (hasDynamic_eq_false_iff.mp (solid t ht)).1
    have hconc : concrete types = types := concrete_eq_self known
    have hne : s ≠ u := by
      have hlawful : u.Lawful :=
        Throughout.common stable_lawful (common_of_unify? hu) lawful
      exact not_touches_literal h hlawful
    have apart : Apart types := by
      by_contra same
      have all : ∀ t ∈ types, t = s := fun t ht => by_contra fun hts => same ⟨t, ht, s, hs, hts⟩
      exact hne ((common_of_unify? hu).eq_of_forall_eq all).symm
    have hmerge := hu
    rw [unify?_of_apart (hconc.symm ▸ apart), hconc] at hmerge
    cases hof : Blueprint.of types .risky with
    | clash =>
      rw [merge?_of_clash hof] at hmerge
      cases hmerge
    | choose =>
      obtain ⟨mem, joined⟩ := mem_of_merge? hof hmerge
      have converts : ∀ t ∈ types, Converts .risky t u := fun t ht =>
        .of_joins (joinedBy_iff.mp joined t ht)
      rcases primitive_or_setsMeetLists apart hof mem known converts with primitive | meet
      · -- a text is among them, so they become text
        obtain ⟨p, rfl⟩ := primitive s hs
        cases h with
        | here holds =>
          cases holds with
          | literal other =>
            rw [merge?_of_string hof hs primitive] at hmerge
            cases hmerge
            exact absurd rfl other
      · exact .here ⟨⟨types, together, hs, mem, hu, meet⟩, h⟩
    | build frame groups =>
      rw [merge?_of_build hof lawful] at hmerge
      obtain ⟨us, hus, hfill⟩ := Option.bind_eq_some_iff.mp hmerge
      refine touches_of_builds (Blueprint.builds_of_build hof) (mapM_eq_some_iff.mp hus) hfill hs
        (fun s t v holds => ?_) (fun group hg p hp e he v below => ?_) h
      · cases holds with
        | literal => exact ⟨_, rfl⟩
      · refine ih _ ?_ (.part together apart hof hg) (lawful_of_group hof hg lawful)
          (fun p hp => ?_) he hp below rfl
        · exact depthAll_lt_of_group (hconc.symm ▸ hof) hg
        · obtain ⟨t, ht, hpt⟩ := exists_mem_of_group hof hg p hp
          exact (hasDynamic_eq_false_iff.mp (solid t ht)).2 p hpt

/-- The conversion of a type into a common type fails as its plan does. -/
theorem touches_of_unified {ts : List Ty} {u : Ty} {cs : List Conversion} {i : Nat} {s : Ty}
    {c : Conversion} {v : Value} {f : Fault} (solid : ∀ t ∈ ts, t.hasDynamic = false)
    (h : Ty.unifyWithConversions ts .risky = .ok (u, cs)) (hs : ts[i]? = some s)
    (hc : cs[i]? = some c) (hv : v.Inhabits s) (hf : c.apply v = .error f) :
    unify? ts .risky = some u ∧ Touches (Raises f.cause) s u v := by
  obtain ⟨hu, hcs⟩ := unifyWithConversions_eq_ok h
  have hsolid : u.hasDynamic = false := (common_of_unify? hu).solid solid
  refine ⟨hu, ?_⟩
  rcases (forall₂_iff_getElem?.mp hcs).2 i s c hs hc with ⟨-, rfl⟩ | hbetween
  · cases hf
  · exact touches_of_apply (plan_of_between? hbetween) hsolid hv hf

end Conversion

/-- **Widening.** On the way to a common type at a risk, a text that cannot be read as the number
or truth value that is wanted is met only below a type that was chosen from a group where sets
meet lists or tuples. So where they never meet, no conversion into the common type fails for such
a text. -/
theorem literal_only_below_choice {ts : List Ty} {u : Ty} {cs : List Conversion} {i : Nat} {s : Ty}
    {c : Conversion} {v : Value} (lawful : ∀ t ∈ ts, t.Lawful)
    (solid : ∀ t ∈ ts, t.hasDynamic = false)
    (h : Ty.unifyWithConversions ts .risky = .ok (u, cs)) (hs : ts[i]? = some s)
    (hc : cs[i]? = some c) (hv : v.Inhabits s) :
    (∀ f q text, c.apply v = .error f → f.cause = .invalidLiteral q text →
      Conversion.Touches (fun s u v => Ty.Chosen ts s u ∧
        Conversion.Touches (Conversion.Raises (.invalidLiteral q text)) s u v) s u v) ∧
    ((∀ group, Ty.Together .risky ts group → ¬Ty.SetsMeetLists group) →
      ∀ f q text, c.apply v = .error f → f.cause ≠ .invalidLiteral q text) := by
  have below : ∀ f q text, c.apply v = .error f → f.cause = .invalidLiteral q text →
      Conversion.Touches (fun s u v => Ty.Chosen ts s u ∧
        Conversion.Touches (Conversion.Raises (.invalidLiteral q text)) s u v) s u v := by
    intro f q text hf hcause
    obtain ⟨hu, touches⟩ := Conversion.touches_of_unified solid h hs hc hv hf
    rw [hcause] at touches
    exact Conversion.touches_choice .whole lawful solid hu (List.mem_of_getElem? hs) touches
  refine ⟨below, fun never f q text hf hcause => ?_⟩
  obtain ⟨s', u', v', ⟨⟨group, together, -, -, -, meet⟩, -⟩, -⟩ :=
    (below f q text hf hcause).exists_part (P := fun _ => True) (Q := fun _ => True) (by simp)
      (by simp) trivial trivial trivial
  exact never group together meet

/-- A tuple with a set of texts and one with a list of numbers: the list is chosen. -/
theorem literal_only_below_choice_tuples :
    let s : Ty := .tuple [.set .string, .number]
    let ts : List Ty := [s, .tuple [.list .number, .string]]
    let u : Ty := .tuple [.list .number, .string]
    let v : Value := .tuple [.set .string [.string "7", .string "x"], .number ⟨1, 0⟩]
    let c : Conversion := .covering u (.tuple [.covering (.list .number) (.eachItem .list
      (.covering .number (.primitive .number)) .number), .covering .string (.primitive .string)])
    let f : Fault := ⟨.invalidLiteral .number "x", [.index 0, .index 1]⟩
    (∀ t ∈ ts, t.Lawful) ∧ (∀ t ∈ ts, t.hasDynamic = false) ∧ v.Inhabits s ∧
      Ty.unifyWithConversions ts .risky = .ok (u, [c, .identity]) ∧ c.apply v = .error f ∧
      Conversion.Touches (fun s u v => Ty.Chosen ts s u ∧
        Conversion.Touches (Conversion.Raises (.invalidLiteral .number "x")) s u v) s u v := by
  intro s ts u v c f
  have h : Ty.unifyWithConversions ts .risky = .ok (u, [c, .identity]) := by cbv
  have hf : c.apply v = .error f := rfl
  refine ⟨by decide, by decide, by decide, h, hf, ?_⟩
  exact (literal_only_below_choice (i := 0) (by decide) (by decide) h rfl rfl (by decide)).1 f
    .number "x" hf rfl

/-- Of a set of texts and a list of numbers the list is chosen, and not every text is a number. -/
theorem literal_of_set_and_list :
    let ts : List Ty := [.set .string, .list .number]
    let v : Value := .set .string [.string "x"]
    let c : Conversion := .covering (.list .number) (.eachItem .list
      (.covering .number (.primitive .number)) .number)
    (∀ t ∈ ts, t.Lawful) ∧ (∀ t ∈ ts, t.hasDynamic = false) ∧ v.Inhabits (.set .string) ∧
      Ty.unifyWithConversions ts .risky = .ok (.list .number, [c, .identity]) ∧
      c.apply v = .error ⟨.invalidLiteral .number "x", [.index 0]⟩ :=
  ⟨by decide, by decide, by decide, by cbv, rfl⟩

end Retype
