import Retype.Proofs.Conversion.Yields

/-!
# Nulls and unknowns of convertible types

Whether a conversion exists is decided part by part; the type of a converted null is found by a
second walk over the two types, which brings the parts of a tuple or an object together before it
looks into them. `propagates_iff` says for which pairs of types the second walk agrees with the
first: those that fit (`Ty.Fits`), which is to say that the walk never meets two shapes that do
not go together.

Types that convert fit whenever the target is *steady* (`Ty.Steady`): inside its lists, sets and
maps there are no objects but those of plain data, or, for safe conversions, objects without
optional attributes. Then the parts of a source that go into one element type all have the same
frame (`Plan.frames`), so has their common type (`Frames.common`), and the walk goes on with that
(`Frames.fits`).
-/

namespace Retype

namespace Ty

/-- The walk over a declared type and an input meets only shapes that go together. The parts of
an input that go into one element type are brought together first. -/
inductive Fits : Ty → Ty → Prop
  | blank {d : Ty} : Fits d .dynamic
  | hole {i : Ty} : Fits .dynamic i
  | primitive {k : Primitive} {i : Ty} : Fits (.primitive k) i
  | capsule {n : String} {i : Ty} : Fits (.capsule n) i
  | map {d i : Ty} (element : Fits d i) : Fits (.map d) (.map i)
  | gather {d : Ty} {as : List (Attribute Ty)} (element : Fits d (merged (as.map (·.type)))) :
      Fits (.map d) (.object as)
  | sequence {k l : SequenceKind} {d i : Ty} (element : Fits d i) :
      Fits (.sequence k d) (.sequence l i)
  | collect {k : SequenceKind} {d : Ty} {is : List Ty} (element : Fits d (merged is)) :
      Fits (.sequence k d) (.tuple is)
  | select {ds : List (Attribute Ty)} {i : Ty} (each : ∀ d ∈ ds, Fits d.type i) :
      Fits (.object ds) (.map i)
  | object {ds is : List (Attribute Ty)}
      (each : ∀ d ∈ ds, ∀ i, Named.find? d.name is = some i → Fits d.type i.type) :
      Fits (.object ds) (.object is)
  | tuple {ds is : List Ty} (length : is.length = ds.length)
      (each : ∀ (n : Nat) d i, ds[n]? = some d → is[n]? = some i → Fits d i) :
      Fits (.tuple ds) (.tuple is)

theorem Refines.fits {d i r : Ty} (h : Refines d i r) : d.Fits i := by
  induction h with
  | blank => exact .blank
  | hole => exact .hole
  | primitive => exact .primitive
  | capsule => exact .capsule
  | map _ ih => exact .map ih
  | gather _ ih => exact .gather ih
  | sequence _ ih => exact .sequence ih
  | collect _ ih => exact .collect ih
  | select layout _ ih =>
    refine .select fun d hd => ?_
    obtain ⟨n, hd⟩ := List.getElem?_of_mem hd
    obtain ⟨r, hr⟩ := exists_getElem?_of_length (length_eq_of_layout layout) hd
    exact ih n d r hd hr
  | object layout _ _ ih =>
    refine .object fun d hd i hi => ?_
    obtain ⟨n, hd⟩ := List.getElem?_of_mem hd
    obtain ⟨r, hr⟩ := exists_getElem?_of_length (length_eq_of_layout layout) hd
    exact ih n d i r hd hr hi
  | tuple input length _ ih =>
    refine .tuple input fun n d i hd hi => ?_
    obtain ⟨r, hr⟩ := exists_getElem?_of_length length hd
    exact ih n d i r hd hi hr

/-- Refining succeeds exactly on types that fit. -/
theorem fits_iff {d i : Ty} : d.Fits i ↔ ∃ r, Refines d i r := by
  constructor
  · intro h
    simp only [← refine_eq_ok_iff]
    induction h with
    | @blank d => exact ⟨d, refine_dynamic_right d⟩
    | @hole i => exact ⟨i, refine_eq_ok_iff.mpr .hole⟩
    | @primitive k i => exact ⟨.primitive k, refine_eq_ok_iff.mpr .primitive⟩
    | @capsule n i => exact ⟨.capsule n, refine_eq_ok_iff.mpr .capsule⟩
    | map _ ih | gather _ ih | sequence _ ih | collect _ ih =>
      obtain ⟨r, hr⟩ := ih
      exact ⟨_, by rw [refine, hr]; rfl⟩
    | @select ds i _ ih =>
      obtain ⟨rs, hrs⟩ : ∃ rs, refineFrom ds i = .ok rs := by
        rw [refineFrom_eq_mapM]
        refine exists_mapM_eq_ok fun d hd => ?_
        obtain ⟨r, hr⟩ := ih d hd
        exact ⟨_, by rw [hr]; rfl⟩
      exact ⟨.object rs, by rw [refine, hrs]; rfl⟩
    | @object ds is _ ih =>
      obtain ⟨rs, hrs⟩ : ∃ rs, refineNamed ds is = .ok rs := by
        rw [refineNamed_eq_mapM]
        refine exists_mapM_eq_ok fun d hd => ?_
        cases hi : Named.find? d.name is with
        | none => exact ⟨_, rfl⟩
        | some i =>
          obtain ⟨r, hr⟩ := ih d hd i hi
          exact ⟨_, by dsimp only; rw [hr]; rfl⟩
      exact ⟨.object rs, by rw [refine, hrs]; rfl⟩
    | @tuple ds is length _ ih =>
      obtain ⟨rs, hrs⟩ : ∃ rs, refineAll ds is = .ok rs := by
        rw [refineAll_eq_mapM]
        refine exists_mapM_eq_ok fun p hp => ?_
        obtain ⟨n, hp⟩ := List.getElem?_of_mem hp
        obtain ⟨hd, hi⟩ := List.getElem?_zip_eq_some.mp hp
        exact ih n p.1 p.2 hd hi
      exact ⟨.tuple rs, by rw [refine, if_pos length, hrs]; rfl⟩
  · rintro ⟨r, hr⟩
    exact hr.fits

/-- Refining fails only where two types do not go together, and says so. -/
theorem notRefinable_of_refine {d i : Ty} {f : Fault} (h : d.refine i = .error f) :
    ∃ d' i', f = .of (.inconsistent (.notRefinable d' i')) := by
  induction d generalizing i with
  | dynamic | primitive k | capsule n => cases i <;> cases h
  | sequence k e ih =>
    cases i with
    | dynamic => cases h
    | sequence l i => exact ih (map_eq_error_iff.mp h)
    | tuple is => exact ih (map_eq_error_iff.mp h)
    | _ => exact ⟨_, _, (Except.error.inj h).symm⟩
  | map e ih =>
    cases i with
    | dynamic => cases h
    | map i => exact ih (map_eq_error_iff.mp h)
    | object as => exact ih (map_eq_error_iff.mp h)
    | _ => exact ⟨_, _, (Except.error.inj h).symm⟩
  | tuple ds ih =>
    cases i with
    | dynamic => cases h
    | tuple is =>
      rw [refine] at h
      split at h
      · have hall := map_eq_error_iff.mp h
        rw [refineAll_eq_mapM] at hall
        obtain ⟨p, hp, hfail⟩ := exists_of_mapM_eq_error hall
        exact ih p.1 (List.of_mem_zip hp).1 hfail
      · exact ⟨_, _, (Except.error.inj h).symm⟩
    | _ => exact ⟨_, _, (Except.error.inj h).symm⟩
  | object ds ih =>
    cases i with
    | dynamic => cases h
    | map i =>
      have hall := map_eq_error_iff.mp h
      rw [refineFrom_eq_mapM] at hall
      obtain ⟨d, hd, hfail⟩ := exists_of_mapM_eq_error hall
      exact ih d hd (map_eq_error_iff.mp hfail)
    | object is =>
      have hall := map_eq_error_iff.mp h
      rw [refineNamed_eq_mapM] at hall
      obtain ⟨d, hd, hfail⟩ := exists_of_mapM_eq_error hall
      have hstep := map_eq_error_iff.mp hfail
      split at hstep
      · exact ih d hd hstep
      · cases hstep
    | _ => exact ⟨_, _, (Except.error.inj h).symm⟩

/-- Marks on the declared type do not matter. -/
theorem Fits.stripped {d i : Ty} (h : d.Fits i) : d.stripped.Fits i := by
  induction h with
  | blank => exact .blank
  | hole => exact .hole
  | primitive => exact .primitive
  | capsule => exact .capsule
  | map _ ih => exact .map ih
  | gather _ ih => exact .gather ih
  | sequence _ ih => exact .sequence ih
  | collect _ ih => exact .collect ih
  | select _ ih =>
    refine .select fun d' hd' => ?_
    rw [strippedAttributes_eq_map] at hd'
    obtain ⟨d, hd, rfl⟩ := List.mem_map.mp hd'
    exact ih d hd
  | object _ ih =>
    refine .object fun d' hd' i hi => ?_
    rw [strippedAttributes_eq_map] at hd'
    obtain ⟨d, hd, rfl⟩ := List.mem_map.mp hd'
    exact ih d hd i hi
  | tuple length _ ih =>
    refine .tuple (by simpa using length) fun n d' i hd' hi => ?_
    obtain ⟨d, hd, rfl⟩ := getElem?_strippedAll.mp hd'
    exact ih n d i hd hi

/-- A type fits itself. -/
theorem Lawful.fits_self {t : Ty} (h : t.Lawful) : t.Fits t := by
  unfold Lawful at h
  induction t with
  | primitive k => exact .primitive
  | capsule n => exact .capsule
  | dynamic => exact .hole
  | sequence k e ih => exact .sequence (ih (throughout_sequence.mp h).2)
  | map e ih => exact .map (ih (throughout_map.mp h).2)
  | tuple ts ih =>
    refine .tuple rfl fun n t s ht hs => ?_
    obtain rfl : t = s := Option.some.inj (ht.symm.trans hs)
    have hmem := List.mem_of_getElem? ht
    exact ih t hmem ((throughout_tuple.mp h).2 t hmem)
  | object as ih =>
    refine .object fun a ha b hb => ?_
    obtain ⟨n, hn⟩ := List.getElem?_of_mem ha
    have hfind : Named.find? a.name as = some a := Named.find?_of_getElem? (Lawful.ascending h) hn
    obtain rfl : a = b := Option.some.inj (hfind.symm.trans hb)
    exact ih a ha ((throughout_object.mp h).2 a ha)

/-! ### Frames -/

/-- Plain data, capsules and placeholders: whatever they are refined from, there is nothing to
look into. -/
def isLeaf : Ty → Bool
  | .primitive _ | .capsule _ | .dynamic => true
  | _ => false

/-- The source has the kinds and the arities of the declared type, one for one, down to leaves
and placeholders. Objects of leaves may also come from maps and from objects of other names. -/
inductive Frames : Ty → Ty → Prop
  | blank {t : Ty} : Frames t .dynamic
  | leaf {t s : Ty} (leaf : t.isLeaf = true) : Frames t s
  | map {t s : Ty} (kind : s.isMap = true ∨ s.isObject = true)
      (each : ∀ p ∈ s.parts, Frames t p) : Frames (.map t) s
  | sequence {k : SequenceKind} {t s : Ty}
      (kind : s.isList = true ∨ s.isSet = true ∨ s.isTuple = true)
      (each : ∀ p ∈ s.parts, Frames t p) : Frames (.sequence k t) s
  | tuple {ts ss : List Ty} (length : ss.length = ts.length)
      (each : ∀ (n : Nat) t s, ts[n]? = some t → ss[n]? = some s → Frames t s) :
      Frames (.tuple ts) (.tuple ss)
  | object {bs as : List (Attribute Ty)} (names : Named.names as = Named.names bs)
      (each : ∀ (n : Nat) (b a : Attribute Ty), bs[n]? = some b → as[n]? = some a →
        Frames b.type a.type) :
      Frames (.object bs) (.object as)
  | flat {bs : List (Attribute Ty)} {s : Ty} (leaves : ∀ b ∈ bs, b.type.isLeaf = true)
      (kind : s.isMap = true ∨ s.isObject = true) : Frames (.object bs) s

theorem fits_of_isLeaf {t s : Ty} (h : t.isLeaf = true) : t.Fits s := by
  cases t with
  | primitive k => exact .primitive
  | capsule n => exact .capsule
  | dynamic => exact .hole
  | _ => cases h

theorem frames_self (t : Ty) : t.Frames t := by
  induction t with
  | primitive k => exact .leaf rfl
  | capsule n => exact .leaf rfl
  | dynamic => exact .leaf rfl
  | sequence k e ih =>
    refine .sequence (by cases k <;> simp [isList, isSet]) fun p hp => ?_
    rwa [List.mem_singleton.mp hp]
  | map e ih =>
    refine .map (.inl rfl) fun p hp => ?_
    rwa [List.mem_singleton.mp hp]
  | tuple ts ih =>
    refine .tuple rfl fun n t s ht hs => ?_
    obtain rfl : t = s := Option.some.inj (ht.symm.trans hs)
    exact ih t (List.mem_of_getElem? ht)
  | object as ih =>
    refine .object rfl fun n a b ha hb => ?_
    obtain rfl : a = b := Option.some.inj (ha.symm.trans hb)
    exact ih a (List.mem_of_getElem? ha)

/-- What a type that is no placeholder looks like under a map, and under a list or a set. -/
theorem Frames.of_map {t s : Ty} (h : Frames (.map t) s) (hs : s ≠ .dynamic) :
    (s.isMap = true ∨ s.isObject = true) ∧ ∀ p ∈ s.parts, Frames t p := by
  cases h with
  | blank => exact absurd rfl hs
  | leaf leaf => cases leaf
  | map kind each => exact ⟨kind, each⟩

theorem Frames.of_sequence {k : SequenceKind} {t s : Ty} (h : Frames (.sequence k t) s)
    (hs : s ≠ .dynamic) :
    (s.isList = true ∨ s.isSet = true ∨ s.isTuple = true) ∧ ∀ p ∈ s.parts, Frames t p := by
  cases h with
  | blank => exact absurd rfl hs
  | leaf leaf => cases leaf
  | sequence kind each => exact ⟨kind, each⟩

theorem Frames.of_tuple {ts : List Ty} {s : Ty} (h : Frames (.tuple ts) s) (hs : s ≠ .dynamic) :
    ∃ ss, s = .tuple ss ∧ ss.length = ts.length ∧
      ∀ (n : Nat) t s, ts[n]? = some t → ss[n]? = some s → Frames t s := by
  cases h with
  | blank => exact absurd rfl hs
  | leaf leaf => cases leaf
  | tuple length each => exact ⟨_, rfl, length, each⟩

theorem Frames.of_object {bs : List (Attribute Ty)} {s : Ty} (h : Frames (.object bs) s)
    (hs : s ≠ .dynamic) :
    ((∀ b ∈ bs, b.type.isLeaf = true) ∧ (s.isMap = true ∨ s.isObject = true)) ∨
      ∃ as, s = .object as ∧ Named.names as = Named.names bs ∧
        ∀ (n : Nat) (b a : Attribute Ty), bs[n]? = some b → as[n]? = some a →
          Frames b.type a.type := by
  cases h with
  | blank => exact absurd rfl hs
  | leaf leaf => cases leaf
  | object names each => exact .inr ⟨_, rfl, names, each⟩
  | flat leaves kind => exact .inl ⟨leaves, kind⟩

/-- **Closure.** Sources of one frame have a common type of that frame. -/
theorem Frames.common {safety : Safety} {t u : Ty} {ss : List Ty} (ht : t.Lawful)
    (h : Common safety ss u) (hall : ∀ s ∈ ss, t.Frames s) : t.Frames u := by
  unfold Lawful at ht
  induction t generalizing ss u with
  | primitive k => exact .leaf rfl
  | capsule n => exact .leaf rfl
  | dynamic => exact .leaf rfl
  | map e ih =>
    have heach : ∀ s ∈ concrete ss, (s.isMap = true ∨ s.isObject = true) ∧
        ∀ p ∈ s.parts, Frames e p := by
      intro s hs
      obtain ⟨hmem, hne⟩ := mem_concrete.mp hs
      exact (hall s hmem).of_map hne
    have hparts : ∀ p ∈ u.parts, Frames e p :=
      h.forall_parts (fun hv hgroup => ih (throughout_map.mp ht).2 hv hgroup)
        fun s hs => (heach s hs).2
    rcases h.mapping fun s hs => (heach s hs).1 with rfl | kind
    · exact .blank
    · exact .map kind hparts
  | sequence k e ih =>
    have heach : ∀ s ∈ concrete ss, (s.isList = true ∨ s.isSet = true ∨ s.isTuple = true) ∧
        ∀ p ∈ s.parts, Frames e p := by
      intro s hs
      obtain ⟨hmem, hne⟩ := mem_concrete.mp hs
      exact (hall s hmem).of_sequence hne
    have hparts : ∀ p ∈ u.parts, Frames e p :=
      h.forall_parts (fun hv hgroup => ih (throughout_sequence.mp ht).2 hv hgroup)
        fun s hs => (heach s hs).2
    rcases h.sequential fun s hs => (heach s hs).1 with rfl | kind
    · exact .blank
    · exact .sequence kind hparts
  | tuple ts ih =>
    by_cases hu : u = .dynamic
    · rw [hu]
      exact .blank
    have heach : ∀ s ∈ concrete ss, ∃ rs, s = .tuple rs ∧ rs.length = ts.length ∧
        ∀ (n : Nat) t r, ts[n]? = some t → rs[n]? = some r → Frames t r := by
      intro s hs
      obtain ⟨hmem, hne⟩ := mem_concrete.mp hs
      exact (hall s hmem).of_tuple hne
    have hsolid := h.of_concrete hu
    -- tuples of one length are brought together position by position
    rcases hsolid.of_tuples (fun s hs => (heach s hs).imp fun _ h => ⟨h.1, h.2.1⟩) with
      hsame | ⟨us, rfl, length, inside⟩
    · obtain ⟨s, hs⟩ := List.exists_mem_of_ne_nil _ hsolid.ne_nil
      rw [← hsame s hs]
      exact hall s (mem_concrete.mp hs).1
    · refine .tuple length fun n t v ht' hv => ?_
      have hmem := List.mem_of_getElem? ht'
      refine ih t hmem ((throughout_tuple.mp ht).2 t hmem) (inside n v hv) fun r hr => ?_
      obtain ⟨s, hs, hr⟩ := List.mem_filterMap.mp hr
      obtain ⟨rs, rfl, -, each⟩ := heach s hs
      exact each n t r ht' hr
  | object bs ih =>
    by_cases hu : u = .dynamic
    · rw [hu]
      exact .blank
    by_cases leaves : ∀ b ∈ bs, b.type.isLeaf = true
    · have hkind : ∀ s ∈ concrete ss, s.isMap = true ∨ s.isObject = true := by
        intro s hs
        obtain ⟨hmem, hne⟩ := mem_concrete.mp hs
        rcases (hall s hmem).of_object hne with ⟨-, kind⟩ | ⟨as, rfl, -⟩
        · exact kind
        · exact .inr rfl
      exact .flat leaves ((h.mapping hkind).resolve_left hu)
    have heach : ∀ s ∈ concrete ss, ∃ as, s = .object as ∧ Named.names as = Named.names bs ∧
        ∀ (n : Nat) (b a : Attribute Ty), bs[n]? = some b → as[n]? = some a →
          Frames b.type a.type := by
      intro s hs
      obtain ⟨hmem, hne⟩ := mem_concrete.mp hs
      exact ((hall s hmem).of_object hne).resolve_left fun flat => leaves flat.1
    have hsolid := h.of_concrete hu
    -- objects of the same names are brought together name by name
    rcases hsolid.of_objects (fun s hs => (heach s hs).imp fun _ h => ⟨h.1, h.2.1⟩) with
      hsame | ⟨us, rfl, length, inside⟩
    · obtain ⟨s, hs⟩ := List.exists_mem_of_ne_nil _ hsolid.ne_nil
      rw [← hsame s hs]
      exact hall s (mem_concrete.mp hs).1
    · refine .object (names_record length) fun n b v hb hv => ?_
      obtain ⟨f, hf, rfl⟩ := Option.map_eq_some_iff.mp ((List.getElem?_map ..).symm.trans hv)
      obtain ⟨hname, hfu⟩ := List.getElem?_zip_eq_some.mp hf
      have hmem := List.mem_of_getElem? hb
      refine ih b hmem ((throughout_object.mp ht).2 b hmem) (inside n f.1 f.2 hname hfu)
        fun r hr => ?_
      obtain ⟨s, hs, hr⟩ := List.mem_filterMap.mp hr
      obtain ⟨as, rfl, names, each⟩ := heach s hs
      obtain ⟨a, hfind, rfl⟩ := Option.map_eq_some_iff.mp hr
      have ascending : Named.Ascending as := Lawful.ascending_of_names ht names
      have hbname : Named.name b = f.1 := by
        rw [Named.names, List.getElem?_map, hb] at hname
        exact Option.some.inj hname
      rw [← hbname] at hfind
      exact each n b a hb (Named.getElem?_of_find? ascending names hb hfind)

theorem Frames.merged {t : Ty} {ss : List Ty} (ht : t.Lawful) (hall : ∀ s ∈ ss, t.Frames s) :
    t.Frames (merged ss) := by
  unfold Ty.merged
  cases hu : unify? ss .risky with
  | none => exact .blank
  | some u => exact Frames.common ht (common_of_unify? hu) hall

/-- A source of the frame of a declared type fits it. -/
theorem Frames.fits {t s : Ty} (ht : t.Lawful) (h : t.Frames s) : t.Fits s := by
  unfold Lawful at ht
  induction t generalizing s with
  | primitive k => exact .primitive
  | capsule n => exact .capsule
  | dynamic => exact .hole
  | map e ih =>
    have he := (throughout_map.mp ht).2
    cases h with
    | blank => exact .blank
    | leaf leaf => cases leaf
    | map kind each =>
      cases s with
      | map i => exact .map (ih he (each i (by simp [parts])))
      | object as => exact .gather (ih he (Frames.merged he each))
      | _ => simp [isMap, isObject] at kind
  | sequence k e ih =>
    have he := (throughout_sequence.mp ht).2
    cases h with
    | blank => exact .blank
    | leaf leaf => cases leaf
    | sequence kind each =>
      cases s with
      | sequence l i => exact .sequence (ih he (each i (by simp [parts])))
      | tuple ss => exact .collect (ih he (Frames.merged he each))
      | _ => simp [isList, isSet, isTuple] at kind
  | tuple ts ih =>
    cases h with
    | blank => exact .blank
    | leaf leaf => cases leaf
    | tuple length each =>
      refine .tuple length fun n t s ht' hs => ?_
      have hmem := List.mem_of_getElem? ht'
      exact ih t hmem ((throughout_tuple.mp ht).2 t hmem) (each n t s ht' hs)
  | object bs ih =>
    cases h with
    | blank => exact .blank
    | leaf leaf => cases leaf
    | object names each =>
      refine .object fun b hb a ha => ?_
      obtain ⟨n, hn⟩ := List.getElem?_of_mem hb
      refine ih b hb ((throughout_object.mp ht).2 b hb) (each n b a hn ?_)
      exact Named.getElem?_of_find? (Lawful.ascending_of_names ht names) names hn ha
    | flat leaves kind =>
      cases s with
      | map i => exact .select fun b hb => fits_of_isLeaf (leaves b hb)
      | object as => exact .object fun b hb a _ => fits_of_isLeaf (leaves b hb)
      | _ => simp [isMap, isObject] at kind

/-! ### Targets with one frame for their sources -/

/-- All sources of a type have one frame: inside it there are no objects but those of leaves,
or, where nothing is risked, objects without optional attributes. -/
inductive Rigid (safety : Safety) : Ty → Prop
  | leaf {t : Ty} (leaf : t.isLeaf = true) : Rigid safety t
  | map {t : Ty} (element : Rigid safety t) : Rigid safety (.map t)
  | sequence {k : SequenceKind} {t : Ty} (element : Rigid safety t) :
      Rigid safety (.sequence k t)
  | tuple {ts : List Ty} (each : ∀ t ∈ ts, Rigid safety t) : Rigid safety (.tuple ts)
  | flat {as : List (Attribute Ty)} (leaves : ∀ a ∈ as, a.type.isLeaf = true) :
      Rigid safety (.object as)
  | object {as : List (Attribute Ty)} (careful : safety = .safe)
      (required : ∀ a ∈ as, a.optional = false) (each : ∀ a ∈ as, Rigid safety a.type) :
      Rigid safety (.object as)

/-- Every collection inside the type, outside of other collections, is rigid. -/
inductive Steady (safety : Safety) : Ty → Prop
  | rigid {t : Ty} (rigid : Rigid safety t) : Steady safety t
  | tuple {ts : List Ty} (each : ∀ t ∈ ts, Steady safety t) : Steady safety (.tuple ts)
  | object {as : List (Attribute Ty)} (each : ∀ a ∈ as, Steady safety a.type) :
      Steady safety (.object as)

end Ty

namespace Conversion

open Ty

/-- What converts to a rigid type has its frame. -/
theorem Plan.frames {safety : Safety} {s t : Ty} {c : Conversion} (plan : Plan safety s t c)
    (hs : s.Lawful) (ht : t.Lawful) (rigid : t.Rigid safety) : t.Frames s := by
  unfold Lawful at hs ht
  induction plan with
  | same => exact frames_self _
  | pass => exact .leaf rfl
  | later => exact .blank
  | primitive => exact .leaf rfl
  | @sequence k l s t c _ _ ih =>
    refine .sequence (by cases k <;> simp [isList, isSet]) fun p hp => ?_
    rw [List.mem_singleton.mp hp]
    cases rigid with
    | leaf leaf => cases leaf
    | sequence element => exact ih (throughout_sequence.mp hs).2 (throughout_sequence.mp ht).2 element
  | @map s t c _ ih =>
    refine .map (.inl rfl) fun p hp => ?_
    rw [List.mem_singleton.mp hp]
    cases rigid with
    | leaf leaf => cases leaf
    | map element => exact ih (throughout_map.mp hs).2 (throughout_map.mp ht).2 element
  | positions _ elects length _ ih =>
    refine .sequence (by simp [isTuple]) fun p hp => ?_
    obtain ⟨n, hn⟩ := List.getElem?_of_mem hp
    obtain ⟨c, hc⟩ := exists_getElem?_of_length length.symm hn
    cases elects with
    | common => exact .leaf rfl
    | declared =>
      cases rigid with
      | leaf leaf => cases leaf
      | sequence element =>
        exact ih n p c hn hc ((throughout_tuple.mp hs).2 p hp) (throughout_sequence.mp ht).2 element
  | @gather as t e cs elects names _ ih =>
    refine .map (by simp [isObject]) fun p hp => ?_
    obtain ⟨a, ha, rfl⟩ := List.mem_map.mp hp
    obtain ⟨n, hn⟩ := List.getElem?_of_mem ha
    obtain ⟨c, hc, -⟩ := Named.exists_getElem? names.symm hn
    cases elects with
    | common => exact .leaf rfl
    | declared =>
      cases rigid with
      | leaf leaf => cases leaf
      | map element =>
        exact ih n a c hn hc ((throughout_object.mp hs).2 a ha) (throughout_map.mp ht).2 element
  | tuple arity length _ ih =>
    cases rigid with
    | leaf leaf => cases leaf
    | tuple each =>
      refine .tuple arity fun n t s htn hsn => ?_
      obtain ⟨c, hc⟩ := exists_getElem?_of_length length.symm hsn
      have hsmem := List.mem_of_getElem? hsn
      have htmem := List.mem_of_getElem? htn
      exact ih n s t c hsn htn hc ((throughout_tuple.mp hs).2 s hsmem)
        ((throughout_tuple.mp ht).2 t htmem) (each t htmem)
  | @object as bs slots known targets found missing ih =>
    cases rigid with
    | leaf leaf => cases leaf
    | flat leaves => exact .flat leaves (.inr rfl)
    | object _ required each =>
      subst targets
      have names : Named.names as = Named.names (slots.map (·.target)) :=
        names_eq_of_required (Lawful.ascending hs) (Lawful.ascending ht) known missing
          fun slot hslot => required slot.target (List.mem_map_of_mem hslot)
      refine .object names fun n b a hb ha => ?_
      have hbmem := List.mem_of_getElem? hb
      have hfind : Named.find? b.name as = some a := by
        obtain ⟨a', ha', hfind⟩ := Named.exists_find?_getElem? (Lawful.ascending hs) names hb
        obtain rfl : a = a' := Option.some.inj (ha.symm.trans ha')
        exact hfind
      obtain ⟨slot, hslot, rfl⟩ := List.mem_map.mp hbmem
      exact ih slot hslot a hfind ((throughout_object.mp hs).2 a (List.mem_of_getElem? ha))
        ((throughout_object.mp ht).2 _ hbmem) (each _ hbmem)
  | select permitted =>
    cases rigid with
    | leaf leaf => cases leaf
    | flat leaves => exact .flat leaves (.inl rfl)
    | object careful => rw [careful] at permitted; cases permitted

/-- What converts to a steady type fits it. -/
theorem Plan.fits {safety : Safety} {s t : Ty} {c : Conversion} (plan : Plan safety s t c)
    (hs : s.Lawful) (ht : t.Lawful) (steady : t.Steady safety) : t.Fits s := by
  induction steady generalizing s c with
  | rigid rigid => exact (plan.frames hs ht rigid).fits ht
  | tuple _ ih =>
    cases plan with
    | same => exact ht.fits_self
    | later => exact .blank
    | tuple arity length each =>
      refine .tuple arity fun n t s htn hsn => ?_
      obtain ⟨c, hc⟩ := exists_getElem?_of_length length.symm hsn
      have htmem := List.mem_of_getElem? htn
      exact ih t htmem (each n s t c hsn htn hc)
        ((throughout_tuple.mp hs).2 s (List.mem_of_getElem? hsn))
        ((throughout_tuple.mp ht).2 t htmem)
  | object _ ih =>
    cases plan with
    | same => exact ht.fits_self
    | later => exact .blank
    | object _ targets found _ =>
      refine .object fun b hb a ha => ?_
      obtain ⟨slot, hslot, htarget⟩ := List.mem_map.mp (targets ▸ hb)
      subst htarget
      exact ih _ hb (found slot hslot a ha)
        ((throughout_object.mp hs).2 a (Named.mem_of_find? ha).1)
        ((throughout_object.mp ht).2 _ hb)
    | select _ targets each =>
      refine .select fun b hb => ?_
      obtain ⟨slot, hslot, htarget⟩ := List.mem_map.mp (targets ▸ hb)
      subst htarget
      exact ih _ hb (each slot hslot) (throughout_map.mp hs).2 ((throughout_object.mp ht).2 _ hb)

theorem Plan.apply_blank {safety : Safety} {s t : Ty} {c : Conversion}
    (plan : Plan safety s t c) :
    c.apply (.null s) = (t.stripped.refine s).map .null ∧
      c.apply (.unknown s) = (t.stripped.refine s).map .unknown :=
  plan.applyWith_blank Value.convert

end Conversion

/-- **Propagation.** Between types that convert, the null and the unknown of the source become
the null and the unknown of one type exactly when the two types fit, and otherwise end in the
fault that two types do not go together. Whatever converts to a steady type fits it. -/
theorem propagates_iff {source target : Ty} {safety : Safety} {c : Conversion}
    (hsource : source.Lawful) (htarget : target.Lawful)
    (h : Conversion.between? source target safety = some c) :
    ((∃ t, c.apply (.null source) = .ok (.null t) ∧ c.apply (.unknown source) = .ok (.unknown t) ∧
        (target.hasDynamic = false → t = target.stripped)) ↔ target.stripped.Fits source) ∧
      (target.Steady safety → target.stripped.Fits source) ∧
      (¬target.stripped.Fits source → ∃ declared input,
        c.apply (.null source) = .error (.of (.inconsistent (.notRefinable declared input))) ∧
        c.apply (.unknown source) =
          .error (.of (.inconsistent (.notRefinable declared input)))) := by
  have plan := Conversion.plan_of_between? h
  obtain ⟨hnull, hunknown⟩ := plan.apply_blank
  refine ⟨⟨?_, fun fits => ?_⟩, fun steady => ?_, fun clash => ?_⟩
  · rintro ⟨t, ht, -⟩
    rw [hnull] at ht
    obtain ⟨r, hr, -⟩ := map_eq_ok_iff.mp ht
    exact (Ty.refine_eq_ok_iff.mp hr).fits
  · obtain ⟨r, hr⟩ := Ty.fits_iff.mp fits
    rw [hnull, hunknown, Ty.refine_eq_ok_iff.mpr hr]
    refine ⟨r, rfl, rfl, fun solid => hr.eq_of_hasDynamic ?_⟩
    rw [Ty.hasDynamic_stripped, solid]
  · exact (plan.fits hsource htarget steady).stripped
  · cases hrefine : target.stripped.refine source with
    | ok r => exact absurd (Ty.refine_eq_ok_iff.mp hrefine).fits clash
    | error f =>
      obtain ⟨declared, input, rfl⟩ := Ty.notRefinable_of_refine hrefine
      exact ⟨declared, input, by rw [hnull, hrefine]; rfl, by rw [hunknown, hrefine]; rfl⟩

/-- Objects of different names go into a list of objects of plain data. -/
theorem propagates_tuple_to_list :
    let source : Ty := .tuple [.object [⟨"name", false, .string⟩],
      .object [⟨"name", false, .string⟩, ⟨"size", false, .number⟩]]
    let target : Ty := .list (.object [⟨"name", false, .string⟩, ⟨"size", true, .string⟩])
    source.Lawful ∧ target.Lawful ∧ target.Steady .safe ∧
      ∃ c, Conversion.between? source target .safe = some c ∧
        c.apply (.null source) = .ok (.null target.stripped) ∧
        c.apply (.unknown source) = .ok (.unknown target.stripped) := by
  intro source target
  have steady : target.Steady .safe := .rigid (.sequence (.flat (by decide)))
  refine ⟨by decide, by decide, steady, ?_⟩
  obtain ⟨c, hc⟩ : ∃ c, Conversion.between? source target .safe = some c := by
    rw [← Option.isSome_iff_exists]
    cbv
  obtain ⟨hiff, hsteady, -⟩ := propagates_iff (by decide) (by decide) hc
  obtain ⟨t, hnull, hunknown, ht⟩ := hiff.mpr (hsteady steady)
  rw [ht (by decide)] at hnull hunknown
  exact ⟨c, hc, hnull, hunknown⟩

/-- An object with a tuple and an object with a list convert, one by one, to an object that may
have either. Brought together first they are a map of lists, which no tuple is refined from. -/
theorem not_propagates_tuple_to_list :
    let source : Ty := .tuple [.object [⟨"a", false, .tuple [.number]⟩],
      .object [⟨"b", false, .list .number⟩]]
    let target : Ty := .list (.object [⟨"a", true, .tuple [.number]⟩, ⟨"b", true, .list .number⟩])
    let fault : Fault := .of (.inconsistent (.notRefinable (.tuple [.number]) (.list .number)))
    source.Lawful ∧ target.Lawful ∧
      ∃ c, Conversion.between? source target .safe = some c ∧
        c.apply (.null source) = .error fault ∧ c.apply (.unknown source) = .error fault := by
  intro source target fault
  refine ⟨by decide, by decide, ?_⟩
  obtain ⟨c, hc⟩ : ∃ c, Conversion.between? source target .safe = some c := by
    rw [← Option.isSome_iff_exists]
    cbv
  have hrefine : target.stripped.refine source = .error fault := by cbv
  obtain ⟨hnull, hunknown⟩ := (Conversion.plan_of_between? hc).apply_blank
  rw [hrefine] at hnull hunknown
  exact ⟨c, hc, hnull, hunknown⟩

end Retype
