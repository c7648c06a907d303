import Retype.Proofs.Soundness
import Retype.Proofs.Ty.Grounded

/-!
# When conversions keep collections homogeneous

A converted value is sound, but it need not be well formed: parts of a collection that come out
with different types are converted once more, to their common type, and where that has a
placeholder a part may fill it a second time. `wellFormed_convert_iff` says exactly when the
result is well formed: when no member of a collection in it has filled a placeholder that the
collection leaves open (`Value.Unfilled`). That is always so if the target meets the placeholders
of the source only outside its own collections (`Ty.Secure`).

* A target without placeholders leaves no choice: `Yields.homogeneous_of_solid`.
* Neither does one whose placeholders the source has already: `Yields.homogeneous_of_grounded`.
* A source without placeholders fills those of the target by complete types or not at all, so
  what its parts settle on is grounded in each of them: `Yields.homogeneous_of_complete`.
-/

namespace Retype

namespace Value

/-- The members of every collection have exactly the recorded type. -/
def Homogeneous (v : Value) : Prop := v.Everywhere Uniform

/-- No member of the collection has filled a placeholder of the recorded type. -/
def Unfilled (v : Value) : Prop := ∀ e, v.element? = some e → ∀ m ∈ v.members, e.Conforms m.ty

theorem Homogeneous.member {v m : Value} (h : v.Homogeneous) (hm : m ∈ v.members) :
    m.Homogeneous :=
  Everywhere.member h hm

theorem WellFormed.homogeneous {v : Value} (h : v.WellFormed) : v.Homogeneous :=
  h.mono fun _ hv => hv.1

/-! ### Sound values that are well formed -/

/-- A sound value is homogeneous exactly if its members fill nothing. -/
theorem Sound.homogeneous_iff {v : Value} (hv : v.Sound) :
    v.Homogeneous ↔ v.Everywhere Unfilled := by
  constructor
  · intro h
    refine h.mono fun v uniform e he m hm => ?_
    rw [uniform e he m hm]
    exact Ty.conforms_refl e
  · intro h
    induction h with
    | @intro v here _ ih =>
      refine .intro (fun e he m hm => ?_) fun m hm => ih m hm (hv.member hm)
      have hmem : e ∈ v.recorded := by cases v <;> simp_all [element?, recorded]
      have hplain := hv.here.plain e hmem
      have hm' := (hv.member hm).ty_plain
      rw [← hm'.unmarked.stripped_eq, ← hplain.unmarked.stripped_eq]
      exact (hv.here.conform e he m hm).antisymm (here e he m hm)

/-- A sound value is well formed exactly if it is homogeneous: a set in it has no duplicates, and
equal items of well-formed sets have equal fingerprints. -/
theorem Sound.wellFormed_iff {v : Value} (hv : v.Sound) : v.WellFormed ↔ v.Homogeneous := by
  refine ⟨WellFormed.homogeneous, fun h => ?_⟩
  induction h with
  | @intro v here _ ih =>
    have hmembers : ∀ m ∈ v.members, m.WellFormed := fun m hm => ih m hm (hv.member hm)
    refine .intro ⟨here, fun e items hset => ?_⟩ hmembers
    subst hset
    refine (hv.here.distinct e items rfl).imp_of_mem fun {x y} hx hy hxy hunx huny => ?_
    by_contra hsame
    -- equal items would have been duplicates
    have hyx : y.same x = true := same_symm (by simpa using hsame)
    have hcode : y.fingerprint = x.fingerprint :=
      fingerprint_eq_of_same hyx (hmembers y hy).properSets (hmembers x hx).properSets
    simpa [duplicates, hyx, hcode] using hxy hunx huny

/-! ### Types of members -/

theorem ty_of_tuple {items : List Value} {ss : List Ty} {i : Nat} {x : Value} {s : Ty}
    (h : (Value.tuple items).ty = .tuple ss) (hx : items[i]? = some x) (hs : ss[i]? = some s) :
    x.ty = s := by
  rw [ty, tyAll_eq_map, Ty.tuple.injEq] at h
  rw [← h, List.getElem?_map, hx, Option.map_some, Option.some.injEq] at hs
  exact hs

theorem ty_of_object {attributes : List (String × Value)} {as : List (Attribute Ty)} {i : Nat}
    {x : String × Value} {a : Attribute Ty} (h : (Value.object attributes).ty = .object as)
    (hx : attributes[i]? = some x) (ha : as[i]? = some a) : x.2.ty = a.type := by
  rw [ty, tyAttributes_eq_map, Ty.object.injEq] at h
  rw [← h, List.getElem?_map, hx, Option.map_some, Option.some.injEq] at ha
  exact congrArg Attribute.type ha

theorem names_of_object {attributes : List (String × Value)} {as : List (Attribute Ty)}
    (h : (Value.object attributes).ty = .object as) : Named.names attributes = Named.names as := by
  rw [ty, tyAttributes_eq_map, Ty.object.injEq] at h
  simp [← h, Named.names, Named.name, Function.comp_def]

theorem ty_of_find? {attributes : List (String × Value)} {as : List (Attribute Ty)}
    {key : String} {x : String × Value} {a : Attribute Ty}
    (h : (Value.object attributes).ty = .object as) (hasc : Named.Ascending attributes)
    (ha : Named.find? key as = some a) (hx : Named.find? key attributes = some x) :
    x.2.ty = a.type := by
  obtain ⟨hmem, hname⟩ := Named.mem_of_find? ha
  obtain ⟨i, hi⟩ := List.getElem?_of_mem hmem
  exact ty_of_object h (Named.getElem?_of_find? hasc (names_of_object h) hi (hname ▸ hx)) hi

/-- The type of an object whose attributes have the declared types. -/
theorem ty_filled {bs : List (Attribute Ty)} {filled : List (String × Value)}
    (hnames : Named.names filled = Named.names bs)
    (heach : ∀ (i : Nat) (b : Attribute Ty) (w : String × Value), bs[i]? = some b →
      filled[i]? = some w → w.2.ty = b.type.stripped) :
    (Value.object filled).ty = (Ty.object bs).stripped := by
  have hlen : filled.length = bs.length := by
    simpa [Named.names] using congrArg List.length hnames
  rw [ty, Ty.stripped, tyAttributes_eq_map, Ty.strippedAttributes_eq_map]
  congr 1
  refine map_eq_map_of_getElem? hlen fun i w b hw hb => ?_
  obtain ⟨w', hw', hname⟩ := Named.exists_getElem? hnames hb
  obtain rfl : w = w' := Option.some.inj (hw.symm.trans hw')
  rw [heach i b w hb hw, show w.1 = b.name from hname]

/-! ### Building homogeneous values -/

theorem homogeneous_of_members {v : Value} (h : v.members = []) : v.Homogeneous :=
  .intro (fun _ _ m hm => by simp [h] at hm) fun m hm => by simp [h] at hm

theorem homogeneous_of_primitive {k : Primitive} {v : Value} (hty : v.ty = .primitive k)
    (data : v.isConcrete = true) : v.Homogeneous := by
  refine homogeneous_of_members ?_
  cases v <;> simp_all [ty, members]

theorem homogeneous_collect {k : SequenceKind} {e : Ty} {vs : List Value}
    (hvs : ∀ v ∈ vs, v.ty = e ∧ v.Homogeneous) : (collect k e vs).Homogeneous := by
  have hsub : ∀ v ∈ (collect k e vs).members, v ∈ vs := by
    cases k with
    | list => exact fun v hv => hv
    | set => exact fun v hv => mem_of_mem_dedupFrom hv
  refine .intro (fun d hd v hv => ?_) fun v hv => (hvs v (hsub v hv)).2
  have hde : d = e := by cases k <;> simp_all [collect, element?]
  rw [hde, (hvs v (hsub v hv)).1]

theorem homogeneous_map_zip {e : Ty} {keys : List String} {vs : List Value}
    (hvs : ∀ v ∈ vs, v.ty = e ∧ v.Homogeneous) : (Value.map e (keys.zip vs)).Homogeneous := by
  have hsub : ∀ v ∈ (Value.map e (keys.zip vs)).members, v ∈ vs := by
    intro v hv
    obtain ⟨x, hx, rfl⟩ := List.mem_map.mp hv
    exact (List.of_mem_zip hx).2
  refine .intro (fun d hd v hv => ?_) fun v hv => (hvs v (hsub v hv)).2
  cases hd
  exact (hvs v (hsub v hv)).1

theorem homogeneous_tuple {items : List Value} (h : ∀ v ∈ items, v.Homogeneous) :
    (Value.tuple items).Homogeneous :=
  .intro (fun d hd => by cases hd) h

theorem homogeneous_object {attributes : List (String × Value)}
    (h : ∀ x ∈ attributes, x.2.Homogeneous) : (Value.object attributes).Homogeneous := by
  refine .intro (fun d hd => by cases hd) fun v hv => ?_
  obtain ⟨x, hx, rfl⟩ := List.mem_map.mp hv
  exact h x hx

end Value

namespace Conversion

variable {convert : Value → Ty → Except Fault Value}

/-- A way to convert values that is sound and keeps homogeneous values so, as long as the target
leaves no choice of type. -/
structure HomogeneousBy (convert : Value → Ty → Except Fault Value) : Prop where
  sound : SoundBy convert
  solid : ∀ {v w : Value} {t : Ty}, v.Sound → v.Homogeneous → t.Lawful → t.hasDynamic = false →
    convert v t = .ok w → w.Homogeneous
  grounded : ∀ {v w : Value} {t : Ty}, v.Sound → v.Homogeneous → t.Plain → t.Grounded v.ty →
    convert v t = .ok w → w.ty = t ∧ w.Homogeneous

/-! ### Targets without placeholders -/

/-- Nothing is left to settle if the declared type has no placeholder. -/
theorem Settles.eq_of_solid {declared e : Ty} {ws vs : List Value}
    (h : Settles convert declared ws e vs) (solid : declared.hasDynamic = false) :
    e = declared.stripped ∧ vs = ws := by
  cases h with
  | fixed => exact ⟨rfl, rfl⟩
  | alike unsettled =>
    rw [solid] at unsettled
    cases unsettled
  | again unsettled =>
    rw [solid] at unsettled
    cases unsettled

theorem Elects.eq_of_solid {safety : Safety} {parts : List Ty} {t u : Ty}
    (h : Elects safety parts t u) (solid : t.hasDynamic = false) : u = t := by
  cases h with
  | common => cases solid
  | declared => rfl

/-- **Step.** A conversion to a type without placeholders keeps homogeneous values so. -/
theorem Yields.homogeneous_of_solid (hconvert : HomogeneousBy convert) {safety : Safety}
    {s t : Ty} {v w : Value} (h : Yields convert safety s t v w) (hv : v.Sound)
    (hhom : v.Homogeneous) (hs : s.Lawful) (ht : t.Lawful) (solid : t.hasDynamic = false) :
    w.Homogeneous := by
  -- what a part becomes has the declared type, because it conforms to it
  have exact : ∀ {s t : Ty} {v w : Value}, Yields convert safety s t v w → v.Sound → s.Lawful →
      t.Lawful → t.hasDynamic = false → w.ty = t.stripped := by
    intro s t v w h hv hs ht solid
    obtain ⟨hconf, hw⟩ := h.sound hconvert.sound hv hs ht
    exact hw.ty_eq hconf solid
  induction h with
  | null | unknown | blankNull | blankUnknown => exact Value.homogeneous_of_members rfl
  | keep => exact hhom
  | pass => cases solid
  | later _ _ converted => exact hconvert.solid hv hhom ht solid converted
  | primitive _ data converted =>
    obtain ⟨hty, hdata⟩ := Value.ty_toPrimitive data converted
    exact Value.homogeneous_of_primitive hty hdata
  | emptySequence | emptyMap | emptyTuple | emptyObject => exact Value.homogeneous_of_members rfl
  | sequence nonempty length each settles ih =>
    have hs' := (Ty.throughout_sequence.mp hs).2
    have ht' := (Ty.throughout_sequence.mp ht).2
    obtain ⟨rfl, rfl⟩ := settles.eq_of_solid solid
    refine Value.homogeneous_collect (forall_mem_of_getElem? length fun i x w hx hw => ?_)
    have hmem := List.mem_of_getElem? hx
    exact ⟨exact (each i x w hx hw) (hv.member hmem) hs' ht' solid,
      ih i x w hx hw (hv.member hmem) (hhom.member hmem) hs' ht' solid⟩
  | map nonempty length each settles ih =>
    have hs' := (Ty.throughout_map.mp hs).2
    have ht' := (Ty.throughout_map.mp ht).2
    obtain ⟨rfl, rfl⟩ := settles.eq_of_solid solid
    refine Value.homogeneous_map_zip (forall_mem_of_getElem? length fun i x w hx hw => ?_)
    have hmem := List.mem_map_of_mem (f := Prod.snd) (List.mem_of_getElem? hx)
    exact ⟨exact (each i x w hx hw) (hv.member hmem) hs' ht' solid,
      ih i x w hx hw (hv.member hmem) (hhom.member hmem) hs' ht' solid⟩
  | positions nonempty elects arity length each settles ih =>
    have ht' := (Ty.throughout_sequence.mp ht).2
    obtain rfl := elects.eq_of_solid solid
    obtain ⟨rfl, rfl⟩ := settles.eq_of_solid solid
    refine Value.homogeneous_collect (forall_mem_of_getElem? length fun i x w hx hw => ?_)
    obtain ⟨s, hss⟩ := exists_getElem?_of_length arity hx
    have hs' := (Ty.throughout_tuple.mp hs).2 s (List.mem_of_getElem? hss)
    have hmem := List.mem_of_getElem? hx
    exact ⟨exact (each i s x w hss hx hw) (hv.member hmem) hs' ht' solid,
      ih i s x w hss hx hw (hv.member hmem) (hhom.member hmem) hs' ht' solid⟩
  | gather nonempty elects names length each settles ih =>
    have ht' := (Ty.throughout_map.mp ht).2
    obtain rfl := elects.eq_of_solid solid
    obtain ⟨rfl, rfl⟩ := settles.eq_of_solid solid
    refine Value.homogeneous_map_zip (forall_mem_of_getElem? length fun i x w hx hw => ?_)
    obtain ⟨a, ha, -⟩ := Named.exists_getElem? names hx
    have hs' := (Ty.throughout_object.mp hs).2 a (List.mem_of_getElem? ha)
    have hmem := List.mem_map_of_mem (f := Prod.snd) (List.mem_of_getElem? hx)
    exact ⟨exact (each i a x w ha hx hw) (hv.member hmem) hs' ht' solid,
      ih i a x w ha hx hw (hv.member hmem) (hhom.member hmem) hs' ht' solid⟩
  | tuple arity source length each ih =>
    have hparts := (Ty.hasDynamic_eq_false_iff.mp solid).2
    refine Value.homogeneous_tuple (forall_mem_of_getElem? length fun i x w hx hw => ?_)
    obtain ⟨s, hss⟩ := exists_getElem?_of_length source hx
    obtain ⟨t, htt⟩ := exists_getElem?_of_length arity.symm hss
    have hmem := List.mem_of_getElem? hx
    have hmem' := List.mem_of_getElem? htt
    exact ih i s t x w hss htt hx hw (hv.member hmem) (hhom.member hmem)
      ((Ty.throughout_tuple.mp hs).2 s (List.mem_of_getElem? hss))
      ((Ty.throughout_tuple.mp ht).2 t hmem') (hparts t hmem')
  | @object as bs attributes filled names known targets found missing ih =>
    have hparts := (Ty.hasDynamic_eq_false_iff.mp solid).2
    refine Value.homogeneous_object (Named.forall_mem_of_names targets fun i b w hb hw => ?_)
    have hmem := List.mem_of_getElem? hb
    cases hx : Named.find? b.name attributes with
    | none =>
      rw [(missing i b w hb hw hx).2]
      exact Value.homogeneous_of_members rfl
    | some x =>
      obtain ⟨a, ha⟩ := Named.exists_find? names hx
      have hmem' := List.mem_map_of_mem (f := Prod.snd) (Named.mem_of_find? hx).1
      exact ih i b a x w hb hw ha hx (hv.member hmem') (hhom.member hmem')
        ((Ty.throughout_object.mp hs).2 a (Named.mem_of_find? ha).1)
        ((Ty.throughout_object.mp ht).2 b hmem) (hparts _ (List.mem_map_of_mem hmem))
  | @select s own bs entries filled permitted known targets found missing ih =>
    have hparts := (Ty.hasDynamic_eq_false_iff.mp solid).2
    refine Value.homogeneous_object (Named.forall_mem_of_names targets fun i b w hb hw => ?_)
    have hmem := List.mem_of_getElem? hb
    cases hx : Named.find? b.name entries with
    | none =>
      rw [(missing i b w hb hw hx).2]
      exact Value.homogeneous_of_members rfl
    | some x =>
      have hmem' := List.mem_map_of_mem (f := Prod.snd) (Named.mem_of_find? hx).1
      exact ih i b x w hb hw hx (hv.member hmem') (hhom.member hmem')
        (Ty.throughout_map.mp hs).2 ((Ty.throughout_object.mp ht).2 b hmem)
        (hparts _ (List.mem_map_of_mem hmem))

/-! ### Grounded targets -/

/-- Parts that have one type settle on it. -/
theorem Settles.eq_of_uniform {declared e s : Ty} {ws vs : List Value}
    (h : Settles convert declared ws e vs)
    (solid : declared.hasDynamic = false → declared.stripped = s) (hws : ∀ w ∈ ws, w.ty = s) :
    e = s ∧ vs = ws := by
  cases h with
  | fixed hsolid => exact ⟨solid hsolid, rfl⟩
  | alike _ nonempty all =>
    obtain ⟨first, hfirst⟩ := List.exists_mem_of_ne_nil ws nonempty
    exact ⟨(all first hfirst).symm.trans (hws first hfirst), rfl⟩
  | again _ apart =>
    obtain ⟨w, hw, w', hw', hne⟩ := apart
    exact absurd ((hws w hw).trans (hws w' hw').symm) hne

/-- **Step.** A conversion to a type whose placeholders the source has already gives exactly that
type, and keeps homogeneous values so. -/
theorem Yields.homogeneous_of_grounded (hconvert : HomogeneousBy convert) {safety : Safety}
    {s t : Ty} {v w : Value} (hg : t.Grounded s) (h : Yields convert safety s t v w)
    (hv : v.Sound) (hhom : v.Homogeneous) (hty : v.ty = s) (ht : t.Lawful) :
    w.ty = t.stripped ∧ w.Homogeneous := by
  have hs : s.Plain := hty ▸ hv.ty_plain
  induction hg generalizing v w with
  | solid complete =>
    obtain ⟨hconf, hw⟩ := h.sound hconvert.sound hv hs.lawful ht
    exact ⟨hw.ty_eq hconf complete,
      h.homogeneous_of_solid hconvert hv hhom hs.lawful ht complete⟩
  | blank =>
    cases h with
    | pass => exact ⟨hty, hhom⟩
    | null _ solid | unknown _ solid | keep solid | blankNull solid | blankUnknown solid
    | later solid => exact absurd rfl solid
  | @sequence k l t s hg ih =>
    have ht' := (Ty.throughout_sequence.mp ht).2
    have hs' : s.Plain := hs.part (by simp [Ty.parts])
    cases h with
    | null _ _ refines | unknown _ _ refines =>
      obtain rfl := hty
      exact ⟨(Ty.Grounded.sequence hg).eq_stripped_of_refines ht hs.lawful refines,
        Value.homogeneous_of_members rfl⟩
    | keep => exact ⟨hty.trans hs.unmarked.stripped_eq.symm, hhom⟩
    | emptySequence refines =>
      cases hty
      have hr := hg.eq_stripped_of_refines ht' hs'.lawful (refines.stripped hs'.unmarked)
      exact ⟨by rw [Value.ty, Ty.stripped, hr], Value.homogeneous_of_members rfl⟩
    | sequence nonempty length each settles =>
      cases hty
      have hws := forall_mem_of_getElem? length fun i x w hx hw => by
        have hmem := List.mem_of_getElem? hx
        exact ih (each i x w hx hw) (hv.member hmem) (hhom.member hmem)
          (hhom.here s rfl x hmem) ht' hs'
      obtain ⟨rfl, rfl⟩ := settles.eq_of_uniform (fun _ => rfl) fun w hw => (hws w hw).1
      exact ⟨Value.ty_collect .., Value.homogeneous_collect hws⟩
  | @map t s hg ih =>
    have ht' := (Ty.throughout_map.mp ht).2
    have hs' : s.Plain := hs.part (by simp [Ty.parts])
    cases h with
    | null _ _ refines | unknown _ _ refines =>
      obtain rfl := hty
      exact ⟨(Ty.Grounded.map hg).eq_stripped_of_refines ht hs.lawful refines,
        Value.homogeneous_of_members rfl⟩
    | keep => exact ⟨hty.trans hs.unmarked.stripped_eq.symm, hhom⟩
    | emptyMap refines =>
      cases hty
      have hr := hg.eq_stripped_of_refines ht' hs'.lawful (refines.stripped hs'.unmarked)
      exact ⟨by rw [Value.ty, Ty.stripped, hr], Value.homogeneous_of_members rfl⟩
    | map nonempty length each settles =>
      cases hty
      have hws := forall_mem_of_getElem? length fun i x w hx hw => by
        have hmem := List.mem_map_of_mem (f := Prod.snd) (List.mem_of_getElem? hx)
        exact ih (each i x w hx hw) (hv.member hmem) (hhom.member hmem)
          (hhom.here s rfl x.2 hmem) ht' hs'
      obtain ⟨rfl, rfl⟩ := settles.eq_of_uniform (fun _ => rfl) fun w hw => (hws w hw).1
      exact ⟨rfl, Value.homogeneous_map_zip hws⟩
  | @tuple ts ss hlen hg ih =>
    cases h with
    | null _ _ refines | unknown _ _ refines =>
      obtain rfl := hty
      exact ⟨(Ty.Grounded.tuple hlen hg).eq_stripped_of_refines ht hs.lawful refines,
        Value.homogeneous_of_members rfl⟩
    | keep => exact ⟨hty.trans hs.unmarked.stripped_eq.symm, hhom⟩
    | @tuple _ _ items ws arity source length each =>
      have heach : ∀ (i : Nat) t w, ts[i]? = some t → ws[i]? = some w →
          w.ty = t.stripped ∧ w.Homogeneous := by
        intro i t w htt hw
        obtain ⟨x, hx⟩ := exists_getElem?_of_length length hw
        obtain ⟨s, hss⟩ := exists_getElem?_of_length source hx
        have hmem := List.mem_of_getElem? hx
        have hmem' := List.mem_of_getElem? hss
        exact ih i t s htt hss (each i s t x w hss htt hx hw) (hv.member hmem) (hhom.member hmem)
          (Value.ty_of_tuple hty hx hss)
          ((Ty.throughout_tuple.mp ht).2 t (List.mem_of_getElem? htt))
          (hs.part hmem')
      have hlen' : ts.length = ws.length := arity.symm.trans (source.trans length)
      constructor
      · rw [Value.ty, Ty.stripped, Value.tyAll_eq_map, Ty.strippedAll_eq_map]
        congr 1
        exact map_eq_map_of_getElem? hlen'.symm fun i w t hw htt => (heach i t w htt hw).1
      · exact Value.homogeneous_tuple
          (forall_mem_of_getElem? hlen' fun i t w htt hw => (heach i t w htt hw).2)
  | @object bs as hnames hg ih =>
    cases h with
    | null _ _ refines | unknown _ _ refines =>
      obtain rfl := hty
      exact ⟨(Ty.Grounded.object hnames hg).eq_stripped_of_refines ht hs.lawful refines,
        Value.homogeneous_of_members rfl⟩
    | keep => exact ⟨hty.trans hs.unmarked.stripped_eq.symm, hhom⟩
    | @object _ _ attributes filled names known targets found missing =>
      have heach : ∀ (i : Nat) (b : Attribute Ty) (w : String × Value), bs[i]? = some b →
          filled[i]? = some w → w.2.ty = b.type.stripped ∧ w.2.Homogeneous := by
        intro i b w hb hw
        obtain ⟨a, ha, hfind⟩ :=
          Named.exists_find?_getElem? (Ty.Lawful.ascending hs.lawful) hnames.symm hb
        obtain ⟨x, hx, hfind'⟩ :=
          Named.exists_find?_getElem? hv.here.names (names.symm.trans hnames.symm) hb
        have hmem := List.mem_map_of_mem (f := Prod.snd) (List.mem_of_getElem? hx)
        have hmem' := List.mem_of_getElem? ha
        exact ih i b a hb ha (found i b a x w hb hw hfind hfind') (hv.member hmem)
          (hhom.member hmem) (Value.ty_of_object hty hx ha)
          ((Ty.throughout_object.mp ht).2 b (List.mem_of_getElem? hb))
          (hs.part (List.mem_map_of_mem hmem'))
      constructor
      · exact Value.ty_filled targets fun i b w hb hw => (heach i b w hb hw).1
      · exact Value.homogeneous_object
          (Named.forall_mem_of_names targets fun i b w hb hw => (heach i b w hb hw).2)

/-! ### Sources without placeholders -/

/-- What parts settle on when their types fill the declared one by complete types. -/
theorem Settles.complete (hconvert : HomogeneousBy convert) {declared e : Ty}
    {ws vs : List Value} (h : Settles convert declared ws e vs) (hdeclared : declared.Lawful)
    (hws : ∀ w ∈ ws, w.Sound ∧ w.ty.Fills Ty.Complete declared ∧ w.Homogeneous) :
    e.Fills Ty.Complete declared ∧ ∀ v ∈ vs, v.ty = e ∧ v.Homogeneous := by
  cases h with
  | fixed solid =>
    refine ⟨Ty.fills_stripped.mp (Ty.fills_refl (.inl rfl) _), fun w hw => ?_⟩
    obtain ⟨hsound, hfills, hhom⟩ := hws w hw
    exact ⟨hsound.ty_eq hfills.conforms solid, hhom⟩
  | alike _ nonempty all =>
    obtain ⟨first, hfirst⟩ := List.exists_mem_of_ne_nil ws nonempty
    refine ⟨all first hfirst ▸ (hws first hfirst).2.1, fun w hw => ?_⟩
    exact ⟨all w hw, (hws w hw).2.2⟩
  | again _ _ unified each =>
    have common := Ty.common_of_unify? unified
    have hfills : ∀ t ∈ ws.map Value.ty, t.Fills Ty.Complete declared := fun t ht => by
      obtain ⟨w, hw, rfl⟩ := List.mem_map.mp ht
      exact (hws w hw).2.1
    have hplain : e.Plain := .common common fun t ht => by
      obtain ⟨w, hw, rfl⟩ := List.mem_map.mp ht
      exact (hws w hw).1.ty_plain
    -- converted once more, each part meets only placeholders that it has itself
    have hgrounded := Ty.grounded_of_common common hdeclared hfills
    refine ⟨.common Ty.Complete.common common hdeclared hfills, fun v hv => ?_⟩
    obtain ⟨w, hw, hconv⟩ := exists_of_mem_right each hv
    exact hconvert.grounded (hws w hw).1 (hws w hw).2.2 hplain
      (hgrounded w.ty (List.mem_map_of_mem hw)) hconv

/-- The common type of types without placeholders stands for a placeholder as a complete type. -/
theorem Elects.fills {safety : Safety} {parts : List Ty} {t u e : Ty}
    (h : Elects safety parts t u) (hparts : ∀ p ∈ parts, p.hasDynamic = false)
    (he : e.Fills Ty.Complete u) : e.Fills Ty.Complete t := by
  cases h with
  | common _ unified =>
    have hu : u.hasDynamic = false := (Ty.common_of_unify? unified).solid hparts
    -- what fills a type without placeholders is that type
    have he' : e.hasDynamic = false := by
      rw [← Ty.hasDynamic_stripped, he.conforms.stripped_eq hu, Ty.hasDynamic_stripped, hu]
    exact .hole (.inr he')
  | declared => exact he

/-- **Step.** From a source without placeholders a conversion fills those of the target by
complete types, and keeps homogeneous values so. -/
theorem Yields.homogeneous_of_complete (hconvert : HomogeneousBy convert) {safety : Safety}
    {s t : Ty} {v w : Value} (h : Yields convert safety s t v w) (hv : v.Sound)
    (hhom : v.Homogeneous) (hty : v.ty = s) (hs : s.hasDynamic = false) (ht : t.Lawful) :
    w.ty.Fills Ty.Complete t ∧ w.Homogeneous := by
  have keep : ∀ t : Ty, t.Fills Ty.Complete t := Ty.fills_refl (.inl rfl)
  have stripped : ∀ t : Ty, t.stripped.Fills Ty.Complete t := fun t => Ty.fills_stripped.mp (keep _)
  have hlaw : s.Lawful := hty ▸ hv.ty_plain.lawful
  induction h with
  | null _ _ refines | unknown _ _ refines =>
    obtain rfl := hty
    refine ⟨Ty.fills_stripped.mp (refines.fills_complete (.inr hs)), ?_⟩
    exact Value.homogeneous_of_members rfl
  | keep => exact ⟨hty ▸ keep _, hhom⟩
  | pass => exact ⟨.hole (.inr (hty ▸ hs)), hhom⟩
  | blankNull | blankUnknown | later => cases hs
  | primitive _ data converted =>
    obtain ⟨hw, hdata⟩ := Value.ty_toPrimitive data converted
    exact ⟨hw ▸ keep _, Value.homogeneous_of_primitive hw hdata⟩
  | @emptySequence k l m s t own r refines =>
    cases hty
    have hplain : s.Plain := hv.here.plain s (by simp [Value.recorded])
    refine ⟨.sequence ?_, Value.homogeneous_of_members rfl⟩
    exact Ty.fills_stripped.mp ((refines.stripped hplain.unmarked).fills_complete (.inr hs))
  | @sequence k l m s t own e items ws vs nonempty length each settles ih =>
    cases hty
    have ht' := (Ty.throughout_sequence.mp ht).2
    have hs' := (Ty.throughout_sequence.mp hlaw).2
    have hws := forall_mem_of_getElem? length fun i x w hx hw => by
      have hmem := List.mem_of_getElem? hx
      exact And.intro ((each i x w hx hw).sound hconvert.sound (hv.member hmem) hs' ht').2
        (ih i x w hx hw (hv.member hmem) (hhom.member hmem) (hhom.here s rfl x hmem) hs ht' hs')
    obtain ⟨hfills, hvs⟩ := settles.complete hconvert ht' hws
    rw [Value.ty_collect]
    exact ⟨.sequence hfills, Value.homogeneous_collect hvs⟩
  | @emptyMap s t own r refines =>
    cases hty
    have hplain : s.Plain := hv.here.plain s (by simp [Value.recorded])
    refine ⟨.map ?_, Value.homogeneous_of_members rfl⟩
    exact Ty.fills_stripped.mp ((refines.stripped hplain.unmarked).fills_complete (.inr hs))
  | @map s t own e entries ws vs nonempty length each settles ih =>
    cases hty
    have ht' := (Ty.throughout_map.mp ht).2
    have hs' := (Ty.throughout_map.mp hlaw).2
    have hws := forall_mem_of_getElem? length fun i x w hx hw => by
      have hmem := List.mem_map_of_mem (f := Prod.snd) (List.mem_of_getElem? hx)
      exact And.intro ((each i x w hx hw).sound hconvert.sound (hv.member hmem) hs' ht').2
        (ih i x w hx hw (hv.member hmem) (hhom.member hmem) (hhom.here s rfl x.2 hmem) hs ht' hs')
    obtain ⟨hfills, hvs⟩ := settles.complete hconvert ht' hws
    exact ⟨.map hfills, Value.homogeneous_map_zip hvs⟩
  | emptyTuple => exact ⟨.sequence (stripped _), Value.homogeneous_of_members rfl⟩
  | @positions l ss t u e items ws vs nonempty elects arity length each settles ih =>
    have hparts := (Ty.hasDynamic_eq_false_iff.mp hs).2
    have hss := (Ty.throughout_tuple.mp hlaw).2
    have hu := (elects.lawful (Ty.throughout_sequence.mp ht).2 hss).1
    have hws := forall_mem_of_getElem? length fun i x w hx hw => by
      obtain ⟨s, hsi⟩ := exists_getElem?_of_length arity hx
      have hmem := List.mem_of_getElem? hx
      have hmem' := List.mem_of_getElem? hsi
      have hsound := (each i s x w hsi hx hw).sound hconvert.sound (hv.member hmem)
        (hss s hmem') hu
      exact And.intro hsound.2 (ih i s x w hsi hx hw (hv.member hmem) (hhom.member hmem)
        (Value.ty_of_tuple hty hx hsi) (hparts s hmem') hu (hss s hmem'))
    obtain ⟨hfills, hvs⟩ := settles.complete hconvert hu hws
    rw [Value.ty_collect]
    exact ⟨.sequence (elects.fills hparts hfills), Value.homogeneous_collect hvs⟩
  | emptyObject => exact ⟨.map (stripped _), Value.homogeneous_of_members rfl⟩
  | @gather as t u e attributes ws vs nonempty elects names length each settles ih =>
    have hparts := (Ty.hasDynamic_eq_false_iff.mp hs).2
    have has := (Ty.throughout_object.mp hlaw).2
    have hu := (elects.lawful (Ty.throughout_map.mp ht).2 (List.forall_mem_map.mpr has)).1
    have hws := forall_mem_of_getElem? length fun i x w hx hw => by
      obtain ⟨a, ha, -⟩ := Named.exists_getElem? names hx
      have hmem := List.mem_map_of_mem (f := Prod.snd) (List.mem_of_getElem? hx)
      have hmem' := List.mem_of_getElem? ha
      have hsound := (each i a x w ha hx hw).sound hconvert.sound (hv.member hmem)
        (has a hmem') hu
      exact And.intro hsound.2 (ih i a x w ha hx hw (hv.member hmem) (hhom.member hmem)
        (Value.ty_of_object hty hx ha) (hparts _ (List.mem_map_of_mem hmem')) hu (has a hmem'))
    obtain ⟨hfills, hvs⟩ := settles.complete hconvert hu hws
    exact ⟨.map (elects.fills hparts hfills), Value.homogeneous_map_zip hvs⟩
  | @tuple ss ts items ws arity source length each ih =>
    have hparts := (Ty.hasDynamic_eq_false_iff.mp hs).2
    have hlen : ts.length = ws.length := arity.symm.trans (source.trans length)
    have heach : ∀ (i : Nat) t w, ts[i]? = some t → ws[i]? = some w →
        w.ty.Fills Ty.Complete t ∧ w.Homogeneous := by
      intro i t w hti hw
      obtain ⟨x, hx⟩ := exists_getElem?_of_length length hw
      obtain ⟨s, hsi⟩ := exists_getElem?_of_length source hx
      have hmem := List.mem_of_getElem? hx
      have hmem' := List.mem_of_getElem? hsi
      exact ih i s t x w hsi hti hx hw (hv.member hmem) (hhom.member hmem)
        (Value.ty_of_tuple hty hx hsi) (hparts s hmem')
        ((Ty.throughout_tuple.mp ht).2 t (List.mem_of_getElem? hti))
        ((Ty.throughout_tuple.mp hlaw).2 s hmem')
    constructor
    · exact Value.fills_tuple hlen.symm fun i w t hw hti => (heach i t w hti hw).1
    · exact Value.homogeneous_tuple
        (forall_mem_of_getElem? hlen fun i t w hti hw => (heach i t w hti hw).2)
  | @object as bs attributes filled names known targets found missing ih =>
    have hparts := (Ty.hasDynamic_eq_false_iff.mp hs).2
    have heach : ∀ (i : Nat) (b : Attribute Ty) (w : String × Value), bs[i]? = some b →
        filled[i]? = some w → w.2.ty.Fills Ty.Complete b.type ∧ w.2.Homogeneous := by
      intro i b w hb hw
      cases hx : Named.find? b.name attributes with
      | none =>
        rw [(missing i b w hb hw hx).2]
        exact ⟨stripped _, Value.homogeneous_of_members rfl⟩
      | some x =>
        obtain ⟨a, ha⟩ := Named.exists_find? names hx
        have hmem := List.mem_map_of_mem (f := Prod.snd) (Named.mem_of_find? hx).1
        have hmem' := (Named.mem_of_find? ha).1
        exact ih i b a x w hb hw ha hx (hv.member hmem) (hhom.member hmem)
          (Value.ty_of_find? hty hv.here.names ha hx) (hparts _ (List.mem_map_of_mem hmem'))
          ((Ty.throughout_object.mp ht).2 b (List.mem_of_getElem? hb))
          ((Ty.throughout_object.mp hlaw).2 a hmem')
    constructor
    · exact Value.fills_object targets fun i w b hw hb => (heach i b w hb hw).1
    · exact Value.homogeneous_object
        (Named.forall_mem_of_names targets fun i b w hb hw => (heach i b w hb hw).2)
  | @select s own bs entries filled permitted known targets found missing ih =>
    cases hty
    have heach : ∀ (i : Nat) (b : Attribute Ty) (w : String × Value), bs[i]? = some b →
        filled[i]? = some w → w.2.ty.Fills Ty.Complete b.type ∧ w.2.Homogeneous := by
      intro i b w hb hw
      cases hx : Named.find? b.name entries with
      | none =>
        rw [(missing i b w hb hw hx).2]
        exact ⟨stripped _, Value.homogeneous_of_members rfl⟩
      | some x =>
        have hmem := List.mem_map_of_mem (f := Prod.snd) (Named.mem_of_find? hx).1
        exact ih i b x w hb hw hx (hv.member hmem) (hhom.member hmem)
          (hhom.here s rfl x.2 hmem) hs
          ((Ty.throughout_object.mp ht).2 b (List.mem_of_getElem? hb)) (Ty.throughout_map.mp hlaw).2
    constructor
    · exact Value.fills_object targets fun i w b hw hb => (heach i b w hb hw).1
    · exact Value.homogeneous_object
        (Named.forall_mem_of_names targets fun i b w hb hw => (heach i b w hb hw).2)

/-! ### Secure targets -/

end Conversion

/-- Placeholders inside the target's collections meet no placeholders of the source: the target
has only those that the source has, or the source has none, or the members are kept as they are.
Tuples and objects may differ from part to part. -/
inductive Ty.Secure : Ty → Ty → Prop
  | grounded {t s : Ty} (grounded : t.Grounded s) : Secure t s
  | complete {t s : Ty} (complete : s.hasDynamic = false) : Secure t s
  | whole {s : Ty} : Secure .dynamic s
  | items {k l : SequenceKind} {s : Ty} : Secure (.sequence k .dynamic) (.sequence l s)
  | entries {s : Ty} : Secure (.map .dynamic) (.map s)
  | tuple {ts ss : List Ty}
      (each : ∀ (i : Nat) t s, ts[i]? = some t → ss[i]? = some s → Secure t s) :
      Secure (.tuple ts) (.tuple ss)
  | object {bs as : List (Attribute Ty)}
      (each : ∀ b ∈ bs, ∀ a, Named.find? b.name as = some a → Secure b.type a.type) :
      Secure (.object bs) (.object as)

namespace Conversion

variable {convert : Value → Ty → Except Fault Value}

/-- A part that is handed on is kept. -/
theorem Yields.eq_of_dynamic {safety : Safety} {s : Ty} {v w : Value}
    (h : Yields convert safety s .dynamic v w) : w = v := by
  cases h with
  | pass => rfl
  | null _ solid | unknown _ solid | keep solid | blankNull solid | blankUnknown solid
  | later solid => exact absurd rfl solid

/-- **Step.** A conversion to a secure target keeps homogeneous values so. -/
theorem Yields.homogeneous_of_secure (hconvert : HomogeneousBy convert) {safety : Safety}
    {s t : Ty} {v w : Value} (hsecure : t.Secure s) (h : Yields convert safety s t v w)
    (hv : v.Sound) (hhom : v.Homogeneous) (hty : v.ty = s) (ht : t.Lawful) : w.Homogeneous := by
  induction hsecure generalizing v w with
  | grounded hg => exact (h.homogeneous_of_grounded hconvert hg hv hhom hty ht).2
  | complete hs => exact (h.homogeneous_of_complete hconvert hv hhom hty hs ht).2
  | whole => exact h.eq_of_dynamic ▸ hhom
  | @items k l s =>
    cases h with
    | null | unknown | emptySequence => exact Value.homogeneous_of_members rfl
    | keep => exact hhom
    | @sequence _ _ _ _ _ _ _ _ ws _ nonempty length each settles =>
      cases hty
      have hws : ∀ w ∈ ws, w.ty = s ∧ w.Homogeneous := by
        refine forall_mem_of_getElem? length fun i x w hx hw => ?_
        have hmem := List.mem_of_getElem? hx
        rw [(each i x w hx hw).eq_of_dynamic]
        exact And.intro (hhom.here s rfl x hmem) (hhom.member hmem)
      obtain ⟨rfl, rfl⟩ := settles.eq_of_uniform nofun fun w hw => (hws w hw).1
      exact Value.homogeneous_collect hws
  | @entries s =>
    cases h with
    | null | unknown | emptyMap => exact Value.homogeneous_of_members rfl
    | keep => exact hhom
    | @map _ _ _ _ _ ws _ nonempty length each settles =>
      cases hty
      have hws : ∀ w ∈ ws, w.ty = s ∧ w.Homogeneous := by
        refine forall_mem_of_getElem? length fun i x w hx hw => ?_
        have hmem := List.mem_map_of_mem (f := Prod.snd) (List.mem_of_getElem? hx)
        rw [(each i x w hx hw).eq_of_dynamic]
        exact And.intro (hhom.here s rfl x.2 hmem) (hhom.member hmem)
      obtain ⟨rfl, rfl⟩ := settles.eq_of_uniform nofun fun w hw => (hws w hw).1
      exact Value.homogeneous_map_zip hws
  | tuple _ ih =>
    cases h with
    | null | unknown => exact Value.homogeneous_of_members rfl
    | keep => exact hhom
    | tuple arity source length each =>
      refine Value.homogeneous_tuple (forall_mem_of_getElem? length fun i x w hx hw => ?_)
      obtain ⟨s, hsi⟩ := exists_getElem?_of_length source hx
      obtain ⟨t, hti⟩ := exists_getElem?_of_length arity.symm hsi
      have hmem := List.mem_of_getElem? hx
      exact ih i t s hti hsi (each i s t x w hsi hti hx hw) (hv.member hmem) (hhom.member hmem)
        (Value.ty_of_tuple hty hx hsi) ((Ty.throughout_tuple.mp ht).2 t (List.mem_of_getElem? hti))
  | object _ ih =>
    cases h with
    | null | unknown => exact Value.homogeneous_of_members rfl
    | keep => exact hhom
    | @object _ _ attributes filled names known targets found missing =>
      refine Value.homogeneous_object (Named.forall_mem_of_names targets fun i b w hb hw => ?_)
      cases hx : Named.find? b.name attributes with
      | none =>
        rw [(missing i b w hb hw hx).2]
        exact Value.homogeneous_of_members rfl
      | some x =>
        obtain ⟨a, ha⟩ := Named.exists_find? names hx
        have hmem := List.mem_map_of_mem (f := Prod.snd) (Named.mem_of_find? hx).1
        have hmem' := List.mem_of_getElem? hb
        exact ih b hmem' a ha (found i b a x w hb hw ha hx) (hv.member hmem) (hhom.member hmem)
          (Value.ty_of_find? hty hv.here.names ha hx) ((Ty.throughout_object.mp ht).2 b hmem')

/-! ### Conversions of any depth -/

/-- **Run.** Conversions to targets that leave no choice keep homogeneous values so, however deep
open parts are nested. -/
theorem homogeneousBy_convertWithin (levels : Nat) :
    HomogeneousBy (Value.convertWithin levels) := by
  induction levels with
  | zero =>
    refine ⟨sound_convertWithin 0, fun _ _ _ _ h => ?_, fun _ _ _ _ h => ?_⟩
    · cases h
    · cases h
  | succ levels ih =>
    refine ⟨sound_convertWithin _, fun hv hhom ht solid h => ?_, fun hv hhom ht hg h => ?_⟩
    · obtain ⟨-, rfl⟩ | ⟨below, c, hlevels, hc, happly⟩ := convertWithin_cases h
      · exact hhom
      · cases hlevels
        have hyields := yields_of_apply (plan_of_between? hc) hv (Ty.conforms_refl _) happly
        exact hyields.homogeneous_of_solid ih hv hhom hv.ty_plain.lawful ht solid
    · obtain ⟨hsame, rfl⟩ | ⟨below, c, hlevels, hc, happly⟩ := convertWithin_cases h
      · exact ⟨hsame, hhom⟩
      · cases hlevels
        have hyields := yields_of_apply (plan_of_between? hc) hv (Ty.conforms_refl _) happly
        have hresult := hyields.homogeneous_of_grounded ih hg hv hhom rfl ht.lawful
        rwa [ht.unmarked.stripped_eq] at hresult

theorem homogeneousBy_convert : HomogeneousBy Value.convert :=
  ⟨sound_convert,
    fun {v _ t} hv hhom ht solid h =>
      (homogeneousBy_convertWithin (Value.rank v t)).solid hv hhom ht solid h,
    fun {v _ t} hv hhom ht hg h =>
      (homogeneousBy_convertWithin (Value.rank v t)).grounded hv hhom ht hg h⟩

end Conversion

/-- **Homogeneity.** A converted value is well formed exactly if no member of a collection in it
has filled a placeholder that the collection leaves open; and it is if the target is secure. -/
theorem wellFormed_convert_iff {v w : Value} {want : Ty} (hv : v.WellFormed)
    (hmarks : v.Unmarked) (hnames : v.Lawful) (hwant : want.Lawful)
    (h : v.convert want = .ok w) :
    (w.WellFormed ↔ w.Everywhere Value.Unfilled) ∧ (want.Secure v.ty → w.WellFormed) := by
  have hsound := hv.sound hmarks hnames
  have hw := (Conversion.sound_convert hsound hwant h).2
  refine ⟨hw.wellFormed_iff.trans hw.homogeneous_iff, fun hsecure => hw.wellFormed_iff.mpr ?_⟩
  obtain ⟨-, rfl⟩ | ⟨below, c, -, hc, happly⟩ := Conversion.convertWithin_cases h
  · exact hv.homogeneous
  · have hyields := Conversion.yields_of_apply (Conversion.plan_of_between? hc) hsound
      (Ty.conforms_refl _) happly
    exact hyields.homogeneous_of_secure (Conversion.homogeneousBy_convertWithin below) hsecure
      hsound hv.homogeneous rfl hwant

/-- The type of the object has no placeholder, so the target is secure, although its lists are
converted twice. -/
theorem wellFormed_convert_object_to_map :
    let v : Value := .object [("a", .list .bool [.bool true]),
      ("b", .set .string [.string "x", .unknown .string])]
    let w : Value := .map (.list .string) [("a", .list .string [.string "true"]),
      ("b", .list .string [.string "x", .unknown .string])]
    v.WellFormed ∧ v.Unmarked ∧ v.Lawful ∧ (Ty.map (.list .dynamic)).Lawful ∧
      (Ty.map (.list .dynamic)).Secure v.ty ∧ v.convert (.map (.list .dynamic)) = .ok w ∧
      w.WellFormed := by
  refine ⟨by decide, by decide, by decide, by decide, .complete (by decide), by cbv, ?_⟩
  have hconvert : Value.convert (.object [("a", .list .bool [.bool true]),
      ("b", .set .string [.string "x", .unknown .string])]) (.map (.list .dynamic)) =
      .ok (.map (.list .string) [("a", .list .string [.string "true"]),
        ("b", .list .string [.string "x", .unknown .string])]) := by cbv
  exact (wellFormed_convert_iff (by decide) (by decide) (by decide) (by decide) hconvert).2
    (.complete (by decide))

/-- A tuple of a list of sets and the null of a type of lists, in a list of lists: their common
type is open where the null is, and there the list of sets, converted once more, has numbers. -/
theorem not_wellFormed_convert_tuple :
    let v : Value := .tuple [.list (.set .number) [.set .number [.number ⟨1, 0⟩]],
      .null (.list (.list .dynamic))]
    let w : Value := .list (.list (.list .dynamic))
      [.list (.list .number) [.list .number [.number ⟨1, 0⟩]], .null (.list (.list .dynamic))]
    v.WellFormed ∧ v.Unmarked ∧ v.Lawful ∧ v.convert (.list (.list .dynamic)) = .ok w ∧
      ¬w.WellFormed :=
  ⟨by decide, by decide, by decide, by cbv, by decide⟩

end Retype
