import Retype.Proofs.Conversion.Yields
import Retype.Proofs.Value.Equality

/-!
# Type soundness of conversion

The type of a converted value is the target, except where the target has a placeholder, and no
type recorded in it has an optional mark.

The result type is put together in many places: from the declared element type of an empty
collection, from the types that converted parts happen to have, from the refined type of a null.
All of them conform to the target for one reason: what is declared is only ever refined, and
types that conform to a pattern have a common type that conforms to it. Since parts that were
converted once may be converted again before they are well formed, the induction is about
`Value.Sound` values:

* `Settles.sound`: what converted parts settle on conforms to the declared element type;
* `Yields.sound`: one conversion, given that the conversion of open parts is sound;
* `sound_convertWithin`: conversions of any depth, by induction on the depth.
-/

namespace Retype

namespace Value

/-! ### The type of a sound value -/

theorem WellFormed.sound {v : Value} (hv : v.WellFormed) (hmarks : v.Unmarked)
    (hnames : v.Lawful) : v.Sound := by
  refine ((hv.and hmarks).and hnames).mono fun v h => ?_
  obtain ⟨⟨⟨uniform, distinct⟩, marks⟩, lawful, names⟩ := h
  refine ⟨fun e he m hm => ?_, fun e items hset => ?_, fun t ht => ⟨marks t ht, lawful t ht⟩, names⟩
  · rw [uniform e he m hm]
    exact Ty.conforms_refl e
  · refine (distinct e items hset).imp @fun x y hxy hx hy => ?_
    -- the test for duplicates asks for equality in the other direction
    have hyx : y.same x = false := by
      by_contra hsame
      have := same_symm (by simpa using hsame)
      rw [hxy hx hy] at this
      cases this
    simp [duplicates, hyx]

/-- The type of a value has the layouts of the types it records and of its own attributes. -/
theorem throughout_ty {q : List (String × Bool) → Prop} (hq : Ty.Stable q) {v : Value}
    (h : v.Everywhere fun v =>
      (∀ t ∈ v.recorded, t.Throughout q) ∧ q (v.keys.map fun key => (key, false))) :
    v.ty.Throughout q := by
  induction v with
  | null t | unknown t => exact h.here.1 t (by simp [recorded])
  | string a => exact Ty.throughout_primitive.mpr hq.nil
  | number a => exact Ty.throughout_primitive.mpr hq.nil
  | bool a => exact Ty.throughout_primitive.mpr hq.nil
  | capsule n i => exact Ty.throughout_capsule.mpr hq.nil
  | sequence k e items =>
    exact Ty.throughout_sequence.mpr ⟨hq.nil, h.here.1 e (by simp [recorded])⟩
  | map e entries => exact Ty.throughout_map.mpr ⟨hq.nil, h.here.1 e (by simp [recorded])⟩
  | tuple items ih =>
    rw [ty, tyAll_eq_map, Ty.throughout_tuple]
    refine ⟨hq.nil, fun t ht => ?_⟩
    obtain ⟨v, hv, rfl⟩ := List.mem_map.mp ht
    exact ih v hv (h.member hv)
  | object attributes ih =>
    rw [ty, tyAttributes_eq_map, Ty.throughout_object]
    refine ⟨?_, fun a ha => ?_⟩
    · simpa [keys, entries?, Function.comp_def] using h.here.2
    · obtain ⟨x, hx, rfl⟩ := List.mem_map.mp ha
      exact ih x hx (h.member (List.mem_map_of_mem hx))

theorem Sound.ty_plain {v : Value} (hv : v.Sound) : v.ty.Plain where
  unmarked := throughout_ty Ty.stable_unmarked <| hv.mono fun v h =>
    ⟨fun t ht => (h.plain t ht).unmarked, by simp⟩
  lawful := throughout_ty Ty.stable_lawful <| hv.mono fun v h =>
    ⟨fun t ht => (h.plain t ht).lawful, by simpa [Function.comp_def] using h.names⟩

/-- A type that conforms to one without placeholders is that type. -/
theorem Sound.ty_eq {v : Value} {t : Ty} (hv : v.Sound) (h : v.ty.Conforms t)
    (solid : t.hasDynamic = false) : v.ty = t.stripped := by
  rw [← h.stripped_eq solid, hv.ty_plain.unmarked.stripped_eq]

theorem Sound.unmarked {v : Value} (hv : v.Sound) : v.Unmarked :=
  hv.mono fun _ h t ht => (h.plain t ht).unmarked

/-! ### Building sound values -/

theorem sound_null {t : Ty} (ht : t.Plain) : (Value.null t).Sound :=
  .intro ⟨by simp [element?], by simp [Distinct], by simpa [recorded] using ht, by simp [keys, entries?]⟩
    (by simp [members])

theorem sound_unknown {t : Ty} (ht : t.Plain) : (Value.unknown t).Sound :=
  .intro ⟨by simp [element?], by simp [Distinct], by simpa [recorded] using ht, by simp [keys, entries?]⟩
    (by simp [members])

theorem sound_list {e : Ty} {vs : List Value} (he : e.Plain)
    (hvs : ∀ v ∈ vs, v.ty.Conforms e ∧ v.Sound) : (Value.list e vs).Sound := by
  refine .intro ⟨?_, by simp [Distinct], by simpa [recorded] using he, by simp [keys, entries?]⟩
    fun v hv => (hvs v hv).2
  intro d hd v hv
  cases hd
  exact (hvs v hv).1

theorem sound_set {e : Ty} {vs : List Value} (he : e.Plain)
    (hvs : ∀ v ∈ vs, v.ty.Conforms e ∧ v.Sound) : (Value.set e (dedup vs)).Sound := by
  refine .intro ⟨?_, ?_, by simpa [recorded] using he, by simp [keys, entries?]⟩
    fun v hv => (hvs v (mem_of_mem_dedupFrom hv)).2
  · intro d hd v hv
    cases hd
    exact (hvs v (mem_of_mem_dedupFrom hv)).1
  · intro d items hset
    cases hset
    exact pairwise_dedupFrom [] vs

theorem sound_empty {k : SequenceKind} {e : Ty} (he : e.Plain) : (Value.sequence k e []).Sound := by
  cases k with
  | list => exact sound_list he (by simp)
  | set => exact @sound_set e [] he (by simp)

theorem sound_collect {k : SequenceKind} {e : Ty} {vs : List Value} (he : e.Plain)
    (hvs : ∀ v ∈ vs, v.ty.Conforms e ∧ v.Sound) : (collect k e vs).Sound := by
  cases k with
  | list => exact sound_list he hvs
  | set => exact sound_set he hvs

@[simp] theorem ty_collect (k : SequenceKind) (e : Ty) (vs : List Value) :
    (collect k e vs).ty = .sequence k e := by
  cases k <;> rfl

theorem sound_map {e : Ty} {entries : List (String × Value)} (he : e.Plain)
    (hnames : Named.Ascending entries) (hall : ∀ x ∈ entries, x.2.ty.Conforms e ∧ x.2.Sound) :
    (Value.map e entries).Sound := by
  refine .intro ⟨?_, by simp [Distinct], by simpa [recorded] using he, hnames⟩ fun v hv => ?_
  · intro d hd v hv
    cases hd
    obtain ⟨x, hx, rfl⟩ := List.mem_map.mp hv
    exact (hall x hx).1
  · obtain ⟨x, hx, rfl⟩ := List.mem_map.mp hv
    exact (hall x hx).2

theorem ascending_zip {entries : List (String × Value)} {vs : List Value}
    (hlen : entries.length = vs.length) (h : Named.Ascending entries) :
    Named.Ascending ((entries.map Prod.fst).zip vs) := by
  rw [Named.Ascending, Named.names_zip hlen]
  exact h

theorem sound_map_zip {e : Ty} {entries : List (String × Value)} {vs : List Value} (he : e.Plain)
    (hlen : entries.length = vs.length) (hnames : Named.Ascending entries)
    (hvs : ∀ v ∈ vs, v.ty.Conforms e ∧ v.Sound) :
    (Value.map e ((entries.map Prod.fst).zip vs)).Sound :=
  sound_map he (ascending_zip hlen hnames) fun _ hx => hvs _ (List.of_mem_zip hx).2

theorem sound_tuple {items : List Value} (hall : ∀ v ∈ items, v.Sound) :
    (Value.tuple items).Sound :=
  .intro ⟨by simp [element?], by simp [Distinct], by simp [recorded], by simp [keys, entries?]⟩ hall

theorem sound_object {attributes : List (String × Value)} (hnames : Named.Ascending attributes)
    (hall : ∀ x ∈ attributes, x.2.Sound) : (Value.object attributes).Sound := by
  refine .intro ⟨by simp [element?], by simp [Distinct], by simp [recorded], hnames⟩ fun v hv => ?_
  obtain ⟨x, hx, rfl⟩ := List.mem_map.mp hv
  exact hall x hx

theorem fills_tuple {P : Ty → Prop} {items : List Value} {ts : List Ty}
    (hlen : items.length = ts.length)
    (heach : ∀ (i : Nat) v t, items[i]? = some v → ts[i]? = some t → v.ty.Fills P t) :
    (Value.tuple items).ty.Fills P (.tuple ts) := by
  rw [ty, tyAll_eq_map]
  refine .tuple (by simpa using hlen) fun i s t hs ht => ?_
  obtain ⟨v, hv, rfl⟩ := Option.map_eq_some_iff.mp ((List.getElem?_map ..).symm.trans hs)
  exact heach i v t hv ht

theorem fills_object {P : Ty → Prop} {attributes : List (String × Value)}
    {bs : List (Attribute Ty)} (hnames : Named.names attributes = Named.names bs)
    (heach : ∀ (i : Nat) (x : String × Value) (b : Attribute Ty), attributes[i]? = some x →
      bs[i]? = some b → x.2.ty.Fills P b.type) :
    (Value.object attributes).ty.Fills P (.object bs) := by
  rw [ty, tyAttributes_eq_map]
  refine .object ?_ fun i a b ha hb => ?_
  · simpa [Named.names, Named.name, Function.comp_def] using hnames
  · obtain ⟨x, hx, rfl⟩ := Option.map_eq_some_iff.mp ((List.getElem?_map ..).symm.trans ha)
    exact heach i x b hx hb

/-- An object whose attributes were filled one by one. -/
theorem sound_filled {bs : List (Attribute Ty)} {filled : List (String × Value)}
    (hbs : Named.Ascending bs) (hnames : Named.names filled = Named.names bs)
    (heach : ∀ (i : Nat) (b : Attribute Ty) (w : String × Value), bs[i]? = some b →
      filled[i]? = some w → w.2.ty.Conforms b.type ∧ w.2.Sound) :
    (Value.object filled).ty.Conforms (.object bs) ∧ (Value.object filled).Sound := by
  refine ⟨fills_object hnames fun i w b hw hb => (heach i b w hb hw).1, sound_object ?_ ?_⟩
  · rw [Named.Ascending, hnames]
    exact hbs
  · exact Named.forall_mem_of_names hnames fun i b w hb hw => (heach i b w hb hw).2

/-- A value that records nothing and has nothing inside is sound. -/
theorem sound_of_primitive {k : Primitive} {w : Value} (hw : w.ty = .primitive k)
    (data : w.isConcrete = true) : w.Sound := by
  refine .intro ⟨?_, ?_, ?_, ?_⟩ ?_
  all_goals
    cases w <;> simp_all [ty, isConcrete, isNull, isUnknown, element?, Distinct, recorded, keys,
      entries?, members]

/-- Plain data becomes plain data of the kind that is asked for. -/
theorem ty_toPrimitive {k : Primitive} {v w : Value} (data : v.isConcrete = true)
    (h : v.toPrimitive k = .ok w) : w.ty = .primitive k ∧ w.isConcrete = true := by
  cases v with
  | null i | unknown i => cases data
  | string a =>
    cases k with
    | string => cases h; exact ⟨rfl, rfl⟩
    | number =>
      rw [toPrimitive] at h
      cases hparse : Decimal.parse? a with
      | none => rw [hparse] at h; cases h
      | some n => rw [hparse] at h; cases h; exact ⟨rfl, rfl⟩
    | bool =>
      rw [toPrimitive] at h
      cases hparse : boolOfText? a with
      | none => rw [hparse] at h; cases h
      | some b => rw [hparse] at h; cases h; exact ⟨rfl, rfl⟩
  | number n => cases k <;> cases h <;> exact ⟨rfl, rfl⟩
  | bool b => cases k <;> cases h <;> exact ⟨rfl, rfl⟩
  | _ => cases h

end Value

namespace Conversion

variable {convert : Value → Ty → Except Fault Value}

/-- A way to convert values that gives sound values of the type that is asked for. -/
def SoundBy (convert : Value → Ty → Except Fault Value) : Prop :=
  ∀ {v w : Value} {t : Ty}, v.Sound → t.Lawful → convert v t = .ok w → w.ty.Conforms t ∧ w.Sound

/-- What converted parts settle on conforms to what was declared, and the parts conform to it. -/
theorem Settles.sound (hconvert : SoundBy convert) {declared e : Ty} {ws vs : List Value}
    (h : Settles convert declared ws e vs) (hdeclared : declared.Lawful)
    (hws : ∀ w ∈ ws, w.ty.Conforms declared ∧ w.Sound) :
    e.Conforms declared ∧ e.Plain ∧ ws.length = vs.length ∧
      ∀ v ∈ vs, v.ty.Conforms e ∧ v.Sound := by
  cases h with
  | fixed solid =>
    refine ⟨Ty.stripped_conforms _, hdeclared.plain_stripped, rfl, fun w hw => ?_⟩
    exact ⟨Ty.conforms_stripped.mpr (hws w hw).1, (hws w hw).2⟩
  | alike unsettled nonempty all =>
    obtain ⟨first, hfirst⟩ := List.exists_mem_of_ne_nil ws nonempty
    have hty := all first hfirst
    refine ⟨hty ▸ (hws first hfirst).1, hty ▸ (hws first hfirst).2.ty_plain, rfl, fun w hw => ?_⟩
    exact ⟨all w hw ▸ Ty.conforms_refl _, (hws w hw).2⟩
  | again unsettled _ unified each =>
    have common := Ty.common_of_unify? unified
    -- the common type has the layouts of the types of the parts
    have hplain : e.Plain := .common common fun t ht => by
      obtain ⟨w, hw, rfl⟩ := List.mem_map.mp ht
      exact (hws w hw).2.ty_plain
    refine ⟨.common common hdeclared fun t ht => ?_, hplain, each.length_eq, fun v hv => ?_⟩
    · obtain ⟨w, hw, rfl⟩ := List.mem_map.mp ht
      exact (hws w hw).1
    · obtain ⟨w, hw, hconv⟩ := exists_of_mem_right each hv
      exact hconvert (hws w hw).2 hplain.lawful hconv

/-- The type that parts are converted to is lawful, and conforms to the declared one. -/
theorem Elects.lawful {safety : Safety} {parts : List Ty} {t u : Ty}
    (h : Elects safety parts t u) (ht : t.Lawful) (hparts : ∀ p ∈ parts, p.Lawful) :
    u.Lawful ∧ u.Conforms t := by
  cases h with
  | common nonempty unified =>
    exact ⟨Ty.Throughout.common Ty.stable_lawful (Ty.common_of_unify? unified) hparts,
      Ty.conforms_dynamic u⟩
  | declared => exact ⟨ht, Ty.conforms_refl t⟩

/-- **Step.** What a conversion yields is sound and conforms to the target, if this is so of the
conversion of open parts. -/
theorem Yields.sound (hconvert : SoundBy convert) {safety : Safety} {s t : Ty} {v w : Value}
    (h : Yields convert safety s t v w) (hv : v.Sound) (hs : s.Lawful) (ht : t.Lawful) :
    w.ty.Conforms t ∧ w.Sound := by
  induction h with
  | null source solid refines =>
    refine ⟨Ty.conforms_stripped.mp refines.conforms, Value.sound_null ?_⟩
    exact .refines refines ht.plain_stripped hv.ty_plain
  | unknown source solid refines =>
    refine ⟨Ty.conforms_stripped.mp refines.conforms, Value.sound_unknown ?_⟩
    exact .refines refines ht.plain_stripped hv.ty_plain
  | keep solid data conforms => exact ⟨conforms, hv⟩
  | pass => exact ⟨Ty.conforms_dynamic _, hv⟩
  | blankNull solid => exact ⟨Ty.stripped_conforms _, Value.sound_null ht.plain_stripped⟩
  | blankUnknown solid => exact ⟨Ty.stripped_conforms _, Value.sound_unknown ht.plain_stripped⟩
  | later solid known converted => exact hconvert hv ht converted
  | primitive permitted data converted =>
    obtain ⟨hty, hdata⟩ := Value.ty_toPrimitive data converted
    exact ⟨hty ▸ Ty.conforms_refl _, Value.sound_of_primitive hty hdata⟩
  | @emptySequence k l m s t own r refines =>
    have hown : own.Plain := hv.here.plain own (by simp [Value.recorded])
    have hr : r.Lawful := .refines Ty.stable_lawful refines (Ty.throughout_sequence.mp ht).2
      hown.lawful
    refine ⟨.sequence ((Ty.stripped_conforms r).trans refines.conforms), ?_⟩
    exact Value.sound_empty hr.plain_stripped
  | @sequence k l m s t own e items ws vs nonempty length each settles ih =>
    have ht' : t.Lawful := (Ty.throughout_sequence.mp ht).2
    have hws := forall_mem_of_getElem? length fun i x w hx hw =>
      ih i x w hx hw (hv.member (List.mem_of_getElem? hx)) (Ty.throughout_sequence.mp hs).2 ht'
    obtain ⟨hconf, hplain, -, hvs⟩ := settles.sound hconvert ht' hws
    rw [Value.ty_collect]
    exact ⟨.sequence hconf, Value.sound_collect hplain hvs⟩
  | @emptyMap s t own r refines =>
    have hown : own.Plain := hv.here.plain own (by simp [Value.recorded])
    have hr : r.Lawful := .refines Ty.stable_lawful refines (Ty.throughout_map.mp ht).2
      hown.lawful
    refine ⟨.map ((Ty.stripped_conforms r).trans refines.conforms), ?_⟩
    exact Value.sound_map hr.plain_stripped .nil (by simp)
  | @map s t own e entries ws vs nonempty length each settles ih =>
    have ht' : t.Lawful := (Ty.throughout_map.mp ht).2
    have hws := forall_mem_of_getElem? length fun i x w hx hw =>
      ih i x w hx hw (hv.member (List.mem_map_of_mem (List.mem_of_getElem? hx)))
        (Ty.throughout_map.mp hs).2 ht'
    obtain ⟨hconf, hplain, hlen, hvs⟩ := settles.sound hconvert ht' hws
    exact ⟨.map hconf, Value.sound_map_zip hplain (length.trans hlen) hv.here.names hvs⟩
  | @emptyTuple l t =>
    have ht' : t.Lawful := (Ty.throughout_sequence.mp ht).2
    exact ⟨.sequence (Ty.stripped_conforms t), Value.sound_empty ht'.plain_stripped⟩
  | @positions l ss t u e items ws vs nonempty elects arity length each settles ih =>
    have hss := (Ty.throughout_tuple.mp hs).2
    obtain ⟨hu, hut⟩ := elects.lawful (Ty.throughout_sequence.mp ht).2 hss
    have hws := forall_mem_of_getElem? length fun i x w hx hw => by
      obtain ⟨s, hs⟩ := exists_getElem?_of_length arity hx
      exact ih i s x w hs hx hw (hv.member (List.mem_of_getElem? hx))
        (hss s (List.mem_of_getElem? hs)) hu
    obtain ⟨hconf, hplain, -, hvs⟩ := settles.sound hconvert hu hws
    rw [Value.ty_collect]
    exact ⟨.sequence (hconf.trans hut), Value.sound_collect hplain hvs⟩
  | @emptyObject t =>
    have ht' : t.Lawful := (Ty.throughout_map.mp ht).2
    exact ⟨.map (Ty.stripped_conforms t), Value.sound_map ht'.plain_stripped .nil (by simp)⟩
  | @gather as t u e attributes ws vs nonempty elects names length each settles ih =>
    have has := (Ty.throughout_object.mp hs).2
    obtain ⟨hu, hut⟩ := elects.lawful (Ty.throughout_map.mp ht).2 (List.forall_mem_map.mpr has)
    have hws := forall_mem_of_getElem? length fun i x w hx hw => by
      obtain ⟨a, ha, -⟩ := Named.exists_getElem? names hx
      exact ih i a x w ha hx hw (hv.member (List.mem_map_of_mem (List.mem_of_getElem? hx)))
        (has a (List.mem_of_getElem? ha)) hu
    obtain ⟨hconf, hplain, hlen, hvs⟩ := settles.sound hconvert hu hws
    exact ⟨.map (hconf.trans hut),
      Value.sound_map_zip hplain (length.trans hlen) hv.here.names hvs⟩
  | @tuple ss ts items ws arity source length each ih =>
    have hts : ts.length = ws.length := arity.symm.trans (source.trans length)
    have heach : ∀ (i : Nat) t w, ts[i]? = some t → ws[i]? = some w →
        w.ty.Conforms t ∧ w.Sound := by
      intro i t w htt hw
      obtain ⟨x, hx⟩ := exists_getElem?_of_length length hw
      obtain ⟨s, hss⟩ := exists_getElem?_of_length arity htt
      exact ih i s t x w hss htt hx hw (hv.member (List.mem_of_getElem? hx))
        ((Ty.throughout_tuple.mp hs).2 s (List.mem_of_getElem? hss))
        ((Ty.throughout_tuple.mp ht).2 t (List.mem_of_getElem? htt))
    refine ⟨Value.fills_tuple hts.symm fun i w t hw htt => (heach i t w htt hw).1, ?_⟩
    exact Value.sound_tuple (forall_mem_of_getElem? hts fun i t w htt hw => (heach i t w htt hw).2)
  | @object as bs attributes filled names known targets found missing ih =>
    have hbs := (Ty.throughout_object.mp ht).2
    have heach : ∀ (i : Nat) (b : Attribute Ty) (w : String × Value), bs[i]? = some b →
        filled[i]? = some w → w.2.ty.Conforms b.type ∧ w.2.Sound := by
      intro i b w hb hw
      have hbt := hbs b (List.mem_of_getElem? hb)
      cases hx : Named.find? b.name attributes with
      | none =>
        -- an absent attribute is a null of the declared type
        obtain ⟨-, hnull⟩ := missing i b w hb hw hx
        rw [hnull]
        exact ⟨Ty.stripped_conforms _, Value.sound_null (Ty.Lawful.plain_stripped hbt)⟩
      | some x =>
        obtain ⟨a, ha⟩ := Named.exists_find? names hx
        exact ih i b a x w hb hw ha hx
          (hv.member (List.mem_map_of_mem (Named.mem_of_find? hx).1))
          ((Ty.throughout_object.mp hs).2 a (Named.mem_of_find? ha).1) hbt
    exact Value.sound_filled (Ty.Lawful.ascending ht) targets heach
  | @select s own bs entries filled permitted known targets found missing ih =>
    have hbs := (Ty.throughout_object.mp ht).2
    have heach : ∀ (i : Nat) (b : Attribute Ty) (w : String × Value), bs[i]? = some b →
        filled[i]? = some w → w.2.ty.Conforms b.type ∧ w.2.Sound := by
      intro i b w hb hw
      have hbt := hbs b (List.mem_of_getElem? hb)
      cases hx : Named.find? b.name entries with
      | none =>
        obtain ⟨-, hnull⟩ := missing i b w hb hw hx
        rw [hnull]
        exact ⟨Ty.stripped_conforms _, Value.sound_null (Ty.Lawful.plain_stripped hbt)⟩
      | some x =>
        exact ih i b x w hb hw hx
          (hv.member (List.mem_map_of_mem (Named.mem_of_find? hx).1))
          (Ty.throughout_map.mp hs).2 hbt
    exact Value.sound_filled (Ty.Lawful.ascending ht) targets heach

/-- A conversion that succeeds keeps a value that has the type already, or carries out a plan. -/
theorem convertWithin_cases {levels : Nat} {v w : Value} {t : Ty}
    (h : v.convertWithin levels t = .ok w) :
    (v.ty = t ∧ w = v) ∨ ∃ below c, levels = below + 1 ∧
      between? v.ty t .risky = some c ∧ c.applyWith (Value.convertWithin below) v = .ok w := by
  cases levels with
  | zero => cases h
  | succ below =>
    rw [Value.convertWithin] at h
    split at h
    · rename_i hsame
      cases h
      exact .inl ⟨hsame, rfl⟩
    · split at h
      · rename_i c hc
        exact .inr ⟨below, c, rfl, hc, h⟩
      · cases h

/-- **Run.** Conversions are sound however deep open parts are nested. -/
theorem sound_convertWithin (levels : Nat) : SoundBy (Value.convertWithin levels) := by
  induction levels with
  | zero =>
    intro v w t hv ht h
    cases h
  | succ levels ih =>
    intro v w t hv ht h
    obtain ⟨hsame, rfl⟩ | ⟨below, c, hlevels, hc, happly⟩ := convertWithin_cases h
    · exact ⟨hsame ▸ Ty.conforms_refl _, hv⟩
    · cases hlevels
      have hyields := yields_of_apply (plan_of_between? hc) hv (Ty.conforms_refl _) happly
      exact hyields.sound ih hv hv.ty_plain.lawful ht

theorem sound_convert : SoundBy Value.convert := fun {v _ t} hv ht h =>
  sound_convertWithin (Value.rank v t) hv ht h

end Conversion

/-- The type of the value is the target without its marks, except where the target has a
placeholder, and no type recorded in the value is marked. -/
structure Value.Meets (w : Value) (target : Ty) : Prop where
  conforms : w.ty.Conforms target.stripped
  unmarked : w.Unmarked
  exact : target.hasDynamic = false → w.ty = target.stripped

theorem Value.Sound.meets {w : Value} {target : Ty} (hw : w.Sound) (h : w.ty.Conforms target) :
    w.Meets target where
  conforms := Ty.conforms_stripped.mpr h
  unmarked := hw.unmarked
  exact := hw.ty_eq h

/-- **Type soundness.** A well-formed value free of marks becomes, by any conversion from its type
and by `Value.convert`, a value that meets the target: it has the target type but for placeholders
that were filled, and is free of marks. -/
theorem meets_of_conversion {v : Value} {target : Ty} (hv : v.WellFormed) (hmarks : v.Unmarked)
    (hnames : v.Lawful) (htarget : target.Lawful) :
    (∀ safety c w, Conversion.between? v.ty target safety = some c → c.apply v = .ok w →
      w.Meets target) ∧
    ∀ w, v.convert target = .ok w → w.Meets target := by
  have hsound := hv.sound hmarks hnames
  refine ⟨fun safety c w hc happly => ?_, fun w hconvert => ?_⟩
  · have hyields := Conversion.yields_of_apply (Conversion.plan_of_between? hc) hsound
      (Ty.conforms_refl _) happly
    obtain ⟨hconforms, hw⟩ := hyields.sound Conversion.sound_convert hsound
      hsound.ty_plain.lawful htarget
    exact hw.meets hconforms
  · obtain ⟨hconforms, hw⟩ := Conversion.sound_convert hsound htarget hconvert
    exact hw.meets hconforms

/-- Attributes of different kinds in a map of lists: the lists come out with different types, and
are converted once more. -/
theorem meets_of_conversion_object_to_map :
    let v : Value := .object [("a", .list .bool [.bool true]),
      ("b", .set .string [.string "x", .unknown .string])]
    let w : Value := .map (.list .string) [("a", .list .string [.string "true"]),
      ("b", .list .string [.string "x", .unknown .string])]
    v.WellFormed ∧ v.Unmarked ∧ v.Lawful ∧ (Ty.map (.list .dynamic)).Lawful ∧
      v.convert (.map (.list .dynamic)) = .ok w ∧ w.Meets (.map (.list .dynamic)) := by
  refine ⟨by decide, by decide, by decide, by decide, by cbv, ?_⟩
  have hconvert : Value.convert (.object [("a", .list .bool [.bool true]),
      ("b", .set .string [.string "x", .unknown .string])]) (.map (.list .dynamic)) =
      .ok (.map (.list .string) [("a", .list .string [.string "true"]),
        ("b", .list .string [.string "x", .unknown .string])]) := by cbv
  exact (meets_of_conversion (by decide) (by decide) (by decide) (by decide)).2 _ hconvert

end Retype
