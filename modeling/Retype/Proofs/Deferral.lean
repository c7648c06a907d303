import Retype.Proofs.Conversion.Levels
import Retype.Proofs.Settling

/-!
# Deferring changes nothing

A conversion can be found before the type of a value is known: where the declared type has a
placeholder, the choice is left until there is data. `Ty.Opens` says that a declared type is a type
with placeholders put in, for the whole of it or for parts that are reached through tuples and
objects. To a target without placeholders, the conversion from such a type does to a value what
`Value.convert` does, which looks at the whole type at once (`faithful_of_opens`).

The two ways are compared one level at a time. What becomes of a tuple depends only on what becomes
of its items when each is converted by itself (`ItemsConvert`), whether the conversions of the items
were found ahead or not (`delivers_tuple_iff`); likewise for an object and its attributes
(`AttributesConvert`, `delivers_object_iff`). This includes that there is no conversion: it is
missing for the whole exactly when it is missing for a part, and a part that is left open has one
only if the data says so.
-/

namespace Retype

namespace Ty

/-- The second type is the first one with placeholders in place of the whole, or of any parts that
are reached through tuples and objects only. -/
inductive Opens : Ty → Ty → Prop
  | whole {t : Ty} : Opens t .dynamic
  | same {t : Ty} : Opens t t
  | tuple {ss ds : List Ty} (length : ss.length = ds.length)
      (each : ∀ (i : Nat) s d, ss[i]? = some s → ds[i]? = some d → Opens s d) :
      Opens (.tuple ss) (.tuple ds)
  | object {as ds : List (Attribute Ty)} (layout : (Ty.object as).layout = (Ty.object ds).layout)
      (each : ∀ (i : Nat) (a d : Attribute Ty), as[i]? = some a → ds[i]? = some d →
        Opens a.type d.type) :
      Opens (.object as) (.object ds)

end Ty

namespace Value

/-- Neither the value nor any value inside it is null or unknown. -/
def Known (v : Value) : Prop := v.Everywhere fun v => v.isConcrete = true

instance (v : Value) : Decidable v.Known := inferInstanceAs (Decidable (v.Everywhere _))

theorem Known.member {v m : Value} (h : v.Known) (hm : m ∈ v.members) : m.Known :=
  Everywhere.member h hm

end Value

namespace Conversion

/-- There is a conversion from the declared type to the wanted one, and it makes the second value
of the first. -/
def Delivers (declared : Ty) (v : Value) (want : Ty) (w : Value) : Prop :=
  ∃ c, between? declared want .risky = some c ∧ c.apply v = .ok w

/-- The declared type leads a value to the same results as the value itself does. -/
def Faithful (declared : Ty) (v : Value) : Prop :=
  ∀ want w, want.hasDynamic = false → (Delivers declared v want w ↔ v.convert want = .ok w)

theorem Delivers.converts {declared want : Ty} {v w : Value} (h : Delivers declared v want w) :
    Ty.Converts .risky declared want := by
  obtain ⟨c, hc, -⟩ := h
  exact Option.isSome_of_eq_some hc

theorem Delivers.apply_eq {declared want : Ty} {v w : Value} {c : Conversion}
    (h : Delivers declared v want w) (found : between? declared want .risky = some c) :
    c.apply v = .ok w := by
  obtain ⟨c', hc', happly⟩ := h
  rwa [Option.some.inj (found.symm.trans hc')]

theorem delivers_of_converts {declared want : Ty} {v w : Value}
    (converts : Ty.Converts .risky declared want)
    (h : ∀ c, between? declared want .risky = some c → c.apply v = .ok w) :
    Delivers declared v want w := by
  obtain ⟨c, hc⟩ := Option.isSome_iff_exists.mp converts
  exact ⟨c, hc, h c hc⟩

/-! ### Nothing or everything is left open -/

/-- A conversion of a type to itself keeps data as it is. -/
theorem delivers_self {t : Ty} {v w : Value} (solid : t.hasDynamic = false)
    (data : v.isConcrete = true) : Delivers t v t w ↔ w = v := by
  have found : between? t t .risky = some (.covering t.stripped .identity) := by
    rw [between?.eq_def, if_pos rfl]
    simp [covered, (Ty.hasDynamic_eq_false_iff.mp solid).1]
  have happly : (Conversion.covering t.stripped .identity).apply v = .ok v := by
    rw [apply, applyWith_covering data, applyWith]
  constructor
  · rintro ⟨c, hc, hw⟩
    rw [found, Option.some.injEq] at hc
    rw [← hc, happly, Except.ok.injEq] at hw
    exact hw.symm
  · rintro rfl
    exact ⟨_, found, happly⟩

theorem faithful_ty {v : Value} (data : v.isConcrete = true) : Faithful v.ty v := by
  intro want w solid
  by_cases hsame : v.ty = want
  · subst hsame
    rw [delivers_self solid data, Value.convert_of_ty_eq rfl, Except.ok.injEq, eq_comm]
  · rw [Delivers, Value.convert_eq, if_neg hsame]
    cases between? v.ty want .risky with
    | some c => simp
    | none => simp

theorem faithful_dynamic {v : Value} (data : v.isConcrete = true) : Faithful .dynamic v := by
  intro want w solid
  have later : between? .dynamic want .risky = some (.deferred want) := by
    obtain ⟨c, hc⟩ : ∃ c, between? .dynamic want .risky = some c :=
      Option.isSome_iff_exists.mp (Ty.dynamic_converts want)
    cases rule_of_between? hc with
    | same | pass => cases solid
    | later => exact hc
  have happly : (Conversion.deferred want).apply v = v.convert want := by
    cases v with
    | null | unknown => cases data
    | _ => rfl
  simp [Delivers, later, happly]

/-! ### From parts to wholes -/

theorem delivers_tuple {ds ts : List Ty} {items ws : List Value} (arity : ds.length = items.length)
    (targets : items.length = ts.length) (length : items.length = ws.length)
    (data : ∀ x ∈ items, x.isConcrete = true) (solid : ∀ t ∈ ts, t.hasDynamic = false)
    (each : ∀ (i : Nat) d x t w, ds[i]? = some d → items[i]? = some x → ts[i]? = some t →
      ws[i]? = some w → Delivers d x t w) :
    Delivers (.tuple ds) (.tuple items) (.tuple ts) (.tuple ws) := by
  have converts : Ty.Converts .risky (.tuple ds) (.tuple ts) := by
    refine .tuple (arity.trans targets) fun i d t hd ht => ?_
    obtain ⟨x, hx⟩ := exists_getElem?_of_length arity.symm hd
    obtain ⟨w, hw⟩ := exists_getElem?_of_length length.symm hx
    exact (each i d x t w hd hx ht hw).converts
  refine delivers_of_converts converts fun c hc => ?_
  cases rule_of_between? hc with
  | same =>
    -- nothing happens to the whole, and nothing to the parts
    have hsame : List.Forall₂ Eq items ws := by
      refine forall₂_iff_getElem?.mpr ⟨length, fun i x w hx hw => ?_⟩
      obtain ⟨d, hd⟩ := exists_getElem?_of_length arity hx
      exact ((delivers_self (solid d (List.mem_of_getElem? hd))
        (data x (List.mem_of_getElem? hx))).mp (each i d x d w hd hx hd hw)).symm
    rw [List.forall₂_eq_eq_eq] at hsame
    rw [hsame]
    rfl
  | tuple _ length' each' =>
    obtain ⟨done, hdone, hws⟩ := exists_applyAll (R := Eq) (arity.symm.trans length') length
      fun i c x w hc hx hw => by
        obtain ⟨d, hd⟩ := exists_getElem?_of_length arity hx
        obtain ⟨t, ht⟩ := exists_getElem?_of_length targets.symm hx
        exact ⟨w, (each i d x t w hd hx ht hw).apply_eq (each' i d t c hd ht hc), rfl⟩
    rw [List.forall₂_eq_eq_eq] at hws
    rw [apply, applyWith_covering rfl, applyWith, if_pos (arity.symm.trans length'), hdone, ← hws]
    rfl

theorem collect_nil (l : SequenceKind) (e : Ty) : Value.collect l e [] = .sequence l e [] := by
  cases l <;> rfl

theorem delivers_positions {ds : List Ty} {items ws : List Value} {l : SequenceKind} {t : Ty}
    (arity : ds.length = items.length) (length : items.length = ws.length)
    (solid : t.hasDynamic = false)
    (each : ∀ (i : Nat) d x w, ds[i]? = some d → items[i]? = some x → ws[i]? = some w →
      Delivers d x t w) :
    Delivers (.tuple ds) (.tuple items) (.sequence l t) (.collect l t.stripped ws) := by
  have converts : Ty.Converts .risky (.tuple ds) (.sequence l t) := by
    refine (Ty.converts_positions_iff (Ty.hasDynamic_eq_false_iff.mp solid).1).mpr
      ⟨by simp [SequenceKind.convertible], fun d hd => ?_⟩
    obtain ⟨i, hd⟩ := List.getElem?_of_mem hd
    obtain ⟨x, hx⟩ := exists_getElem?_of_length arity.symm hd
    obtain ⟨w, hw⟩ := exists_getElem?_of_length length.symm hx
    exact (each i d x w hd hx hw).converts
  refine delivers_of_converts converts fun c hc => ?_
  cases rule_of_between? hc with
  | positions _ elects length' each' =>
    obtain rfl := elects.eq_of_solid solid
    obtain ⟨done, hdone, hws⟩ := exists_applyAll (R := Eq) (arity.symm.trans length') length
      fun i c x w hc hx hw => by
        obtain ⟨d, hd⟩ := exists_getElem?_of_length arity hx
        exact ⟨w, (each i d x w hd hx hw).apply_eq (each' i d c hd hc), rfl⟩
    rw [List.forall₂_eq_eq_eq] at hws
    rw [apply, applyWith_covering rfl, applyWith, if_pos (arity.symm.trans length')]
    split
    · rename_i hempty
      obtain rfl := List.isEmpty_iff.mp hempty
      obtain rfl : ws = [] := List.eq_nil_of_length_eq_zero length.symm
      rw [collect_nil]
    · rw [hdone, ← hws, Except.bind, settle_of_solid solid]
      rfl

theorem delivers_object {ds bs : List (Attribute Ty)} {attributes filled : List (String × Value)}
    (names : Named.names ds = Named.names attributes) (ascending : Named.Ascending attributes)
    (data : ∀ x ∈ attributes, x.2.isConcrete = true) (solid : ∀ b ∈ bs, b.type.hasDynamic = false)
    (known : ∀ x ∈ attributes, Named.contains x.1 bs = true)
    (targets : Named.names filled = Named.names bs)
    (found : ∀ (i : Nat) (b d : Attribute Ty) (x w : String × Value), bs[i]? = some b →
      filled[i]? = some w → Named.find? b.name ds = some d →
      Named.find? b.name attributes = some x → Delivers d.type x.2 b.type w.2)
    (missing : ∀ (i : Nat) (b : Attribute Ty) (w : String × Value), bs[i]? = some b →
      filled[i]? = some w → Named.find? b.name attributes = none →
      b.optional = true ∧ w.2 = .null b.type.stripped) :
    Delivers (.object ds) (.object attributes) (.object bs) (.object filled) := by
  have converts : Ty.Converts .risky (.object ds) (.object bs) := by
    refine .object (Named.contains_of_names names.symm known) (fun b hb d hd => ?_)
      fun b hb hnone => ?_
    · obtain ⟨i, hb⟩ := List.getElem?_of_mem hb
      obtain ⟨w, hw, -⟩ := Named.exists_getElem? targets hb
      obtain ⟨x, hx⟩ := Named.exists_find? names.symm hd
      exact (found i b d x w hb hw hd hx).converts
    · obtain ⟨i, hb⟩ := List.getElem?_of_mem hb
      obtain ⟨w, hw, -⟩ := Named.exists_getElem? targets hb
      exact (missing i b w hb hw (Named.find?_eq_none_of_names names.symm hnone)).1
  refine delivers_of_converts converts fun c hc => ?_
  cases rule_of_between? hc with
  | same =>
    -- no name is added, so the attributes stand at the positions of the slots
    have hsame : List.Forall₂ Eq attributes filled := by
      refine forall₂_iff_getElem?.mpr
        ⟨Named.length_eq_of_names (names.symm.trans targets.symm), fun i x w hx hw => ?_⟩
      obtain ⟨d, hd, hname⟩ := Named.exists_getElem? names hx
      have hfind := Named.find?_of_names (by rwa [Named.Ascending, names]) names hd hx
      have hdelivers := found i d d x w hd hw
        (Named.find?_of_getElem? (by rwa [Named.Ascending, names]) hd) hfind
      have hvalue := (delivers_self (solid d (List.mem_of_getElem? hd))
        (data x (List.mem_of_getElem? hx))).mp hdelivers
      exact Prod.ext (Named.name_eq_of_names (names.symm.trans targets.symm) hx hw) hvalue.symm
    rw [List.forall₂_eq_eq_eq] at hsame
    rw [hsame]
    rfl
  | @object _ _ slots known' targets' found' missing' =>
    subst targets'
    obtain ⟨filled', hfilled, hnames, hvalues⟩ :
        ∃ filled', fill Value.convert Step.attr slots attributes = .ok filled' ∧
          Named.names filled' = Named.names (slots.map (·.target)) ∧
          List.Forall₂ (fun x w => x.2 = w.2) filled' filled := by
      refine exists_fill (R := fun (w : Value) (x : String × Value) => w = x.2) Step.attr
        (by simpa using (Named.length_eq_of_names targets).symm) fun i slot w hslot hw => ?_
      have hb : (slots.map (·.target))[i]? = some slot.target := by
        rw [List.getElem?_map, hslot, Option.map_some]
      cases hx : Named.find? slot.target.name attributes with
      | none =>
        obtain ⟨optional, hnull⟩ := missing i slot.target w hb hw hx
        exact .inr ⟨rfl, optional, hnull.symm⟩
      | some x =>
        obtain ⟨d, hd⟩ := Named.exists_find? names hx
        have hconversion := found' slot (List.mem_of_getElem? hslot) d hd
        exact .inl ⟨x, w.2, rfl, (found i slot.target d x w hb hw hd hx).apply_eq hconversion, rfl⟩
    have hsame : List.Forall₂ Eq filled' filled := by
      obtain ⟨hlen, heach⟩ := forall₂_iff_getElem?.mp hvalues
      refine forall₂_iff_getElem?.mpr ⟨hlen, fun i x w hx hw => ?_⟩
      exact Prod.ext (Named.name_eq_of_names (hnames.trans targets.symm) hx hw) (heach i x w hx hw)
    rw [List.forall₂_eq_eq_eq] at hsame
    rw [apply, applyWith_covering rfl, applyWith, checkNames_eq_ok known, Except.bind, hfilled,
      hsame]
    rfl

theorem delivers_gather {ds : List (Attribute Ty)} {attributes : List (String × Value)}
    {ws : List Value} {t : Ty} (names : Named.names ds = Named.names attributes)
    (ascending : Named.Ascending attributes) (length : attributes.length = ws.length)
    (solid : t.hasDynamic = false)
    (each : ∀ (i : Nat) (d : Attribute Ty) (x : String × Value) w, ds[i]? = some d →
      attributes[i]? = some x → ws[i]? = some w → Delivers d.type x.2 t w) :
    Delivers (.object ds) (.object attributes) (.map t)
      (.map t.stripped ((attributes.map Prod.fst).zip ws)) := by
  have converts : Ty.Converts .risky (.object ds) (.map t) := by
    refine (Ty.converts_gather_iff (Ty.hasDynamic_eq_false_iff.mp solid).1).mpr fun d hd => ?_
    obtain ⟨i, hd⟩ := List.getElem?_of_mem hd
    obtain ⟨x, hx, -⟩ := Named.exists_getElem? names.symm hd
    obtain ⟨w, hw⟩ := exists_getElem?_of_length length.symm hx
    exact (each i d x w hd hx hw).converts
  refine delivers_of_converts converts fun c hc => ?_
  cases rule_of_between? hc with
  | gather elects names' each' =>
    obtain rfl := elects.eq_of_solid solid
    obtain ⟨done, hdone, hws⟩ := exists_gather (R := Eq) (v := .object attributes)
      (names.symm.trans names') ascending length fun i c x w hc hx hw => by
        obtain ⟨d, hd, -⟩ := Named.exists_getElem? names hx
        exact ⟨w, (each i d x w hd hx hw).apply_eq (each' i d c hd hc), rfl⟩
    rw [List.forall₂_eq_eq_eq] at hws
    rw [apply, applyWith_covering rfl, applyWith]
    split
    · rename_i hempty
      obtain rfl := List.isEmpty_iff.mp hempty
      rfl
    · refine bind_eq_ok_iff.mpr ⟨done, hdone, ?_⟩
      rw [← hws, settle_of_solid solid]
      rfl

/-! ### One level at a time -/

/-- What a tuple becomes if each item is converted by itself. -/
inductive ItemsConvert (items : List Value) : Ty → Value → Prop
  | tuple {ts : List Ty} {ws : List Value} (targets : items.length = ts.length)
      (length : items.length = ws.length)
      (each : ∀ (i : Nat) x t w, items[i]? = some x → ts[i]? = some t → ws[i]? = some w →
        x.convert t = .ok w) :
      ItemsConvert items (.tuple ts) (.tuple ws)
  | sequence {l : SequenceKind} {t : Ty} {ws : List Value} (length : items.length = ws.length)
      (each : ∀ (i : Nat) x w, items[i]? = some x → ws[i]? = some w → x.convert t = .ok w) :
      ItemsConvert items (.sequence l t) (.collect l t.stripped ws)

/-- What an object becomes if each attribute is converted by itself. -/
inductive AttributesConvert (attributes : List (String × Value)) : Ty → Value → Prop
  | object {bs : List (Attribute Ty)} {filled : List (String × Value)}
      (known : ∀ x ∈ attributes, Named.contains x.1 bs = true)
      (targets : Named.names filled = Named.names bs)
      (found : ∀ (i : Nat) (b : Attribute Ty) (x w : String × Value), bs[i]? = some b →
        filled[i]? = some w → Named.find? b.name attributes = some x →
        x.2.convert b.type = .ok w.2)
      (missing : ∀ (i : Nat) (b : Attribute Ty) (w : String × Value), bs[i]? = some b →
        filled[i]? = some w → Named.find? b.name attributes = none →
        b.optional = true ∧ w.2 = .null b.type.stripped) :
      AttributesConvert attributes (.object bs) (.object filled)
  | map {t : Ty} {ws : List Value} (length : attributes.length = ws.length)
      (each : ∀ (i : Nat) (x : String × Value) w, attributes[i]? = some x → ws[i]? = some w →
        x.2.convert t = .ok w) :
      AttributesConvert attributes (.map t) (.map t.stripped ((attributes.map Prod.fst).zip ws))

section Tuple

variable {ds : List Ty} {items : List Value} {want : Ty} {w : Value}

/-- Whatever types are declared for the items of a tuple, each is converted by itself. -/
theorem itemsConvert_of_delivers (arity : ds.length = items.length)
    (data : ∀ x ∈ items, x.isConcrete = true)
    (faithful : ∀ (i : Nat) d x, ds[i]? = some d → items[i]? = some x → Faithful d x)
    (solid : want.hasDynamic = false) (h : Delivers (.tuple ds) (.tuple items) want w) :
    ItemsConvert items want w := by
  obtain ⟨c, hc, happly⟩ := h
  have solid' := (Ty.hasDynamic_eq_false_iff.mp solid).2
  cases rule_of_between? hc with
  | pass => cases solid
  | same =>
    cases happly
    refine .tuple arity.symm rfl fun i x d w hx hd hw => ?_
    obtain rfl : x = w := Option.some.inj (hx.symm.trans hw)
    have hsolid := solid' d (List.mem_of_getElem? hd)
    have hself := delivers_self (w := x) hsolid (data x (List.mem_of_getElem? hx))
    exact (faithful i d x hd hx d x hsolid).mp (hself.mpr rfl)
  | @positions l _ t e cs permitted elects length each =>
    have hsolid : t.hasDynamic = false := solid
    obtain rfl := elects.eq_of_solid hsolid
    rw [apply, applyWith_covering rfl, applyWith, if_pos (arity.symm.trans length)] at happly
    split at happly
    · rename_i hempty
      obtain rfl := List.isEmpty_iff.mp hempty
      cases happly
      rw [← collect_nil]
      exact .sequence rfl (by simp)
    · obtain ⟨done, hdone, happly⟩ := bind_eq_ok_iff.mp happly
      rw [settle_of_solid hsolid] at happly
      cases happly
      obtain ⟨hlen, hparts⟩ := getElem?_of_applyAll (arity.symm.trans length) hdone
      refine .sequence hlen fun i x w hx hw => ?_
      obtain ⟨d, hd⟩ := exists_getElem?_of_length arity hx
      obtain ⟨c, hc⟩ := exists_getElem?_of_length length.symm hd
      exact (faithful i d x hd hx e w hsolid).mp ⟨c, each i d c hd hc, hparts i c x w hc hx hw⟩
  | @tuple _ ts cs targets length each =>
    rw [apply, applyWith_covering rfl, applyWith, if_pos (arity.symm.trans length)] at happly
    obtain ⟨done, hdone, rfl⟩ := map_eq_ok_iff.mp happly
    obtain ⟨hlen, hparts⟩ := getElem?_of_applyAll (arity.symm.trans length) hdone
    refine .tuple (arity.symm.trans targets) hlen fun i x t w hx ht hw => ?_
    obtain ⟨d, hd⟩ := exists_getElem?_of_length arity hx
    obtain ⟨c, hc⟩ := exists_getElem?_of_length length.symm hd
    exact (faithful i d x hd hx t w (solid' t (List.mem_of_getElem? ht))).mp
      ⟨c, each i d t c hd ht hc, hparts i c x w hc hx hw⟩

/-- **Step.** A tuple is converted item by item, by whatever types are declared for the items. -/
theorem delivers_tuple_iff (arity : ds.length = items.length)
    (data : ∀ x ∈ items, x.isConcrete = true)
    (faithful : ∀ (i : Nat) d x, ds[i]? = some d → items[i]? = some x → Faithful d x)
    (solid : want.hasDynamic = false) :
    Delivers (.tuple ds) (.tuple items) want w ↔ ItemsConvert items want w := by
  refine ⟨itemsConvert_of_delivers arity data faithful solid, fun h => ?_⟩
  cases h with
  | @tuple ts ws targets length each =>
    have solid' := (Ty.hasDynamic_eq_false_iff.mp solid).2
    refine delivers_tuple arity targets length data solid' fun i d x t w hd hx ht hw => ?_
    exact (faithful i d x hd hx t w (solid' t (List.mem_of_getElem? ht))).mpr
      (each i x t w hx ht hw)
  | @sequence l t ws length each =>
    exact delivers_positions arity length solid fun i d x w hd hx hw =>
      (faithful i d x hd hx t w solid).mpr (each i x w hx hw)

end Tuple

section Object

variable {ds : List (Attribute Ty)} {attributes : List (String × Value)} {want : Ty} {w : Value}

/-- Whatever types are declared for the attributes of an object, each is converted by itself. -/
theorem attributesConvert_of_delivers (names : Named.names ds = Named.names attributes)
    (ascending : Named.Ascending attributes) (data : ∀ x ∈ attributes, x.2.isConcrete = true)
    (faithful : ∀ (i : Nat) (d : Attribute Ty) (x : String × Value), ds[i]? = some d →
      attributes[i]? = some x → Faithful d.type x.2)
    (solid : want.hasDynamic = false) (h : Delivers (.object ds) (.object attributes) want w) :
    AttributesConvert attributes want w := by
  obtain ⟨c, hc, happly⟩ := h
  have solid' := (Ty.hasDynamic_eq_false_iff.mp solid).2
  cases rule_of_between? hc with
  | pass => cases solid
  | same =>
    cases happly
    have known : ∀ x ∈ attributes, Named.contains x.1 ds = true := fun x hx =>
      Named.contains_iff.mpr (names ▸ List.mem_map_of_mem hx)
    refine .object known names.symm (fun i d x w hd hw hx => ?_) fun i d w hd hw hnone => ?_
    · obtain rfl : x = w :=
        Option.some.inj ((Named.getElem?_of_find? ascending names.symm hd hx).symm.trans hw)
      have hsolid := solid' d.type (List.mem_map_of_mem (List.mem_of_getElem? hd))
      have hself := delivers_self (w := x.2) hsolid (data x (List.mem_of_getElem? hw))
      exact (faithful i d x hd hw d.type x.2 hsolid).mp (hself.mpr rfl)
    · obtain ⟨x, -, hx⟩ := Named.exists_find?_getElem? ascending names.symm hd
      rw [show Named.find? d.name attributes = some x from hx] at hnone
      cases hnone
  | @object _ bs slots known targets found missing =>
    subst targets
    rw [apply, applyWith_covering rfl, applyWith] at happly
    obtain ⟨_, hcheck, happly⟩ := bind_eq_ok_iff.mp happly
    obtain ⟨filled, hfilled, rfl⟩ := map_eq_ok_iff.mp happly
    obtain ⟨hnames, heach⟩ := getElem?_of_fill hfilled
    refine .object (contains_of_checkNames hcheck) hnames (fun i b x w hb hw hx => ?_)
      fun i b w hb hw hnone => ?_
    · obtain ⟨slot, hslot, rfl⟩ :=
        Option.map_eq_some_iff.mp ((List.getElem?_map ..).symm.trans hb)
      obtain ⟨d, hd⟩ := Named.exists_find? names hx
      have hfaithful := Named.rel_of_find? (R := fun d x => Faithful d.type x.2) ascending names
        faithful hd hx
      have hsolid := solid' slot.target.type (List.mem_map_of_mem (List.mem_of_getElem? hb))
      exact (hfaithful slot.target.type w.2 hsolid).mp
        ⟨slot.conversion, found slot (List.mem_of_getElem? hslot) d hd,
          (heach i slot w hslot hw).1 x hx⟩
    · obtain ⟨slot, hslot, rfl⟩ :=
        Option.map_eq_some_iff.mp ((List.getElem?_map ..).symm.trans hb)
      exact (heach i slot w hslot hw).2 hnone
  | @gather _ t e cs elects names' each =>
    have hsolid : t.hasDynamic = false := solid
    obtain rfl := elects.eq_of_solid hsolid
    rw [apply, applyWith_covering rfl, applyWith] at happly
    split at happly
    · rename_i hempty
      obtain rfl := List.isEmpty_iff.mp hempty
      cases happly
      exact @AttributesConvert.map [] e [] rfl (by simp)
    · obtain ⟨done, hdone, happly⟩ := bind_eq_ok_iff.mp happly
      rw [settle_of_solid hsolid] at happly
      cases happly
      obtain ⟨hlen, hparts⟩ := getElem?_of_gather (names.symm.trans names') ascending hdone
      refine .map hlen fun i x w hx hw => ?_
      obtain ⟨d, hd, -⟩ := Named.exists_getElem? names hx
      obtain ⟨c, hc, -⟩ := Named.exists_getElem? names'.symm hd
      exact (faithful i d x hd hx e w hsolid).mp ⟨c.2, each i d c hd hc, hparts i c x w hc hx hw⟩

/-- **Step.** An object is converted attribute by attribute, by whatever types are declared for the
attributes. -/
theorem delivers_object_iff (names : Named.names ds = Named.names attributes)
    (ascending : Named.Ascending attributes) (data : ∀ x ∈ attributes, x.2.isConcrete = true)
    (faithful : ∀ (i : Nat) (d : Attribute Ty) (x : String × Value), ds[i]? = some d →
      attributes[i]? = some x → Faithful d.type x.2)
    (solid : want.hasDynamic = false) :
    Delivers (.object ds) (.object attributes) want w ↔ AttributesConvert attributes want w := by
  refine ⟨attributesConvert_of_delivers names ascending data faithful solid, fun h => ?_⟩
  cases h with
  | @object bs filled known targets found missing =>
    have solid' : ∀ b ∈ bs, b.type.hasDynamic = false := fun b hb =>
      (Ty.hasDynamic_eq_false_iff.mp solid).2 b.type (List.mem_map_of_mem hb)
    refine delivers_object names ascending data solid' known targets
      (fun i b d x w hb hw hd hx => ?_) missing
    have hfaithful := Named.rel_of_find? (R := fun d x => Faithful d.type x.2) ascending names
      faithful hd hx
    exact (hfaithful b.type w.2 (solid' b (List.mem_of_getElem? hb))).mpr (found i b x w hb hw hx)
  | @map t ws length each =>
    exact delivers_gather names ascending length solid fun i d x w hd hx hw =>
      (faithful i d x hd hx t w solid).mpr (each i x w hx hw)

end Object

/-! ### Any parts may be left open -/

/-- **Deferral.** A type with placeholders put in leads a value to the same results. -/
theorem faithful_of_opens {t declared : Ty} {v : Value} (opens : t.Opens declared)
    (hv : v.Inhabits t) (known : v.Known) : Faithful declared v := by
  induction opens generalizing v with
  | whole => exact faithful_dynamic known.here
  | same => exact hv.ty ▸ faithful_ty known.here
  | @tuple ss ds length _ ih =>
    intro want w solid
    have hty := hv.ty
    obtain ⟨items, rfl, arity, inhabits⟩ := hv.positions known.here
    have data : ∀ x ∈ items, x.Known := fun x hx => known.member hx
    have opened : ∀ (i : Nat) d x, ds[i]? = some d → items[i]? = some x → Faithful d x := by
      intro i d x hd hx
      obtain ⟨s, hs⟩ := exists_getElem?_of_length arity hx
      exact ih i s d hs hd (inhabits i s x hs hx) (data x (List.mem_of_getElem? hx))
    have shown : ∀ (i : Nat) s x, ss[i]? = some s → items[i]? = some x → Faithful s x := by
      intro i s x hs hx
      exact (inhabits i s x hs hx).ty ▸ faithful_ty (data x (List.mem_of_getElem? hx)).here
    rw [delivers_tuple_iff (length.symm.trans arity) (fun x hx => (data x hx).here) opened solid,
      ← faithful_ty known.here want w solid, hty,
      delivers_tuple_iff arity (fun x hx => (data x hx).here) shown solid]
  | @object as ds layout _ ih =>
    intro want w solid
    have hty := hv.ty
    obtain ⟨attributes, rfl, ascending, names, inhabits, -⟩ := hv.fields known.here
    have names' : Named.names ds = Named.names attributes :=
      (Ty.names_eq_of_layout layout).symm.trans names
    have data : ∀ x ∈ attributes, x.2.Known := fun x hx => known.member (List.mem_map_of_mem hx)
    have opened : ∀ (i : Nat) (d : Attribute Ty) (x : String × Value), ds[i]? = some d →
        attributes[i]? = some x → Faithful d.type x.2 := by
      intro i d x hd hx
      obtain ⟨a, ha, -⟩ := Named.exists_getElem? names hx
      exact ih i a d ha hd (inhabits i a x ha hx) (data x (List.mem_of_getElem? hx))
    have shown : ∀ (i : Nat) (a : Attribute Ty) (x : String × Value), as[i]? = some a →
        attributes[i]? = some x → Faithful a.type x.2 := by
      intro i a x ha hx
      exact (inhabits i a x ha hx).ty ▸ faithful_ty (data x (List.mem_of_getElem? hx)).here
    rw [delivers_object_iff names' ascending (fun x hx => (data x hx).here) opened solid,
      ← faithful_ty known.here want w solid, hty,
      delivers_object_iff names ascending (fun x hx => (data x hx).here) shown solid]

end Conversion

/-- **Deferring changes nothing.** Take a well-formed value without null and unknown parts, and its
type with placeholders put in for the whole or for any parts that are reached through tuples and
objects. To a type without placeholders, the conversion from the latter gives what converting the
value gives; where there is none, or where it fails, converting the value fails. -/
theorem convert_iff_deferred {v : Value} {declared want : Ty} (wellFormed : v.WellFormed)
    (lawful : v.Lawful) (known : v.Known) (opens : v.ty.Opens declared)
    (solid : want.hasDynamic = false) :
    (∀ w, v.convert want = .ok w ↔
      ∃ c, Conversion.between? declared want .risky = some c ∧ c.apply v = .ok w) ∧
    ((∃ fault, v.convert want = .error fault) ↔
      ∀ c, Conversion.between? declared want .risky = some c →
        ∃ fault, c.apply v = .error fault) := by
  have faithful := fun w =>
    Conversion.faithful_of_opens opens ⟨wellFormed, lawful, rfl⟩ known want w solid
  refine ⟨fun w => (faithful w).symm, ⟨fun ⟨fault, hfault⟩ c hc => ?_, fun h => ?_⟩⟩
  · cases happly : c.apply v with
    | error fault => exact ⟨fault, rfl⟩
    | ok w =>
      have hok := (faithful w).mp ⟨c, hc, happly⟩
      rw [hfault] at hok
      cases hok
  · cases hconvert : v.convert want with
    | error fault => exact ⟨fault, rfl⟩
    | ok w =>
      obtain ⟨c, hc, happly⟩ := (faithful w).mpr hconvert
      obtain ⟨fault, hfault⟩ := h c hc
      rw [happly] at hfault
      cases hfault

/-- Truth values are written as texts once they are there, and an optional attribute is added. -/
theorem convert_iff_deferred_nested :
    let v : Value := .object [("ids", .tuple [.bool false, .string "x"]), ("tag", .bool true)]
    let declared : Ty := .record [("ids", .tuple [.dynamic, .string]), ("tag", .dynamic)]
    let want : Ty := .object [⟨"ids", false, .list .string⟩, ⟨"note", true, .list .bool⟩,
      ⟨"tag", false, .string⟩]
    let w : Value := .object [("ids", .list .string [.string "false", .string "x"]),
      ("note", .null (.list .bool)), ("tag", .string "true")]
    (v.WellFormed ∧ v.Lawful ∧ v.Known ∧ v.ty.Opens declared ∧ want.hasDynamic = false) ∧
      v.convert want = .ok w ∧
      ∃ c, Conversion.between? declared want .risky = some c ∧ c.apply v = .ok w := by
  intro v declared want w
  have opens : v.ty.Opens declared := by
    refine .object rfl fun i a d ha hd => ?_
    match i with
    | 0 =>
      cases ha
      cases hd
      refine .tuple rfl fun i s d hs hd => ?_
      match i with
      | 0 => cases hd; exact .whole
      | 1 => cases hs; cases hd; exact .same
    | 1 => cases hd; exact .whole
  have hconvert : v.convert want = .ok w := by cbv
  have solid : want.hasDynamic = false := by decide
  refine ⟨⟨by decide, by decide, by decide, opens, solid⟩, hconvert, ?_⟩
  have deferred := convert_iff_deferred (by decide) (by decide) (by decide) opens solid
  exact (deferred.1 w).mp hconvert

end Retype
