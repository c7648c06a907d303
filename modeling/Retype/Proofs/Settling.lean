import Retype.Proofs.Conversion.Progress
import Retype.Proofs.Lossless
import Retype.Proofs.Ty.Becomes

/-!
# What full values settle on

A value without nulls, unknowns and empty collections is *full* (`Value.Full`). Each of its parts
meets the types that `Ty.Becomes` speaks of, so that a safe conversion gives it the type that is
said there (`Plan.exists_apply_of_becomes`), and fails where the types are stuck
(`Plan.apply_ne_ok`).

Both go by the plan. To a type without placeholders nothing is left to settle, and nothing fails
for full values (`Plan.exists_apply_of_full`). Otherwise the parts come out with the types that are
predicted for them, and settle on what these agree on (`exists_settle`); what they settle on is
always their common type (`unify?_of_settle`), so that they do not if there is none.
-/

namespace Retype

namespace Value

/-- There is no null, no unknown and no empty collection inside. -/
def Full (v : Value) : Prop := v.Everywhere fun v => v.isBlank = false

instance (v : Value) : Decidable v.Full := inferInstanceAs (Decidable (v.Everywhere _))

theorem Full.member {v m : Value} (h : v.Full) (hm : m ∈ v.members) : m.Full :=
  Everywhere.member h hm

theorem Full.isConcrete {v : Value} (h : v.Full) : v.isConcrete = true := by
  have here := h.here
  cases v with
  | null t | unknown t => cases here
  | _ => rfl

theorem Full.items_ne_nil {k : SequenceKind} {e : Ty} {items : List Value}
    (h : (Value.sequence k e items).Full) : items ≠ [] := by
  simpa [isBlank] using h.here

theorem Full.entries_ne_nil {e : Ty} {entries : List (String × Value)}
    (h : (Value.map e entries).Full) : entries ≠ [] := by
  simpa [isBlank] using h.here

theorem Sound.lawful {v : Value} (h : v.Sound) : v.Lawful :=
  h.mono fun _ hv => ⟨fun t ht => (hv.plain t ht).lawful, hv.names⟩

end Value

namespace Conversion

open Ty

/-! ### Bringing parts together -/

theorem map_ty_eq {ws : List Value} {rs : List Ty}
    (h : List.Forall₂ (fun w r => w.ty = r) ws rs) : ws.map Value.ty = rs := by
  rwa [← List.forall₂_eq_eq_eq, List.forall₂_map_left_iff]

theorem ty_object_eq {filled : List (String × Value)} {cs : List (Attribute Ty)}
    (names : Named.names filled = Named.names cs) (required : ∀ c ∈ cs, c.optional = false)
    (h : List.Forall₂ (fun x c => x.2.ty = c.type) filled cs) :
    (Value.object filled).ty = .object cs := by
  rw [Value.ty, Value.tyAttributes_eq_map, Ty.object.injEq, ← List.map_id cs]
  obtain ⟨hlen, heach⟩ := forall₂_iff_getElem?.mp h
  refine map_eq_map_of_getElem? hlen fun i x c hx hc => ?_
  have hname : x.1 = c.name := Named.name_eq_of_names names hx hc
  rw [heach i x c hx hc, hname, ← required c (List.mem_of_getElem? hc), id]

/-- A value is converted if its type is and nothing is risked, whatever else may be permitted. -/
theorem exists_convert {w : Value} {x e : Ty} (hw : w.Inhabits x) (hx : x.Plain)
    (he : e.Definite) (safe : Converts .safe x e) (risky : Converts .risky x e) :
    ∃ w', w.convert e = .ok w' := by
  obtain ⟨levels, hlevels⟩ : ∃ levels, w.rank e = levels + 1 := by
    refine Nat.exists_eq_succ_of_ne_zero (Nat.ne_of_gt ?_)
    exact Nat.lt_of_lt_of_le (depth_pos e) (Nat.le_max_right _ _)
  obtain ⟨c, hc⟩ := Option.isSome_iff_exists.mp risky
  rw [Value.convert, hlevels, Value.convertWithin]
  split
  · exact ⟨w, rfl⟩
  · rw [hw.ty, hc]
    exact (plan_of_between? hc).exists_apply safe hx he hw

/-- What open parts settle on is the common type of their types. -/
theorem unify?_of_settle {convert : Value → Ty → Except Fault Value} {declared e : Ty}
    {parts : List (Step × Value)} {vs : List Value} (hne : parts ≠ [])
    (unsettled : declared.hasDynamic = true) (h : settle convert declared parts = .ok (e, vs)) :
    unify? ((parts.map Prod.snd).map Value.ty) .risky = some e := by
  cases settles_of_settle hne h with
  | fixed solid =>
    rw [unsettled] at solid
    cases solid
  | alike _ nonempty all =>
    exact unify?_of_forall_eq (by simpa using nonempty) (List.forall_mem_map.mpr all)
  | again _ _ unified => exact unified

/-- Parts settle on the type that they agree on. -/
theorem exists_settle {declared r : Ty} {rs : List Ty} {parts : List (Step × Value)}
    (hne : parts ≠ []) (h : List.Forall₂ Value.Inhabits (parts.map Prod.snd) rs)
    (plain : ∀ x ∈ rs, x.Plain) (agreed : Agreed rs r)
    (settled : declared.hasDynamic = false → r = declared.stripped) :
    ∃ vs, settle Value.convert declared parts = .ok (r, vs) := by
  have htys : (parts.map Prod.snd).map Value.ty = rs := map_ty_eq (h.imp fun _ _ hw => hw.ty)
  cases unsettled : declared.hasDynamic with
  | false =>
    rw [settle_of_solid unsettled, settled unsettled]
    exact ⟨_, rfl⟩
  | true =>
    unfold settle
    rw [if_pos unsettled]
    cases parts with
    | nil => exact absurd rfl hne
    | cons first rest =>
      have htys' : first.2.ty :: rest.map (fun part => part.2.ty) = rs := by
        simpa [Function.comp_def] using htys
      dsimp only
      split
      · rename_i hall
        have all : ∀ x ∈ rs, x = first.2.ty := by
          rw [← htys', List.forall_mem_cons, List.forall_mem_map]
          exact ⟨rfl, fun part hpart => by simpa using List.all_eq_true.mp hall part hpart⟩
        rw [agreed.eq_of_forall_eq (by simp [← htys']) all]
        exact ⟨_, rfl⟩
      · rename_i hdiffer
        cases agreed with
        | alike all =>
          rw [← htys', List.forall_mem_cons, List.forall_mem_map] at all
          refine absurd (List.all_eq_true.mpr fun part hpart => ?_) hdiffer
          simp [all.1, all.2 part hpart]
        | common unified solid safe =>
          have common := common_of_unify? unified
          have definite : r.Definite := ⟨.common common plain, solid⟩
          obtain ⟨done, hdone⟩ :
              ∃ done, eachPart (fun v => v.convert r) (first :: rest) = .ok done := by
            refine exists_mapM_eq_ok fun part hpart => ?_
            obtain ⟨x, hx, hw⟩ := exists_of_mem_right h.flip (List.mem_map_of_mem hpart)
            obtain ⟨w, hconvert⟩ :=
              exists_convert hw (plain x hx) definite (safe x hx) (common.converts hx)
            exact ⟨_, locate_map_eq_ok hconvert⟩
          rw [htys', unify_eq_ok_iff.mpr unified, Except.bind, hdone]
          exact ⟨_, rfl⟩

/-- The tail of each conversion into a collection: converted parts settle, and the collection is
made of them. -/
theorem exists_build {α : Type} {as : List α} {declared r : Ty} {rs : List Ty}
    {parts : Except Fault (List (Step × Value))} {done : List (Step × Value)}
    {build : Ty × List Value → Value} (hdone : parts = .ok done) (hne : as ≠ [])
    (hlen : as.length = rs.length)
    (h : List.Forall₂ (fun w x => w.Inhabits x ∧ x.Plain) (done.map Prod.snd) rs)
    (agreed : Agreed rs r) (settled : declared.hasDynamic = false → r = declared.stripped) :
    ∃ vs, (parts.bind fun parts => (settle Value.convert declared parts).map build) =
      .ok (build (r, vs)) := by
  have hne' : done ≠ [] := by
    rintro rfl
    cases h
    exact hne (List.eq_nil_of_length_eq_zero hlen)
  have plain : ∀ x ∈ rs, x.Plain := fun x hx => by
    obtain ⟨w, -, hwx⟩ := exists_of_mem_right h hx
    exact hwx.2
  obtain ⟨vs, hvs⟩ := exists_settle hne' (h.imp fun _ _ hw => hw.1) plain agreed settled
  rw [hdone, Except.bind, hvs]
  exact ⟨vs, rfl⟩

/-! ### Full values -/

theorem applyWith_covering {convert : Value → Ty → Except Fault Value} {t : Ty}
    {inner : Conversion} {v : Value} (data : v.isConcrete = true) :
    applyWith convert (.covering t inner) v = applyWith convert inner v := by
  cases v with
  | null i | unknown i => cases data
  | _ => rfl

/-- What comes of a value whose type has no placeholder is well formed. -/
theorem Plan.arrives {safety : Safety} {s t r : Ty} {c : Conversion} {v : Value}
    (plan : Plan safety s t c) (hs : s.Definite) (ht : t.Lawful) (hv : v.Inhabits s)
    (h : ∃ w, c.apply v = .ok w ∧ w.ty = r) :
    ∃ w, c.apply v = .ok w ∧ w.Inhabits r ∧ r.Plain := by
  obtain ⟨w, happly, rfl⟩ := h
  obtain ⟨-, hw, hhom⟩ := plan.sound_of_apply hs ht hv happly
  exact ⟨w, happly, ⟨hw.wellFormed_iff.mpr hhom, hw.lawful, rfl⟩, hw.ty_plain⟩

/-- A full value does not fail on its way to a type without placeholders. -/
theorem Plan.exists_apply_of_full {s t : Ty} {c : Conversion} {v : Value} (plan : Plan .safe s t c)
    (hs : s.Definite) (ht : t.Lawful) (solid : t.hasDynamic = false) (hv : v.Inhabits s)
    (full : v.Full) : ∃ w, c.apply v = .ok w ∧ w.ty = t.stripped := by
  cases happly : c.apply v with
  | ok w =>
    obtain ⟨hconf, hw, -⟩ := plan.sound_of_apply hs ht hv happly
    exact ⟨w, rfl, hw.ty_eq hconf solid⟩
  | error f =>
    have touches := (touches_of_apply plan solid hv happly).converts
      (converts_of_plan plan) hs.plain.lawful solid
    obtain ⟨s', t', v', ⟨raises, converts⟩, -, -, full'⟩ := touches.exists_part
      (P := fun _ => True) (Q := Value.Full) (by simp) (fun _ h _ => h.member) trivial trivial full
    obtain ⟨blank, -⟩ := raises.misfit_of_safe converts
    rw [full'.here] at blank
    cases blank

/-- **Step.** A full value comes out of a safe conversion with the type that the types say. -/
theorem Plan.exists_apply_of_becomes {s t r : Ty} {c : Conversion} {v : Value}
    (plan : Plan .safe s t c) (becomes : s.Becomes t r) (hs : s.Definite) (ht : t.Lawful)
    (hv : v.Inhabits s) (full : v.Full) : ∃ w, c.apply v = .ok w ∧ w.ty = r := by
  unfold Ty.Lawful at ht
  induction plan generalizing v r with
  | same hne =>
    -- here the target is the source, which has no placeholder
    obtain rfl := becomes.eq_of_solid hs.solid
    exact (Plan.same hne).exists_apply_of_full hs ht hs.solid hv full
  | pass =>
    cases becomes with
    | solid solid => cases solid
    | hole => exact ⟨v, rfl, hv.ty⟩
  | later => cases hs.solid
  | primitive permitted =>
    cases becomes with
    | solid solid => exact (Plan.primitive permitted).exists_apply_of_full hs ht solid hv full
  | @sequence k l s t c permitted plan ih =>
    cases becomes with
    | solid solid => exact (plan.sequence permitted).exists_apply_of_full hs ht solid hv full
    | @sequence _ _ _ _ r element =>
      obtain ⟨items, rfl, hitems⟩ := hv.items full.isConcrete
      have hs' : s.Definite := hs.part (by simp [parts])
      have ht' := (throughout_sequence.mp ht).2
      have heach : ∀ x ∈ (Value.indexed items).map Prod.snd,
          ∃ w, c.apply x = .ok w ∧ w.Inhabits r ∧ r.Plain := by
        intro x hx
        rw [map_snd_indexed] at hx
        exact plan.arrives hs' ht' (hitems x hx)
          (ih element hs' ht' (hitems x hx) (full.member hx))
      obtain ⟨done, hdone, hall⟩ := exists_eachPart_of_forall
        (R := fun w r => w.Inhabits r ∧ r.Plain) (a := r) heach
      obtain ⟨vs, hvs⟩ := exists_build hdone full.items_ne_nil (by simp [Value.indexed]) hall
        (.alike fun x hx => List.eq_of_mem_replicate hx) element.eq_of_solid
      refine ⟨_, ?_, Value.ty_collect l r vs⟩
      rw [apply, applyWith_covering rfl, applyWith, if_neg (by simpa using full.items_ne_nil)]
      exact hvs
  | @map s t c plan ih =>
    cases becomes with
    | solid solid => exact plan.map.exists_apply_of_full hs ht solid hv full
    | @map _ _ r element =>
      obtain ⟨entries, rfl, hentries⟩ := hv.entries full.isConcrete
      have hs' : s.Definite := hs.part (by simp [parts])
      have ht' := (throughout_map.mp ht).2
      have heach : ∀ x ∈ (Value.keyed entries).map Prod.snd,
          ∃ w, c.apply x = .ok w ∧ w.Inhabits r ∧ r.Plain := by
        intro x hx
        rw [map_snd_keyed] at hx
        obtain ⟨e, he, rfl⟩ := List.mem_map.mp hx
        exact plan.arrives hs' ht' (hentries e he)
          (ih element hs' ht' (hentries e he) (full.member hx))
      obtain ⟨done, hdone, hall⟩ := exists_eachPart_of_forall
        (R := fun w r => w.Inhabits r ∧ r.Plain) (a := r) heach
      obtain ⟨vs, hvs⟩ := exists_build hdone full.entries_ne_nil (by simp [Value.keyed]) hall
        (.alike fun x hx => List.eq_of_mem_replicate hx) element.eq_of_solid
      refine ⟨.map r ((entries.map Prod.fst).zip vs), ?_, rfl⟩
      rw [apply, applyWith_covering rfl, applyWith, if_neg (by simpa using full.entries_ne_nil)]
      exact hvs
  | @positions l ss t u cs permitted elects length plans ih =>
    cases becomes with
    | solid solid =>
      exact (Plan.positions permitted elects length plans).exists_apply_of_full hs ht solid hv full
    | emptyTuple =>
      obtain ⟨items, rfl, hlen, -⟩ := hv.positions full.isConcrete
      obtain rfl : items = [] := List.eq_nil_of_length_eq_zero hlen.symm
      obtain rfl : cs = [] := List.eq_nil_of_length_eq_zero length.symm
      cases elects with
      | common nonempty => exact absurd rfl nonempty
      | declared => exact ⟨.sequence l t.stripped [], rfl, rfl⟩
    | @positions _ _ rs _ u' r nonempty elects' hrs each agreed =>
      -- the plan and the types speak of the same type for the parts
      obtain rfl := elects.unique elects'
      obtain ⟨items, rfl, hlen, hitems⟩ := hv.positions full.isConcrete
      have hu : u.Lawful := (elects.lawful (throughout_sequence.mp ht).2 fun p hp =>
        (hs.part hp).plain.lawful).1
      have heach : ∀ (i : Nat) c x r', cs[i]? = some c → items[i]? = some x → rs[i]? = some r' →
          ∃ w, c.apply x = .ok w ∧ w.Inhabits r' ∧ r'.Plain := by
        intro i c x r' hc hx hr
        obtain ⟨s, hsi⟩ := exists_getElem?_of_length hlen hx
        have hs' : s.Definite := hs.part (List.mem_of_getElem? hsi)
        have hx' := hitems i s x hsi hx
        exact (plans i s c hsi hc).arrives hs' hu hx' (ih i s c hsi hc (each i s r' hsi hr) hs' hu
          hx' (full.member (List.mem_of_getElem? hx)))
      obtain ⟨done, hdone, hall⟩ := exists_applyAll (hlen.symm.trans length) (hlen.symm.trans hrs)
        heach
      have hne : items ≠ [] := ne_nil_of_length_eq hlen nonempty
      obtain ⟨vs, hvs⟩ := exists_build hdone nonempty hrs hall agreed fun solid =>
        agreed.eq_of_each nonempty hrs fun i s y hsi hy => (each i s y hsi hy).eq_of_solid solid
      refine ⟨_, ?_, Value.ty_collect l r vs⟩
      rw [apply, applyWith_covering rfl, applyWith, if_pos (hlen.symm.trans length),
        if_neg (by simpa using hne)]
      exact hvs
  | @gather as t u cs elects names plans ih =>
    cases becomes with
    | solid solid =>
      exact (Plan.gather elects names plans).exists_apply_of_full hs ht solid hv full
    | emptyObject =>
      obtain ⟨attributes, rfl, -, hnames, -⟩ := hv.fields full.isConcrete
      obtain rfl : attributes = [] := by simpa using (Named.length_eq_of_names hnames).symm
      cases elects with
      | common nonempty => exact absurd rfl nonempty
      | declared => exact ⟨.map t.stripped [], rfl, rfl⟩
    | @gather _ rs _ u' r nonempty elects' hrs each agreed =>
      obtain rfl := elects.unique elects'
      obtain ⟨attributes, rfl, hasc, hnames, hfields, -⟩ := hv.fields full.isConcrete
      have hlen := Named.length_eq_of_names hnames
      have hu : u.Lawful := (elects.lawful (throughout_map.mp ht).2 fun p hp =>
        (hs.part hp).plain.lawful).1
      have heach : ∀ (i : Nat) (c : String × Conversion) (x : String × Value) r', cs[i]? = some c →
          attributes[i]? = some x → rs[i]? = some r' →
          ∃ w, c.2.apply x.2 = .ok w ∧ w.Inhabits r' ∧ r'.Plain := by
        intro i c x r' hc hx hr
        obtain ⟨a, ha⟩ := exists_getElem?_of_length hlen hx
        have hs' : a.type.Definite := hs.part (List.mem_map_of_mem (List.mem_of_getElem? ha))
        have hx' := hfields i a x ha hx
        exact (plans i a c ha hc).arrives hs' hu hx' (ih i a c ha hc (each i a r' ha hr) hs' hu
          hx' (full.member (List.mem_map_of_mem (List.mem_of_getElem? hx))))
      obtain ⟨done, hdone, hall⟩ := exists_gather (hnames.symm.trans names) hasc
        (hlen.symm.trans hrs) heach
      have hne : attributes ≠ [] := ne_nil_of_length_eq hlen nonempty
      obtain ⟨vs, hvs⟩ := exists_build hdone nonempty hrs hall agreed fun solid =>
        agreed.eq_of_each nonempty hrs fun i a y ha hy => (each i a y ha hy).eq_of_solid solid
      refine ⟨.map r ((attributes.map Prod.fst).zip vs), ?_, rfl⟩
      rw [apply, applyWith_covering rfl, applyWith, if_neg (by simpa using hne)]
      exact hvs
  | @tuple ss ts cs arity length plans ih =>
    cases becomes with
    | solid solid =>
      exact (Plan.tuple arity length plans).exists_apply_of_full hs ht solid hv full
    | @tuple _ _ rs _ hrs each =>
      obtain ⟨items, rfl, hlen, hitems⟩ := hv.positions full.isConcrete
      have heach : ∀ (i : Nat) c x r, cs[i]? = some c → items[i]? = some x → rs[i]? = some r →
          ∃ w, c.apply x = .ok w ∧ w.ty = r := by
        intro i c x r hc hx hr
        obtain ⟨s, hsi⟩ := exists_getElem?_of_length hlen hx
        obtain ⟨t, hti⟩ := exists_getElem?_of_length arity.symm hsi
        exact ih i s t c hsi hti hc (each i s t r hsi hti hr) (hs.part (List.mem_of_getElem? hsi))
          ((throughout_tuple.mp ht).2 t (List.mem_of_getElem? hti)) (hitems i s x hsi hx)
          (full.member (List.mem_of_getElem? hx))
      obtain ⟨done, hdone, hall⟩ := exists_applyAll (hlen.symm.trans length)
        (hlen.symm.trans (arity.trans hrs)) heach
      refine ⟨.tuple (done.map Prod.snd), ?_, ?_⟩
      · rw [apply, applyWith_covering rfl, applyWith, if_pos (hlen.symm.trans length)]
        exact map_eq_ok_iff.mpr ⟨done, hdone, rfl⟩
      · rw [Value.ty, Value.tyAll_eq_map, map_ty_eq hall]
  | @object as bs slots known targets found missing ih =>
    subst targets
    cases becomes with
    | solid solid =>
      exact (Plan.object known rfl found missing).exists_apply_of_full hs ht solid hv full
    | @object _ _ cs names required found' missing' =>
      obtain ⟨attributes, rfl, -, hnames, -, hfields⟩ := hv.fields full.isConcrete
      have heach : ∀ (i : Nat) slot (c : Attribute Ty), slots[i]? = some slot → cs[i]? = some c →
          (∃ x w, Named.find? slot.target.name attributes = some x ∧
            slot.conversion.apply x.2 = .ok w ∧ w.ty = c.type) ∨
          Named.find? slot.target.name attributes = none ∧ slot.target.optional = true ∧
            (Value.null slot.target.type.stripped).ty = c.type := by
        intro i slot c hslot hc
        have htarget : (slots.map (·.target))[i]? = some slot.target := by
          rw [List.getElem?_map, hslot, Option.map_some]
        have hmem := List.mem_of_getElem? htarget
        cases hx : Named.find? slot.target.name attributes with
        | none =>
          have hnone := Named.find?_eq_none_of_names hnames hx
          exact .inr ⟨rfl, missing slot (List.mem_of_getElem? hslot) hnone,
            (missing' i slot.target c htarget hc hnone).symm⟩
        | some x =>
          obtain ⟨a, ha⟩ := Named.exists_find? hnames hx
          obtain ⟨w, hw, hty⟩ := ih slot (List.mem_of_getElem? hslot) a ha
            (found' i slot.target a c htarget hc ha)
            (hs.part (List.mem_map_of_mem (Named.mem_of_find? ha).1))
            ((throughout_object.mp ht).2 slot.target hmem) (hfields _ a x ha hx)
            (full.member (List.mem_map_of_mem (Named.mem_of_find? hx).1))
          exact .inl ⟨x, w, rfl, hw, hty⟩
      obtain ⟨filled, hfill, hfilled, hall⟩ := exists_fill Step.attr
        (by simpa using Named.length_eq_of_names names) heach
      refine ⟨.object filled, ?_, ty_object_eq (hfilled.trans names) required hall⟩
      rw [apply, applyWith_covering rfl, applyWith,
        checkNames_eq_ok (Named.contains_of_names hnames known), Except.bind]
      exact map_eq_ok_iff.mpr ⟨filled, hfill, rfl⟩
  | select permitted => cases permitted

/-! ### Full values that fail -/

theorem exists_of_eachPart {f : Value → Except Fault Value} {parts done : List (Step × Value)}
    {v : Value} (h : eachPart f parts = .ok done) (hv : v ∈ parts.map Prod.snd) :
    ∃ w, f v = .ok w := by
  obtain ⟨w, -, hw⟩ := exists_of_mem_right (forall₂_of_eachPart h).flip hv
  exact ⟨w, hw⟩

/-- Parts that have nothing in common do not settle. -/
theorem settle_ne_ok {declared e : Ty} {rs : List Ty} {parts : List (Step × Value)}
    {vs : List Value} (hne : parts ≠ []) (unsettled : declared.hasDynamic = true)
    (h : List.Forall₂ (fun w r => w.ty = r) (parts.map Prod.snd) rs)
    (clash : unify? rs .risky = none) : settle Value.convert declared parts ≠ .ok (e, vs) := by
  intro hsettle
  have unified := unify?_of_settle hne unsettled hsettle
  rw [map_ty_eq h, clash] at unified
  cases unified

theorem Plan.ty_of_apply {s t r : Ty} {c : Conversion} {v w : Value} (plan : Plan .safe s t c)
    (becomes : s.Becomes t r) (hs : s.Definite) (ht : t.Lawful) (hv : v.Inhabits s)
    (full : v.Full) (h : c.apply v = .ok w) : w.ty = r := by
  obtain ⟨w', hw', hty⟩ := plan.exists_apply_of_becomes becomes hs ht hv full
  rw [h] at hw'
  cases hw'
  exact hty

/-- **Step.** A full value whose parts have nothing in common is not converted. -/
theorem Plan.apply_ne_ok {s t : Ty} {c : Conversion} {v w : Value} (plan : Plan .safe s t c)
    (stuck : s.Stuck t) (hs : s.Definite) (ht : t.Lawful) (hv : v.Inhabits s) (full : v.Full) :
    c.apply v ≠ .ok w := by
  unfold Ty.Lawful at ht
  induction plan generalizing v w with
  | same =>
    have hdynamic := stuck.hasDynamic
    rw [hs.solid] at hdynamic
    cases hdynamic
  | pass | primitive => cases stuck
  | later => cases hs.solid
  | @sequence k l s t c permitted plan ih =>
    cases stuck with
    | inSequence inside =>
      obtain ⟨items, rfl, hitems⟩ := hv.items full.isConcrete
      rw [apply, applyWith_covering rfl, applyWith, if_neg (by simpa using full.items_ne_nil)]
      intro h
      obtain ⟨done, hdone, -⟩ := bind_eq_ok_iff.mp h
      obtain ⟨x, hx⟩ := List.exists_mem_of_ne_nil _ full.items_ne_nil
      obtain ⟨y, hy⟩ := exists_of_eachPart hdone (by rwa [map_snd_indexed])
      exact ih inside (hs.part (by simp [parts])) (throughout_sequence.mp ht).2 (hitems x hx)
        (full.member hx) hy
  | @map s t c plan ih =>
    cases stuck with
    | inMap inside =>
      obtain ⟨entries, rfl, hentries⟩ := hv.entries full.isConcrete
      rw [apply, applyWith_covering rfl, applyWith, if_neg (by simpa using full.entries_ne_nil)]
      intro h
      obtain ⟨done, hdone, -⟩ := bind_eq_ok_iff.mp h
      obtain ⟨x, hx⟩ := List.exists_mem_of_ne_nil _ full.entries_ne_nil
      have hmem : x.2 ∈ entries.map Prod.snd := List.mem_map_of_mem hx
      obtain ⟨y, hy⟩ := exists_of_eachPart hdone (by rwa [map_snd_keyed])
      exact ih inside (hs.part (by simp [parts])) (throughout_map.mp ht).2 (hentries x hx)
        (full.member hmem) hy
  | @positions l ss t u cs permitted elects length plans ih =>
    have nonempty : ss ≠ [] := by
      cases stuck with
      | positions nonempty => exact nonempty
      | inPositions _ source => exact List.ne_nil_of_mem source
    obtain ⟨items, rfl, hlen, hitems⟩ := hv.positions full.isConcrete
    have hne : items ≠ [] := ne_nil_of_length_eq hlen nonempty
    have hu : u.Lawful := (elects.lawful (throughout_sequence.mp ht).2 fun p hp =>
      (hs.part hp).plain.lawful).1
    rw [apply, applyWith_covering rfl, applyWith, if_pos (hlen.symm.trans length),
      if_neg (by simpa using hne)]
    intro h
    obtain ⟨done, hdone, h⟩ := bind_eq_ok_iff.mp h
    obtain ⟨⟨e, vs⟩, hsettle, -⟩ := map_eq_ok_iff.mp h
    obtain ⟨hdlen, heach⟩ := getElem?_of_applyAll (hlen.symm.trans length) hdone
    -- all parts were converted and have settled; either is excluded
    cases stuck with
    | @positions _ _ rs _ u' _ elects' hrs each clash =>
      obtain rfl := elects.unique elects'
      have unsettled : u.hasDynamic = true :=
        hasDynamic_of_clash nonempty hrs (fun i s r hs hr => ⟨s, each i s r hs hr⟩) clash
      refine settle_ne_ok (ne_nil_of_length hdlen hne) unsettled (forall₂_iff_getElem?.mpr
        ⟨hdlen.symm.trans (hlen.symm.trans hrs), fun i y r hy hr => ?_⟩) clash hsettle
      obtain ⟨x, hx⟩ := exists_getElem?_of_length hdlen hy
      obtain ⟨s, hsi⟩ := exists_getElem?_of_length hlen hx
      obtain ⟨c, hc⟩ := exists_getElem?_of_length length.symm hsi
      exact (plans i s c hsi hc).ty_of_apply (each i s r hsi hr)
        (hs.part (List.mem_of_getElem? hsi)) hu (hitems i s x hsi hx)
        (full.member (List.mem_of_getElem? hx)) (heach i c x y hc hx hy)
    | @inPositions _ _ s _ u' elects' source inside =>
      obtain rfl := elects.unique elects'
      obtain ⟨i, hsi⟩ := List.getElem?_of_mem source
      obtain ⟨c, hc⟩ := exists_getElem?_of_length length.symm hsi
      obtain ⟨x, hx⟩ := exists_getElem?_of_length hlen.symm hsi
      obtain ⟨y, hy⟩ := exists_getElem?_of_length hdlen.symm hx
      exact ih i s c hsi hc inside (hs.part source) hu (hitems i s x hsi hx)
        (full.member (List.mem_of_getElem? hx)) (heach i c x y hc hx hy)
  | @gather as t u cs elects names plans ih =>
    have nonempty : as ≠ [] := by
      cases stuck with
      | gather nonempty => exact nonempty
      | inGather _ source => exact List.ne_nil_of_mem source
    obtain ⟨attributes, rfl, hasc, hnames, hfields, -⟩ := hv.fields full.isConcrete
    have hlen := Named.length_eq_of_names hnames
    have hne : attributes ≠ [] := ne_nil_of_length_eq hlen nonempty
    have hu : u.Lawful := (elects.lawful (throughout_map.mp ht).2 fun p hp =>
      (hs.part hp).plain.lawful).1
    rw [apply, applyWith_covering rfl, applyWith, if_neg (by simpa using hne)]
    intro h
    obtain ⟨done, hdone, h⟩ := bind_eq_ok_iff.mp h
    obtain ⟨⟨e, vs⟩, hsettle, -⟩ := map_eq_ok_iff.mp h
    obtain ⟨hdlen, heach⟩ := getElem?_of_gather (hnames.symm.trans names) hasc hdone
    cases stuck with
    | @gather _ rs _ u' _ elects' hrs each clash =>
      obtain rfl := elects.unique elects'
      have unsettled : u.hasDynamic = true :=
        hasDynamic_of_clash nonempty hrs (fun i a r ha hr => ⟨a.type, each i a r ha hr⟩) clash
      refine settle_ne_ok (ne_nil_of_length hdlen hne) unsettled (forall₂_iff_getElem?.mpr
        ⟨hdlen.symm.trans (hlen.symm.trans hrs), fun i y r hy hr => ?_⟩) clash hsettle
      obtain ⟨x, hx⟩ := exists_getElem?_of_length hdlen hy
      obtain ⟨a, ha⟩ := exists_getElem?_of_length hlen hx
      obtain ⟨c, hc, -⟩ := Named.exists_getElem? names.symm ha
      exact (plans i a c ha hc).ty_of_apply (each i a r ha hr)
        (hs.part (List.mem_map_of_mem (List.mem_of_getElem? ha))) hu (hfields i a x ha hx)
        (full.member (List.mem_map_of_mem (List.mem_of_getElem? hx))) (heach i c x y hc hx hy)
    | @inGather _ a _ u' elects' source inside =>
      obtain rfl := elects.unique elects'
      obtain ⟨i, ha⟩ := List.getElem?_of_mem source
      obtain ⟨c, hc, -⟩ := Named.exists_getElem? names.symm ha
      obtain ⟨x, hx⟩ := exists_getElem?_of_length hlen.symm ha
      obtain ⟨y, hy⟩ := exists_getElem?_of_length hdlen.symm hx
      exact ih i a c ha hc inside (hs.part (List.mem_map_of_mem source)) hu (hfields i a x ha hx)
        (full.member (List.mem_map_of_mem (List.mem_of_getElem? hx))) (heach i c x y hc hx hy)
  | @tuple ss ts cs arity length plans ih =>
    cases stuck with
    | @inTuple _ _ s t i source target inside =>
      obtain ⟨items, rfl, hlen, hitems⟩ := hv.positions full.isConcrete
      rw [apply, applyWith_covering rfl, applyWith, if_pos (hlen.symm.trans length)]
      intro h
      obtain ⟨done, hdone, -⟩ := map_eq_ok_iff.mp h
      obtain ⟨hdlen, heach⟩ := getElem?_of_applyAll (hlen.symm.trans length) hdone
      obtain ⟨c, hc⟩ := exists_getElem?_of_length length.symm source
      obtain ⟨x, hx⟩ := exists_getElem?_of_length hlen.symm source
      obtain ⟨y, hy⟩ := exists_getElem?_of_length hdlen.symm hx
      exact ih i s t c source target hc inside (hs.part (List.mem_of_getElem? source))
        ((throughout_tuple.mp ht).2 t (List.mem_of_getElem? target)) (hitems i s x source hx)
        (full.member (List.mem_of_getElem? hx)) (heach i c x y hc hx hy)
  | @object as bs slots known targets found missing ih =>
    subst targets
    cases stuck with
    | @inObject _ _ a b target source inside =>
      obtain ⟨slot, hslot, rfl⟩ := List.mem_map.mp target
      obtain ⟨attributes, rfl, -, hnames, -, hfields⟩ := hv.fields full.isConcrete
      rw [apply, applyWith_covering rfl, applyWith]
      intro h
      obtain ⟨_, -, h⟩ := bind_eq_ok_iff.mp h
      obtain ⟨filled, hfill, -⟩ := map_eq_ok_iff.mp h
      obtain ⟨hfilled, heach⟩ := getElem?_of_fill hfill
      obtain ⟨i, hi⟩ := List.getElem?_of_mem hslot
      obtain ⟨y, hy⟩ := exists_getElem?_of_length
        (by simpa using Named.length_eq_of_names hfilled) hi
      obtain ⟨x, hx⟩ := Named.exists_find? hnames.symm source
      exact ih slot hslot a source inside
        (hs.part (List.mem_map_of_mem (Named.mem_of_find? source).1))
        ((throughout_object.mp ht).2 slot.target target) (hfields _ a x source hx)
        (full.member (List.mem_map_of_mem (Named.mem_of_find? hx).1))
        ((heach i slot y hi hy).1 x hx)
  | select permitted => cases permitted

end Conversion

/-- **Full values.** A safe conversion gives a full value the type that the types say, if they say
one, as they do if they are direct; and it fails on every full value if the types are stuck. -/
theorem full_settles {source target : Ty} {c : Conversion} {v : Value} (hs : source.Definite)
    (ht : target.Lawful) (hc : Conversion.between? source target .safe = some c)
    (hv : v.Inhabits source) (full : v.Full) :
    (∀ result, source.Becomes target result → ∃ w, c.apply v = .ok w ∧ w.ty = result) ∧
      (source.Direct target → ∃ w, c.apply v = .ok w) ∧
      (source.Stuck target → ∃ f, c.apply v = .error f) := by
  have plan := Conversion.plan_of_between? hc
  refine ⟨fun result becomes => plan.exists_apply_of_becomes becomes hs ht hv full,
    fun direct => ?_, fun stuck => ?_⟩
  · obtain ⟨result, becomes⟩ := direct.exists_becomes (Ty.converts_of_plan plan) hs
    obtain ⟨w, hw, -⟩ := plan.exists_apply_of_becomes becomes hs ht hv full
    exact ⟨w, hw⟩
  · cases h : c.apply v with
    | ok w => exact absurd h (plan.apply_ne_ok stuck hs ht hv full)
    | error f => exact ⟨f, rfl⟩

/-- A list of numbers and a set of texts come out as lists, and agree on lists of texts. -/
theorem full_settles_numbers_and_texts :
    let source : Ty := .tuple [.list .number, .set .string]
    let target : Ty := .list (.list .dynamic)
    let v : Value := .tuple [.list .number [.number ⟨1, 0⟩], .set .string [.string "x"]]
    source.Definite ∧ target.Lawful ∧ v.Inhabits source ∧ v.Full ∧
      source.Becomes target (.list (.list .string)) ∧
      ∃ c, Conversion.between? source target .safe = some c ∧
        ∃ w, c.apply v = .ok w ∧ w.ty = .list (.list .string) := by
  intro source target v
  have hs : source.Definite := ⟨⟨by decide, by decide⟩, by decide⟩
  have agreed : Ty.Agreed [.list .number, .list .string] (.list .string) := by
    refine .common (by cbv) (by decide) ?_
    simp only [List.forall_mem_cons, List.not_mem_nil, false_imp_iff, implies_true, and_true]
    exact ⟨by cbv, by cbv⟩
  have becomes : source.Becomes target (.list (.list .string)) := by
    have parts : List.Forall₂ (Ty.Becomes · (.list .dynamic)) [.list .number, .set .string]
        [.list .number, .list .string] := .cons (.sequence .hole) (.cons (.sequence .hole) .nil)
    obtain ⟨length, each⟩ := forall₂_iff_getElem?.mp parts
    exact .positions (by simp) (.declared (by simp)) length each agreed
  obtain ⟨c, hc⟩ : ∃ c, Conversion.between? source target .safe = some c := by
    rw [← Option.isSome_iff_exists]
    cbv
  exact ⟨hs, by decide, by decide, by decide, becomes, c, hc,
    (full_settles hs (by decide) hc (by decide) (by decide)).1 _ becomes⟩

/-- Lists of numbers and of truth values have nothing in common, but there is a safe conversion of
both into a list of lists of whatever. It would not be there for the numbers and truth values
themselves. -/
theorem full_fails_numbers_and_bools :
    let source : Ty := .tuple [.list .number, .list .bool]
    let target : Ty := .list (.list .dynamic)
    let v : Value := .tuple [.list .number [.number ⟨1, 0⟩], .list .bool [.bool true]]
    let c : Conversion := .covering target (.positions .list [.covering (.list .dynamic)
      (.eachItem .list .identity .dynamic), .covering (.list .dynamic)
      (.eachItem .list .identity .dynamic)] (.list .dynamic))
    source.Definite ∧ target.Lawful ∧ v.Inhabits source ∧ v.Full ∧ source.Stuck target ∧
      Conversion.between? source target .safe = some c ∧
      c.apply v = .error (.of (.noCommonType (.list .number) (.list .bool))) ∧
      Conversion.between? (.tuple [.number, .bool]) (.list .dynamic) .safe = none := by
  intro source target v c
  have stuck : source.Stuck target := by
    have parts : List.Forall₂ (Ty.Becomes · (.list .dynamic)) [.list .number, .list .bool]
        [.list .number, .list .bool] := .cons (.sequence .hole) (.cons (.sequence .hole) .nil)
    obtain ⟨length, each⟩ := forall₂_iff_getElem?.mp parts
    exact .positions (by simp) (.declared (by simp)) length each (by cbv)
  have hpair : Ty.unify? [.list .number, .list .bool] .risky = none := by cbv
  have hunify : Ty.unify [.list .number, .list .bool] .risky =
      .error (.of (.noCommonType (.list .number) (.list .bool))) := by
    simp [Ty.unify, Ty.pairs, hpair]
  have hfail : c.apply v = .error (.of (.noCommonType (.list .number) (.list .bool))) := by
    calc c.apply v = ((Ty.unify [.list .number, .list .bool] .risky).bind fun _ => _).map _ := rfl
      _ = _ := by rw [hunify]; rfl
  exact ⟨⟨⟨by decide, by decide⟩, by decide⟩, by decide, by decide, by decide, stuck, by cbv,
    hfail, by cbv⟩

end Retype
