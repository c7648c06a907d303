import Retype.Convert
import Retype.Proofs.Conversion.Plan
import Retype.Proofs.Ty.Refine
import Retype.Proofs.Value.WellFormed

/-!
# What a conversion makes of a value

`Conversion.Yields convert safety source target v w` lists the ways in which a value of the source
type, or of one that conforms to it, becomes a value when a plan for the target is carried out.
The plan itself is gone: what it does to a part follows from the types. `convert` is the way that
open parts are converted. `yields_of_apply` is where the interpreter of plans is opened, once.

What becomes of the parts of a collection after each was converted is said by
`Conversion.Settles`.
-/

namespace Retype

namespace Conversion

/-- The element type that converted parts settle on, and the parts of that type. -/
inductive Settles (convert : Value → Ty → Except Fault Value) (declared : Ty) (ws : List Value) :
    Ty → List Value → Prop
  | fixed (solid : declared.hasDynamic = false) : Settles convert declared ws declared.stripped ws
  | alike {e : Ty} (unsettled : declared.hasDynamic = true) (nonempty : ws ≠ [])
      (all : ∀ w ∈ ws, w.ty = e) : Settles convert declared ws e ws
  | again {e : Ty} {vs : List Value} (unsettled : declared.hasDynamic = true)
      (apart : ∃ w ∈ ws, ∃ w' ∈ ws, w.ty ≠ w'.ty)
      (unified : Ty.unify? (ws.map Value.ty) .risky = some e)
      (each : List.Forall₂ (fun w v => convert w e = .ok v) ws vs) :
      Settles convert declared ws e vs

/-- How a value becomes another on its way from one type to another. -/
inductive Yields (convert : Value → Ty → Except Fault Value) (safety : Safety) :
    Ty → Ty → Value → Value → Prop
  | null {s t i r : Ty} (source : s ≠ .dynamic) (solid : t ≠ .dynamic)
      (refines : Ty.Refines t.stripped i r) : Yields convert safety s t (.null i) (.null r)
  | unknown {s t i r : Ty} (source : s ≠ .dynamic) (solid : t ≠ .dynamic)
      (refines : Ty.Refines t.stripped i r) : Yields convert safety s t (.unknown i) (.unknown r)
  | keep {t : Ty} {v : Value} (solid : t ≠ .dynamic) (data : v.isConcrete = true)
      (conforms : v.ty.Conforms t) : Yields convert safety t t v v
  | pass {s : Ty} {v : Value} : Yields convert safety s .dynamic v v
  | blankNull {t : Ty} (solid : t ≠ .dynamic) :
      Yields convert safety .dynamic t (.null .dynamic) (.null t.stripped)
  | blankUnknown {t : Ty} (solid : t ≠ .dynamic) :
      Yields convert safety .dynamic t (.unknown .dynamic) (.unknown t.stripped)
  | later {t : Ty} {v w : Value} (solid : t ≠ .dynamic) (known : v.ty ≠ .dynamic)
      (converted : convert v t = .ok w) : Yields convert safety .dynamic t v w
  | primitive {p q : Primitive} {v w : Value} (permitted : Primitive.convertible safety p q = true)
      (data : v.isConcrete = true) (converted : v.toPrimitive q = .ok w) :
      Yields convert safety (.primitive p) (.primitive q) v w
  | emptySequence {k l m : SequenceKind} {s t own r : Ty} (refines : Ty.Refines t own r) :
      Yields convert safety (.sequence k s) (.sequence l t) (.sequence m own [])
        (.sequence l r.stripped [])
  | sequence {k l m : SequenceKind} {s t own e : Ty} {items ws vs : List Value}
      (nonempty : items ≠ []) (length : items.length = ws.length)
      (each : ∀ (i : Nat) v w, items[i]? = some v → ws[i]? = some w → Yields convert safety s t v w)
      (settles : Settles convert t ws e vs) :
      Yields convert safety (.sequence k s) (.sequence l t) (.sequence m own items)
        (.collect l e vs)
  | emptyMap {s t own r : Ty} (refines : Ty.Refines t own r) :
      Yields convert safety (.map s) (.map t) (.map own []) (.map r.stripped [])
  | map {s t own e : Ty} {entries : List (String × Value)} {ws vs : List Value}
      (nonempty : entries ≠ []) (length : entries.length = ws.length)
      (each : ∀ (i : Nat) (x : String × Value) w, entries[i]? = some x → ws[i]? = some w →
        Yields convert safety s t x.2 w)
      (settles : Settles convert t ws e vs) :
      Yields convert safety (.map s) (.map t) (.map own entries)
        (.map e ((entries.map Prod.fst).zip vs))
  | emptyTuple {l : SequenceKind} {t : Ty} :
      Yields convert safety (.tuple []) (.sequence l t) (.tuple []) (.sequence l t.stripped [])
  | positions {l : SequenceKind} {ss : List Ty} {t u e : Ty} {items ws vs : List Value}
      (nonempty : items ≠ []) (elects : Elects safety ss t u)
      (arity : ss.length = items.length) (length : items.length = ws.length)
      (each : ∀ (i : Nat) s v w, ss[i]? = some s → items[i]? = some v → ws[i]? = some w →
        Yields convert safety s u v w)
      (settles : Settles convert u ws e vs) :
      Yields convert safety (.tuple ss) (.sequence l t) (.tuple items) (.collect l e vs)
  | emptyObject {t : Ty} :
      Yields convert safety (.object []) (.map t) (.object []) (.map t.stripped [])
  | gather {as : List (Attribute Ty)} {t u e : Ty} {attributes : List (String × Value)}
      {ws vs : List Value} (nonempty : attributes ≠ [])
      (elects : Elects safety (as.map (·.type)) t u)
      (names : Named.names as = Named.names attributes) (length : attributes.length = ws.length)
      (each : ∀ (i : Nat) (a : Attribute Ty) (x : String × Value) w, as[i]? = some a →
        attributes[i]? = some x → ws[i]? = some w → Yields convert safety a.type u x.2 w)
      (settles : Settles convert u ws e vs) :
      Yields convert safety (.object as) (.map t) (.object attributes)
        (.map e ((attributes.map Prod.fst).zip vs))
  | tuple {ss ts : List Ty} {items ws : List Value} (arity : ss.length = ts.length)
      (source : ss.length = items.length) (length : items.length = ws.length)
      (each : ∀ (i : Nat) s t v w, ss[i]? = some s → ts[i]? = some t → items[i]? = some v →
        ws[i]? = some w → Yields convert safety s t v w) :
      Yields convert safety (.tuple ss) (.tuple ts) (.tuple items) (.tuple ws)
  | object {as bs : List (Attribute Ty)} {attributes filled : List (String × Value)}
      (names : Named.names as = Named.names attributes)
      (known : ∀ a ∈ as, Named.contains a.name bs = true)
      (targets : Named.names filled = Named.names bs)
      (found : ∀ (i : Nat) (b a : Attribute Ty) (x w : String × Value), bs[i]? = some b →
        filled[i]? = some w → Named.find? b.name as = some a →
        Named.find? b.name attributes = some x → Yields convert safety a.type b.type x.2 w.2)
      (missing : ∀ (i : Nat) (b : Attribute Ty) (w : String × Value), bs[i]? = some b →
        filled[i]? = some w → Named.find? b.name attributes = none →
        b.optional = true ∧ w.2 = .null b.type.stripped) :
      Yields convert safety (.object as) (.object bs) (.object attributes) (.object filled)
  | select {s own : Ty} {bs : List (Attribute Ty)} {entries filled : List (String × Value)}
      (permitted : safety = .risky) (known : ∀ x ∈ entries, Named.contains x.1 bs = true)
      (targets : Named.names filled = Named.names bs)
      (found : ∀ (i : Nat) (b : Attribute Ty) (x w : String × Value), bs[i]? = some b →
        filled[i]? = some w → Named.find? b.name entries = some x →
        Yields convert safety s b.type x.2 w.2)
      (missing : ∀ (i : Nat) (b : Attribute Ty) (w : String × Value), bs[i]? = some b →
        filled[i]? = some w → Named.find? b.name entries = none →
        b.optional = true ∧ w.2 = .null b.type.stripped) :
      Yields convert safety (.map s) (.object bs) (.map own entries) (.object filled)

variable {convert : Value → Ty → Except Fault Value}

/-! ### The parts of the interpreter -/

theorem locate_eq_ok_iff {α : Type} {step : Step} {x : Except Fault α} {a : α} :
    locate step x = .ok a ↔ x = .ok a :=
  mapError_eq_ok_iff

/-- Each part is converted, and stays at its step. -/
theorem forall₂_of_eachPart {f : Value → Except Fault Value} {parts done : List (Step × Value)}
    (h : eachPart f parts = .ok done) :
    List.Forall₂ (fun v w => f v = .ok w) (parts.map Prod.snd) (done.map Prod.snd) := by
  rw [List.forall₂_map_left_iff, List.forall₂_map_right_iff]
  refine (mapM_eq_ok_iff.mp h).imp fun part done hpart => ?_
  obtain ⟨w, hw, rfl⟩ := map_eq_ok_iff.mp hpart
  exact locate_eq_ok_iff.mp hw

theorem applyAll_eq_mapM (cs : List Conversion) (parts : List (Step × Value)) :
    applyAll convert cs parts = (cs.zip parts).mapM fun p =>
      (locate p.2.1 (applyWith convert p.1 p.2.2)).map fun v => (p.2.1, v) := by
  induction cs generalizing parts with
  | nil => simp [applyAll, pure, Except.pure]
  | cons c cs ih =>
    cases parts with
    | nil => simp [applyAll, pure, Except.pure]
    | cons part parts =>
      rw [applyAll, List.zip_cons_cons, List.mapM_cons, ← ih]
      cases locate part.1 (applyWith convert c part.2) <;> rfl

theorem applyNamed_eq_map (cs : List (String × Conversion)) (name : String) (v : Value) :
    applyNamed convert cs name v =
      (Named.find? name cs).map fun c => applyWith convert c.2 v := by
  induction cs with
  | nil => rfl
  | cons c cs ih =>
    rw [applyNamed]
    split
    · rename_i hname
      simp [Named.find?, Named.name, hname]
    · rename_i hname
      rw [ih]
      simp [Named.find?, Named.name, hname]

theorem fill_eq_mapM (step : String → Step) (slots : List (Slot Conversion))
    (entries : List (String × Value)) :
    fill convert step slots entries = slots.mapM fun slot =>
      (match Named.find? slot.target.name entries with
        | some e => locate (step slot.target.name) (applyWith convert slot.conversion e.2)
        | none => absent slot.target).map fun v => (slot.target.name, v) := by
  induction slots with
  | nil => simp [fill, pure, Except.pure]
  | cons slot slots ih =>
    rw [fill, List.mapM_cons, ← ih]
    rcases slot with ⟨a, c⟩
    dsimp only
    cases Named.find? a.name entries with
    | none =>
      dsimp only
      cases absent a <;> rfl
    | some e =>
      dsimp only
      cases locate (step a.name) (applyWith convert c e.2) <;> rfl

/-- **Inversion.** What parts settle on, if there are any. -/
theorem settles_of_settle {declared : Ty} {parts : List (Step × Value)} {e : Ty}
    {vs : List Value} (hne : parts ≠ []) (h : settle convert declared parts = .ok (e, vs)) :
    Settles convert declared (parts.map Prod.snd) e vs := by
  unfold settle at h
  split at h
  · rename_i unsettled
    cases parts with
    | nil => exact absurd rfl hne
    | cons first rest =>
      dsimp only at h
      split at h
      · rename_i hall
        cases h
        refine .alike unsettled (by simp) fun w hw => ?_
        rcases List.mem_cons.mp hw with rfl | hw
        · rfl
        · obtain ⟨part, hpart, rfl⟩ := List.mem_map.mp hw
          simpa using List.all_eq_true.mp hall part hpart
      · rename_i hall
        obtain ⟨u, hu, h⟩ := bind_eq_ok_iff.mp h
        obtain ⟨done, hdone, h⟩ := map_eq_ok_iff.mp h
        cases h
        refine .again unsettled ?_ ?_ (forall₂_of_eachPart hdone)
        · simp only [List.all_eq_true, not_forall, beq_iff_eq] at hall
          obtain ⟨part, hpart, hne⟩ := hall
          exact ⟨part.2, by simpa using .inr ⟨part.1, hpart⟩, first.2, by simp, hne⟩
        · rw [Ty.unify] at hu
          split at hu
          · rename_i hcommon
            cases hu
            simpa [Function.comp_def] using hcommon
          · cases hu
  · rename_i solid
    cases h
    exact .fixed (by simpa using solid)

/-- Nulls and unknowns are treated by their types; data by the inner plan. -/
theorem yields_of_covering {safety : Safety} {s t : Ty} {inner : Conversion} {v w : Value}
    (source : s ≠ .dynamic) (solid : t ≠ .dynamic)
    (hinner : v.isConcrete = true → applyWith convert inner v = .ok w →
      Yields convert safety s t v w)
    (h : applyWith convert (.covering t.stripped inner) v = .ok w) :
    Yields convert safety s t v w := by
  cases v with
  | null i =>
    obtain ⟨r, hr, rfl⟩ := map_eq_ok_iff.mp h
    exact .null source solid (Ty.refine_eq_ok_iff.mp hr)
  | unknown i =>
    obtain ⟨r, hr, rfl⟩ := map_eq_ok_iff.mp h
    exact .unknown source solid (Ty.refine_eq_ok_iff.mp hr)
  | _ => exact hinner rfl h

end Conversion

/-! ### Data of a type that conforms -/

namespace Value

theorem exists_of_conforms_sequence {v : Value} {k : SequenceKind} {s : Ty}
    (h : v.ty.Conforms (.sequence k s)) (data : v.isConcrete = true) :
    ∃ own items, v = .sequence k own items ∧ own.Conforms s := by
  cases v with
  | sequence l own items => cases h with | sequence element => exact ⟨own, items, rfl, element⟩
  | null i | unknown i => cases data
  | _ => cases h

theorem exists_of_conforms_map {v : Value} {s : Ty} (h : v.ty.Conforms (.map s))
    (data : v.isConcrete = true) : ∃ own entries, v = .map own entries ∧ own.Conforms s := by
  cases v with
  | map own entries => cases h with | map element => exact ⟨own, entries, rfl, element⟩
  | null i | unknown i => cases data
  | _ => cases h

theorem exists_of_conforms_tuple {v : Value} {ss : List Ty} (h : v.ty.Conforms (.tuple ss))
    (data : v.isConcrete = true) :
    ∃ items, v = .tuple items ∧ ss.length = items.length ∧
      ∀ (i : Nat) s x, ss[i]? = some s → items[i]? = some x → x.ty.Conforms s := by
  cases v with
  | tuple items =>
    rw [ty, tyAll_eq_map] at h
    cases h with
    | tuple length each =>
      refine ⟨items, rfl, by simpa using length.symm, fun i s x hs hx => each i x.ty s ?_ hs⟩
      rw [List.getElem?_map, hx, Option.map_some]
  | null i | unknown i => cases data
  | _ => cases h

theorem exists_of_conforms_object {v : Value} {as : List (Attribute Ty)}
    (h : v.ty.Conforms (.object as)) (data : v.isConcrete = true) :
    ∃ attributes, v = .object attributes ∧ Named.names as = Named.names attributes ∧
      ∀ (i : Nat) (a : Attribute Ty) (x : String × Value), as[i]? = some a →
        attributes[i]? = some x → x.2.ty.Conforms a.type := by
  cases v with
  | object attributes =>
    rw [ty, tyAttributes_eq_map] at h
    cases h with
    | object names each =>
      refine ⟨attributes, rfl, ?_, fun i a x ha hx => ?_⟩
      · simpa [Named.names, Named.name, Function.comp_def] using names.symm
      · exact each i ⟨x.1, false, x.2.ty⟩ a (by rw [List.getElem?_map, hx, Option.map_some]) ha
  | null i | unknown i => cases data
  | _ => cases h

end Value

/-! ### The interpreter follows the rules -/

namespace Conversion

variable {convert : Value → Ty → Except Fault Value}

theorem getElem?_indexed {items : List Value} {i : Nat} {v : Value} (h : items[i]? = some v) :
    (Value.indexed items)[i]? = some (.index i, v) := by
  simp [Value.indexed, h]

theorem map_snd_indexed (items : List Value) : (Value.indexed items).map Prod.snd = items := by
  refine List.ext_getElem? fun i => ?_
  simp [Value.indexed, Function.comp_def]

theorem exists_of_mem_indexed {items : List Value} {part : Step × Value}
    (h : part ∈ Value.indexed items) : ∃ i x, part = (.index i, x) ∧ items[i]? = some x := by
  obtain ⟨i, hi, rfl⟩ := List.mem_mapIdx.mp h
  exact ⟨i, items[i], rfl, List.getElem?_eq_getElem hi⟩

theorem mem_of_mem_indexed {items : List Value} {part : Step × Value}
    (h : part ∈ Value.indexed items) : part.2 ∈ items := by
  rw [← map_snd_indexed items]
  exact List.mem_map_of_mem h

theorem map_snd_keyed (entries : List (String × Value)) :
    (Value.keyed entries).map Prod.snd = entries.map Prod.snd := by
  simp [Value.keyed, Function.comp_def]

theorem ty_ne_dynamic {v : Value} (hnull : v ≠ .null .dynamic) (hunknown : v ≠ .unknown .dynamic) :
    v.ty ≠ .dynamic := by
  intro hty
  cases v with
  | null i => exact hnull (congrArg _ hty)
  | unknown i => exact hunknown (congrArg _ hty)
  | _ => cases hty

/-- Parts converted position by position, each with its own plan. -/
theorem getElem?_of_applyAll {cs : List Conversion} {items : List Value}
    {done : List (Step × Value)} (hlen : items.length = cs.length)
    (h : applyAll convert cs (Value.indexed items) = .ok done) :
    items.length = (done.map Prod.snd).length ∧
      ∀ (i : Nat) c v w, cs[i]? = some c → items[i]? = some v →
        (done.map Prod.snd)[i]? = some w → applyWith convert c v = .ok w := by
  rw [applyAll_eq_mapM, mapM_eq_ok_iff, forall₂_iff_getElem?] at h
  obtain ⟨hdone, heach⟩ := h
  refine ⟨by simpa [Value.indexed, hlen] using hdone, fun i c v w hc hv hw => ?_⟩
  obtain ⟨part, hpart, rfl⟩ := Option.map_eq_some_iff.mp ((List.getElem?_map ..).symm.trans hw)
  have hstep := heach i (c, .index i, v) part
    (List.getElem?_zip_eq_some.mpr ⟨hc, getElem?_indexed hv⟩) hpart
  obtain ⟨w, hw', rfl⟩ := map_eq_ok_iff.mp hstep
  exact locate_eq_ok_iff.mp hw'

/-- Attributes converted one by one, each with the plan of its name. -/
theorem getElem?_of_gather {cs : List (String × Conversion)}
    {attributes : List (String × Value)} {v : Value} {done : List (Step × Value)}
    (hnames : Named.names attributes = Named.names cs) (hasc : Named.Ascending attributes)
    (h : (attributes.mapM fun a =>
      match applyNamed convert cs a.1 a.2 with
      | some result => (locate (.attr a.1) result).map fun v => (Step.attr a.1, v)
      | none => wrongShape .object v) = .ok done) :
    attributes.length = (done.map Prod.snd).length ∧
      ∀ (i : Nat) (c : String × Conversion) (x : String × Value) w, cs[i]? = some c →
        attributes[i]? = some x → (done.map Prod.snd)[i]? = some w →
        applyWith convert c.2 x.2 = .ok w := by
  rw [mapM_eq_ok_iff, forall₂_iff_getElem?] at h
  obtain ⟨hdone, heach⟩ := h
  refine ⟨by simpa using hdone, fun i c x w hc hx hw => ?_⟩
  obtain ⟨part, hpart, rfl⟩ := Option.map_eq_some_iff.mp ((List.getElem?_map ..).symm.trans hw)
  have hstep := heach i x part hx hpart
  -- names are ascending, so the plan of a name stands at the position of the name
  have hasc' : Named.Ascending cs := by rwa [Named.Ascending, ← hnames]
  have hkey : c.1 = x.1 := by
    obtain ⟨c', hc', hname⟩ := Named.exists_getElem? hnames.symm hx
    obtain rfl : c = c' := Option.some.inj (hc.symm.trans hc')
    exact hname
  have hfind : Named.find? x.1 cs = some c := hkey ▸ Named.find?_of_getElem? hasc' hc
  rw [applyNamed_eq_map, hfind] at hstep
  obtain ⟨w, hw', rfl⟩ := map_eq_ok_iff.mp hstep
  exact locate_eq_ok_iff.mp hw'

/-- Slots filled one by one, from the entries of their names. -/
theorem getElem?_of_fill {step : String → Step} {slots : List (Slot Conversion)}
    {entries filled : List (String × Value)} (h : fill convert step slots entries = .ok filled) :
    Named.names filled = Named.names (slots.map (·.target)) ∧
      ∀ (i : Nat) slot (w : String × Value), slots[i]? = some slot → filled[i]? = some w →
        (∀ x, Named.find? slot.target.name entries = some x →
          applyWith convert slot.conversion x.2 = .ok w.2) ∧
        (Named.find? slot.target.name entries = none →
          slot.target.optional = true ∧ w.2 = .null slot.target.type.stripped) := by
  rw [fill_eq_mapM, mapM_eq_ok_iff] at h
  obtain ⟨hlen, heach⟩ := forall₂_iff_getElem?.mp h
  refine ⟨?_, fun i slot w hslot hw => ?_⟩
  · rw [Named.names, Named.names, List.map_map]
    refine (map_eq_map_of_getElem? hlen fun i slot w hslot hw => ?_).symm
    obtain ⟨w, -, rfl⟩ := map_eq_ok_iff.mp (heach i slot w hslot hw)
    rfl
  · obtain ⟨v, hv, rfl⟩ := map_eq_ok_iff.mp (heach i slot w hslot hw)
    refine ⟨fun x hx => ?_, fun hnone => ?_⟩
    · rw [hx] at hv
      exact locate_eq_ok_iff.mp hv
    · rw [hnone] at hv
      simp only [absent] at hv
      split at hv
      · rename_i optional
        cases hv
        exact ⟨optional, rfl⟩
      · cases hv

/-- No name is refused. -/
theorem contains_of_checkNames {slots : List (Slot Conversion)} {entries : List (String × Value)}
    (h : checkNames slots entries = .ok ()) :
    ∀ x ∈ entries, Named.contains x.1 (slots.map (·.target)) = true := by
  intro x hx
  unfold checkNames at h
  split at h
  · cases h
  · rename_i hnone
    have := List.find?_eq_none.mp hnone x hx
    simpa [Named.contains, Named.name, Function.comp_def] using this

theorem ne_nil_of_length {α : Type} {items : List α} {done : List (Step × Value)}
    (hlen : items.length = (done.map Prod.snd).length) (hne : items ≠ []) : done ≠ [] := by
  rintro rfl
  exact hne (by simpa using hlen)

/-- **Inversion.** A plan that is carried out on a value whose type conforms to the source yields
its result under one of the rules. -/
theorem yields_of_apply {safety : Safety} {s t : Ty} {c : Conversion} {v w : Value}
    (plan : Plan safety s t c) (hv : v.Sound) (hty : v.ty.Conforms s)
    (h : applyWith convert c v = .ok w) : Yields convert safety s t v w := by
  induction plan generalizing v w with
  | same solid =>
    refine yields_of_covering solid solid (fun data hin => ?_) h
    cases hin
    exact .keep solid data hty
  | pass =>
    cases h
    exact .pass
  | later solid =>
    unfold applyWith at h
    split at h
    · cases h
      exact .blankNull solid
    · cases h
      exact .blankUnknown solid
    · rename_i hnull hunknown
      exact .later solid (ty_ne_dynamic hnull hunknown) h
  | primitive permitted =>
    refine yields_of_covering (by simp) (by simp) (fun data hin => ?_) h
    exact .primitive permitted data hin
  | @sequence k l s t c permitted _ ih =>
    refine yields_of_covering (by simp) (by simp) (fun data hin => ?_) h
    obtain ⟨own, items, rfl, hown⟩ := Value.exists_of_conforms_sequence hty data
    rw [applyWith] at hin
    split at hin
    · rename_i hempty
      obtain rfl := List.isEmpty_iff.mp hempty
      obtain ⟨r, hr, rfl⟩ := map_eq_ok_iff.mp hin
      exact .emptySequence (Ty.refine_eq_ok_iff.mp hr)
    · rename_i hne
      obtain ⟨done, hdone, hin⟩ := bind_eq_ok_iff.mp hin
      obtain ⟨⟨e, vs⟩, hsettle, rfl⟩ := map_eq_ok_iff.mp hin
      have heach := forall₂_of_eachPart hdone
      rw [map_snd_indexed, forall₂_iff_getElem?] at heach
      refine .sequence (by simpa using hne) heach.1 (fun i x y hx hy => ?_)
        (settles_of_settle (ne_nil_of_length heach.1 (by simpa using hne)) hsettle)
      have hmem := List.mem_of_getElem? hx
      refine ih (hv.member hmem) ?_ (heach.2 i x y hx hy)
      -- an item conforms to the recorded type, and that to the source
      exact (hv.here.conform own rfl x hmem).trans hown
  | @positions l ss t u cs permitted elects length each ih =>
    refine yields_of_covering (by simp) (by simp) (fun data hin => ?_) h
    obtain ⟨items, rfl, hlen, hitems⟩ := Value.exists_of_conforms_tuple hty data
    rw [applyWith, if_pos (hlen.symm.trans length)] at hin
    split at hin
    · rename_i hempty
      obtain rfl := List.isEmpty_iff.mp hempty
      obtain rfl : ss = [] := List.eq_nil_of_length_eq_zero hlen
      cases hin
      cases elects with
      | common nonempty => exact absurd rfl nonempty
      | declared => exact .emptyTuple
    · rename_i hne
      obtain ⟨done, hdone, hin⟩ := bind_eq_ok_iff.mp hin
      obtain ⟨⟨e, vs⟩, hsettle, rfl⟩ := map_eq_ok_iff.mp hin
      obtain ⟨hdlen, heach⟩ := getElem?_of_applyAll (hlen.symm.trans length) hdone
      refine .positions (by simpa using hne) elects hlen hdlen (fun i s x y hs hx hy => ?_)
        (settles_of_settle (ne_nil_of_length hdlen (by simpa using hne)) hsettle)
      obtain ⟨c, hc⟩ := exists_getElem?_of_length length.symm hs
      exact ih i s c hs hc (hv.member (List.mem_of_getElem? hx)) (hitems i s x hs hx)
        (heach i c x y hc hx hy)
  | @map s t c _ ih =>
    refine yields_of_covering (by simp) (by simp) (fun data hin => ?_) h
    obtain ⟨own, entries, rfl, hown⟩ := Value.exists_of_conforms_map hty data
    rw [applyWith] at hin
    split at hin
    · rename_i hempty
      obtain rfl := List.isEmpty_iff.mp hempty
      obtain ⟨r, hr, rfl⟩ := map_eq_ok_iff.mp hin
      exact .emptyMap (Ty.refine_eq_ok_iff.mp hr)
    · rename_i hne
      obtain ⟨done, hdone, hin⟩ := bind_eq_ok_iff.mp hin
      obtain ⟨⟨e, vs⟩, hsettle, rfl⟩ := map_eq_ok_iff.mp hin
      have heach := forall₂_of_eachPart hdone
      rw [map_snd_keyed, List.forall₂_map_left_iff, forall₂_iff_getElem?] at heach
      refine .map (by simpa using hne) heach.1 (fun i x y hx hy => ?_)
        (settles_of_settle (ne_nil_of_length heach.1 (by simpa using hne)) hsettle)
      have hmem : x.2 ∈ (Value.map own entries).members :=
        List.mem_map_of_mem (List.mem_of_getElem? hx)
      refine ih (hv.member hmem) ?_ (heach.2 i x y hx hy)
      exact (hv.here.conform own rfl x.2 hmem).trans hown
  | @gather as t u cs elects names each ih =>
    refine yields_of_covering (by simp) (by simp) (fun data hin => ?_) h
    obtain ⟨attributes, rfl, hnames, hattrs⟩ := Value.exists_of_conforms_object hty data
    rw [applyWith] at hin
    split at hin
    · rename_i hempty
      obtain rfl := List.isEmpty_iff.mp hempty
      obtain rfl : as = [] := by simpa [Named.names] using hnames
      cases hin
      cases elects with
      | common nonempty => exact absurd rfl nonempty
      | declared => exact .emptyObject
    · rename_i hne
      obtain ⟨done, hdone, hin⟩ := bind_eq_ok_iff.mp hin
      obtain ⟨⟨e, vs⟩, hsettle, rfl⟩ := map_eq_ok_iff.mp hin
      obtain ⟨hdlen, heach⟩ := getElem?_of_gather (hnames.symm.trans names) hv.here.names hdone
      refine .gather (by simpa using hne) elects hnames hdlen (fun i a x y ha hx hy => ?_)
        (settles_of_settle (ne_nil_of_length hdlen (by simpa using hne)) hsettle)
      obtain ⟨c, hc, -⟩ := Named.exists_getElem? names.symm ha
      exact ih i a c ha hc (hv.member (List.mem_map_of_mem (List.mem_of_getElem? hx)))
        (hattrs i a x ha hx) (heach i c x y hc hx hy)
  | @tuple ss ts cs arity length each ih =>
    refine yields_of_covering (by simp) (by simp) (fun data hin => ?_) h
    obtain ⟨items, rfl, hlen, hitems⟩ := Value.exists_of_conforms_tuple hty data
    rw [applyWith, if_pos (hlen.symm.trans length)] at hin
    obtain ⟨done, hdone, rfl⟩ := map_eq_ok_iff.mp hin
    obtain ⟨hdlen, heach⟩ := getElem?_of_applyAll (hlen.symm.trans length) hdone
    refine .tuple arity hlen hdlen fun i s t x y hs ht hx hy => ?_
    obtain ⟨c, hc⟩ := exists_getElem?_of_length length.symm hs
    exact ih i s t c hs ht hc (hv.member (List.mem_of_getElem? hx)) (hitems i s x hs hx)
      (heach i c x y hc hx hy)
  | @object as bs slots known targets found missing ih =>
    subst targets
    refine yields_of_covering (by simp) (by simp) (fun data hin => ?_) h
    obtain ⟨attributes, rfl, hnames, hattrs⟩ := Value.exists_of_conforms_object hty data
    rw [applyWith] at hin
    obtain ⟨_, hcheck, hin⟩ := bind_eq_ok_iff.mp hin
    obtain ⟨filled, hfill, rfl⟩ := map_eq_ok_iff.mp hin
    obtain ⟨htargets, heach⟩ := getElem?_of_fill hfill
    refine .object hnames known htargets (fun i b a x y hb hy ha hx => ?_) fun i b y hb hy hx => ?_
    · obtain ⟨slot, hslot, rfl⟩ :=
        Option.map_eq_some_iff.mp ((List.getElem?_map ..).symm.trans hb)
      -- the attributes of one name stand at one position in the value and in the source
      have hconforms := Named.rel_of_find? hv.here.names hnames hattrs ha hx
      exact ih slot (List.mem_of_getElem? hslot) a ha
        (hv.member (List.mem_map_of_mem (Named.mem_of_find? hx).1)) hconforms
        ((heach i slot y hslot hy).1 x hx)
    · obtain ⟨slot, hslot, rfl⟩ :=
        Option.map_eq_some_iff.mp ((List.getElem?_map ..).symm.trans hb)
      exact (heach i slot y hslot hy).2 hx
  | @select s bs slots permitted targets each ih =>
    subst targets
    refine yields_of_covering (by simp) (by simp) (fun data hin => ?_) h
    obtain ⟨own, entries, rfl, hown⟩ := Value.exists_of_conforms_map hty data
    rw [applyWith] at hin
    obtain ⟨_, hcheck, hin⟩ := bind_eq_ok_iff.mp hin
    obtain ⟨filled, hfill, rfl⟩ := map_eq_ok_iff.mp hin
    obtain ⟨htargets, heach⟩ := getElem?_of_fill hfill
    refine .select permitted (contains_of_checkNames hcheck) htargets
      (fun i b x y hb hy hx => ?_) fun i b y hb hy hx => ?_
    · obtain ⟨slot, hslot, rfl⟩ :=
        Option.map_eq_some_iff.mp ((List.getElem?_map ..).symm.trans hb)
      have hmem : x.2 ∈ (Value.map own entries).members :=
        List.mem_map_of_mem (Named.mem_of_find? hx).1
      refine ih slot (List.mem_of_getElem? hslot) (hv.member hmem) ?_
        ((heach i slot y hslot hy).1 x hx)
      exact (hv.here.conform own rfl x.2 hmem).trans hown
    · obtain ⟨slot, hslot, rfl⟩ :=
        Option.map_eq_some_iff.mp ((List.getElem?_map ..).symm.trans hb)
      exact (heach i slot y hslot hy).2 hx

variable (convert) in
/-- A plan treats a null and an unknown of its source alike: they take the type that comes of
refining the target, and there is none where the two types do not fit. -/
theorem Plan.applyWith_blank {safety : Safety} {s t : Ty} {c : Conversion}
    (plan : Plan safety s t c) :
    c.applyWith convert (.null s) = (t.stripped.refine s).map .null ∧
      c.applyWith convert (.unknown s) = (t.stripped.refine s).map .unknown := by
  cases plan with
  | pass =>
    have hrefine : Ty.dynamic.stripped.refine s = .ok s := Ty.refine_eq_ok_iff.mpr .hole
    rw [hrefine]
    exact ⟨rfl, rfl⟩
  | later =>
    rw [Ty.refine_dynamic_right]
    exact ⟨rfl, rfl⟩
  | _ => exact ⟨rfl, rfl⟩

end Conversion

end Retype
