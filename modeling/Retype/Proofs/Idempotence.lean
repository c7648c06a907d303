import Retype.Proofs.Conversion.Levels
import Retype.Proofs.Settling

/-!
# Nothing is left to do a second time

Refining a type and converting a value are closure operations: what comes out of them is kept
when the same is done again.

* **Refining.** A refined type says all that the declared type says, optional marks included; only
  placeholders were replaced (`Ty.Retains`). Refined once more from the same input it stays as it
  is (`Refines.again`): the walk through declared type and input takes the same turns, and a
  placeholder that was filled now meets the very type that filled it.
* **Converting.** The second conversion starts from another type than the first: marks are gone,
  placeholders are filled, what was absent is null. What matters is only that this type conforms to
  the target, as that of every converted value does. Between such types every plan keeps every
  well-formed value (`Plan.apply_of_conforms`): parts are converted to their own types, so they are
  all alike when they settle, and a null, an unknown or an empty collection is refined from a type
  that has all that is asked for (`Conforms.exists_refines`).
-/

namespace Retype

namespace Ty

/-! ### Refining -/

/-- The type is the declared one, with its optional marks, except where that has a placeholder. -/
inductive Retains : Ty → Ty → Prop
  | hole {t : Ty} : Retains t .dynamic
  | primitive {k : Primitive} : Retains (.primitive k) (.primitive k)
  | sequence {k : SequenceKind} {t d : Ty} (element : Retains t d) :
      Retains (.sequence k t) (.sequence k d)
  | map {t d : Ty} (element : Retains t d) : Retains (.map t) (.map d)
  | tuple {ts ds : List Ty} (length : ts.length = ds.length)
      (each : ∀ (i : Nat) t d, ts[i]? = some t → ds[i]? = some d → Retains t d) :
      Retains (.tuple ts) (.tuple ds)
  | object {as ds : List (Attribute Ty)} (layout : (object as).layout = (object ds).layout)
      (each : ∀ (i : Nat) (a d : Attribute Ty), as[i]? = some a → ds[i]? = some d →
        Retains a.type d.type) :
      Retains (.object as) (.object ds)
  | capsule {n : String} : Retains (.capsule n) (.capsule n)

theorem retains_self (t : Ty) : t.Retains t := by
  induction t with
  | primitive k => exact .primitive
  | sequence k e ih => exact .sequence ih
  | map e ih => exact .map ih
  | tuple ts ih =>
    refine .tuple rfl fun i s t hs ht => ?_
    obtain rfl : s = t := Option.some.inj (hs.symm.trans ht)
    exact ih s (List.mem_of_getElem? hs)
  | object as ih =>
    refine .object rfl fun i a b ha hb => ?_
    obtain rfl : a = b := Option.some.inj (ha.symm.trans hb)
    exact ih a (List.mem_of_getElem? ha)
  | capsule n => exact .capsule
  | dynamic => exact .hole

/-- Refining only fills placeholders. -/
theorem Refines.retains {d i r : Ty} (h : Refines d i r) : r.Retains d := by
  induction h with
  | blank => exact retains_self _
  | hole => exact .hole
  | primitive => exact .primitive
  | capsule => exact .capsule
  | map _ ih | gather _ ih => exact .map ih
  | sequence _ ih | collect _ ih => exact .sequence ih
  | select layout _ ih => exact .object layout fun n r d hr hd => ih n d r hd hr
  | @object ds is rs layout _ missing ih =>
    refine .object layout fun n r d hr hd => ?_
    cases hi : Named.find? d.name is with
    | none => exact missing n d r hd hr hi ▸ retains_self _
    | some i => exact ih n d i r hd hr hi
  | tuple input length _ ih =>
    refine .tuple length fun n r d hr hd => ?_
    obtain ⟨i, hi⟩ := exists_getElem?_of_length input hd
    exact ih n d i r hd hi hr

/-- A type refined from itself stays as it is. -/
theorem Lawful.refines_self {t : Ty} (h : t.Lawful) : Refines t t t := by
  obtain ⟨r, hr⟩ := fits_iff.mp h.fits_self
  rwa [(grounded_refl t).eq_of_refines h h hr] at hr

/-- **Refining again.** A type that was refined from an input has nothing more to take from it. -/
theorem Refines.again {d i r : Ty} (h : Refines d i r) (hi : i.Lawful) : Refines r i r := by
  unfold Lawful at hi
  induction h with
  | blank => exact .blank
  | hole => exact Lawful.refines_self hi
  | primitive => exact .primitive
  | capsule => exact .capsule
  | map _ ih => exact .map (ih (throughout_map.mp hi).2)
  | gather _ ih =>
    refine .gather (ih (throughout_merged stable_lawful ?_))
    simpa using (throughout_object.mp hi).2
  | sequence _ ih => exact .sequence (ih (throughout_sequence.mp hi).2)
  | collect _ ih =>
    exact .collect (ih (throughout_merged stable_lawful (throughout_tuple.mp hi).2))
  | select layout _ ih =>
    refine .select rfl fun n r r' hr hr' => ?_
    obtain rfl : r = r' := Option.some.inj (hr.symm.trans hr')
    obtain ⟨d, hd⟩ := exists_getElem?_of_length (length_eq_of_layout layout).symm hr
    exact ih n d r hd hr (throughout_map.mp hi).2
  | @object ds is rs layout _ _ ih =>
    refine .object rfl (fun n r i r' hr hr' hfind => ?_) fun n r r' hr hr' _ => ?_
    · -- the attribute finds what the declared one of its name found
      obtain rfl : r = r' := Option.some.inj (hr.symm.trans hr')
      obtain ⟨d, hd, hname⟩ := Named.exists_getElem? (names_eq_of_layout layout).symm hr
      have hfind : Named.find? d.name is = some i := by rwa [show d.name = r.name from hname]
      exact ih n d i r hd hr hfind
        ((throughout_object.mp hi).2 i (Named.mem_of_find? hfind).1)
    · rw [Option.some.inj (hr.symm.trans hr')]
  | tuple input length _ ih =>
    refine .tuple (input.trans length.symm) rfl fun n r i r' hr hi' hr' => ?_
    obtain rfl : r = r' := Option.some.inj (hr.symm.trans hr')
    obtain ⟨d, hd⟩ := exists_getElem?_of_length length.symm hr
    exact ih n d i r hd hi' hr ((throughout_tuple.mp hi).2 i (List.mem_of_getElem? hi'))

end Ty

/-- **Refining is idempotent.** A refined type is the declared one except that placeholders are
filled, so it is the declared one if that has none; and refining it from the same input again
changes nothing. -/
theorem refine_idempotent {input declared r : Ty} (hinput : input.Lawful)
    (h : declared.refine input = .ok r) :
    r.Retains declared ∧ (declared.hasDynamic = false → r = declared) ∧
      r.refine input = .ok r := by
  have refines := Ty.refine_eq_ok_iff.mp h
  exact ⟨refines.retains, refines.eq_of_hasDynamic,
    Ty.refine_eq_ok_iff.mpr (refines.again hinput)⟩

/-- An object refined from a map of tuples. Its first attribute takes what the elements of the
tuple have in common, a list of texts; the second takes the tuple as it is, and the third stays
open, because a number and a truth value have nothing in common. -/
theorem refine_idempotent_map_to_object :
    let pair : Ty := .tuple [.tuple [.number, .bool], .list .string]
    let declared : Ty := .object [⟨"a", true, .list .dynamic⟩, ⟨"b", false, .dynamic⟩,
      ⟨"c", false, .tuple [.set .dynamic, .dynamic]⟩]
    let r : Ty := .object [⟨"a", true, .list (.list .string)⟩, ⟨"b", false, pair⟩,
      ⟨"c", false, .tuple [.set .dynamic, .list .string]⟩]
    (Ty.map pair).Lawful ∧ declared.refine (.map pair) = .ok r ∧ r.Retains declared ∧
      r.refine (.map pair) = .ok r := by
  intro pair declared r
  have hinput : (Ty.map pair).Lawful := by decide
  have h : declared.refine (.map pair) = .ok r := by cbv
  obtain ⟨retains, -, again⟩ := refine_idempotent hinput h
  exact ⟨hinput, h, retains, again⟩

/-! ### Types that conform already -/

namespace Ty

/-- A type that conforms to a pattern fits it, and converts to it. -/
theorem Conforms.fits {t d : Ty} (h : t.Conforms d) (ht : t.Lawful) : d.Fits t := by
  unfold Conforms at h
  unfold Lawful at ht
  induction h with
  | hole => exact .hole
  | primitive => exact .primitive
  | sequence _ ih => exact .sequence (ih (throughout_sequence.mp ht).2)
  | map _ ih => exact .map (ih (throughout_map.mp ht).2)
  | tuple length _ ih =>
    refine .tuple length fun n d t hd hti => ?_
    exact ih n t d hti hd ((throughout_tuple.mp ht).2 t (List.mem_of_getElem? hti))
  | object names _ ih =>
    refine .object fun d hd a ha => ?_
    obtain ⟨n, hd⟩ := List.getElem?_of_mem hd
    have hfound := Named.getElem?_of_find? (Lawful.ascending ht) names hd ha
    exact ih n a d hfound hd ((throughout_object.mp ht).2 a (List.mem_of_getElem? hfound))
  | capsule => exact .capsule

theorem Conforms.converts {safety : Safety} {t d : Ty} (h : t.Conforms d) (ht : t.Lawful) :
    Converts safety t d := by
  unfold Conforms at h
  unfold Lawful at ht
  induction h with
  | hole => exact converts_dynamic _
  | primitive => exact converts_refl _
  | @sequence k _ _ _ ih =>
    exact .sequence (by cases k <;> rfl) (ih (throughout_sequence.mp ht).2)
  | map _ ih => exact .map (ih (throughout_map.mp ht).2)
  | tuple length _ ih =>
    refine .tuple length fun i t d hti hd => ?_
    exact ih i t d hti hd ((throughout_tuple.mp ht).2 t (List.mem_of_getElem? hti))
  | object names _ ih =>
    refine .objectOfNames (Lawful.ascending ht) names fun i a d ha hd => ?_
    exact ih i a d ha hd ((throughout_object.mp ht).2 a (List.mem_of_getElem? ha))
  | capsule => exact converts_refl _

/-- What is refined from a type that conforms is that type, marks aside. -/
theorem Refines.stripped_eq {d i r : Ty} (h : Refines d i r) (conforms : i.Conforms d)
    (hi : i.Plain) : r.stripped = i := by
  induction h with
  | blank =>
    cases conforms
    rfl
  | hole => exact hi.unmarked.stripped_eq
  | primitive | capsule =>
    cases conforms
    rfl
  | map _ ih =>
    cases conforms with
    | map element => rw [Ty.stripped, ih element (hi.part (by simp [parts]))]
  | sequence _ ih =>
    cases conforms with
    | sequence element => rw [Ty.stripped, ih element (hi.part (by simp [parts]))]
  | gather | collect | select => cases conforms
  | @object ds is rs layout _ _ ih =>
    cases conforms with
    | object names each =>
      have hnames := (names_eq_of_layout layout).trans names.symm
      rw [Ty.stripped, strippedAttributes_eq_map, Ty.object.injEq, ← List.map_id is]
      refine map_eq_map_of_getElem? (Named.length_eq_of_names hnames) fun n r i hr hin => ?_
      obtain ⟨d, hd, hname⟩ := Named.exists_getElem? names.symm hin
      have hmem := List.mem_of_getElem? hin
      have hfind : Named.find? d.name is = some i := by
        rw [show d.name = i.name from hname]
        exact Named.find?_of_mem hi.lawful.ascending hmem
      have hrequired : i.optional = false :=
        (throughout_object.mp hi.unmarked).1 (i.name, i.optional) (List.mem_map_of_mem hmem)
      have hrname : r.name = i.name := Named.name_eq_of_names hnames hr hin
      rw [ih n d i r hd hr hfind (each n i d hin hd) (hi.part (List.mem_map_of_mem hmem)),
        hrname, ← hrequired, id]
  | @tuple ds is rs input length _ ih =>
    cases conforms with
    | tuple _ each =>
      rw [Ty.stripped, strippedAll_eq_map, Ty.tuple.injEq, ← List.map_id is]
      refine map_eq_map_of_getElem? (length.trans input.symm) fun n r i hr hin => ?_
      obtain ⟨d, hd⟩ := exists_getElem?_of_length input.symm hin
      exact ih n d i r hd hin hr (each n i d hin hd) (hi.part (List.mem_of_getElem? hin))

theorem Conforms.exists_refines {t d : Ty} (h : t.Conforms d) (ht : t.Plain) :
    ∃ r, Refines d t r ∧ r.stripped = t := by
  obtain ⟨r, hr⟩ := fits_iff.mp (h.fits ht.lawful)
  exact ⟨r, hr, hr.stripped_eq h ht⟩

end Ty

/-! ### Values that are converted already -/

namespace Conversion

open Ty

variable {convert : Value → Ty → Except Fault Value}

theorem settle_of_uniform {declared e : Ty} {parts : List (Step × Value)} (hne : parts ≠ [])
    (uniform : ∀ v ∈ parts.map Prod.snd, v.ty = e)
    (settled : declared.hasDynamic = false → declared.stripped = e) :
    settle convert declared parts = .ok (e, parts.map Prod.snd) := by
  cases hopen : declared.hasDynamic with
  | false => rw [settle_of_solid hopen, settled hopen]
  | true =>
    cases parts with
    | nil => exact absurd rfl hne
    | cons first rest =>
      simp only [List.map_cons, List.forall_mem_cons, List.forall_mem_map] at uniform
      obtain ⟨hfirst, hrest⟩ := uniform
      rw [settle, if_pos hopen, if_pos, hfirst]
      · rfl
      · simpa [hfirst] using fun step v hmem => hrest (step, v) hmem

theorem eachPart_of_kept {f : Value → Except Fault Value} {parts : List (Step × Value)}
    {items : List Value} (values : parts.map Prod.snd = items) (kept : ∀ x ∈ items, f x = .ok x) :
    ∃ done, eachPart f parts = .ok done ∧ done.map Prod.snd = items := by
  subst values
  rw [← List.forall₂_eq_eq_eq]
  refine exists_eachPart (by simp) fun i x y hx hy => ?_
  obtain rfl : x = y := Option.some.inj (hx.symm.trans hy)
  exact ⟨x, kept x (List.mem_of_getElem? hx), rfl⟩

theorem applyAll_of_kept {cs : List Conversion} {items : List Value}
    (length : items.length = cs.length)
    (kept : ∀ (i : Nat) c x, cs[i]? = some c → items[i]? = some x →
      applyWith convert c x = .ok x) :
    ∃ done, applyAll convert cs (Value.indexed items) = .ok done ∧
      done.map Prod.snd = items := by
  rw [← List.forall₂_eq_eq_eq]
  refine exists_applyAll length rfl fun i c x y hc hx hy => ?_
  obtain rfl : x = y := Option.some.inj (hx.symm.trans hy)
  exact ⟨x, kept i c x hc hx, rfl⟩

theorem fill_of_kept {step : String → Step} {slots : List (Slot Conversion)}
    {attributes : List (String × Value)} (ascending : Named.Ascending attributes)
    (names : Named.names attributes = Named.names (slots.map (·.target)))
    (kept : ∀ (i : Nat) slot (x : String × Value), slots[i]? = some slot →
      attributes[i]? = some x → applyWith convert slot.conversion x.2 = .ok x.2) :
    fill convert step slots attributes = .ok attributes := by
  have hlen : slots.length = attributes.length := by
    simpa using (Named.length_eq_of_names names).symm
  have done : ∃ filled, fill convert step slots attributes = .ok filled ∧
      Named.names filled = Named.names (slots.map (·.target)) ∧
      List.Forall₂ (fun w x : String × Value => w.2 = x.2) filled attributes := by
    refine exists_fill (R := fun w (x : String × Value) => w = x.2) step hlen
      fun i slot x hslot hx => ?_
    have htarget : (slots.map (·.target))[i]? = some slot.target := by
      rw [List.getElem?_map, hslot, Option.map_some]
    have hname : x.1 = slot.target.name := Named.name_eq_of_names names hx htarget
    exact .inl ⟨x, x.2, hname ▸ Named.find?_of_getElem? ascending hx, kept i slot x hslot hx, rfl⟩
  obtain ⟨filled, hfilled, hnames, heq⟩ := done
  obtain ⟨hlen', hvalues⟩ := forall₂_iff_getElem?.mp heq
  have hsame : filled.map id = attributes.map id :=
    map_eq_map_of_getElem? hlen' fun i w x hw hx =>
      Prod.ext (Named.name_eq_of_names (hnames.trans names.symm) hw hx) (hvalues i w x hw hx)
  rw [hfilled, ← List.map_id filled, hsame, List.map_id]

/-- A collection whose parts are kept is kept. -/
theorem build_of_uniform {declared e : Ty} {items : List Value} {build : Ty × List Value → Value}
    {parts : Except Fault (List (Step × Value))} (hne : items ≠ [])
    (uniform : ∀ v ∈ items, v.ty = e)
    (settled : declared.hasDynamic = false → declared.stripped = e)
    (kept : ∃ done, parts = .ok done ∧ done.map Prod.snd = items) :
    (parts.bind fun parts => (settle convert declared parts).map build) =
      .ok (build (e, items)) := by
  obtain ⟨done, rfl, rfl⟩ := kept
  rw [Except.bind, settle_of_uniform (by simpa using hne) uniform settled]
  rfl

/-- A null or an unknown is kept if its type conforms; data if the inner plan keeps it. -/
theorem applyWith_covering_of_conforms {s t : Ty} {inner : Conversion} {v : Value}
    (conforms : s.Conforms t) (plain : s.Plain) (hv : v.ty = s)
    (hinner : v.isConcrete = true → applyWith convert inner v = .ok v) :
    applyWith convert (.covering t.stripped inner) v = .ok v := by
  obtain ⟨r, hr, heq⟩ := conforms.exists_refines plain
  have hrefine : t.stripped.refine s = .ok s :=
    refine_eq_ok_iff.mpr (heq ▸ hr.stripped plain.unmarked)
  cases v with
  | null i | unknown i =>
    subst hv
    exact map_eq_ok_iff.mpr ⟨i, hrefine, rfl⟩
  | _ => exact hinner rfl

/-- **Step.** A plan keeps the values of a type that conforms to its target. -/
theorem Plan.apply_of_conforms {safety : Safety} {s t : Ty} {c : Conversion} {v : Value}
    (plan : Plan safety s t c) (conforms : s.Conforms t) (plain : s.Plain) (hv : v.Inhabits s) :
    applyWith convert c v = .ok v := by
  induction plan generalizing v with
  | same => exact applyWith_covering_of_conforms conforms plain hv.ty fun _ => rfl
  | pass => rfl
  | later solid =>
    cases conforms
    exact absurd rfl solid
  | primitive =>
    refine applyWith_covering_of_conforms conforms plain hv.ty fun _ => ?_
    cases conforms
    exact Value.toPrimitive_self hv.ty
  | @sequence k l s t c _ _ ih =>
    refine applyWith_covering_of_conforms conforms plain hv.ty fun data => ?_
    obtain ⟨items, rfl, hitems⟩ := hv.items data
    cases conforms with
    | sequence element =>
      have plain' : s.Plain := plain.part (by simp [parts])
      rw [applyWith]
      split
      · rename_i hnil
        obtain rfl := List.isEmpty_iff.mp hnil
        obtain ⟨r, hr, rfl⟩ := Conforms.exists_refines element plain'
        rw [refine_eq_ok_iff.mpr hr]
        rfl
      · rename_i hne
        rw [build_of_uniform (by simpa using hne) (fun x hx => (hitems x hx).ty) (fun solid => ?_)
          (eachPart_of_kept (map_snd_indexed items) fun x hx => ih element plain' (hitems x hx))]
        · rw [Value.collect_eq_sequence fun hk => hv.wellFormed.here.2 s items (by rw [hk])]
        · rw [← Conforms.stripped_eq element solid, plain'.unmarked.stripped_eq]
  | @map s t c _ ih =>
    refine applyWith_covering_of_conforms conforms plain hv.ty fun data => ?_
    obtain ⟨entries, rfl, hentries⟩ := hv.entries data
    cases conforms with
    | map element =>
      have plain' : s.Plain := plain.part (by simp [parts])
      have hall : ∀ x ∈ entries.map Prod.snd, x.Inhabits s := List.forall_mem_map.mpr hentries
      rw [applyWith]
      split
      · rename_i hnil
        obtain rfl := List.isEmpty_iff.mp hnil
        obtain ⟨r, hr, rfl⟩ := Conforms.exists_refines element plain'
        rw [refine_eq_ok_iff.mpr hr]
        rfl
      · rename_i hne
        have hne : entries.map Prod.snd ≠ [] := by simpa using hne
        rw [build_of_uniform hne (fun x hx => (hall x hx).ty) (fun solid => ?_)
          (eachPart_of_kept (map_snd_keyed entries) fun x hx => ih element plain' (hall x hx))]
        · rw [← List.unzip_fst, ← List.unzip_snd, List.zip_unzip]
        · rw [← Conforms.stripped_eq element solid, plain'.unmarked.stripped_eq]
  | @tuple ss ts cs arity length _ ih =>
    refine applyWith_covering_of_conforms conforms plain hv.ty fun data => ?_
    obtain ⟨items, rfl, hlen, hitems⟩ := hv.positions data
    cases conforms with
    | tuple _ each =>
      have kept : ∀ (i : Nat) c x, cs[i]? = some c → items[i]? = some x →
          applyWith convert c x = .ok x := by
        intro i c x hc hx
        obtain ⟨s, hs⟩ := exists_getElem?_of_length hlen hx
        obtain ⟨t, ht⟩ := exists_getElem?_of_length arity.symm hs
        exact ih i s t c hs ht hc (each i s t hs ht) (plain.part (List.mem_of_getElem? hs))
          (hitems i s x hs hx)
      obtain ⟨done, hdone, heq⟩ := applyAll_of_kept (hlen.symm.trans length) kept
      rw [applyWith, if_pos (hlen.symm.trans length), hdone, Except.map, heq]
  | @object as bs slots known targets found _ ih =>
    refine applyWith_covering_of_conforms conforms plain hv.ty fun data => ?_
    obtain ⟨attributes, rfl, hasc, hnames, hfields, -⟩ := hv.fields data
    subst targets
    cases conforms with
    | object names each =>
      have kept : ∀ (i : Nat) slot (x : String × Value), slots[i]? = some slot →
          attributes[i]? = some x → applyWith convert slot.conversion x.2 = .ok x.2 := by
        intro i slot x hslot hx
        have htarget : (slots.map (·.target))[i]? = some slot.target := by
          rw [List.getElem?_map, hslot, Option.map_some]
        obtain ⟨a, ha, hfind⟩ := Named.exists_find?_getElem? plain.lawful.ascending names htarget
        exact ih slot (List.mem_of_getElem? hslot) a hfind (each i a slot.target ha htarget)
          (plain.part (List.mem_map_of_mem (List.mem_of_getElem? ha))) (hfields i a x ha hx)
      rw [applyWith, checkNames_eq_ok (Named.contains_of_names hnames known), Except.bind,
        fill_of_kept hasc (hnames.symm.trans names) kept, Except.map]
  | positions | gather | select => cases conforms

end Conversion

/-- A well-formed value whose type conforms to a target is what it is converted to. -/
theorem Value.convert_of_conforms {w : Value} {want : Ty} (hw : w.Inhabits w.ty)
    (plain : w.ty.Plain) (conforms : w.ty.Conforms want) : w.convert want = .ok w := by
  by_cases hsame : w.ty = want
  · exact Value.convert_of_ty_eq hsame
  · have converts : Ty.Converts .risky w.ty want := conforms.converts plain.lawful
    obtain ⟨c, hc⟩ := Option.isSome_iff_exists.mp converts
    rw [Value.convert_of_between? hsame hc]
    exact (Conversion.plan_of_between? hc).apply_of_conforms conforms plain hw

/-- What a value without placeholders in its type is converted to is well formed, and its type
conforms to the target. -/
theorem Value.inhabits_of_convert {v w : Value} {want : Ty} (hv : v.Inhabits v.ty)
    (hty : v.ty.Definite) (hwant : want.Lawful) (h : v.convert want = .ok w) :
    w.Inhabits w.ty ∧ w.ty.Plain ∧ w.ty.Conforms want := by
  by_cases hsame : v.ty = want
  · rw [Value.convert_of_ty_eq hsame] at h
    cases h
    exact ⟨hv, hty.plain, hsame ▸ Ty.conforms_refl _⟩
  · rw [Value.convert_eq, if_neg hsame] at h
    split at h
    · rename_i c hc
      obtain ⟨conforms, hw, hhom⟩ :=
        (Conversion.plan_of_between? hc).sound_of_apply hty hwant hv h
      exact ⟨⟨hw.wellFormed_iff.mpr hhom, hw.lawful, rfl⟩, hw.ty_plain, conforms⟩
    · cases h

/-- **Converting is idempotent.** What a well-formed value without placeholders in its type is
converted to is converted to the same target as it is: the result is the very same value. -/
theorem convert_idempotent {v w : Value} {want : Ty} (wellFormed : v.WellFormed)
    (unmarked : v.Unmarked) (lawful : v.Lawful) (solid : v.ty.hasDynamic = false)
    (hwant : want.Lawful) (h : v.convert want = .ok w) :
    w.convert want = .ok w ∧ w.same w = true := by
  have plain := (wellFormed.sound unmarked lawful).ty_plain
  obtain ⟨hw, hplain, conforms⟩ :=
    Value.inhabits_of_convert ⟨wellFormed, lawful, rfl⟩ ⟨plain, solid⟩ hwant h
  refine ⟨Value.convert_of_conforms hw hplain conforms, ?_⟩
  exact (Value.embeds_refl hw.lawful).same_of_ty_eq rfl hw.wellFormed.homogeneous
    hw.wellFormed.homogeneous hw.lawful

/-- Objects in a tuple become a list of objects. What one of them lacks is null, of the type that
the others have; the second time nothing is absent and no set is left. -/
theorem convert_idempotent_tuple_to_list :
    let v : Value := .tuple [.object [("a", .set .bool [.bool true, .unknown .bool])], .object [],
      .object [("a", .null (.tuple [.number, .string]))]]
    let want : Ty := .list (.object [⟨"a", true, .list .dynamic⟩])
    let w : Value := .list (.object [⟨"a", false, .list .string⟩])
      [.object [("a", .list .string [.string "true", .unknown .string])],
        .object [("a", .null (.list .string))], .object [("a", .null (.list .string))]]
    v.WellFormed ∧ v.Unmarked ∧ v.Lawful ∧ v.ty.hasDynamic = false ∧ want.Lawful ∧
      v.convert want = .ok w ∧ w.convert want = .ok w ∧ w.same w = true := by
  intro v want w
  have h : v.convert want = .ok w := by cbv
  exact ⟨by decide, by decide, by decide, by decide, by decide, h,
    convert_idempotent (by decide) (by decide) (by decide) (by decide) (by decide) h⟩

end Retype
