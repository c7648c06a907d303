import Retype.Proofs.Blueprint
import Retype.Proofs.Sets
import Retype.Proofs.Value.Embeds

/-!
# Converting equal values

Equal values may list the items of a set in different orders and store a number in different
forms, at any depth. A conversion to a type without placeholders in which there are no lists does
not see the difference: for both values it fails, or it gives equal results.

The two runs are compared step by step, by the plan that both follow (`Plan.concur`). What they
have in common is said with `Concur`, for each part of the interpreter in turn. The results are
shown to be duplicates and not just equal, since that is what the sets that are made of them go
by; for well-formed values, such as the two that are converted, equal is enough
(`Value.duplicates_eq_same`).

Lists have to be left out: a list that is made of a set shows in which order its items were.
-/

namespace Retype

namespace Value

/-! ### Duplicates part by part -/

theorem duplicates_tuple {xs ys : List Value}
    (h : List.Forall₂ (fun x y => x.duplicates y = true) xs ys) :
    (Value.tuple xs).duplicates (.tuple ys) = true := by
  have hsame : List.Forall₂ (fun x y => same x y = true) xs ys :=
    h.imp fun _ _ hdup => (duplicates_iff.mp hdup).1
  have codes : xs.map (feed ascending) = ys.map (feed ascending) :=
    map_eq_map_of_forall₂ (h.imp fun _ _ hdup => (duplicates_iff.mp hdup).2)
  refine duplicates_iff.mpr ⟨same_iff.mpr (.tuple hsame), ?_⟩
  rw [fingerprint, fingerprint, feed, feed, feeds_eq_map, feeds_eq_map, codes, h.length_eq]

/-- Entries of the same names that hold duplicates have the same code, and are equal. -/
theorem entries_of_duplicates {xs ys : List (String × Value)}
    (h : List.Forall₂ (fun x y => x.1 = y.1 ∧ x.2.duplicates y.2 = true) xs ys) :
    List.Forall₂ (fun x y => x.1 = y.1 ∧ same x.2 y.2 = true) xs ys ∧
      feedEntries ascending xs = feedEntries ascending ys := by
  refine ⟨h.imp fun _ _ hdup => ⟨hdup.1, (duplicates_iff.mp hdup.2).1⟩, ?_⟩
  rw [feedEntries_eq_map, feedEntries_eq_map]
  refine map_eq_map_of_forall₂ (h.imp fun x y hdup => ?_)
  have code : feed ascending x.2 = feed ascending y.2 := (duplicates_iff.mp hdup.2).2
  rw [hdup.1, code]

theorem duplicates_map {e : Ty} {xs ys : List (String × Value)}
    (h : List.Forall₂ (fun x y => x.1 = y.1 ∧ x.2.duplicates y.2 = true) xs ys) :
    (Value.map e xs).duplicates (.map e ys) = true := by
  obtain ⟨hsame, codes⟩ := entries_of_duplicates h
  refine duplicates_iff.mpr ⟨same_iff.mpr (.map hsame), ?_⟩
  rw [fingerprint, fingerprint, feed, feed, codes, h.length_eq]

theorem duplicates_object {xs ys : List (String × Value)}
    (h : List.Forall₂ (fun x y => x.1 = y.1 ∧ x.2.duplicates y.2 = true) xs ys) :
    (Value.object xs).duplicates (.object ys) = true := by
  obtain ⟨hsame, codes⟩ := entries_of_duplicates h
  refine duplicates_iff.mpr ⟨same_iff.mpr (.object hsame), ?_⟩
  rw [fingerprint, fingerprint, feed, feed, codes, h.length_eq]

/-- Maps of the same names are duplicates if what stands under the names is. -/
theorem duplicates_zip {e : Ty} {xs ys : List (String × Value)} {vs ws : List Value}
    (names : List.Forall₂ (fun x y => x.1 = y.1) xs ys)
    (h : List.Forall₂ (fun v w => v.duplicates w = true) vs ws) :
    (Value.map e ((xs.map Prod.fst).zip vs)).duplicates (.map e ((ys.map Prod.fst).zip ws)) =
      true := by
  rw [map_eq_map_of_forall₂ names]
  refine duplicates_map (forall₂_iff_getElem?.mpr ⟨?_, fun i x y hx hy => ?_⟩)
  · rw [List.length_zip, List.length_zip, h.length_eq]
  · obtain ⟨hname, hv⟩ := List.getElem?_zip_eq_some.mp hx
    obtain ⟨hname', hw⟩ := List.getElem?_zip_eq_some.mp hy
    exact ⟨Option.some.inj (hname.symm.trans hname'),
      (forall₂_iff_getElem?.mp h).2 i x.2 y.2 hv hw⟩

/-! ### Parts of equal values -/

/-- The items of equal lists, and those of equal sets, match. -/
theorem matched_of_same {k : SequenceKind} {e : Ty} {xs ys : List Value}
    (hxs : (Value.sequence k e xs).ProperSets) (hys : (Value.sequence k e ys).ProperSets)
    (h : same (.sequence k e xs) (.sequence k e ys) = true) :
    Matched (fun x y => same x y = true) xs ys := by
  cases same_iff.mp h with
  | list each => exact .of_forall₂ each
  | set length left right => exact hxs.matched hys length left right

/-- Under one name there are equal entries, or none at all. -/
theorem find?_of_sameEntries {xs ys : List (String × Value)}
    (h : List.Forall₂ (fun x y => x.1 = y.1 ∧ same x.2 y.2 = true) xs ys) (key : String) :
    (Named.find? key xs = none ∧ Named.find? key ys = none) ∨
      ∃ x y, Named.find? key xs = some x ∧ Named.find? key ys = some y ∧
        same x.2 y.2 = true := by
  cases hx : Named.find? key xs with
  | some x =>
    obtain ⟨y, hy, hxy⟩ := exists_find?_of_sameEntries h hx
    exact .inr ⟨x, y, rfl, hy, hxy⟩
  | none =>
    refine .inl ⟨rfl, Option.eq_none_iff_forall_ne_some.mpr fun y hy => ?_⟩
    have back : List.Forall₂ (fun y x => y.1 = x.1 ∧ same y.2 x.2 = true) ys xs :=
      (h.imp fun x y hxy => ⟨hxy.1.symm, same_symm hxy.2⟩).flip
    obtain ⟨x, hx', -⟩ := exists_find?_of_sameEntries back hy
    rw [hx] at hx'
    cases hx'

end Value

namespace Conversion

variable {f g : Value → Ty → Except Fault Value} {R : Value → Value → Prop}

/-! ### Two runs of the parts of the interpreter -/

theorem concur_values {x y : Except Fault (List (Step × Value))}
    (h : Concur (List.Forall₂ fun p q => R p.2 q.2) x y) :
    Concur (fun done done' => List.Forall₂ R (done.map Prod.snd) (done'.map Prod.snd)) x y :=
  h.imp fun _ _ each => by rwa [List.forall₂_map_left_iff, List.forall₂_map_right_iff]

theorem concur_eachEntry {h k : Value → Except Fault Value} {xs ys : List (String × Value)}
    (each : List.Forall₂ (fun x y => Concur R (h x.2) (k y.2)) xs ys) :
    Concur (fun done done' => List.Forall₂ R (done.map Prod.snd) (done'.map Prod.snd))
      (eachPart h (Value.keyed xs)) (eachPart k (Value.keyed ys)) := by
  refine concur_values (.mapM_forall₂ ?_)
  rw [Value.keyed, Value.keyed, List.forall₂_map_left_iff, List.forall₂_map_right_iff]
  exact each.imp fun _ _ => concur_part

theorem concur_applyAll {cs : List Conversion} {xs ys : List Value}
    (length : xs.length = ys.length)
    (each : ∀ (i : Nat) c x y, cs[i]? = some c → xs[i]? = some x → ys[i]? = some y →
      Concur R (applyWith f c x) (applyWith g c y)) :
    Concur (fun done done' => List.Forall₂ R (done.map Prod.snd) (done'.map Prod.snd))
      (applyAll f cs (Value.indexed xs)) (applyAll g cs (Value.indexed ys)) := by
  rw [applyAll_eq_mapM, applyAll_eq_mapM]
  refine concur_values (.mapM_forall₂ (forall₂_iff_getElem?.mpr ⟨?_, fun i p q hp hq => ?_⟩))
  · simp [Value.indexed, length]
  · have item : ∀ {zs : List Value} {r : Conversion × Step × Value},
        (cs.zip (Value.indexed zs))[i]? = some r → cs[i]? = some r.1 ∧ zs[i]? = some r.2.2 := by
      intro zs r hr
      obtain ⟨hc, hpart⟩ := List.getElem?_zip_eq_some.mp hr
      exact ⟨hc, by rw [← map_snd_indexed zs, List.getElem?_map, hpart, Option.map_some]⟩
    obtain ⟨hc, hx⟩ := item hp
    obtain ⟨hc', hy⟩ := item hq
    rw [Option.some.inj (hc'.symm.trans hc)]
    exact concur_part (each i p.1 p.2.2 q.2.2 hc hx hy)

/-- Attributes of the same names are converted by the same plans. -/
theorem concur_gather {cs : List (String × Conversion)} {xs ys : List (String × Value)}
    {v w : Value}
    (each : List.Forall₂ (fun x y => x.1 = y.1 ∧ ∀ c, Named.find? x.1 cs = some c →
      Concur R (applyWith f c.2 x.2) (applyWith g c.2 y.2)) xs ys) :
    Concur (fun done done' => List.Forall₂ R (done.map Prod.snd) (done'.map Prod.snd))
      (xs.mapM fun a =>
        match applyNamed f cs a.1 a.2 with
        | some result => (locate (.attr a.1) result).map fun v => (Step.attr a.1, v)
        | none => wrongShape .object v)
      (ys.mapM fun a =>
        match applyNamed g cs a.1 a.2 with
        | some result => (locate (.attr a.1) result).map fun v => (Step.attr a.1, v)
        | none => wrongShape .object w) := by
  refine concur_values (.mapM_forall₂ (each.imp fun x y hxy => ?_))
  obtain ⟨hname, hrun⟩ := hxy
  rw [applyNamed_eq_map, applyNamed_eq_map, ← hname]
  cases hc : Named.find? x.1 cs with
  | none => exact .fail
  | some c => exact concur_part (hrun c hc)

/-- Names are refused as such, whatever stands under them. -/
theorem concur_checkNames {slots : List (Slot Conversion)} {xs ys : List (String × Value)}
    (h : List.Forall₂ (fun x y => x.1 = y.1) xs ys) :
    Concur (fun _ _ => True) (checkNames slots xs) (checkNames slots ys) := by
  unfold checkNames
  induction h with
  | nil => exact .succeed trivial
  | @cons x y xs ys hname _ ih =>
    rw [List.find?_cons, List.find?_cons, ← hname]
    cases Named.contains x.1 slots with
    | false => exact .fail
    | true => exact ih

/-- Slots are filled from what stands under their names. -/
theorem concur_fill {step : String → Step} {slots : List (Slot Conversion)}
    {xs ys : List (String × Value)}
    (each : ∀ slot ∈ slots,
      (Named.find? slot.target.name xs = none ∧ Named.find? slot.target.name ys = none) ∨
      ∃ x y, Named.find? slot.target.name xs = some x ∧
        Named.find? slot.target.name ys = some y ∧ Alongside f g slot.conversion x.2 y.2) :
    Concur (List.Forall₂ fun x y => x.1 = y.1 ∧ x.2.duplicates y.2 = true)
      (fill f step slots xs) (fill g step slots ys) := by
  rw [fill_eq_mapM, fill_eq_mapM]
  refine .mapM_forall₂ (List.forall₂_same.mpr fun slot hslot => ?_)
  rcases each slot hslot with ⟨hx, hy⟩ | ⟨x, y, hx, hy, hrun⟩
  · rw [hx, hy]
    have same : Concur (fun v w => v.duplicates w = true) (absent slot.target)
      (absent slot.target) := .refl Value.duplicates_refl _
    exact same.map fun _ _ related => ⟨rfl, related⟩
  · rw [hx, hy]
    exact hrun.mapError.map fun _ _ related => ⟨rfl, related⟩

/-- Nulls and unknowns are converted by their types, data by the inner plan. -/
theorem concur_covering {t : Ty} {inner : Conversion} {v w : Value} (hsame : v.same w = true)
    (hinner : v.isConcrete = true → w.isConcrete = true → Alongside f g inner v w) :
    Alongside f g (.covering t inner) v w := by
  cases Value.same_iff.mp hsame with
  | null | unknown => exact .refl Value.duplicates_refl _
  | _ => exact hinner rfl rfl

/-- Numbers in different forms have the same text. -/
theorem concur_toPrimitive {q : Primitive} {v w : Value} (h : v.duplicates w = true) :
    Concur (fun v w => v.duplicates w = true) (v.toPrimitive q) (w.toPrimitive q) := by
  cases Value.same_iff.mp (Value.duplicates_iff.mp h).1 with
  | number normal =>
    cases q with
    | string =>
      rw [Value.toPrimitive, Value.toPrimitive, Decimal.plain, normal, ← Decimal.plain]
      exact .refl Value.duplicates_refl _
    | number => exact .succeed h
    | bool => exact .fail
  | null | unknown | string | bool => exact .refl Value.duplicates_refl _
  | _ => exact .fail

/-! ### Two runs on data of each shape -/

/-- Items at their positions become the items of a set. -/
theorem concur_positions {cs : List Conversion} {t : Ty} {xs ys : List Value}
    (solid : t.hasDynamic = false) (length : xs.length = ys.length)
    (each : ∀ (i : Nat) c x y, cs[i]? = some c → xs[i]? = some x → ys[i]? = some y →
      Alongside f g c x y) : Alongside f g (.positions .set cs t) (.tuple xs) (.tuple ys) := by
  rw [Alongside, applyWith, applyWith, ← length, ← isEmpty_eq_of_length length]
  split
  · split
    · exact .succeed (Value.duplicates_refl _)
    · refine concur_settle solid (concur_applyAll length each) fun ws ws' hws => ?_
      exact Value.duplicates_collect (.of_forall₂ hws)
  · exact .fail

theorem concur_tuple {cs : List Conversion} {xs ys : List Value} (length : xs.length = ys.length)
    (each : ∀ (i : Nat) c x y, cs[i]? = some c → xs[i]? = some x → ys[i]? = some y →
      Alongside f g c x y) : Alongside f g (.tuple cs) (.tuple xs) (.tuple ys) := by
  rw [Alongside, applyWith, applyWith, ← length]
  split
  · exact (concur_applyAll length each).map fun _ _ => Value.duplicates_tuple
  · exact .fail

theorem concur_map {c : Conversion} {t own : Ty} {xs ys : List (String × Value)}
    (solid : t.hasDynamic = false)
    (each : List.Forall₂ (fun x y => x.1 = y.1 ∧ Alongside f g c x.2 y.2) xs ys) :
    Alongside f g (.eachEntry c t) (.map own xs) (.map own ys) := by
  rw [Alongside, applyWith, applyWith, ← isEmpty_eq_of_length each.length_eq]
  split
  · exact .refl Value.duplicates_refl _
  · refine concur_settle solid (concur_eachEntry (each.imp fun _ _ h => h.2)) fun ws ws' hws => ?_
    exact Value.duplicates_zip (each.imp fun _ _ h => h.1) hws

/-- Attributes become the entries of a map, each by the plan of its name. -/
theorem concur_attributes {cs : List (String × Conversion)} {t : Ty}
    {xs ys : List (String × Value)} (solid : t.hasDynamic = false)
    (each : List.Forall₂ (fun x y => x.1 = y.1 ∧ ∀ c, Named.find? x.1 cs = some c →
      Alongside f g c.2 x.2 y.2) xs ys) :
    Alongside f g (.gather cs t) (.object xs) (.object ys) := by
  rw [Alongside, applyWith, applyWith, ← isEmpty_eq_of_length each.length_eq]
  split
  · exact .succeed (Value.duplicates_refl _)
  · refine concur_settle solid (concur_gather each) fun ws ws' hws => ?_
    exact Value.duplicates_zip (each.imp fun _ _ h => h.1) hws

/-- Objects are filled from equal attributes or entries, which `step` leads to. -/
theorem concur_slots {step : String → Step} {slots : List (Slot Conversion)}
    {xs ys : List (String × Value)}
    (entries : List.Forall₂ (fun x y => x.1 = y.1 ∧ x.2.same y.2 = true) xs ys)
    (each : ∀ slot ∈ slots, ∀ x y, Named.find? slot.target.name xs = some x →
      Named.find? slot.target.name ys = some y → x.2.same y.2 = true →
      Alongside f g slot.conversion x.2 y.2) :
    Concur (fun v w : Value => v.duplicates w = true)
      ((checkNames slots xs).bind fun _ => (fill f step slots xs).map .object)
      ((checkNames slots ys).bind fun _ => (fill g step slots ys).map .object) := by
  refine (concur_checkNames (entries.imp fun _ _ h => h.1)).bind fun _ _ _ => ?_
  refine (concur_fill fun slot hslot => ?_).map fun _ _ => Value.duplicates_object
  refine (Value.find?_of_sameEntries entries slot.target.name).imp_right ?_
  rintro ⟨x, y, hx, hy, hxy⟩
  exact ⟨x, y, hx, hy, each slot hslot x y hx hy hxy⟩

/-! ### Two runs of a plan -/

/-- **Step.** To a type without placeholders and lists, a plan makes duplicates of equal values,
or fails for both. -/
theorem Plan.concur {safety : Safety} {s t : Ty} {c : Conversion} {v w : Value}
    (plan : Plan safety s t c) (solid : t.hasDynamic = false) (lacks : t.Lacks Ty.isList)
    (hv : v.Inhabits s) (hw : w.Inhabits s) (hsame : v.same w = true) :
    Alongside f g c v w := by
  have proper : ∀ {v w : Value} {s : Ty}, v.Inhabits s → w.Inhabits s → v.same w = true →
      v.duplicates w = true := fun hv hw hsame => by
    rwa [Value.duplicates_eq_same hv.wellFormed.properSets hw.wellFormed.properSets]
  have below : ∀ {p t : Ty}, t.hasDynamic = false → t.Lacks Ty.isList → p ∈ t.parts →
      p.hasDynamic = false ∧ p.Lacks Ty.isList := fun solid lacks hp =>
    ⟨(Ty.hasDynamic_eq_false_iff.mp solid).2 _ hp, lacks.part hp⟩
  induction plan generalizing v w with
  | same =>
    refine concur_covering hsame fun _ _ => ?_
    exact .succeed (proper hv hw hsame)
  | pass => cases solid
  | later =>
    -- only the null and the unknown have the placeholder as their type
    have hty := hv.ty
    cases Value.same_iff.mp hsame with
    | null | unknown =>
      cases hty
      exact .succeed (Value.duplicates_refl _)
    | _ => cases hty
  | primitive =>
    refine concur_covering hsame fun _ _ => ?_
    exact concur_toPrimitive (proper hv hw hsame)
  | @sequence k l s t c permitted element ih =>
    refine concur_covering hsame fun data data' => ?_
    obtain ⟨xs, rfl, hxs⟩ := hv.items data
    obtain ⟨ys, rfl, hys⟩ := hw.items data'
    obtain ⟨solid', lacks'⟩ := below solid lacks List.mem_cons_self
    cases l with
    | list => cases lacks.here
    | set =>
      have matched := Value.matched_of_same hv.wellFormed.properSets hw.wellFormed.properSets hsame
      refine (concur_eachItem solid' (matched.imp fun x hx y hy hxy => ?_)).imp fun _ _ h => h.1
      exact ih solid' lacks' (hxs x hx) (hys y hy) hxy
  | @positions l ss t u cs permitted elects length each ih =>
    refine concur_covering hsame fun data data' => ?_
    obtain ⟨solid', lacks'⟩ := below solid lacks List.mem_cons_self
    obtain rfl := elects.eq_of_solid solid'
    obtain ⟨xs, rfl, hlen, hxs⟩ := hv.positions data
    obtain ⟨ys, rfl, hlen', hys⟩ := hw.positions data'
    cases l with
    | list => cases lacks.here
    | set =>
      cases Value.same_iff.mp hsame with
      | tuple items =>
        refine concur_positions solid' items.length_eq fun i c x y hc hx hy => ?_
        obtain ⟨s, hs⟩ := exists_getElem?_of_length length hc
        exact ih i s c hs hc solid' lacks' (hxs i s x hs hx) (hys i s y hs hy)
          ((forall₂_iff_getElem?.mp items).2 i x y hx hy)
  | @map s t c element ih =>
    refine concur_covering hsame fun data data' => ?_
    obtain ⟨solid', lacks'⟩ := below solid lacks List.mem_cons_self
    obtain ⟨xs, rfl, hxs⟩ := hv.entries data
    obtain ⟨ys, rfl, hys⟩ := hw.entries data'
    cases Value.same_iff.mp hsame with
    | map entries =>
      refine concur_map solid' (forall₂_of_mem entries fun x hx y hy hxy => ⟨hxy.1, ?_⟩)
      exact ih solid' lacks' (hxs x hx) (hys y hy) hxy.2
  | @gather as t u cs elects names each ih =>
    refine concur_covering hsame fun data data' => ?_
    obtain ⟨solid', lacks'⟩ := below solid lacks List.mem_cons_self
    obtain rfl := elects.eq_of_solid solid'
    obtain ⟨xs, rfl, hasc, hnames, hxs, -⟩ := hv.fields data
    obtain ⟨ys, rfl, -, hnames', hys, -⟩ := hw.fields data'
    cases Value.same_iff.mp hsame with
    | object entries =>
      refine concur_attributes solid' (forall₂_iff_getElem?.mpr
        ⟨entries.length_eq, fun i x y hx hy => ?_⟩)
      obtain ⟨hname, hxy⟩ := (forall₂_iff_getElem?.mp entries).2 i x y hx hy
      refine ⟨hname, fun c hfind => ?_⟩
      -- names are ascending, so the plan of a name stands at the position of the name
      have hasc' : Named.Ascending cs := by rwa [Named.Ascending, ← names, hnames]
      obtain ⟨c', hc, hfind'⟩ := Named.exists_find?_getElem? hasc' (names.symm.trans hnames) hx
      obtain rfl : c = c' := Option.some.inj (hfind.symm.trans hfind')
      obtain ⟨a, ha, -⟩ := Named.exists_getElem? names hc
      exact ih i a c ha hc solid' lacks' (hxs i a x ha hx) (hys i a y ha hy) hxy
  | @tuple ss ts cs arity length each ih =>
    refine concur_covering hsame fun data data' => ?_
    obtain ⟨xs, rfl, hlen, hxs⟩ := hv.positions data
    obtain ⟨ys, rfl, hlen', hys⟩ := hw.positions data'
    cases Value.same_iff.mp hsame with
    | tuple items =>
      refine concur_tuple items.length_eq fun i c x y hc hx hy => ?_
      obtain ⟨s, hs⟩ := exists_getElem?_of_length length hc
      obtain ⟨t, ht⟩ := exists_getElem?_of_length arity.symm hs
      obtain ⟨solid', lacks'⟩ := below solid lacks (List.mem_of_getElem? ht)
      exact ih i s t c hs ht hc solid' lacks' (hxs i s x hs hx) (hys i s y hs hy)
        ((forall₂_iff_getElem?.mp items).2 i x y hx hy)
  | @object as bs slots known targets found missing ih =>
    refine concur_covering hsame fun data data' => ?_
    subst targets
    obtain ⟨xs, rfl, -, hnames, -, hxs⟩ := hv.fields data
    obtain ⟨ys, rfl, -, -, -, hys⟩ := hw.fields data'
    cases Value.same_iff.mp hsame with
    | object entries =>
      refine concur_slots entries fun slot hslot x y hx hy hxy => ?_
      obtain ⟨a, ha⟩ := Named.exists_find? hnames hx
      have htarget : slot.target ∈ slots.map (·.target) := List.mem_map_of_mem hslot
      obtain ⟨solid', lacks'⟩ := below solid lacks (List.mem_map_of_mem htarget)
      exact ih slot hslot a ha solid' lacks' (hxs _ a x ha hx) (hys _ a y ha hy) hxy
  | @select s bs slots permitted targets each ih =>
    refine concur_covering hsame fun data data' => ?_
    subst targets
    obtain ⟨xs, rfl, hxs⟩ := hv.entries data
    obtain ⟨ys, rfl, hys⟩ := hw.entries data'
    cases Value.same_iff.mp hsame with
    | map entries =>
      refine concur_slots entries fun slot hslot x y hx hy hxy => ?_
      have htarget : slot.target ∈ slots.map (·.target) := List.mem_map_of_mem hslot
      obtain ⟨solid', lacks'⟩ := below solid lacks (List.mem_map_of_mem htarget)
      exact ih slot hslot solid' lacks' (hxs x (Named.mem_of_find? hx).1)
        (hys y (Named.mem_of_find? hy).1) hxy

end Conversion

/-! ### Converting equal values -/

namespace Value

/-- **Congruence.** Two equal values, well formed and with their names in order, are both refused
by a type without placeholders in which there are no lists, or become equal values of it. -/
theorem convert_respects_equality {a b : Value} {want : Ty} (ha : a.WellFormed) (ha' : a.Lawful)
    (hb : b.WellFormed) (hb' : b.Lawful) (hsame : a.same b = true)
    (solid : want.hasDynamic = false) (lacks : want.Lacks Ty.isList) :
    Concur (fun v w => v.same w = true) (a.convert want) (b.convert want) := by
  have hty := ty_eq_of_same hsame
  rw [convert_eq, convert_eq, ← hty]
  split
  · exact .succeed hsame
  · split
    · rename_i c hc
      have runs : Conversion.Alongside convert convert c a b :=
        (Conversion.plan_of_between? hc).concur solid lacks ⟨ha, ha', rfl⟩ ⟨hb, hb', hty.symm⟩ hsame
      exact runs.imp fun _ _ hdup => (duplicates_iff.mp hdup).1
    · exact .fail

/-- Sets of sets, in different orders: numbers in different forms become texts, and texts of one
number, in different sets, become numbers, so that two of the sets are then equal. -/
theorem convert_respects_equality_sets_of_sets :
    let texts : List Value := [.set .string [.string "1"], .set .string [.string "1.0"],
      .set .string []]
    let a : Value := .tuple [
      .set (.set .number) [.set .number [.number ⟨150, 2⟩, .number ⟨2, 0⟩],
        .set .number [.unknown .number]],
      .set (.set .string) texts]
    let b : Value := .tuple [
      .set (.set .number) [.set .number [.unknown .number],
        .set .number [.number ⟨20, 1⟩, .number ⟨15, 1⟩]],
      .set (.set .string) texts.reverse]
    let want : Ty := .tuple [.set (.set .string), .set (.set .number)]
    (a.WellFormed ∧ a.Lawful) ∧ (b.WellFormed ∧ b.Lawful) ∧ a.same b = true ∧
      want.hasDynamic = false ∧ want.Lacks Ty.isList ∧
      Concur (fun v w => v.same w = true) (a.convert want) (b.convert want) := by
  intro texts a b want
  have ha : a.WellFormed ∧ a.Lawful := by decide +kernel
  have hb : b.WellFormed ∧ b.Lawful := by decide +kernel
  have hsame : a.same b = true := by decide +kernel
  have sets : ∀ p, (Ty.set (.set (.primitive p))).Lacks Ty.isList := fun p =>
    .intro rfl (List.forall_mem_singleton.mpr (.intro rfl (List.forall_mem_singleton.mpr
      (.intro rfl nofun))))
  have lacks : want.Lacks Ty.isList := .intro rfl (List.forall_mem_cons.mpr
    ⟨sets .string, List.forall_mem_singleton.mpr (sets .number)⟩)
  exact ⟨ha, hb, hsame, rfl, lacks,
    convert_respects_equality ha.1 ha.2 hb.1 hb.2 hsame rfl lacks⟩

end Value

end Retype
