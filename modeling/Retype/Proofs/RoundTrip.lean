import Retype.Proofs.Conversion.Progress
import Retype.Proofs.Lossless

/-!
# Converting back

If a type converts safely to another, and that one converts back, then converting a value there
and back gives an equal value (`convert_back`).

What a safe conversion yields holds all the data of the value (`Value.Embeds`), so the way back
has only to undo each of its forms (`Plan.restores`): texts are read as the numbers and truth
values that they were written from, lists lose no item on becoming sets, because no two of them
are equal, and a map has exactly the entries that the object asks for. There is no way back from
a list to a tuple, nor from an object that got attributes on the way. Nulls, unknowns and empty
collections get their old type back because the two types fit (`Plan.fits_back`).

Scales are words of 64 bits, so a text with more zeros or places than that is not read as the
number that it stands for. There is no room for such a text, and nothing is asked of numbers that
are not written: `Value.written` lists those that are.
-/

namespace Retype

/-! ### Values that are equal after all -/

namespace Value

mutual

/-- The numbers of the first value that stand as text in the second, at the same positions and
under the same names. -/
def written : Value → Value → List Decimal
  | .number d, .string _ => [d]
  | .sequence _ _ xs, w | .tuple xs, w => writtenItems xs (w.items?.getD [])
  | .map _ xs, w | .object xs, w => writtenEntries xs (w.entries?.getD [])
  | _, _ => []
termination_by structural v => v

/-- The numbers of items that stand as text in other items. -/
def writtenItems : List Value → List Value → List Decimal
  | x :: xs, y :: ys => written x y ++ writtenItems xs ys
  | _, _ => []
termination_by structural xs => xs

/-- The numbers of entries that stand as text in other entries. -/
def writtenEntries : List (String × Value) → List (String × Value) → List Decimal
  | (name, x) :: xs, ys =>
    ((Named.find? name ys).elim [] fun y => written x y.2) ++ writtenEntries xs ys
  | [], _ => []
termination_by structural xs => xs

end

theorem mem_writtenItems {xs ys : List Value} {i : Nat} {x y : Value} {d : Decimal}
    (hx : xs[i]? = some x) (hy : ys[i]? = some y) (h : d ∈ written x y) :
    d ∈ writtenItems xs ys := by
  induction xs generalizing ys i with
  | nil => cases hx
  | cons x' xs ih =>
    cases ys with
    | nil => cases hy
    | cons y' ys =>
      rw [writtenItems, List.mem_append]
      cases i with
      | zero =>
        cases hx
        cases hy
        exact .inl h
      | succ i => exact .inr (ih hx hy)

theorem mem_writtenEntries {xs ys : List (String × Value)} {x y : String × Value} {d : Decimal}
    (hx : x ∈ xs) (hy : Named.find? x.1 ys = some y) (h : d ∈ written x.2 y.2) :
    d ∈ writtenEntries xs ys := by
  induction xs with
  | nil => cases hx
  | cons x' xs ih =>
    rw [writtenEntries, List.mem_append]
    rcases List.mem_cons.mp hx with rfl | hx
    · refine .inl ?_
      rw [hy]
      exact h
    · exact .inr (ih hx)

/-- The numbers that are written as text can be read again. -/
def Legible (v w : Value) : Prop := ∀ d ∈ v.written w, d.Representable

/-- Items that are equal to those of a well-formed list or set make an equal list or set. -/
theorem same_collect {k : SequenceKind} {e : Ty} {items ws : List Value}
    (hv : (Value.sequence k e items).WellFormed)
    (h : List.Forall₂ (fun w x => same w x = true) ws items) :
    same (collect k e ws) (.sequence k e items) = true := by
  rw [collect_eq_sequence fun hk => ?_]
  · exact same_iff.mpr (alike_sequence h)
  · subst hk
    refine pairwise_of_forall₂ h.flip (hv.here.2 e items rfl)
      fun x _ x' _ w w' hwx hwx' hdiff hw hw' => ?_
    by_contra hsame
    have hxx : same x x' = true :=
      same_trans (same_symm hwx) (same_trans (by simpa using hsame) hwx')
    rw [hdiff ((isUnknown_eq_of_same hwx).symm.trans hw)
      ((isUnknown_eq_of_same hwx').symm.trans hw')] at hxx
    cases hxx

/-- New values under the names of entries, each equal to the value of that name. -/
theorem forall₂_zip_names {xs ys : List (String × Value)} {ws : List Value}
    (names : Named.names xs = Named.names ys)
    (h : List.Forall₂ (fun w (x : String × Value) => same w x.2 = true) ws xs) :
    List.Forall₂ (fun y x => y.1 = x.1 ∧ same y.2 x.2 = true) ((ys.map Prod.fst).zip ws) xs := by
  obtain ⟨hlen, heach⟩ := forall₂_iff_getElem?.mp h
  have hlen' := Named.length_eq_of_names names
  refine forall₂_iff_getElem?.mpr ⟨by simp [hlen, hlen'], fun i y x hy hx => ?_⟩
  obtain ⟨hkey, hw⟩ := List.getElem?_zip_eq_some.mp hy
  obtain ⟨y', hy', hname⟩ := Named.exists_getElem? names.symm hx
  rw [List.getElem?_map, hy', Option.map_some, Option.some.injEq] at hkey
  exact ⟨hkey.symm.trans hname, heach i y.2 x hw hx⟩

theorem boolOfText?_boolText (b : Bool) : boolOfText? (Retype.boolText b) = some b := by
  cases b <;> decide

/-- A primitive is read off the text that it was written to. -/
theorem Embeds.exists_toPrimitive {q : Primitive} {v w : Value} (h : v.Embeds w)
    (hty : v.ty = .primitive q) (data : v.isConcrete = true) (hnum : v.Legible w) :
    ∃ v', w.toPrimitive q = .ok v' ∧ same v' v = true := by
  cases h with
  | string | number | bool =>
    cases hty
    exact ⟨_, rfl, by simp [same, Decimal.same]⟩
  | @numberText d a text =>
    cases hty
    refine ⟨.number d.normalize, ?_, ?_⟩
    · have hread := Decimal.parse?_plain (hnum d (by simp [written]))
      simp [toPrimitive, ← text, hread]
    · simp [same, Decimal.same, Decimal.normalize_normalize]
  | @boolText b a text =>
    cases hty
    refine ⟨.bool b, ?_, by simp [same]⟩
    simp [toPrimitive, ← text, boolOfText?_boolText]
  | null | unknown => cases data
  | _ => cases hty

end Value

namespace Conversion

open Ty

variable {convert : Value → Ty → Except Fault Value}

/-! ### Types that fit -/

theorem find?_strippedAttributes (key : String) (as : List (Attribute Ty)) :
    Named.find? key (strippedAttributes as) =
      (Named.find? key as).map fun a => ⟨a.name, false, a.type.stripped⟩ := by
  rw [strippedAttributes_eq_map, Named.find?, List.find?_map]
  rfl

/-- If a type converts safely to another, its nulls can be made of those of the other. -/
theorem Plan.fits_back {s t : Ty} {c : Conversion} (plan : Plan .risky t s c)
    (there : Converts .safe s t) (hs : s.Definite) (ht : t.Lawful) (solid : t.hasDynamic = false) :
    s.Fits t.stripped := by
  unfold Lawful at ht
  induction plan with
  | same =>
    rw [hs.plain.unmarked.stripped_eq]
    exact hs.plain.lawful.fits_self
  | pass => cases hs.solid
  | later => cases solid
  | primitive => exact .primitive
  | @sequence l k t s c _ _ ih =>
    obtain ⟨-, element⟩ := converts_sequence_iff.mp there
    exact .sequence (ih element (hs.part (by simp [parts])) (throughout_sequence.mp ht).2 solid)
  | @map t s c _ ih =>
    exact .map (ih (converts_map_iff.mp there) (hs.part (by simp [parts]))
      (throughout_map.mp ht).2 solid)
  | positions =>
    obtain ⟨_, plan⟩ := there.plan
    cases plan
  | gather => cases (converts_select_iff.mp there).1
  | @tuple ts ss cs arity length each ih =>
    obtain ⟨-, parts⟩ := converts_tuple_iff.mp there
    refine .tuple (by simpa using arity) fun i s _ hsi hstripped => ?_
    obtain ⟨t, hti, rfl⟩ := getElem?_strippedAll.mp hstripped
    obtain ⟨c, hci⟩ := exists_getElem?_of_length length.symm hti
    have hmem := List.mem_of_getElem? hti
    exact ih i t s c hti hsi hci (parts i s t hsi hti) (hs.part (List.mem_of_getElem? hsi))
      ((throughout_tuple.mp ht).2 t hmem) ((hasDynamic_eq_false_iff.mp solid).2 t hmem)
  | @object bs as slots known targets found missing ih =>
    subst targets
    have hasc := Lawful.ascending hs.plain.lawful
    obtain ⟨-, parts, -⟩ := (converts_object_iff hasc).mp there
    refine .object fun a ha _ hstripped => ?_
    rw [find?_strippedAttributes] at hstripped
    obtain ⟨b, hb, rfl⟩ := Option.map_eq_some_iff.mp hstripped
    obtain ⟨hmem, hname⟩ := Named.mem_of_find? hb
    obtain ⟨i, hi⟩ := List.getElem?_of_mem ha
    have hfind : Named.find? b.name (slots.map (·.target)) = some a := by
      rw [show b.name = a.name from hname]
      exact Named.find?_of_getElem? hasc hi
    obtain ⟨slot, hslot, rfl⟩ := List.mem_map.mp ha
    exact ih slot hslot b hb (parts b hmem slot.target hfind) (hs.part (List.mem_map_of_mem ha))
      ((throughout_object.mp ht).2 b hmem)
      ((hasDynamic_eq_false_iff.mp solid).2 _ (List.mem_map_of_mem hmem))
  | @select t as slots permitted targets each ih =>
    subst targets
    have ht' : t ≠ .dynamic := (hasDynamic_eq_false_iff (t := t)).mp solid |>.1
    have parts := (converts_gather_iff ht').mp there
    refine .select fun a ha => ?_
    obtain ⟨slot, hslot, rfl⟩ := List.mem_map.mp ha
    exact ih slot hslot (parts _ ha) (hs.part (List.mem_map_of_mem ha)) (throughout_map.mp ht).2
      solid

/-! ### The way back -/

theorem refine_of_fits {s i : Ty} (hs : s.Definite) (fits : s.Fits i) : s.refine i = .ok s := by
  obtain ⟨r, hr⟩ := fits_iff.mp fits
  obtain rfl := hr.eq_of_hasDynamic hs.solid
  exact refine_eq_ok_iff.mpr hr

/-- Nulls and unknowns get their old type; data is restored by the inner plan. -/
theorem restores_of_covering {s t : Ty} {inner : Conversion} {v w : Value} (h : v.Embeds w)
    (hs : s.Definite) (hv : v.ty = s) (hw : w.ty = t.stripped) (fits : s.Fits t.stripped)
    (hinner : v.isConcrete = true →
      ∃ v', applyWith convert inner w = .ok v' ∧ v'.same v = true) :
    ∃ v', applyWith convert (.covering s.stripped inner) w = .ok v' ∧ v'.same v = true := by
  rw [hs.plain.unmarked.stripped_eq]
  cases h with
  | @null i _ =>
    obtain rfl : i = s := hv
    obtain rfl := hw
    refine ⟨.null i, ?_, Value.same_iff.mpr .null⟩
    rw [applyWith, refine_of_fits hs fits]
    rfl
  | @unknown i _ =>
    obtain rfl : i = s := hv
    obtain rfl := hw
    refine ⟨.unknown i, ?_, Value.same_iff.mpr .unknown⟩
    rw [applyWith, refine_of_fits hs fits]
    rfl
  | _ => exact hinner rfl

/-- Slots that are filled with values equal to attributes of the same names make an equal object. -/
theorem exists_filled {step : String → Step} {slots : List (Slot Conversion)}
    {entries attributes : List (String × Value)}
    (hnames : Named.names (slots.map (·.target)) = Named.names attributes)
    (known : ∀ y ∈ entries, Named.contains y.1 (slots.map (·.target)) = true)
    (hslot : ∀ (i : Nat) slot (x : String × Value), slots[i]? = some slot →
      attributes[i]? = some x → ∃ y v', Named.find? slot.target.name entries = some y ∧
        applyWith convert slot.conversion y.2 = .ok v' ∧ v'.same x.2 = true) :
    ∃ v', ((checkNames slots entries).bind fun _ =>
        (fill convert step slots entries).map Value.object) = .ok v' ∧
      v'.same (.object attributes) = true := by
  obtain ⟨filled, hfill, hnames', hsame⟩ := exists_fill step
    (by simpa using Named.length_eq_of_names hnames)
    fun i slot x hs hx => .inl (hslot i slot x hs hx)
  rw [checkNames_eq_ok known, Except.bind, hfill]
  refine ⟨.object filled, rfl, Value.same_iff.mpr (.object ?_)⟩
  obtain ⟨hlen, heach⟩ := forall₂_iff_getElem?.mp hsame
  refine forall₂_iff_getElem?.mpr ⟨hlen, fun i y x hy hx => ⟨?_, heach i y x hy hx⟩⟩
  exact Named.name_eq_of_names (hnames'.trans hnames) hy hx

/-- **Step.** A plan restores the values that a safe conversion made the data of. -/
theorem Plan.restores {s t : Ty} {c : Conversion} {v w : Value} (plan : Plan .risky t s c)
    (there : Converts .safe s t) (hs : s.Definite) (ht : t.Lawful) (solid : t.hasDynamic = false)
    (hv : v.Inhabits s) (hnum : v.Legible w) (h : v.Embeds w) (hw : w.ty = t.stripped)
    (hhom : w.Homogeneous) : ∃ v', applyWith convert c w = .ok v' ∧ v'.same v = true := by
  have fits := plan.fits_back there hs ht solid
  unfold Lawful at ht
  induction plan generalizing v w with
  | @same t =>
    refine restores_of_covering h hs hv.ty hw fits fun _ => ⟨w, rfl, ?_⟩
    have hty : v.ty = w.ty := by rw [hv.ty, hw, hs.plain.unmarked.stripped_eq]
    exact h.same_of_ty_eq hty hv.wellFormed.homogeneous hhom hv.lawful
  | pass => cases hs.solid
  | later => cases solid
  | primitive =>
    exact restores_of_covering h hs hv.ty hw fits fun data =>
      h.exists_toPrimitive hv.ty data hnum
  | @sequence l k t s c permitted plan ih =>
    refine restores_of_covering h hs hv.ty hw fits fun data => ?_
    obtain ⟨-, element⟩ := converts_sequence_iff.mp there
    have hs' : s.Definite := hs.part (by simp [parts])
    obtain ⟨items, rfl, hitems⟩ := hv.items data
    cases h with
    | @sequence _ _ _ _ _ ys _ length each =>
      cases hw
      cases fits with
      | sequence fits =>
        have hitem : ∀ (i : Nat) y x, ((Value.indexed ys).map Prod.snd)[i]? = some y →
            items[i]? = some x → ∃ v', applyWith convert c y = .ok v' ∧ v'.same x = true := by
          intro i y x hy hx
          rw [map_snd_indexed] at hy
          have hmem := List.mem_of_getElem? hx
          have hmem' := List.mem_of_getElem? hy
          exact ih element hs' (throughout_sequence.mp ht).2 solid (hitems x hmem)
            (fun d hd => hnum d (Value.mem_writtenItems hx hy hd)) (each i x y hx hy)
            (hhom.here _ rfl y hmem') (hhom.member hmem') fits
        rw [applyWith]
        split
        · rename_i hempty
          obtain rfl : items = [] := by simpa [List.isEmpty_iff.mp hempty] using length
          refine ⟨.sequence k s [], ?_, Value.same_iff.mpr (Value.alike_sequence .nil)⟩
          rw [refine_of_fits hs' fits, Except.map, hs'.plain.unmarked.stripped_eq]
        · obtain ⟨done, hdone, hsame⟩ :=
            exists_eachPart (by simpa [Value.indexed] using length.symm) hitem
          rw [hdone, Except.bind, settle_of_solid hs'.solid, hs'.plain.unmarked.stripped_eq]
          exact ⟨_, rfl, Value.same_collect hv.wellFormed hsame⟩
  | @map t s c plan ih =>
    refine restores_of_covering h hs hv.ty hw fits fun data => ?_
    have element := converts_map_iff.mp there
    have hs' : s.Definite := hs.part (by simp [parts])
    obtain ⟨entries, rfl, hentries⟩ := hv.entries data
    cases h with
    | @map _ _ _ ys names each =>
      cases hw
      cases fits with
      | map fits =>
        have hentry : ∀ (i : Nat) y (x : String × Value),
            ((Value.keyed ys).map Prod.snd)[i]? = some y → entries[i]? = some x →
            ∃ v', applyWith convert c y = .ok v' ∧ v'.same x.2 = true := by
          intro i y x hvalue hx
          rw [map_snd_keyed, List.getElem?_map] at hvalue
          obtain ⟨y, hy, rfl⟩ := Option.map_eq_some_iff.mp hvalue
          have hmem := List.mem_of_getElem? hx
          have hmem' : y.2 ∈ (Value.map t.stripped ys).members :=
            List.mem_map_of_mem (List.mem_of_getElem? hy)
          have hfind := Named.find?_of_names hv.lawful.here.2 names hx hy
          exact ih element hs' (throughout_map.mp ht).2 solid (hentries x hmem)
            (fun d hd => hnum d (Value.mem_writtenEntries hmem hfind hd)) (each i x y hx hy)
            (hhom.here _ rfl y.2 hmem') (hhom.member hmem') fits
        rw [applyWith]
        split
        · rename_i hempty
          obtain rfl : entries = [] := by
            simpa [List.isEmpty_iff.mp hempty] using Named.length_eq_of_names names
          refine ⟨.map s [], ?_, Value.same_iff.mpr (.map .nil)⟩
          rw [refine_of_fits hs' fits, Except.map, hs'.plain.unmarked.stripped_eq]
        · obtain ⟨done, hdone, hsame⟩ := exists_eachPart
            (by simpa [Value.keyed] using (Named.length_eq_of_names names).symm) hentry
          rw [hdone, Except.bind, settle_of_solid hs'.solid, hs'.plain.unmarked.stripped_eq]
          exact ⟨_, rfl, Value.same_iff.mpr (.map (Value.forall₂_zip_names names hsame))⟩
  | positions =>
    obtain ⟨_, plan⟩ := there.plan
    cases plan
  | gather => cases (converts_select_iff.mp there).1
  | @tuple ts ss cs arity length plans ih =>
    refine restores_of_covering h hs hv.ty hw fits fun data => ?_
    obtain ⟨-, parts⟩ := converts_tuple_iff.mp there
    obtain ⟨items, rfl, hlen, hitems⟩ := hv.positions data
    cases h with
    | positions => cases hw
    | @tuple _ ys hlen' each =>
      cases fits with
      | tuple _ fits =>
        have hitem : ∀ (i : Nat) c y x, cs[i]? = some c → ys[i]? = some y → items[i]? = some x →
            ∃ v', applyWith convert c y = .ok v' ∧ v'.same x = true := by
          intro i c y x hc hy hx
          obtain ⟨t, hti⟩ := exists_getElem?_of_length length hc
          obtain ⟨s, hsi⟩ := exists_getElem?_of_length arity.symm hti
          have hstripped : (strippedAll ts)[i]? = some t.stripped :=
            getElem?_strippedAll.mpr ⟨t, hti, rfl⟩
          have hmem := List.mem_of_getElem? hti
          exact ih i t s c hti hsi hc (parts i s t hsi hti) (hs.part (List.mem_of_getElem? hsi))
            ((throughout_tuple.mp ht).2 t hmem) ((hasDynamic_eq_false_iff.mp solid).2 t hmem)
            (hitems i s x hsi hx) (fun d hd => hnum d (Value.mem_writtenItems hx hy hd))
            (each i x y hx hy)
            (Value.ty_of_tuple hw hy hstripped) (hhom.member (List.mem_of_getElem? hy))
            (fits i s t.stripped hsi hstripped)
        have hcs : ys.length = cs.length := by omega
        obtain ⟨done, hdone, hsame⟩ := exists_applyAll hcs hlen'.symm hitem
        rw [applyWith, if_pos hcs, hdone]
        exact ⟨_, rfl, Value.same_iff.mpr (.tuple hsame)⟩
  | @object bs as slots known targets found missing ih =>
    refine restores_of_covering h hs hv.ty hw fits fun data => ?_
    subst targets
    have hasc := Lawful.ascending hs.plain.lawful
    obtain ⟨-, parts, -⟩ := (converts_object_iff hasc).mp there
    obtain ⟨attributes, rfl, -, hnames, hfields, -⟩ := hv.fields data
    cases h with
    | gather => cases hw
    | @object _ ys present each =>
      have fits : ∀ a ∈ slots.map (·.target), ∀ b, Named.find? a.name (strippedAttributes bs) =
          some b → a.type.Fits b.type := by
        cases fits with | object fits => exact fits
      have hnames' : Named.names ys = Named.names bs := by
        simpa using Value.names_of_object hw
      have hasc' : Named.Ascending ys := Lawful.ascending_of_names ht hnames'
      have hslot : ∀ (i : Nat) slot (x : String × Value), slots[i]? = some slot →
          attributes[i]? = some x →
          ∃ y v', Named.find? slot.target.name ys = some y ∧
            applyWith convert slot.conversion y.2 = .ok v' ∧ v'.same x.2 = true := by
        intro i slot x hslot hx
        have htarget : (slots.map (·.target))[i]? = some slot.target := by
          rw [List.getElem?_map, hslot, Option.map_some]
        have hxname : slot.target.name = x.1 := Named.name_eq_of_names hnames htarget hx
        have hxmem := List.mem_of_getElem? hx
        obtain ⟨y, hy⟩ := Option.isSome_iff_exists.mp
          ((Named.isSome_find? x.1 ys).trans (present x hxmem))
        have hy' : Named.find? slot.target.name ys = some y := hxname ▸ hy
        obtain ⟨b, hb⟩ := Named.exists_find? hnames'.symm hy'
        obtain ⟨hbmem, hbname⟩ := Named.mem_of_find? hb
        have hmem := List.mem_of_getElem? htarget
        have hback : Named.find? b.name (slots.map (·.target)) = some slot.target := by
          rw [show b.name = slot.target.name from hbname]
          exact Named.find?_of_getElem? hasc htarget
        have hstripped : Named.find? slot.target.name (strippedAttributes bs) =
            some ⟨b.name, false, b.type.stripped⟩ := by rw [find?_strippedAttributes, hb]; rfl
        obtain ⟨v', hv', hsame⟩ := ih slot (List.mem_of_getElem? hslot) b hb
          (parts b hbmem slot.target hback) (hs.part (List.mem_map_of_mem hmem))
          ((throughout_object.mp ht).2 b hbmem)
          ((hasDynamic_eq_false_iff.mp solid).2 _ (List.mem_map_of_mem hbmem))
          (hfields i slot.target x htarget hx)
          (fun d hd => hnum d (Value.mem_writtenEntries hxmem hy hd)) (each x hxmem y hy)
          (Value.ty_of_find? hw hasc' hstripped hy')
          (hhom.member (List.mem_map_of_mem (Named.mem_of_find? hy).1))
          (fits slot.target hmem _ hstripped)
        exact ⟨y, v', hy', hv', hsame⟩
      exact exists_filled hnames (Named.contains_of_names hnames'.symm known) hslot
  | @select t as slots permitted targets plans ih =>
    refine restores_of_covering h hs hv.ty hw fits fun data => ?_
    subst targets
    have ht' : t ≠ .dynamic := (hasDynamic_eq_false_iff (t := t)).mp solid |>.1
    have parts := (converts_gather_iff ht').mp there
    obtain ⟨attributes, rfl, hasc, hnames, hfields, -⟩ := hv.fields data
    cases h with
    | object => cases hw
    | @gather _ _ ys names each =>
      cases hw
      have fits : ∀ a ∈ slots.map (·.target), a.type.Fits t.stripped := by
        cases fits with | select fits => exact fits
      have hasc' : Named.Ascending ys := by rwa [Named.Ascending, ← names]
      have hslot : ∀ (i : Nat) slot (x : String × Value), slots[i]? = some slot →
          attributes[i]? = some x →
          ∃ y v', Named.find? slot.target.name ys = some y ∧
            applyWith convert slot.conversion y.2 = .ok v' ∧ v'.same x.2 = true := by
        intro i slot x hslot hx
        have htarget : (slots.map (·.target))[i]? = some slot.target := by
          rw [List.getElem?_map, hslot, Option.map_some]
        have hmem := List.mem_of_getElem? htarget
        obtain ⟨y, hy, hfind⟩ := Named.exists_find?_getElem? hasc'
          (names.symm.trans hnames.symm) htarget
        have hymem : y.2 ∈ (Value.map t.stripped ys).members :=
          List.mem_map_of_mem (List.mem_of_getElem? hy)
        obtain ⟨v', hv', hsame⟩ := ih slot (List.mem_of_getElem? hslot) (parts slot.target hmem)
          (hs.part (List.mem_map_of_mem hmem)) (throughout_map.mp ht).2 solid
          (hfields i slot.target x htarget hx)
          (fun d hd => hnum d (Value.mem_writtenEntries (List.mem_of_getElem? hx)
            (Named.find?_of_names hasc names hx hy) hd)) (each i x y hx hy)
          (hhom.here _ rfl y.2 hymem) (hhom.member hymem) (fits slot.target hmem)
        exact ⟨y, v', hfind, hv', hsame⟩
      refine exists_filled hnames (fun y hy => ?_) hslot
      rw [Named.contains_iff, hnames, names]
      exact List.mem_map_of_mem hy

end Conversion

/-- **Round trip.** A value that is safely converted to a type without placeholders, and from
there back to its own type, is equal to what it was. Of a number that is written as text on the
way, the text must have less than `2 ^ 63` characters, as every text has that there is room for, or
at least the scale of the normal form must be a word of 64 bits. -/
theorem convert_back {source target : Ty} {there back : Conversion} {v w : Value}
    (hs : source.Definite) (ht : target.Lawful) (solid : target.hasDynamic = false)
    (hthere : Conversion.between? source target .safe = some there)
    (hback : Conversion.between? target source .risky = some back) (hv : v.Inhabits source)
    (h : there.apply v = .ok w)
    (hnum : ∀ d ∈ v.written w, d.plain.length < 2 ^ 63 ∨ d.Representable) :
    ∃ v', back.apply w = .ok v' ∧ v'.same v = true := by
  have plan := Conversion.plan_of_between? hthere
  obtain ⟨hconf, hw, hhom⟩ := plan.sound_of_apply hs ht hv h
  have legible : v.Legible w := fun d hd => (hnum d hd).elim Decimal.representable_of_length id
  exact (Conversion.plan_of_between? hback).restores (Ty.converts_of_plan plan) hs ht solid hv
    legible (plan.embeds hs solid hv h) (hw.ty_eq hconf solid) hhom

/-- Sets of numbers become lists of texts and sets of numbers again, in a map and back in an
object. Beside them a number is kept as it is, although it has more zeros than could be written. -/
theorem convert_back_object_and_map :
    let source : Ty :=
      .tuple [.object [⟨"a", false, .set .number⟩, ⟨"b", false, .set .number⟩], .number]
    let target : Ty := .tuple [.map (.list .string), .number]
    let v : Value := .tuple [.object [("a", .set .number [.number ⟨25, 1⟩, .unknown .number]),
      ("b", .null (.set .number))], .number ⟨10, -0x8000000000000000⟩]
    let w : Value := .tuple [.map (.list .string) [("a", .list .string [.string "2.5",
      .unknown .string]), ("b", .null (.list .string))], .number ⟨10, -0x8000000000000000⟩]
    source.Definite ∧ target.Lawful ∧ v.Inhabits source ∧ v.written w = [⟨25, 1⟩] ∧
      ∃ there back, Conversion.between? source target .safe = some there ∧
        Conversion.between? target source .risky = some back ∧ there.apply v = .ok w ∧
        ∃ v', back.apply w = .ok v' ∧ v'.same v = true := by
  intro source target v w
  have hs : source.Definite := ⟨⟨by decide, by decide⟩, by decide⟩
  have hv : v.Inhabits source := by decide
  have hwritten : v.written w = [⟨25, 1⟩] := rfl
  let texts : Conversion := .covering (.list .string)
    (.eachItem .list (.covering .string (.primitive .string)) .string)
  let there : Conversion := .covering target (.tuple
    [.covering (.map (.list .string)) (.gather [("a", texts), ("b", texts)] (.list .string)),
      .covering .number .identity])
  have hthere : Conversion.between? source target .safe = some there := by cbv
  obtain ⟨back, hback⟩ : ∃ back, Conversion.between? target source .risky = some back := by
    rw [← Option.isSome_iff_exists]
    cbv
  have htext : Decimal.plain ⟨25, 1⟩ = "2.5" := by decide +kernel
  have happly : there.apply v = .ok w := by
    simp only [w, ← htext]
    rfl
  have hnum : ∀ d ∈ v.written w, d.plain.length < 2 ^ 63 ∨ d.Representable := by
    intro d hd
    rw [hwritten, List.mem_singleton] at hd
    rw [hd, htext]
    exact .inl (by decide)
  exact ⟨hs, by decide, hv, hwritten, there, back, hthere, hback, happly,
    convert_back hs (by decide) (by decide) hthere hback hv happly hnum⟩

end Retype
