import Retype.Proofs.Lossless
import Retype.Proofs.Ty.Agrees

/-!
# Bringing types together without risk leaves all data as it is

The leaves of a value are the texts, numbers and truth values in it, in order (`Value.leaves`).
A safe conversion in general writes numbers and truth values out as text. The conversions to a
safely found common type do not: of them `Ty.Reaches` says also that no primitive becomes another
anywhere inside, so the leaves stay what they are, one by one (`Yields.leaves_eq`).

* Containers change around the leaves: a set becomes a list, a tuple a list, an object a map. None
  of this reorders anything, and no item of a set is dropped, because items that were different
  stay different (`Value.collect_of_embeds`).
* An object may gain attributes. They are optional ones, so they are null, and a null has no leaves;
  the attributes that were there keep their order (`Named.flatMap_eq_of_names`).
-/

namespace Retype

namespace Value

mutual

/-- The texts, numbers and truth values in a value: items in order, entries and attributes in the
order of their names. -/
def leaves : Value → List Value
  | .string a => [.string a]
  | .number d => [.number d]
  | .bool b => [.bool b]
  | .null _ | .unknown _ | .capsule _ _ => []
  | .sequence _ _ items | .tuple items => leavesAll items
  | .map _ entries | .object entries => leavesEntries entries
termination_by structural v => v

/-- The leaves of all the values. -/
def leavesAll : List Value → List Value
  | [] => []
  | v :: vs => leaves v ++ leavesAll vs
termination_by structural vs => vs

/-- The leaves of the values of all the entries. -/
def leavesEntries : List (String × Value) → List Value
  | [] => []
  | (_, v) :: es => leaves v ++ leavesEntries es
termination_by structural es => es

end

theorem leavesAll_eq_flatMap (vs : List Value) : leavesAll vs = vs.flatMap leaves := by
  induction vs with
  | nil => rfl
  | cons v vs ih => rw [leavesAll, ih, List.flatMap_cons]

theorem leavesEntries_eq_flatMap (es : List (String × Value)) :
    leavesEntries es = es.flatMap (leaves ·.2) := by
  induction es with
  | nil => rfl
  | cons e es ih => rw [leavesEntries, ih, List.flatMap_cons]

/-- Items with the same leaves at each position have the same leaves. -/
theorem leavesAll_eq_of_getElem? {xs ys : List Value} (length : xs.length = ys.length)
    (each : ∀ (i : Nat) x y, xs[i]? = some x → ys[i]? = some y → y.leaves = x.leaves) :
    leavesAll ys = leavesAll xs := by
  rw [leavesAll_eq_flatMap, leavesAll_eq_flatMap, List.flatMap_def, List.flatMap_def]
  exact congrArg List.flatten
    (map_eq_map_of_getElem? length.symm fun i y x hy hx => each i x y hx hy)

/-- Entries with new values that have the same leaves have the same leaves. -/
theorem leavesEntries_zip {entries : List (String × Value)} {ws : List Value}
    (length : entries.length = ws.length)
    (each : ∀ (i : Nat) (x : String × Value) w, entries[i]? = some x → ws[i]? = some w →
      w.leaves = x.2.leaves) :
    leavesEntries ((entries.map Prod.fst).zip ws) = leavesEntries entries := by
  rw [leavesEntries_eq_flatMap, leavesEntries_eq_flatMap, List.flatMap_def, List.flatMap_def]
  refine congrArg List.flatten (map_eq_map_of_getElem? (by simp [length]) fun i y x hy hx => ?_)
  exact each i x y.2 hx (List.getElem?_zip_eq_some.mp hy).2

end Value

namespace Conversion

open Ty

variable {convert : Value → Ty → Except Fault Value}

/-- **Step.** A safe conversion that turns no primitive into another keeps the leaves. -/
theorem Yields.leaves_eq {s t : Ty} {v w : Value} (h : Yields convert .safe s t v w)
    (reaches : Reaches .safe s t) (hv : v.Inhabits s) (hs : s.Lawful) (ht : t.Lawful)
    (solid : s.hasDynamic = false) (solid' : t.hasDynamic = false) : w.leaves = v.leaves := by
  unfold Lawful at hs ht
  induction h with
  | null | unknown | keep => rfl
  | pass => cases solid'
  | blankNull | blankUnknown | later => cases solid
  | @primitive p q v w _ _ converted =>
    obtain rfl : p = q := by simpa [widens] using reaches.careful rfl
    rw [Value.toPrimitive_self hv.ty] at converted
    cases converted
    rfl
  | emptySequence | emptyMap | emptyTuple | emptyObject => rfl
  | @sequence k l m s t own e items ws vs nonempty length each settles ih =>
    obtain ⟨rfl, rfl⟩ : m = k ∧ own = s := by simpa [Value.ty] using hv.ty
    have hs' := (throughout_sequence.mp hs).2
    obtain ⟨permitted, element⟩ := reaches.of_sequence hs'
    obtain ⟨-, rfl⟩ := settles.eq_of_solid solid'
    have hitem : ∀ x ∈ items, x.Inhabits own := fun x hx =>
      hv.member hx (hv.wellFormed.here.1 own rfl x hx)
    have kinds : m = .list → l = .list := by
      rintro rfl
      exact permitted.elim Eq.symm (list_of_convertible · rfl)
    rw [Value.collect_of_embeds hv.wellFormed kinds length fun i x w hx hw =>
      (each i x w hx hw).embeds element.converts (hitem x (List.mem_of_getElem? hx)) hs' solid
        solid']
    exact Value.leavesAll_eq_of_getElem? length fun i x w hx hw =>
      ih i x w hx hw element (hitem x (List.mem_of_getElem? hx)) hs' (throughout_sequence.mp ht).2
        solid solid'
  | @map s t own e entries ws vs nonempty length each settles ih =>
    obtain rfl : own = s := by simpa [Value.ty] using hv.ty
    have hs' := (throughout_map.mp hs).2
    obtain ⟨-, rfl⟩ := settles.eq_of_solid solid'
    refine Value.leavesEntries_zip length fun i x w hx hw => ?_
    have hmem : x.2 ∈ (Value.map own entries).members :=
      List.mem_map_of_mem (List.mem_of_getElem? hx)
    exact ih i x w hx hw (reaches.of_map hs')
      (hv.member hmem (hv.wellFormed.here.1 own rfl x.2 hmem)) hs' (throughout_map.mp ht).2 solid
      solid'
  | @positions l ss t u e items ws vs nonempty elects arity length each settles ih =>
    obtain rfl := elects.eq_of_solid solid'
    obtain ⟨-, rfl⟩ := settles.eq_of_solid solid'
    have hu : u ≠ .dynamic := (hasDynamic_eq_false_iff (t := u)).mp solid' |>.1
    obtain ⟨permitted, parts⟩ := reaches.of_positions hu
    obtain rfl := list_of_convertible permitted rfl
    obtain ⟨_, ⟨⟩, -, hitems⟩ := hv.positions rfl
    refine Value.leavesAll_eq_of_getElem? length fun i x w hx hw => ?_
    obtain ⟨s, hsi⟩ := exists_getElem?_of_length arity hx
    have hmem := List.mem_of_getElem? hsi
    exact ih i s x w hsi hx hw (parts s hmem) (hitems i s x hsi hx)
      ((throughout_tuple.mp hs).2 s hmem) (throughout_sequence.mp ht).2
      ((hasDynamic_eq_false_iff.mp solid).2 s hmem) solid'
  | @gather as t u e attributes ws vs nonempty elects names length each settles ih =>
    obtain rfl := elects.eq_of_solid solid'
    obtain ⟨-, rfl⟩ := settles.eq_of_solid solid'
    have hu : u ≠ .dynamic := (hasDynamic_eq_false_iff (t := u)).mp solid' |>.1
    obtain ⟨_, ⟨⟩, -, -, hfields, -⟩ := hv.fields rfl
    refine Value.leavesEntries_zip length fun i x w hx hw => ?_
    obtain ⟨a, ha, -⟩ := Named.exists_getElem? names hx
    have hmem := List.mem_of_getElem? ha
    exact ih i a x w ha hx hw (reaches.of_gather hu a hmem) (hfields i a x ha hx)
      ((throughout_object.mp hs).2 a hmem) (throughout_map.mp ht).2
      ((hasDynamic_eq_false_iff.mp solid).2 _ (List.mem_map_of_mem hmem)) solid'
  | @tuple ss ts items ws arity source length each ih =>
    obtain ⟨-, parts⟩ := reaches.of_tuple (throughout_tuple.mp hs).2
    obtain ⟨_, ⟨⟩, -, hitems⟩ := hv.positions rfl
    refine Value.leavesAll_eq_of_getElem? length fun i x w hx hw => ?_
    obtain ⟨s, hsi⟩ := exists_getElem?_of_length source hx
    obtain ⟨t, hti⟩ := exists_getElem?_of_length arity.symm hsi
    have hmem := List.mem_of_getElem? hsi
    have hmem' := List.mem_of_getElem? hti
    exact ih i s t x w hsi hti hx hw (parts i s t hsi hti) (hitems i s x hsi hx)
      ((throughout_tuple.mp hs).2 s hmem) ((throughout_tuple.mp ht).2 t hmem')
      ((hasDynamic_eq_false_iff.mp solid).2 s hmem) ((hasDynamic_eq_false_iff.mp solid').2 t hmem')
  | @object as bs attributes filled names known targets found missing ih =>
    obtain ⟨-, parts⟩ := reaches.of_object hs
    obtain ⟨_, ⟨⟩, hasc, -, -, hfields⟩ := hv.fields rfl
    have hfilled : Named.Ascending filled := Lawful.ascending_of_names ht targets
    rw [Value.leaves, Value.leaves, Value.leavesEntries_eq_flatMap, Value.leavesEntries_eq_flatMap]
    refine Named.flatMap_eq_of_names hasc hfilled (fun x hx => ?_) (fun y hy x hx => ?_)
      fun y hy hnone => ?_
    · rw [Named.contains_iff, targets, ← Named.contains_iff]
      exact Named.contains_of_names names known x hx
    · -- the attribute of that name in the source and in the target
      obtain ⟨i, hyi⟩ := List.getElem?_of_mem hy
      obtain ⟨b, hb, hname⟩ := Named.exists_getElem? targets.symm hyi
      rw [← hname] at hx
      obtain ⟨a, ha⟩ := Named.exists_find? names hx
      obtain ⟨hamem, haname⟩ := Named.mem_of_find? ha
      have hbmem := List.mem_of_getElem? hb
      have hbfind : Named.find? a.name bs = some b := by
        rw [show a.name = b.name from haname]
        exact Named.find?_of_mem (Lawful.ascending ht) hbmem
      exact ih i b a x y hb hyi ha hx (parts a hamem b hbfind ha) (hfields _ a x ha hx)
        ((throughout_object.mp hs).2 a hamem) ((throughout_object.mp ht).2 b hbmem)
        ((hasDynamic_eq_false_iff.mp solid).2 _ (List.mem_map_of_mem hamem))
        ((hasDynamic_eq_false_iff.mp solid').2 _ (List.mem_map_of_mem hbmem))
    · obtain ⟨i, hyi⟩ := List.getElem?_of_mem hy
      obtain ⟨b, hb, hname⟩ := Named.exists_getElem? targets.symm hyi
      rw [← hname] at hnone
      rw [(missing i b y hb hyi hnone).2]
      rfl
  | select permitted => cases permitted

end Conversion

/-- **Safe unification touches no data.** The conversions that come with a safely found common type
keep the texts, numbers and truth values of every value, all of them and in their order. -/
theorem unify_keeps_leaves {ts : List Ty} {u s : Ty} {cs : List Conversion} {c : Conversion}
    {i : Nat} {v w : Value} (lawful : ∀ t ∈ ts, t.Lawful)
    (solid : ∀ t ∈ ts, t.hasDynamic = false)
    (h : Ty.unifyWithConversions ts .safe = .ok (u, cs)) (hs : ts[i]? = some s)
    (hc : cs[i]? = some c) (hv : v.Inhabits s) (unmarked : v.Unmarked) (hw : c.apply v = .ok w) :
    w.leaves = v.leaves := by
  obtain ⟨hu, hcs⟩ := Ty.unifyWithConversions_eq_ok h
  rcases (forall₂_iff_getElem?.mp hcs).2 i s c hs hc with ⟨-, rfl⟩ | hbetween
  · cases hw
    rfl
  · have hmem := List.mem_of_getElem? hs
    have common := Ty.common_of_unify? hu
    have yields := Conversion.yields_of_apply (Conversion.plan_of_between? hbetween)
      (hv.wellFormed.sound unmarked hv.lawful) (hv.ty ▸ Ty.conforms_refl _) hw
    exact yields.leaves_eq (common.reaches hmem (lawful s hmem)) hv (lawful s hmem)
      (Ty.Throughout.common Ty.stable_lawful common lawful) (solid s hmem) (common.solid solid)

/-- A set of objects meets a list of objects with one more attribute, which is optional. The set
becomes a list, the tuples in it become lists and the new attribute is null; the numbers stay. -/
theorem unify_keeps_leaves_set_and_list :
    let element : Ty := .object [⟨"b", false, .tuple [.number, .number]⟩]
    let target : Ty := .object [⟨"a", true, .bool⟩, ⟨"b", false, .list .number⟩]
    let ts : List Ty := [.set element, .list target]
    let number : Conversion := .covering .number .identity
    let c : Conversion := .covering (.list target.stripped) (.eachItem .list
      (.covering target.stripped (.object [⟨⟨"a", true, .bool⟩, .deferred .bool⟩,
        ⟨⟨"b", false, .list .number⟩, .covering (.list .number)
          (.positions .list [number, number] .number)⟩])) target)
    let v : Value := .set element [.object [("b", .tuple [.number ⟨2, 0⟩, .number ⟨1, 0⟩])],
      .object [("b", .tuple [.number ⟨1, 0⟩, .number ⟨10, 1⟩])]]
    let w : Value := .list target.stripped
      [.object [("a", .null .bool), ("b", .list .number [.number ⟨2, 0⟩, .number ⟨1, 0⟩])],
        .object [("a", .null .bool), ("b", .list .number [.number ⟨1, 0⟩, .number ⟨10, 1⟩])]]
    (∀ t ∈ ts, t.Lawful) ∧ (∀ t ∈ ts, t.hasDynamic = false) ∧
      Ty.unifyWithConversions ts .safe = .ok (.list target, [c, .identity]) ∧
      v.Inhabits (.set element) ∧ v.Unmarked ∧ c.apply v = .ok w ∧ w.leaves = v.leaves := by
  intro element target ts number c v w
  have h : Ty.unifyWithConversions ts .safe = .ok (.list target, [c, .identity]) := by cbv
  have hv : v.Inhabits (.set element) := by decide +kernel
  have hw : c.apply v = .ok w := by cbv
  exact ⟨by decide, by decide, h, hv, by decide, hw, unify_keeps_leaves (i := 0) (by decide)
    (by decide) h rfl rfl hv (by decide) hw⟩

end Retype
