import Retype.Proofs.Conversion.Faults
import Retype.Proofs.Conversion.Levels
import Retype.Proofs.Value.Dedup

/-!
# Sets are made of their items

A set is made in two ways: from items of its element type (`Value.sequence?`), and by a conversion
(`Conversion.applyWith`) that converts the members of a list, set or tuple first. Both end in
`Value.dedup`, so both have its laws.

* The order in which the items are given does not count. Members that are converted one by one
  fail in any order or in none, and otherwise match; so do the sets made of them, as long as their
  element type leaves nothing to settle (`Conversion.concur_eachItem`). Members that are different
  may become duplicates on the way.
* What a set is made of can be told from outside: its items are what is kept of the members, each
  of them converted (`Conversion.made_of_apply`).
* An item that is dropped is a duplicate of one that stays, but it need not be fully known: only
  an item that is itself unknown is sure to be kept (`Value.careful_iff`).
-/

namespace Retype

theorem isEmpty_eq_of_length {α β : Type} {xs : List α} {ys : List β}
    (h : xs.length = ys.length) : xs.isEmpty = ys.isEmpty := by
  rw [Bool.eq_iff_iff, List.isEmpty_iff_length_eq_zero, List.isEmpty_iff_length_eq_zero, h]

namespace Conversion

section SideBySide

variable {f g : Value → Ty → Except Fault Value} {R : Value → Value → Prop}

/-! ### Two runs on the members of collections -/

/-- A plan makes duplicates of the two values, or fails for both. -/
abbrev Alongside (f g : Value → Ty → Except Fault Value) (c : Conversion) (x y : Value) : Prop :=
  Concur (fun v w => v.duplicates w = true) (applyWith f c x) (applyWith g c y)

/-- A part is converted at its step. -/
theorem concur_part {step step' : Step} {x y : Except Fault Value} (h : Concur R x y) :
    Concur (fun p q => R p.2 q.2) ((locate step x).map fun v => (step, v))
      ((locate step' y).map fun v => (step', v)) :=
  h.mapError.map fun _ _ related => related

theorem concur_eachPart {h k : Value → Except Fault Value} {parts parts' : List (Step × Value)}
    (each : Matched (fun x y => Concur R (h x) (k y)) (parts.map Prod.snd)
      (parts'.map Prod.snd)) :
    Concur (fun done done' => Matched R (done.map Prod.snd) (done'.map Prod.snd))
      (eachPart h parts) (eachPart k parts') := by
  have runs : Concur (Matched fun p q => R p.2 q.2) (eachPart h parts) (eachPart k parts') :=
    .mapM_matched ((matched_map_iff.mp each).imp fun _ _ _ _ => concur_part)
  exact runs.imp fun _ _ => matched_map_iff.mpr

/-- With nothing to settle, collections concur as their parts do. -/
theorem concur_settle {S : List Value → List Value → Prop} {t : Ty}
    {parts parts' : Except Fault (List (Step × Value))} {build build' : Ty × List Value → Value}
    (solid : t.hasDynamic = false)
    (h : Concur (fun done done' => S (done.map Prod.snd) (done'.map Prod.snd)) parts parts')
    (hbuild : ∀ ws ws', S ws ws' → R (build (t.stripped, ws)) (build' (t.stripped, ws'))) :
    Concur R (parts.bind fun done => (settle f t done).map build)
      (parts'.bind fun done => (settle g t done).map build') := by
  refine h.bind fun done done' related => ?_
  rw [settle_of_solid solid, settle_of_solid solid]
  exact .succeed (hbuild _ _ related)

/-- **Sets from items.** Matching items whose conversions concur are made into sets that are
duplicates. -/
theorem concur_eachItem {k : SequenceKind} {c : Conversion} {t own : Ty} {xs ys : List Value}
    (solid : t.hasDynamic = false) (each : Matched (Alongside f g c) xs ys) :
    Concur (fun v w => v.duplicates w = true ∧ ∃ e items, v = .set e items)
      (applyWith f (.eachItem .set c t) (.sequence k own xs))
      (applyWith g (.eachItem .set c t) (.sequence k own ys)) := by
  rw [applyWith, applyWith, ← isEmpty_eq_of_length each.length_eq]
  split
  · refine Concur.map (R := Eq) (.refl (fun _ => rfl) (t.refine own)) ?_
    rintro e _ rfl
    exact ⟨Value.duplicates_refl _, e.stripped, [], rfl⟩
  · rw [← map_snd_indexed xs, ← map_snd_indexed ys] at each
    refine concur_settle solid (concur_eachPart each) fun ws ws' hws => ?_
    exact ⟨Value.duplicates_collect hws, t.stripped, _, rfl⟩

end SideBySide

/-! ### What a conversion makes a set of -/

/-- What becomes of a member on its way into a collection: a conversion that was found is applied
to it, and the result may be converted once more, to the element type. -/
def Carried (element : Ty) (x w : Value) : Prop :=
  ∃ s t safety c y, between? s t safety = some c ∧ c.apply x = .ok y ∧
    (w = y ∨ y.convert element = .ok w)

/-- What a conversion into a set makes of a value. -/
inductive Made (v : Value) : Value → Prop
  | kept : Made v v
  | blank {w : Value} (source : v.isConcrete = false) (target : w.isConcrete = false) : Made v w
  | collected {e : Ty} {ws : List Value} (each : List.Forall₂ (Carried e) v.members ws) :
      Made v (.set e (Value.dedup ws))

theorem carried_of_settles {declared e : Ty} {xs ys ws : List Value}
    (each : List.Forall₂ (fun x y => ∃ s t safety c, between? s t safety = some c ∧
      c.apply x = .ok y) xs ys)
    (settles : Settles Value.convert declared ys e ws) : List.Forall₂ (Carried e) xs ws := by
  cases settles with
  | fixed | alike =>
    refine each.imp fun x y happly => ?_
    obtain ⟨s, t, safety, c, hc, hy⟩ := happly
    exact ⟨s, t, safety, c, y, hc, hy, .inl rfl⟩
  | again _ _ _ again =>
    refine forall₂_trans each again fun x _ y w happly hw => ?_
    obtain ⟨s, t, safety, c, hc, hy⟩ := happly
    exact ⟨s, t, safety, c, y, hc, hy, .inr hw⟩

theorem made_of_empty {v : Value} (h : v.members = []) (e : Ty) : Made v (.set e []) := by
  have none : List.Forall₂ (Carried e) v.members [] := by
    rw [h]
    exact .nil
  exact .collected none

/-- Converted members are settled on an element type, and what is kept of them is the set. -/
theorem made_of_settle {v : Value} {declared e : Ty} {done : List (Step × Value)}
    {ws : List Value} (nonempty : v.members ≠ [])
    (each : List.Forall₂ (fun x y => ∃ s t safety c, between? s t safety = some c ∧
      c.apply x = .ok y) v.members (done.map Prod.snd))
    (h : settle Value.convert declared done = .ok (e, ws)) : Made v (.set e (Value.dedup ws)) :=
  have hdone := ne_nil_of_length each.length_eq nonempty
  .collected (carried_of_settles each (settles_of_settle hdone h))

theorem made_of_covering {t : Ty} {inner : Conversion} {v w : Value}
    (h : (Conversion.covering t inner).apply v = .ok w)
    (hinner : inner.apply v = .ok w → Made v w) : Made v w := by
  cases v with
  | null i | unknown i =>
    obtain ⟨r, -, rfl⟩ := map_eq_ok_iff.mp h
    exact .blank rfl rfl
  | _ => exact hinner h

theorem made_of_rule {safety : Safety} {s t : Ty} {c : Conversion} {v w : Value}
    (rule : Rule safety s (.set t) c) (hs : s ≠ .dynamic) (h : c.apply v = .ok w) : Made v w := by
  cases rule with
  | same =>
    refine made_of_covering h fun hin => ?_
    cases hin
    exact .kept
  | later => exact absurd rfl hs
  | @sequence k l s t c permitted element =>
    refine made_of_covering h fun hin => ?_
    rw [apply] at hin
    unfold applyWith at hin
    split at hin
    · rename_i m own items
      split at hin
      · rename_i hempty
        obtain ⟨e, -, rfl⟩ := map_eq_ok_iff.mp hin
        obtain rfl := List.isEmpty_iff.mp hempty
        exact made_of_empty rfl e.stripped
      · rename_i hne
        obtain ⟨done, hdone, hin⟩ := bind_eq_ok_iff.mp hin
        obtain ⟨⟨e, ws⟩, hsettle, rfl⟩ := map_eq_ok_iff.mp hin
        have heach := forall₂_of_eachPart hdone
        rw [map_snd_indexed] at heach
        refine made_of_settle (by simpa [Value.members] using hne) (heach.imp fun x y hy => ?_)
          hsettle
        exact ⟨s, t, safety, c, element, hy⟩
    · cases hin
  | @positions l ss t u cs permitted elects length each =>
    refine made_of_covering h fun hin => ?_
    rw [apply] at hin
    unfold applyWith at hin
    split at hin
    · rename_i items
      split at hin
      · rename_i hlen
        split at hin
        · rename_i hempty
          cases hin
          obtain rfl := List.isEmpty_iff.mp hempty
          exact made_of_empty rfl u.stripped
        · rename_i hne
          obtain ⟨done, hdone, hin⟩ := bind_eq_ok_iff.mp hin
          obtain ⟨⟨e, ws⟩, hsettle, rfl⟩ := map_eq_ok_iff.mp hin
          obtain ⟨hdlen, heach⟩ := getElem?_of_applyAll hlen hdone
          refine made_of_settle (by simpa [Value.members] using hne)
            (forall₂_iff_getElem?.mpr ⟨hdlen, fun i x y hx hy => ?_⟩) hsettle
          obtain ⟨c, hc⟩ := exists_getElem?_of_length hlen.symm hx
          obtain ⟨s, hs⟩ := exists_getElem?_of_length length hc
          exact ⟨s, u, safety, c, each i s c hs hc, heach i c x y hc hx hy⟩
      · cases hin
    · cases hin

/-- **Inversion.** A conversion into a set keeps a set of that type as it is, and otherwise makes
the set of what is kept of the converted members. -/
theorem made_of_apply {safety : Safety} {s t : Ty} {c : Conversion} {v w : Value}
    (hc : between? s (.set t) safety = some c) (h : c.apply v = .ok w) : Made v w := by
  by_cases hs : s = .dynamic
  · subst hs
    cases rule_of_between? hc with
    | later =>
      rw [apply] at h
      unfold applyWith at h
      split at h
      · cases h
        exact .blank rfl rfl
      · cases h
        exact .blank rfl rfl
      · -- data is converted from its own type, which is not open
        rename_i hnull hunknown
        rw [Value.convert_eq] at h
        split at h
        · cases h
          exact .kept
        · split at h
          · rename_i c hc
            exact made_of_rule (rule_of_between? hc) (ty_ne_dynamic hnull hunknown) h
          · cases h
  · exact made_of_rule (rule_of_between? hc) hs h

theorem made_of_convert {t : Ty} {v w : Value} (h : v.convert (.set t) = .ok w) : Made v w := by
  rw [Value.convert_eq] at h
  split at h
  · cases h
    exact .kept
  · split at h
    · rename_i c hc
      exact made_of_apply hc h
    · cases h

end Conversion

namespace Value

/-! ### The order of the items -/

/-- Items of the element type are refused only if that type has a placeholder. -/
theorem sequence?_of_uniform {k : SequenceKind} {e : Ty} {xs : List Value}
    (h : ∀ x ∈ xs, x.ty = e) :
    sequence? k e xs =
      if e.hasDynamic then .error (.of (.inconsistent (.placeholderElement e)))
      else .ok (collect k e xs) := by
  have hnone : ((indexed xs).find? fun part => part.2.ty != e) = none := by
    refine List.find?_eq_none.mpr fun part hpart => ?_
    simpa using h _ (Conversion.mem_of_mem_indexed hpart)
  rw [sequence?, checkElements, hnone]
  split <;> rfl

theorem eq_set_of_sequence? {e : Ty} {xs : List Value} {v : Value}
    (h : sequence? .set e xs = .ok v) : v = .set e (dedup xs) := by
  obtain ⟨_, -, h⟩ := bind_eq_ok_iff.mp h
  cases h
  rfl

/-- Among items with proper sets, to be kept is to be unknown or different from those before. -/
theorem keeps_eq_same {xs : List Value} {x : Value} (hxs : ∀ y ∈ xs, y.ProperSets)
    (hx : x.ProperSets) : keeps xs x = (x.isUnknown || !xs.any x.same) := by
  rw [keeps]
  congr 2
  rw [Bool.eq_iff_iff, List.any_eq_true, List.any_eq_true]
  exact exists_congr fun y => and_congr_right fun hy => by rw [duplicates_eq_same hx (hxs y hy)]

/-- Items in another order are made into the same set. -/
theorem concur_convert_list {e t : Ty} {xs ys : List Value} (solid : t.hasDynamic = false)
    (perm : xs.Perm ys) :
    Concur (fun v w => v.duplicates w = true ∧ ∃ d items, v = .set d items)
      ((Value.list e xs).convert (.set t)) ((Value.list e ys).convert (.set t)) := by
  have hne : ∀ items, (Value.list e items).ty ≠ .set t := fun _ => nofun
  rw [convert_eq, convert_eq, if_neg (hne xs), if_neg (hne ys)]
  rw [show (Value.list e ys).ty = (Value.list e xs).ty from rfl]
  split
  · rename_i c hc
    cases Conversion.rule_of_between? hc with
    | @sequence k l s t c permitted element =>
      have each : ∀ x, Conversion.Alongside convert convert c x x := fun x =>
        .refl duplicates_refl _
      exact Conversion.concur_eachItem (k := .list) solid (.of_perm each perm)
  · exact .fail

/-- **Sets depend on what is in them.** Of well-formed items of one type a set keeps, in their
order, all that are unknown and of equal ones the first, each at its position; what is kept is not
thinned out again; and the same items in another order give the same set or the same fault, the
latter exactly for an element type with a placeholder. So lists of the same items, however they are
ordered, become the same set of a type without placeholders, or neither of them does. -/
theorem sets_depend_on_items :
    (∀ (e : Ty) (xs : List Value), (∀ x ∈ xs, x.WellFormed ∧ x.ty = e) →
      (dedup xs).Sublist xs ∧ (dedup xs).filter isUnknown = xs.filter isUnknown ∧
      (∀ x ∈ xs, x.isUnknown = false → (dedup xs).filter x.same = (xs.find? x.same).toList) ∧
      dedup xs = (xs.zipIdx.filter fun p =>
        p.1.isUnknown || !(xs.take p.2).any p.1.same).map Prod.fst ∧
      dedup (dedup xs) = dedup xs ∧
      ∀ ys, xs.Perm ys →
        (e.hasDynamic = true ∧
          ∃ fault, sequence? .set e xs = .error fault ∧ sequence? .set e ys = .error fault) ∨
        (e.hasDynamic = false ∧
          ∃ v w, sequence? .set e xs = .ok v ∧ sequence? .set e ys = .ok w ∧ v.same w = true)) ∧
    ∀ (e t : Ty) (xs ys : List Value), t.hasDynamic = false → xs.Perm ys →
      Concur (fun v w => v.same w = true ∧ ∃ d items, v = .set d items)
        ((Value.list e xs).convert (.set t)) ((Value.list e ys).convert (.set t)) := by
  refine ⟨fun e xs hxs => ?_, fun e t xs ys solid perm => ?_⟩
  · have proper : ∀ x ∈ xs, x.ProperSets := fun x hx => (hxs x hx).1.properSets
    refine ⟨dedup_sublist xs, filter_isUnknown_dedup xs, fun x hx hknown => ?_, ?_, dedup_dedup xs,
      fun ys perm => ?_⟩
    · have agree : ∀ y ∈ xs, x.same y = x.duplicates y := fun y hy =>
        (duplicates_eq_same (proper x hx) (proper y hy)).symm
      rw [List.filter_congr fun y hy => agree y (mem_of_mem_dedup hy), ← List.head?_filter,
        List.filter_congr agree, List.head?_filter, filter_duplicates_dedup hknown]
    · rw [dedup_eq_filter]
      congr 1
      refine List.filter_congr fun p hp => ?_
      exact keeps_eq_same (fun y hy => proper y (List.mem_of_mem_take hy))
        (proper p.1 (List.fst_mem_of_mem_zipIdx hp))
    · have matched : Matched (fun x y => x.duplicates y = true) xs ys :=
        .of_perm duplicates_refl perm
      have hsets := (duplicates_iff.mp (duplicates_collect (e := e) matched)).1
      rw [sequence?_of_uniform fun x hx => (hxs x hx).2,
        sequence?_of_uniform fun y hy => (hxs y (perm.mem_iff.mpr hy)).2]
      cases e.hasDynamic with
      | true => exact .inl ⟨rfl, _, rfl, rfl⟩
      | false => exact .inr ⟨rfl, _, _, rfl, rfl, hsets⟩
  · exact (concur_convert_list solid perm).imp fun v w h => ⟨(duplicates_iff.mp h.1).1, h.2⟩

/-- Sets of texts, in two orders: two of them are equal, two more become equal as sets of numbers,
and the unknown ones stay. -/
theorem sets_depend_on_items_sets_of_texts :
    let e : Ty := .set .string
    let xs : List Value := [.set .string [.string "1"], .unknown e,
      .set .string [.string "1", .string "2"], .set .string [.string "2", .string "1"],
      .set .string [.string "1.0"], .unknown e]
    (∀ x ∈ xs, x.WellFormed ∧ x.ty = e) ∧ xs.Perm xs.reverse ∧
      (Ty.set .number).hasDynamic = false ∧ (dedup xs).length = 5 ∧
      (dedup xs).filter isUnknown = [.unknown e, .unknown e] ∧
      (∃ v w, sequence? .set e xs = .ok v ∧ sequence? .set e xs.reverse = .ok w ∧
        v.same w = true) ∧
      Concur (fun v w => v.same w = true ∧ ∃ d items, v = .set d items)
        ((Value.list e xs).convert (.set (.set .number)))
        ((Value.list e xs.reverse).convert (.set (.set .number))) := by
  intro e xs
  have hxs : ∀ x ∈ xs, x.WellFormed ∧ x.ty = e := by decide +kernel
  have perm : xs.Perm xs.reverse := (List.reverse_perm xs).symm
  obtain ⟨-, hunknown, -, positions, -, outcome⟩ := sets_depend_on_items.1 e xs hxs
  have hlength : (dedup xs).length = 5 := by
    rw [positions]
    decide +kernel
  refine ⟨hxs, perm, rfl, hlength, hunknown, ?_,
    sets_depend_on_items.2 e (.set .number) xs xs.reverse rfl perm⟩
  rcases outcome xs.reverse perm with ⟨hopen, -⟩ | ⟨-, built⟩
  · cases hopen
  · exact built

/-! ### The items that are dropped -/

/-- Nothing inside the value is unknown, nor is the value itself. -/
def Determined (v : Value) : Prop := v.Everywhere fun v => v.isUnknown = false

instance (v : Value) : Decidable v.Determined :=
  inferInstanceAs (Decidable (v.Everywhere fun v => v.isUnknown = false))

/-- Only items in which nothing is unknown are dropped. -/
def Careful (xs : List Value) : Prop :=
  ∀ (i : Nat) x, xs[i]? = some x → Dropped (xs.take i) x → x.Determined

theorem careful_iff {xs : List Value} :
    Careful xs ↔ xs.Pairwise fun x y =>
      x.isUnknown = false → x.duplicates y = true → y.Determined := by
  rw [List.pairwise_iff_getElem]
  constructor
  · intro h i j hi hj hij hknown hdup
    refine h j xs[j] (List.getElem?_eq_getElem hj) (dropped_iff.mpr ⟨?_, xs[i], ?_, ?_⟩)
    · rwa [← isUnknown_eq_of_duplicates hdup]
    · exact List.mem_take_iff_getElem.mpr ⟨i, by omega, rfl⟩
    · exact duplicates_symm hdup
  · intro h j y hy hdropped
    obtain ⟨hj, rfl⟩ := List.getElem?_eq_some_iff.mp hy
    obtain ⟨hknown, x, hx, hdup⟩ := dropped_iff.mp hdropped
    obtain ⟨i, hi, rfl⟩ := List.mem_take_iff_getElem.mp hx
    refine h i j (by omega) hj (by omega) ?_ (duplicates_symm hdup)
    rwa [← isUnknown_eq_of_duplicates hdup]

/-- **Dropped items.** An item is dropped only if it is not itself unknown and an equal one before
it is kept. That nothing at all is unknown in the dropped items is so exactly if nothing is unknown
in an item that is a duplicate of a known one before it. What is built as a set, or converted into
one, has the items that are kept of those given, or of the converted members. -/
theorem dropped_items_have_equals (xs : List Value) :
    (∀ (i : Nat) x, xs[i]? = some x → Dropped (xs.take i) x →
      x.isUnknown = false ∧ dedup (xs.take i) <+: dedup xs ∧
        ∃ y ∈ dedup (xs.take i), y.same x = true) ∧
    (Careful xs ↔ xs.Pairwise fun x y =>
      x.isUnknown = false → x.duplicates y = true → y.Determined) ∧
    (∀ (e : Ty) (v : Value), sequence? .set e xs = .ok v → v = .set e (dedup xs)) ∧
    (∀ (safety : Safety) (s t : Ty) (c : Conversion) (v w : Value),
      Conversion.between? s (.set t) safety = some c → c.apply v = .ok w →
      Conversion.Made v w) ∧
    ∀ (t : Ty) (v w : Value), v.convert (.set t) = .ok w → Conversion.Made v w := by
  refine ⟨fun i x _ h => ?_, careful_iff, fun e v => eq_set_of_sequence?,
    fun safety s t c v w => Conversion.made_of_apply, fun t v w => Conversion.made_of_convert⟩
  obtain ⟨hknown, y, hy, hdup⟩ := h.exists_kept
  refine ⟨hknown, ?_, y, hy, (duplicates_iff.mp hdup).1⟩
  have hprefix := dedup_prefix (xs.take i) (xs.drop i)
  rwa [List.take_append_drop] at hprefix

/-- A number in another form is dropped, and the set made of a list of both has one item. -/
theorem dropped_items_have_equals_numbers :
    let x : Value := .number ⟨1, 0⟩
    let y : Value := .number ⟨10, 1⟩
    Dropped [x] y ∧ (∃ z ∈ dedup [x], z.same y = true) ∧ Careful [x, y] ∧
      (Value.list .number [x, y]).convert (.set .number) = .ok (.set .number [x]) ∧
      Conversion.Made (.list .number [x, y]) (.set .number [x]) := by
  intro x y
  have hdropped : Dropped [x] y :=
    dropped_iff.mpr ⟨rfl, x, List.mem_singleton_self x, by decide +kernel⟩
  have hfound : Conversion.between? (.list .number) (.set .number) .risky =
      some (.covering (.set .number) (.eachItem .set (.covering .number .identity) .number)) := by
    cbv
  have hconvert : (Value.list .number [x, y]).convert (.set .number) = .ok (.set .number [x]) := by
    have hne : (Value.list .number [x, y]).ty ≠ .set .number := by decide
    rw [convert_of_between? hne hfound]
    exact congrArg (fun items => Except.ok (Value.set .number items)) hdropped
  have determined : [x, y].Pairwise fun x y =>
      x.isUnknown = false → x.duplicates y = true → y.Determined :=
    .cons (List.forall_mem_singleton.mpr fun _ _ => by decide +kernel) (List.pairwise_singleton _ y)
  obtain ⟨kept, careful, -, -, made⟩ := dropped_items_have_equals [x, y]
  exact ⟨hdropped, (kept 1 y rfl hdropped).2.2, careful.mpr determined, hconvert,
    made .number _ _ hconvert⟩

/-- Two tuples that both hold an unknown text: their data may still differ, and yet the second one
is dropped, from the items of a set as well as on the way into one. -/
theorem dropped_tuple_with_unknown :
    let x : Value := .tuple [.unknown .string]
    Dropped [x] x ∧ ¬x.Determined ∧
      sequence? .set (.tuple [.string]) [x, x] = .ok (.set (.tuple [.string]) [x]) ∧
      (Value.tuple [x, x]).convert (.set (.tuple [.string])) =
        .ok (.set (.tuple [.string]) [x]) := by
  intro x
  have hdropped : Dropped [x] x :=
    dropped_iff.mpr ⟨rfl, x, List.mem_singleton_self x, duplicates_refl x⟩
  exact ⟨hdropped, by decide +kernel, by cbv, by cbv⟩

end Value

end Retype
