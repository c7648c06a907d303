import Retype.Proofs.Decimal
import Retype.Proofs.Homogeneity
import Retype.Value.Primitive

/-!
# Values that hold all that others do

`Value.Embeds v w` says that `w` holds all the data of `v`, perhaps in another form: a number or a
truth value as its text, a set as a list, a tuple as a list, an object as a map or as an object
with further attributes. Items stay at their positions and attributes under their names.

From `w` and the type of `v` one can tell `v` again, up to equality (`Embeds.same_of_same`), and
if the types are the same then the values are equal (`Embeds.same_of_ty_eq`).
-/

namespace Retype

/-! ### Sets without duplicates -/

namespace Value

theorem dedupFrom_eq_self {seen items : List Value}
    (hseen : ∀ x ∈ items, x.isUnknown = false → ∀ y ∈ seen, x.duplicates y = false)
    (h : items.Pairwise fun x y =>
      x.isUnknown = false → y.isUnknown = false → y.duplicates x = false) :
    dedupFrom seen items = items := by
  induction items generalizing seen with
  | nil => rfl
  | cons x items ih =>
    obtain ⟨hfirst, hrest⟩ := List.pairwise_cons.mp h
    have hseen' : ∀ y ∈ items, y.isUnknown = false → ∀ z ∈ seen, y.duplicates z = false :=
      fun y hy => hseen y (List.mem_cons_of_mem _ hy)
    rw [dedupFrom]
    split
    · rw [ih hseen' hrest]
    · rename_i hknown
      have hknown : x.isUnknown = false := by simpa using hknown
      rw [if_neg, ih (fun y hy hy' z hz => ?_) hrest]
      · rcases List.mem_cons.mp hz with rfl | hz
        · exact hfirst y hy hknown hy'
        · exact hseen' y hy hy' z hz
      · simpa using hseen x List.mem_cons_self hknown

/-- Items of which no two known ones are equal are all kept. -/
theorem collect_eq_sequence {k : SequenceKind} {e : Ty} {items : List Value}
    (h : k = .set → items.Pairwise fun x y =>
      x.isUnknown = false → y.isUnknown = false → same x y = false) :
    collect k e items = .sequence k e items := by
  cases k with
  | list => rfl
  | set =>
    rw [collect, dedup, dedupFrom_eq_self (by simp)]
    refine (h rfl).imp @fun x y hxy hx hy => ?_
    have hyx : same y x = false := by
      by_contra hsame
      have := same_symm (by simpa using hsame)
      rw [hxy hx hy] at this
      cases this
    simp [duplicates, hyx]

/-- The second value holds all the data of the first. -/
inductive Embeds : Value → Value → Prop
  | null {s t : Ty} : Embeds (.null s) (.null t)
  | unknown {s t : Ty} : Embeds (.unknown s) (.unknown t)
  | string {a : String} : Embeds (.string a) (.string a)
  | number {d : Decimal} : Embeds (.number d) (.number d)
  | bool {b : Bool} : Embeds (.bool b) (.bool b)
  | capsule {n : String} {i : Nat} : Embeds (.capsule n i) (.capsule n i)
  | numberText {d : Decimal} {a : String} (text : d.plain = a) : Embeds (.number d) (.string a)
  | boolText {b : Bool} {a : String} (text : Retype.boolText b = a) : Embeds (.bool b) (.string a)
  | sequence {k l : SequenceKind} {d e : Ty} {xs ys : List Value} (kinds : k = .list → l = .list)
      (length : xs.length = ys.length)
      (each : ∀ (i : Nat) x y, xs[i]? = some x → ys[i]? = some y → Embeds x y) :
      Embeds (.sequence k d xs) (.sequence l e ys)
  | map {d e : Ty} {xs ys : List (String × Value)} (names : Named.names xs = Named.names ys)
      (each : ∀ (i : Nat) (x y : String × Value), xs[i]? = some x → ys[i]? = some y →
        Embeds x.2 y.2) :
      Embeds (.map d xs) (.map e ys)
  | positions {e : Ty} {xs ys : List Value} (length : xs.length = ys.length)
      (each : ∀ (i : Nat) x y, xs[i]? = some x → ys[i]? = some y → Embeds x y) :
      Embeds (.tuple xs) (.list e ys)
  | gather {e : Ty} {xs ys : List (String × Value)} (names : Named.names xs = Named.names ys)
      (each : ∀ (i : Nat) (x y : String × Value), xs[i]? = some x → ys[i]? = some y →
        Embeds x.2 y.2) :
      Embeds (.object xs) (.map e ys)
  | tuple {xs ys : List Value} (length : xs.length = ys.length)
      (each : ∀ (i : Nat) x y, xs[i]? = some x → ys[i]? = some y → Embeds x y) :
      Embeds (.tuple xs) (.tuple ys)
  | object {xs ys : List (String × Value)} (present : ∀ x ∈ xs, Named.contains x.1 ys = true)
      (each : ∀ x ∈ xs, ∀ y, Named.find? x.1 ys = some y → Embeds x.2 y.2) :
      Embeds (.object xs) (.object ys)

theorem embeds_of_getElem? {xs : List Value} (h : ∀ x ∈ xs, x.Embeds x) (i : Nat) (x y : Value)
    (hx : xs[i]? = some x) (hy : xs[i]? = some y) : x.Embeds y := by
  obtain rfl : x = y := Option.some.inj (hx.symm.trans hy)
  exact h x (List.mem_of_getElem? hx)

/-- A value with its names in order holds its own data. -/
theorem embeds_refl {v : Value} (h : v.Lawful) : v.Embeds v := by
  induction v with
  | null t => exact .null
  | unknown t => exact .unknown
  | string a => exact .string
  | number d => exact .number
  | bool b => exact .bool
  | capsule n i => exact .capsule
  | sequence k e items ih =>
    exact .sequence id rfl (embeds_of_getElem? fun x hx => ih x hx (Everywhere.member h hx))
  | tuple items ih =>
    exact .tuple rfl (embeds_of_getElem? fun x hx => ih x hx (Everywhere.member h hx))
  | map e entries ih =>
    refine .map rfl fun i x y hx hy => ?_
    obtain rfl : x = y := Option.some.inj (hx.symm.trans hy)
    have hmem := List.mem_of_getElem? hx
    exact ih x hmem (Everywhere.member h (List.mem_map_of_mem hmem))
  | object attributes ih =>
    have hasc : Named.Ascending attributes := h.here.2
    refine .object (fun x hx => ?_) fun x hx y hy => ?_
    · exact Named.contains_iff.mpr (List.mem_map_of_mem hx)
    · obtain ⟨i, hi⟩ := List.getElem?_of_mem hx
      obtain rfl : x = y := Option.some.inj ((Named.find?_of_getElem? hasc hi).symm.trans hy)
      exact ih x hx (Everywhere.member h (List.mem_map_of_mem hx))

theorem Embeds.isUnknown_eq {v w : Value} (h : v.Embeds w) : v.isUnknown = w.isUnknown := by
  cases h <;> rfl

/-! ### Telling the first value by the second -/

theorem boolText_injective {b b' : Bool} (h : Retype.boolText b = Retype.boolText b') : b = b' := by
  cases b <;> cases b' <;> simp_all [Retype.boolText]

/-- Sets that match item by item are equal. -/
theorem alike_sequence {R : Value → Value → Prop} {k : SequenceKind} {e : Ty} {xs ys : List Value}
    (h : List.Forall₂ R xs ys) : Alike R (.sequence k e xs) (.sequence k e ys) := by
  cases k with
  | list => exact .list h
  | set =>
    refine .set h.length_eq (fun x hx => ?_) fun y hy => exists_of_mem_right h hy
    obtain ⟨y, hy, hxy⟩ := exists_of_mem_right h.flip hx
    exact ⟨y, hy, hxy⟩

/-- Entries that match name by name are found together. -/
theorem exists_find?_of_sameEntries {xs ys : List (String × Value)} {key : String}
    {x : String × Value}
    (h : List.Forall₂ (fun x y => x.1 = y.1 ∧ same x.2 y.2 = true) xs ys)
    (hx : Named.find? key xs = some x) :
    ∃ y, Named.find? key ys = some y ∧ same x.2 y.2 = true := by
  induction h with
  | nil => cases hx
  | @cons a b xs ys hab _ ih =>
    rw [Named.find?, List.find?_cons] at hx ⊢
    rw [show Named.name b = Named.name a from hab.1.symm]
    split at hx
    · cases hx
      exact ⟨b, by simp_all, hab.2⟩
    · obtain ⟨y, hy, hxy⟩ := ih hx
      exact ⟨y, by simp_all [Named.find?], hxy⟩

/-- Members at the same position of two tuples of one type have one type, and likewise for
objects. -/
theorem ty_eq_of_tuple {xs xs' : List Value} {i : Nat} {x x' : Value}
    (h : (Value.tuple xs).ty = (Value.tuple xs').ty) (hx : xs[i]? = some x)
    (hx' : xs'[i]? = some x') : x.ty = x'.ty := by
  rw [ty, ty, tyAll_eq_map, tyAll_eq_map, Ty.tuple.injEq] at h
  have hi := congrArg (·[i]?) h
  simpa [hx, hx'] using hi

theorem ty_eq_of_object {xs xs' : List (String × Value)} {i : Nat} {x x' : String × Value}
    (h : (Value.object xs).ty = (Value.object xs').ty) (hx : xs[i]? = some x)
    (hx' : xs'[i]? = some x') : x.1 = x'.1 ∧ x.2.ty = x'.2.ty := by
  rw [ty, ty, tyAttributes_eq_map, tyAttributes_eq_map, Ty.object.injEq] at h
  have hi := congrArg (·[i]?) h
  simpa [hx, hx'] using hi

theorem names_eq_of_object {xs xs' : List (String × Value)}
    (h : (Value.object xs).ty = (Value.object xs').ty) : Named.names xs = Named.names xs' :=
  (names_of_object h).trans (names_of_object rfl).symm

theorem length_eq_of_object {xs xs' : List (String × Value)}
    (h : (Value.object xs).ty = (Value.object xs').ty) : xs.length = xs'.length :=
  Named.length_eq_of_names (names_eq_of_object h)

/-- **Injectivity.** Values of one type that equal values hold are equal. -/
theorem Embeds.same_of_same {v v' w w' : Value} (h : v.Embeds w) (h' : v'.Embeds w')
    (hsame : same w w' = true) (hty : v.ty = v'.ty) (hv : v.WellFormed) (hv' : v'.WellFormed) :
    same v v' = true := by
  induction h generalizing v' w' with
  | null | unknown =>
    cases same_iff.mp hsame
    cases h'
    simpa [same, ty] using hty
  | string =>
    cases same_iff.mp hsame
    cases h' with
    | string => exact same_iff.mpr .string
    | numberText | boolText => cases hty
  | bool =>
    cases same_iff.mp hsame
    cases h'
    exact same_iff.mpr .bool
  | capsule =>
    cases same_iff.mp hsame
    cases h'
    exact same_iff.mpr .capsule
  | number =>
    cases same_iff.mp hsame with
    | number normal =>
      cases h'
      exact same_iff.mpr (.number normal)
  | numberText text =>
    cases same_iff.mp hsame
    cases h' with
    | numberText text' =>
      exact same_iff.mpr (.number (Decimal.normalize_eq_of_plain_eq (text.trans text'.symm)))
    | _ => cases hty
  | boolText text =>
    cases same_iff.mp hsame
    cases h' with
    | boolText text' =>
      rw [boolText_injective (text.trans text'.symm)]
      exact same_iff.mpr .bool
    | _ => cases hty
  | @sequence k l d e xs ys kinds length each ih =>
    obtain ⟨ys', rfl⟩ : ∃ ys', w' = .sequence l e ys' := by
      cases same_iff.mp hsame <;> exact ⟨_, rfl⟩
    cases h' with
    | positions => cases hty
    | @sequence k' _ d' _ xs' _ kinds' length' each' =>
      obtain ⟨rfl, rfl⟩ : k = k' ∧ d = d' := by simpa [ty] using hty
      have hitem : ∀ {i j : Nat} {x x' y y' : Value}, xs[i]? = some x → ys[i]? = some y →
          xs'[j]? = some x' → ys'[j]? = some y' → same y y' = true → same x x' = true := by
        intro i j x x' y y' hx hy hx' hy' hyy
        have hmem := List.mem_of_getElem? hx
        have hmem' := List.mem_of_getElem? hx'
        refine ih i x y hx hy (each' j x' y' hx' hy') hyy ?_ (hv.member hmem) (hv'.member hmem')
        rw [hv.here.1 d rfl x hmem, hv'.here.1 d rfl x' hmem']
      cases same_iff.mp hsame with
      | list hall =>
        exact same_iff.mpr (alike_sequence (forall₂_of_beside length length' hall
          fun i x x' y y' hx hx' hy hy' => hitem hx hy hx' hy'))
      | set hlen left right =>
        cases k with
        | list => cases kinds rfl
        | set =>
          refine same_iff.mpr (.set ((length.trans hlen).trans length'.symm) (fun x hx => ?_)
            fun x' hx' => ?_)
          · obtain ⟨i, hx⟩ := List.getElem?_of_mem hx
            obtain ⟨y, hy⟩ := exists_getElem?_of_length length.symm hx
            obtain ⟨y', hy', hyy⟩ := left y (List.mem_of_getElem? hy)
            obtain ⟨j, hy'⟩ := List.getElem?_of_mem hy'
            obtain ⟨x', hx'⟩ := exists_getElem?_of_length length' hy'
            exact ⟨x', List.mem_of_getElem? hx', hitem hx hy hx' hy' hyy⟩
          · obtain ⟨j, hx'⟩ := List.getElem?_of_mem hx'
            obtain ⟨y', hy'⟩ := exists_getElem?_of_length length'.symm hx'
            obtain ⟨y, hy, hyy⟩ := right y' (List.mem_of_getElem? hy')
            obtain ⟨i, hy⟩ := List.getElem?_of_mem hy
            obtain ⟨x, hx⟩ := exists_getElem?_of_length length hy
            exact ⟨x, List.mem_of_getElem? hx, hitem hx hy hx' hy' hyy⟩
  | @positions e xs ys length each ih =>
    cases same_iff.mp hsame with
    | list hall =>
      cases h' with
      | sequence => cases hty
      | positions length' each' =>
        refine same_iff.mpr (.tuple (forall₂_of_beside length length' hall
          fun i x x' y y' hx hx' hy hy' hyy => ?_))
        exact ih i x y hx hy (each' i x' y' hx' hy') hyy (ty_eq_of_tuple hty hx hx')
          (hv.member (List.mem_of_getElem? hx)) (hv'.member (List.mem_of_getElem? hx'))
  | @tuple xs ys length each ih =>
    cases same_iff.mp hsame with
    | tuple hall =>
      cases h' with
      | tuple length' each' =>
        refine same_iff.mpr (.tuple (forall₂_of_beside length length' hall
          fun i x x' y y' hx hx' hy hy' hyy => ?_))
        exact ih i x y hx hy (each' i x' y' hx' hy') hyy (ty_eq_of_tuple hty hx hx')
          (hv.member (List.mem_of_getElem? hx)) (hv'.member (List.mem_of_getElem? hx'))
  | @map d e xs ys names each ih =>
    cases same_iff.mp hsame with
    | map hall =>
      cases h' with
      | gather => cases hty
      | @map d' _ xs' _ names' each' =>
        obtain rfl : d = d' := by simpa [ty] using hty
        refine same_iff.mpr (.map (forall₂_of_beside (Named.length_eq_of_names names)
          (Named.length_eq_of_names names') hall fun i x x' y y' hx hx' hy hy' hyy => ?_))
        have hmem : x.2 ∈ (Value.map d xs).members := List.mem_map_of_mem (List.mem_of_getElem? hx)
        have hmem' : x'.2 ∈ (Value.map d xs').members :=
          List.mem_map_of_mem (List.mem_of_getElem? hx')
        refine ⟨?_, ih i x y hx hy (each' i x' y' hx' hy') hyy.2 ?_ (hv.member hmem)
          (hv'.member hmem')⟩
        · rw [show x.1 = y.1 from Named.name_eq_of_names names hx hy, hyy.1]
          exact (Named.name_eq_of_names names' hx' hy').symm
        · rw [hv.here.1 d rfl x.2 hmem, hv'.here.1 d rfl x'.2 hmem']
  | @gather e xs ys names each ih =>
    cases same_iff.mp hsame with
    | map hall =>
      cases h' with
      | map => cases hty
      | @gather _ xs' _ names' each' =>
        refine same_iff.mpr (.object (forall₂_of_beside (Named.length_eq_of_names names)
          (Named.length_eq_of_names names') hall fun i x x' y y' hx hx' hy hy' hyy => ?_))
        obtain ⟨hname, hxty⟩ := ty_eq_of_object hty hx hx'
        exact ⟨hname, ih i x y hx hy (each' i x' y' hx' hy') hyy.2 hxty
          (hv.member (List.mem_map_of_mem (List.mem_of_getElem? hx)))
          (hv'.member (List.mem_map_of_mem (List.mem_of_getElem? hx')))⟩
  | @object xs ys present each ih =>
    cases same_iff.mp hsame with
    | object hall =>
      cases h' with
      | @object xs' _ present' each' =>
        refine same_iff.mpr (.object (forall₂_iff_getElem?.mpr
          ⟨length_eq_of_object hty, fun i x x' hx hx' => ?_⟩))
        obtain ⟨hname, hxty⟩ := ty_eq_of_object hty hx hx'
        have hmem := List.mem_of_getElem? hx
        have hmem' := List.mem_of_getElem? hx'
        -- both attributes stand under one name, and so do the values that hold them
        obtain ⟨y, hy⟩ := Option.isSome_iff_exists.mp
          ((Named.isSome_find? x.1 ys).trans (present x hmem))
        obtain ⟨y', hy', hyy⟩ := exists_find?_of_sameEntries hall hy
        exact ⟨hname, ih x hmem y hy (each' x' hmem' y' (hname ▸ hy')) hyy hxty
          (hv.member (List.mem_map_of_mem hmem)) (hv'.member (List.mem_map_of_mem hmem'))⟩

/-- **Equal types.** A value that holds the data of another of its own type is equal to it. -/
theorem Embeds.same_of_ty_eq {v w : Value} (h : v.Embeds w) (hty : v.ty = w.ty)
    (hv : v.Homogeneous) (hw : w.Homogeneous) (hnames : v.Lawful) : same w v = true := by
  induction h with
  | null | unknown => simpa [same, ty] using Eq.symm hty
  | string => exact same_iff.mpr .string
  | number => exact same_iff.mpr (.number rfl)
  | bool => exact same_iff.mpr .bool
  | capsule => exact same_iff.mpr .capsule
  | numberText | boolText | positions | gather => cases hty
  | @sequence k l d e xs ys kinds length each ih =>
    obtain ⟨rfl, rfl⟩ : k = l ∧ d = e := by simpa [ty] using hty
    refine same_iff.mpr (alike_sequence (forall₂_iff_getElem?.mpr
      ⟨length.symm, fun i y x hy hx => ?_⟩))
    have hmem := List.mem_of_getElem? hx
    have hmem' := List.mem_of_getElem? hy
    refine ih i x y hx hy ?_ (hv.member hmem) (hw.member hmem') (Everywhere.member hnames hmem)
    rw [hv.here d rfl x hmem, hw.here d rfl y hmem']
  | @tuple xs ys length each ih =>
    refine same_iff.mpr (.tuple (forall₂_iff_getElem?.mpr ⟨length.symm, fun i y x hy hx => ?_⟩))
    have hmem := List.mem_of_getElem? hx
    exact ih i x y hx hy (ty_eq_of_tuple hty hx hy) (hv.member hmem)
      (hw.member (List.mem_of_getElem? hy)) (Everywhere.member hnames hmem)
  | @map d e xs ys names each ih =>
    obtain rfl : d = e := by simpa [ty] using hty
    refine same_iff.mpr (.map (forall₂_iff_getElem?.mpr
      ⟨(Named.length_eq_of_names names).symm, fun i y x hy hx => ?_⟩))
    have hmem : x.2 ∈ (Value.map d xs).members := List.mem_map_of_mem (List.mem_of_getElem? hx)
    have hmem' : y.2 ∈ (Value.map d ys).members := List.mem_map_of_mem (List.mem_of_getElem? hy)
    refine ⟨(Named.name_eq_of_names names hx hy).symm, ih i x y hx hy ?_ (hv.member hmem)
      (hw.member hmem') (Everywhere.member hnames hmem)⟩
    rw [hv.here d rfl x.2 hmem, hw.here d rfl y.2 hmem']
  | @object xs ys present each ih =>
    refine same_iff.mpr (.object (forall₂_iff_getElem?.mpr
      ⟨(length_eq_of_object hty).symm, fun i y x hy hx => ?_⟩))
    obtain ⟨hname, hxty⟩ := ty_eq_of_object hty hx hy
    have hmem := List.mem_of_getElem? hx
    have hfind : Named.find? x.1 ys = some y :=
      Named.find?_of_names hnames.here.2 (names_eq_of_object hty) hx hy
    exact ⟨hname.symm, ih x hmem y hfind hxty (hv.member (List.mem_map_of_mem hmem))
      (hw.member (List.mem_map_of_mem (List.mem_of_getElem? hy)))
      (Everywhere.member hnames (List.mem_map_of_mem hmem))⟩

end Value

end Retype
