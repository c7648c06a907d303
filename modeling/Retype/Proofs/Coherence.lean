import Retype.Proofs.Conversion.Levels
import Retype.Proofs.Narrowest
import Retype.Proofs.Risk
import Retype.Proofs.RoundTrip
import Retype.Proofs.Settling

/-!
# Safe conversions compose

Between types without placeholders and without optional attributes, two safe conversions in a row
lead to where one safe conversion leads, and to the same value (`safe_conversions_compose`).

* Safe conversions compose as far as types go (`Converts.trans`), kind by kind: whatever the first
  one makes of a shape, the second one goes on from there by the inversions `Converts.of_map` and
  its companions.
* What holds the data of a value that holds the data of another holds the data of the latter
  (`Embeds.trans`). This needs the types, since an object may gain attributes where some are
  optional, and the map made from it would then have more entries than one made directly.
* Of the data of a value there is only one value of each type (`Embeds.same_of_source`), so both
  routes end at the same one.
-/

namespace Retype

/-! ### Types -/

namespace Ty

theorem Converts.of_primitive {p : Primitive} {target : Ty}
    (h : Converts .safe (.primitive p) target) (definite : target.Definite) :
    ∃ q, target = .primitive q ∧ Primitive.convertible .safe p q = true := by
  obtain ⟨c, plan⟩ := h.plan
  cases plan with
  | same => exact ⟨p, rfl, by simp [Primitive.convertible]⟩
  | pass => exact absurd rfl definite.ne_dynamic
  | primitive permitted => exact ⟨_, rfl, permitted⟩

theorem Converts.of_capsule {name : String} {target : Ty} {safety : Safety}
    (h : Converts safety (.capsule name) target) (definite : target.Definite) :
    target = .capsule name := by
  obtain ⟨c, plan⟩ := h.plan
  cases plan with
  | same => rfl
  | pass => exact absurd rfl definite.ne_dynamic

/-- **Transitivity.** Safe conversions between definite types compose. -/
theorem Converts.trans {a b c : Ty} (hab : Converts .safe a b) (hbc : Converts .safe b c)
    (ha : a.Lawful) (hb : b.Definite) (hc : c.Definite) : Converts .safe a c := by
  induction a generalizing b c with
  | dynamic => exact dynamic_converts c
  | primitive p =>
    obtain ⟨q, rfl, hpq⟩ := hab.of_primitive hb
    obtain ⟨r, rfl, hqr⟩ := hbc.of_primitive hc
    refine .primitive ?_
    revert hpq hqr
    cases p <;> cases q <;> cases r <;> decide
  | capsule name =>
    obtain rfl := hab.of_capsule hb
    exact hbc
  | sequence k s ih =>
    obtain ⟨l, t, rfl, hkl, hst⟩ := hab.of_sequence hb
    obtain ⟨m, u, rfl, hlm, htu⟩ := hbc.of_sequence hc
    refine .sequence ?_ (ih hst htu (ha.part List.mem_cons_self) (hb.part List.mem_cons_self)
      (hc.part List.mem_cons_self))
    revert hkl hlm
    cases k <;> cases l <;> cases m <;> decide
  | map s ih =>
    obtain ⟨t, rfl, hst⟩ := hab.of_map hb
    obtain ⟨u, rfl, htu⟩ := hbc.of_map hc
    exact (ih hst htu (ha.part List.mem_cons_self) (hb.part List.mem_cons_self)
      (hc.part List.mem_cons_self)).map
  | tuple ss ih =>
    have part : ∀ s ∈ ss, s.Lawful := fun s hs => Throughout.part ha hs
    rcases hab.of_tuple hb with ⟨ts, rfl, hlen, hst⟩ | ⟨t, rfl, hst⟩
    · rcases hbc.of_tuple hc with ⟨us, rfl, hlen', htu⟩ | ⟨u, rfl, htu⟩
      · refine .tuple (hlen.trans hlen') fun i s u hs hu => ?_
        obtain ⟨t, ht⟩ := exists_getElem?_of_length hlen'  hu
        have hmem := List.mem_of_getElem? hs
        exact ih s hmem (hst i s t hs ht) (htu i t u ht hu) (part s hmem)
          (hb.part (List.mem_of_getElem? ht)) (hc.part (List.mem_of_getElem? hu))
      · have hu : u.Definite := hc.part List.mem_cons_self
        refine .positions rfl (.declared fun hdyn => absurd hdyn hu.ne_dynamic) fun s hs => ?_
        obtain ⟨i, hi⟩ := List.getElem?_of_mem hs
        obtain ⟨t, ht⟩ := exists_getElem?_of_length hlen.symm hi
        have hmem := List.mem_of_getElem? ht
        exact ih s hs (hst i s t hi ht) (htu t hmem) (part s hs) (hb.part hmem) hu
    · obtain ⟨u, rfl, htu⟩ := hbc.of_list hc
      have hu : u.Definite := hc.part List.mem_cons_self
      refine .positions rfl (.declared fun hdyn => absurd hdyn hu.ne_dynamic) fun s hs => ?_
      exact ih s hs (hst s hs) htu (part s hs) (hb.part List.mem_cons_self) hu
  | object as ih =>
    have part : ∀ a ∈ as, a.type.Lawful := fun a hmem =>
      Throughout.part ha (List.mem_map_of_mem hmem)
    rcases hab.of_object ha hb with ⟨bs, rfl, names, hst⟩ | ⟨t, rfl, hst⟩
    · rcases hbc.of_object hb.plain.lawful hc with ⟨cs, rfl, names', htu⟩ | ⟨u, rfl, htu⟩
      · refine .objectOfNames ha.ascending (names.trans names') fun i s u hs hu => ?_
        obtain ⟨t, ht, -⟩ := Named.exists_getElem? names' hu
        have hmem := List.mem_of_getElem? hs
        exact ih s hmem (hst i s t hs ht) (htu i t u ht hu) (part s hmem)
          (hb.part (List.mem_map_of_mem (List.mem_of_getElem? ht)))
          (hc.part (List.mem_map_of_mem (List.mem_of_getElem? hu)))
      · have hu : u.Definite := hc.part List.mem_cons_self
        refine .gather (.declared fun hdyn => absurd hdyn hu.ne_dynamic) fun s hs => ?_
        obtain ⟨i, hi⟩ := List.getElem?_of_mem hs
        obtain ⟨t, ht, -⟩ := Named.exists_getElem? names.symm hi
        have hmem := List.mem_of_getElem? ht
        exact ih s hs (hst i s t hi ht) (htu t hmem) (part s hs)
          (hb.part (List.mem_map_of_mem hmem)) hu
    · obtain ⟨u, rfl, htu⟩ := hbc.of_map hc
      have hu : u.Definite := hc.part List.mem_cons_self
      refine .gather (.declared fun hdyn => absurd hdyn hu.ne_dynamic) fun s hs => ?_
      exact ih s hs (hst s hs) htu (part s hs) (hb.part List.mem_cons_self) hu

end Ty

/-! ### Values -/

namespace Value

/-- The type of the first value converts safely to that of the second, and the types are such that
members are known by them. -/
structure Below (v w : Value) : Prop where
  converts : Ty.Converts .safe v.ty w.ty
  lawful : v.ty.Lawful
  definite : w.ty.Definite
  source : v.Homogeneous
  target : w.Homogeneous

namespace Below

theorem items {k l : SequenceKind} {d e : Ty} {xs ys : List Value}
    (h : (Value.sequence k d xs).Below (.sequence l e ys)) {x y : Value} (hx : x ∈ xs)
    (hy : y ∈ ys) : x.Below y := by
  have hxty : x.ty = d := h.source.here d rfl x hx
  have hyty : y.ty = e := h.target.here e rfl y hy
  subst hxty hyty
  exact ⟨(Ty.converts_sequence_iff.mp h.converts).2, h.lawful.part List.mem_cons_self,
    h.definite.part List.mem_cons_self, h.source.member hx, h.target.member hy⟩

theorem entries {d e : Ty} {xs ys : List (String × Value)}
    (h : (Value.map d xs).Below (.map e ys)) {x y : String × Value} (hx : x ∈ xs)
    (hy : y ∈ ys) : x.2.Below y.2 := by
  have hmem : x.2 ∈ (Value.map d xs).members := List.mem_map_of_mem hx
  have hmem' : y.2 ∈ (Value.map e ys).members := List.mem_map_of_mem hy
  have hxty : x.2.ty = d := h.source.here d rfl x.2 hmem
  have hyty : y.2.ty = e := h.target.here e rfl y.2 hmem'
  subst hxty hyty
  exact ⟨Ty.converts_map_iff.mp h.converts, h.lawful.part List.mem_cons_self,
    h.definite.part List.mem_cons_self, h.source.member hmem, h.target.member hmem'⟩

theorem positions {e : Ty} {xs ys : List Value} (h : (Value.tuple xs).Below (.list e ys))
    {x y : Value} (hx : x ∈ xs) (hy : y ∈ ys) : x.Below y := by
  have hyty : y.ty = e := h.target.here e rfl y hy
  subst hyty
  have hpart : x.ty ∈ (Value.tuple xs).ty.parts := by
    rw [ty, tyAll_eq_map]
    exact List.mem_map_of_mem hx
  have he : y.ty.Definite := h.definite.part List.mem_cons_self
  exact ⟨((Ty.converts_positions_iff he.ne_dynamic).mp h.converts).2 _ hpart, h.lawful.part hpart,
    he, h.source.member hx, h.target.member hy⟩

theorem gather {e : Ty} {xs ys : List (String × Value)} (h : (Value.object xs).Below (.map e ys))
    {x y : String × Value} (hx : x ∈ xs) (hy : y ∈ ys) : x.2.Below y.2 := by
  have hmem : y.2 ∈ (Value.map e ys).members := List.mem_map_of_mem hy
  have hyty : y.2.ty = e := h.target.here e rfl y.2 hmem
  subst hyty
  have he : y.2.ty.Definite := h.definite.part List.mem_cons_self
  obtain ⟨i, hi⟩ := List.getElem?_of_mem hx
  have hattribute : (tyAttributes xs)[i]? = some ⟨x.1, false, x.2.ty⟩ := by
    rw [tyAttributes_eq_map, List.getElem?_map, hi]
    rfl
  have hmem' := List.mem_of_getElem? hattribute
  exact ⟨(Ty.converts_gather_iff he.ne_dynamic).mp h.converts _ hmem',
    h.lawful.part (List.mem_map_of_mem hmem'), he, h.source.member (List.mem_map_of_mem hx),
    h.target.member hmem⟩

theorem tuple {xs ys : List Value} (h : (Value.tuple xs).Below (.tuple ys)) {i : Nat}
    {x y : Value} (hx : xs[i]? = some x) (hy : ys[i]? = some y) : x.Below y := by
  have htypes : ∀ {zs : List Value} {z : Value}, zs[i]? = some z →
      (tyAll zs)[i]? = some z.ty := by
    intro zs z hz
    rw [tyAll_eq_map, List.getElem?_map, hz]
    rfl
  exact ⟨(Ty.converts_tuple_iff.mp h.converts).2 i _ _ (htypes hx) (htypes hy),
    h.lawful.part (List.mem_of_getElem? (htypes hx)),
    h.definite.part (List.mem_of_getElem? (htypes hy)), h.source.member (List.mem_of_getElem? hx),
    h.target.member (List.mem_of_getElem? hy)⟩

/-- Nothing is optional, so an object becomes one of the same names. -/
theorem object {xs ys : List (String × Value)} (h : (Value.object xs).Below (.object ys)) :
    Named.names xs = Named.names ys ∧ ∀ (i : Nat) (x y : String × Value), xs[i]? = some x →
      ys[i]? = some y → x.2.Below y.2 := by
  have htypes : ∀ {i : Nat} {zs : List (String × Value)} {z : String × Value}, zs[i]? = some z →
      (tyAttributes zs)[i]? = some ⟨z.1, false, z.2.ty⟩ := by
    intro i zs z hz
    rw [tyAttributes_eq_map, List.getElem?_map, hz]
    rfl
  rcases h.converts.of_object h.lawful h.definite with ⟨bs, hbs, names, each⟩ | ⟨e, he, -⟩
  · cases hbs
    refine ⟨(names_of_object rfl).trans (names.trans (names_of_object rfl).symm),
      fun i x y hx hy => ?_⟩
    exact ⟨each i _ _ (htypes hx) (htypes hy),
      h.lawful.part (List.mem_map_of_mem (List.mem_of_getElem? (htypes hx))),
      h.definite.part (List.mem_map_of_mem (List.mem_of_getElem? (htypes hy))),
      h.source.member (List.mem_map_of_mem (List.mem_of_getElem? hx)),
      h.target.member (List.mem_map_of_mem (List.mem_of_getElem? hy))⟩
  · cases he

end Below

/-- **Transitivity.** What holds the data of a value that is made safely from another holds the
data of the latter. -/
theorem Embeds.trans {v w x : Value} (hvw : v.Embeds w) (hwx : w.Embeds x) (below : v.Below w)
    (names : v.Lawful) : v.Embeds x := by
  induction hvw generalizing x with
  | null =>
    cases hwx
    exact .null
  | unknown =>
    cases hwx
    exact .unknown
  | string | number | bool | capsule => exact hwx
  | numberText text =>
    cases hwx
    exact .numberText text
  | boolText text =>
    cases hwx
    exact .boolText text
  | @sequence k l d e xs ys kinds length each ih =>
    cases hwx with
    | @sequence _ m _ _ _ zs kinds' length' each' =>
      refine .sequence (kinds' ∘ kinds) (length.trans length') fun i x z hx hz => ?_
      obtain ⟨y, hy⟩ := exists_getElem?_of_length length' hz
      have hmem := List.mem_of_getElem? hx
      exact ih i x y hx hy (each' i y z hy hz) (below.items hmem (List.mem_of_getElem? hy))
        (Everywhere.member names hmem)
  | @map d e xs ys hnames each ih =>
    cases hwx with
    | @map _ _ _ zs hnames' each' =>
      refine .map (hnames.trans hnames') fun i x z hx hz => ?_
      obtain ⟨y, hy, -⟩ := Named.exists_getElem? hnames' hz
      have hmem := List.mem_of_getElem? hx
      exact ih i x y hx hy (each' i y z hy hz) (below.entries hmem (List.mem_of_getElem? hy))
        (Everywhere.member names (List.mem_map_of_mem hmem))
  | @positions e xs ys length each ih =>
    cases hwx with
    | @sequence _ m _ _ _ zs kinds' length' each' =>
      obtain rfl := kinds' rfl
      refine .positions (length.trans length') fun i x z hx hz => ?_
      obtain ⟨y, hy⟩ := exists_getElem?_of_length length' hz
      have hmem := List.mem_of_getElem? hx
      exact ih i x y hx hy (each' i y z hy hz) (below.positions hmem (List.mem_of_getElem? hy))
        (Everywhere.member names hmem)
  | @gather e xs ys hnames each ih =>
    cases hwx with
    | @map _ _ _ zs hnames' each' =>
      refine .gather (hnames.trans hnames') fun i x z hx hz => ?_
      obtain ⟨y, hy, -⟩ := Named.exists_getElem? hnames' hz
      have hmem := List.mem_of_getElem? hx
      exact ih i x y hx hy (each' i y z hy hz) (below.gather hmem (List.mem_of_getElem? hy))
        (Everywhere.member names (List.mem_map_of_mem hmem))
  | @tuple xs ys length each ih =>
    have step : ∀ (i : Nat) (x y z : Value), xs[i]? = some x → ys[i]? = some y → y.Embeds z →
        x.Embeds z := fun i x y z hx hy hyz =>
      ih i x y hx hy hyz (below.tuple hx hy) (Everywhere.member names (List.mem_of_getElem? hx))
    cases hwx with
    | positions length' each' =>
      refine .positions (length.trans length') fun i x z hx hz => ?_
      obtain ⟨y, hy⟩ := exists_getElem?_of_length length' hz
      exact step i x y z hx hy (each' i y z hy hz)
    | tuple length' each' =>
      refine .tuple (length.trans length') fun i x z hx hz => ?_
      obtain ⟨y, hy⟩ := exists_getElem?_of_length length' hz
      exact step i x y z hx hy (each' i y z hy hz)
  | @object xs ys present each ih =>
    obtain ⟨hnames, parts⟩ := below.object
    have hasc : Named.Ascending xs := names.here.2
    have step : ∀ (i : Nat) (x y : String × Value) (z : Value), xs[i]? = some x →
        ys[i]? = some y → y.2.Embeds z → x.2.Embeds z := by
      intro i x y z hx hy hyz
      have hmem := List.mem_of_getElem? hx
      exact ih x hmem y (Named.find?_of_names hasc hnames hx hy) hyz (parts i x y hx hy)
        (Everywhere.member names (List.mem_map_of_mem hmem))
    cases hwx with
    | gather hnames' each' =>
      refine .gather (hnames.trans hnames') fun i x z hx hz => ?_
      obtain ⟨y, hy, -⟩ := Named.exists_getElem? hnames' hz
      exact step i x y z.2 hx hy (each' i y z hy hz)
    | object present' each' =>
      have hfind : ∀ x ∈ xs, ∃ (i : Nat) (y : String × Value),
          xs[i]? = some x ∧ ys[i]? = some y ∧ y.1 = x.1 := by
        intro x hx
        obtain ⟨i, hi⟩ := List.getElem?_of_mem hx
        obtain ⟨y, hy, hname⟩ := Named.exists_getElem? hnames.symm hi
        exact ⟨i, y, hi, hy, hname⟩
      refine .object (fun x hx => ?_) fun x hx z hz => ?_
      · obtain ⟨i, y, -, hy, hname⟩ := hfind x hx
        exact hname ▸ present' y (List.mem_of_getElem? hy)
      · obtain ⟨i, y, hx, hy, hname⟩ := hfind x hx
        exact step i x y z.2 hx hy (each' y (List.mem_of_getElem? hy) z (hname ▸ hz))

/-- **Uniqueness.** Values of one type that hold the data of the same value are equal, if they are
made safely from it. -/
theorem Embeds.same_of_source {v w w' : Value} (h : v.Embeds w) (h' : v.Embeds w')
    (hty : w.ty = w'.ty) (below : v.Below w) (below' : v.Below w') (names : v.Lawful) :
    same w w' = true := by
  induction h generalizing w' with
  | null | unknown =>
    cases h'
    simpa [same, ty] using hty
  | string =>
    cases h'
    exact same_iff.mpr .string
  | bool =>
    cases h' with
    | bool => exact same_iff.mpr .bool
    | boolText => cases hty
  | capsule =>
    cases h'
    exact same_iff.mpr .capsule
  | number =>
    cases h' with
    | number => exact same_iff.mpr (.number rfl)
    | numberText => cases hty
  | numberText text =>
    cases h' with
    | number => cases hty
    | numberText text' =>
      subst text text'
      exact same_iff.mpr .string
  | boolText text =>
    cases h' with
    | bool => cases hty
    | boolText text' =>
      subst text text'
      exact same_iff.mpr .string
  | @sequence k l d e xs ys kinds length each ih =>
    cases h' with
    | @sequence _ l' _ e' _ ys' kinds' length' each' =>
      obtain ⟨rfl, rfl⟩ : l = l' ∧ e = e' := by simpa [ty] using hty
      refine same_iff.mpr (alike_sequence (forall₂_of_source length length'
        fun i x y y' hx hy hy' => ?_))
      have hmem := List.mem_of_getElem? hx
      have hmemy := List.mem_of_getElem? hy
      have hmemy' := List.mem_of_getElem? hy'
      refine ih i x y hx hy (each' i x y' hx hy') ?_ (below.items hmem hmemy)
        (below'.items hmem hmemy') (Everywhere.member names hmem)
      exact (below.target.here e rfl y hmemy).trans (below'.target.here e rfl y' hmemy').symm
  | @positions e xs ys length each ih =>
    cases h' with
    | tuple => cases hty
    | @positions e' _ ys' length' each' =>
      obtain rfl : e = e' := by simpa [ty] using hty
      refine same_iff.mpr (.list (forall₂_of_source length length'
        fun i x y y' hx hy hy' => ?_))
      have hmem := List.mem_of_getElem? hx
      have hmemy := List.mem_of_getElem? hy
      have hmemy' := List.mem_of_getElem? hy'
      refine ih i x y hx hy (each' i x y' hx hy') ?_ (below.positions hmem hmemy)
        (below'.positions hmem hmemy') (Everywhere.member names hmem)
      exact (below.target.here e rfl y hmemy).trans (below'.target.here e rfl y' hmemy').symm
  | @tuple xs ys length each ih =>
    cases h' with
    | positions => cases hty
    | tuple length' each' =>
      refine same_iff.mpr (.tuple (forall₂_of_source length length'
        fun i x y y' hx hy hy' => ?_))
      exact ih i x y hx hy (each' i x y' hx hy') (ty_eq_of_tuple hty hy hy') (below.tuple hx hy)
        (below'.tuple hx hy') (Everywhere.member names (List.mem_of_getElem? hx))
  | @map d e xs ys hnames each ih =>
    cases h' with
    | @map _ e' _ ys' hnames' each' =>
      obtain rfl : e = e' := by simpa [ty] using hty
      refine same_iff.mpr (.map (forall₂_of_source (Named.length_eq_of_names hnames)
        (Named.length_eq_of_names hnames') fun i x y y' hx hy hy' => ?_))
      have hmem := List.mem_of_getElem? hx
      have hmemy := List.mem_of_getElem? hy
      have hmemy' := List.mem_of_getElem? hy'
      refine ⟨Named.name_eq_of_names (hnames.symm.trans hnames') hy hy', ih i x y hx hy
        (each' i x y' hx hy') ?_ (below.entries hmem hmemy) (below'.entries hmem hmemy')
        (Everywhere.member names (List.mem_map_of_mem hmem))⟩
      exact (below.target.here e rfl y.2 (List.mem_map_of_mem hmemy)).trans
        (below'.target.here e rfl y'.2 (List.mem_map_of_mem hmemy')).symm
  | @gather e xs ys hnames each ih =>
    cases h' with
    | object => cases hty
    | @gather e' _ ys' hnames' each' =>
      obtain rfl : e = e' := by simpa [ty] using hty
      refine same_iff.mpr (.map (forall₂_of_source (Named.length_eq_of_names hnames)
        (Named.length_eq_of_names hnames') fun i x y y' hx hy hy' => ?_))
      have hmem := List.mem_of_getElem? hx
      have hmemy := List.mem_of_getElem? hy
      have hmemy' := List.mem_of_getElem? hy'
      refine ⟨Named.name_eq_of_names (hnames.symm.trans hnames') hy hy', ih i x y hx hy
        (each' i x y' hx hy') ?_ (below.gather hmem hmemy) (below'.gather hmem hmemy')
        (Everywhere.member names (List.mem_map_of_mem hmem))⟩
      exact (below.target.here e rfl y.2 (List.mem_map_of_mem hmemy)).trans
        (below'.target.here e rfl y'.2 (List.mem_map_of_mem hmemy')).symm
  | @object xs ys present each ih =>
    cases h' with
    | gather => cases hty
    | @object _ ys' present' each' =>
      obtain ⟨hnames, parts⟩ := below.object
      obtain ⟨hnames', parts'⟩ := below'.object
      have hasc : Named.Ascending xs := names.here.2
      refine same_iff.mpr (.object (forall₂_of_source (Named.length_eq_of_names hnames)
        (Named.length_eq_of_names hnames') fun i x y y' hx hy hy' => ?_))
      obtain ⟨hname, hyty⟩ := ty_eq_of_object hty hy hy'
      have hmem := List.mem_of_getElem? hx
      have embeds' := each' x hmem y' (Named.find?_of_names hasc hnames' hx hy')
      exact ⟨hname, ih x hmem y (Named.find?_of_names hasc hnames hx hy) embeds' hyty
        (parts i x y hx hy) (parts' i x y' hx hy')
        (Everywhere.member names (List.mem_map_of_mem hmem))⟩

end Value

/-! ### Conversions -/

namespace Conversion

/-- The conversion of a definite type to itself keeps the values of the type. -/
theorem apply_of_same {a : Ty} {safety : Safety} {f : Conversion} {v : Value} (ha : a.Definite)
    (h : between? a a safety = some f) (hv : v.ty = a) : f.apply v = .ok v := by
  have hdyn : a.isDynamic = false := by
    rw [Bool.eq_false_iff, Ne, Ty.isDynamic_iff]
    exact ha.ne_dynamic
  rw [between?.eq_def, if_pos rfl, Option.map_some, Option.some.injEq, covered, hdyn, Bool.or_self,
    if_neg Bool.false_ne_true, ha.plain.unmarked.stripped_eq] at h
  have hrefine := refine_of_fits ha ha.plain.lawful.fits_self
  subst h
  cases v with
  | null i | unknown i =>
    subst hv
    rw [apply, applyWith]
    exact map_eq_ok_iff.mpr ⟨_, hrefine, rfl⟩
  | _ => rfl

/-- To a definite type a value is converted by the safe conversion, where there is one. -/
theorem convert_eq_apply {a b : Ty} {f : Conversion} {v : Value} (hb : b.Definite)
    (h : between? a b .safe = some f) (hv : v.ty = a) : v.convert b = f.apply v := by
  subst hv
  by_cases hty : v.ty = b
  · rw [Value.convert_of_ty_eq hty, apply_of_same hb (hty ▸ h) hty]
  · exact Value.convert_of_between? hty (between?_risky_of_safe hb.solid h)

/-- What a safe conversion makes of a value of a definite type. -/
theorem exists_apply_below {a b : Ty} {f : Conversion} {v : Value} (ha : a.Definite)
    (hb : b.Definite) (h : between? a b .safe = some f) (hv : v.Inhabits a) :
    ∃ w, f.apply v = .ok w ∧ w.Inhabits b ∧ v.Embeds w ∧ v.Below w := by
  have plan := plan_of_between? h
  have converts := Ty.converts_of_plan plan
  obtain ⟨w, hw⟩ : ∃ w, f.apply v = .ok w := plan.exists_apply converts ha.plain hb hv
  obtain ⟨hconf, hsound, hhom⟩ := plan.sound_of_apply ha hb.plain.lawful hv hw
  have hty : w.ty = b := by
    rw [hsound.ty_eq hconf hb.solid, hb.plain.unmarked.stripped_eq]
  refine ⟨w, hw, ⟨hsound.wellFormed_iff.mpr hhom, hsound.lawful, hty⟩,
    plan.embeds ha hb.solid hv hw, ?_⟩
  exact ⟨hv.ty ▸ hty ▸ converts, hv.ty ▸ ha.plain.lawful, hty ▸ hb, hv.wellFormed.homogeneous, hhom⟩

end Conversion

/-- **Safe conversions compose.** For types without placeholders and without optional attributes,
two safe conversions in a row can be replaced by one, and every value of the first type becomes
the same by either route; so it does when it is converted without a conversion at hand. -/
theorem safe_conversions_compose {a b c : Ty} {f g : Conversion} (ha : a.Definite)
    (hb : b.Definite) (hc : c.Definite) (hf : Conversion.between? a b .safe = some f)
    (hg : Conversion.between? b c .safe = some g) :
    ∃ h, Conversion.between? a c .safe = some h ∧
      ∀ v : Value, v.Inhabits a → ∃ w x y : Value,
        (f.apply v = .ok w ∧ g.apply w = .ok x ∧ h.apply v = .ok y) ∧
        (v.convert b = .ok w ∧ w.convert c = .ok x ∧ v.convert c = .ok y) ∧ x.same y = true := by
  have converts : Ty.Converts .safe a c :=
    (Ty.converts_of_plan (Conversion.plan_of_between? hf)).trans
      (Ty.converts_of_plan (Conversion.plan_of_between? hg)) ha.plain.lawful hb hc
  obtain ⟨h, hh⟩ := Option.isSome_iff_exists.mp converts
  refine ⟨h, hh, fun v hv => ?_⟩
  obtain ⟨w, hw, hwb, hvw, below⟩ := Conversion.exists_apply_below ha hb hf hv
  obtain ⟨x, hx, hxc, hwx, -⟩ := Conversion.exists_apply_below hb hc hg hwb
  obtain ⟨y, hy, hyc, hvy, below'⟩ := Conversion.exists_apply_below ha hc hh hv
  refine ⟨w, x, y, ⟨hw, hx, hy⟩, ⟨?_, ?_, ?_⟩, ?_⟩
  · rw [Conversion.convert_eq_apply hb hf hv.ty, hw]
  · rw [Conversion.convert_eq_apply hc hg hwb.ty, hx]
  · rw [Conversion.convert_eq_apply hc hh hv.ty, hy]
  · have hty : x.ty = y.ty := hxc.ty.trans hyc.ty.symm
    have hvx : v.Below x := ⟨hv.ty ▸ hxc.ty ▸ converts, below.lawful, hxc.ty ▸ hc, below.source,
      hxc.wellFormed.homogeneous⟩
    exact (hvw.trans hwx below hv.lawful).same_of_source hvy hty hvx below' hv.lawful

/-- An object becomes an object whose set holds texts and whose tuple is a list, and from there a
map of lists. -/
theorem safe_conversions_compose_object_to_map :
    let a : Ty := .object [⟨"p", false, .set .number⟩, ⟨"q", false, .tuple [.bool, .number]⟩]
    let b : Ty := .object [⟨"p", false, .set .string⟩, ⟨"q", false, .list .string⟩]
    let c : Ty := .map (.list .string)
    let v : Value := .object [("p", .set .number [.number ⟨10, 1⟩, .unknown .number]),
      ("q", .tuple [.bool true, .null .number])]
    a.Definite ∧ b.Definite ∧ c.Definite ∧ v.Inhabits a ∧
      ∃ f g h, Conversion.between? a b .safe = some f ∧ Conversion.between? b c .safe = some g ∧
        Conversion.between? a c .safe = some h ∧ ∃ w x y, f.apply v = .ok w ∧
          g.apply w = .ok x ∧ h.apply v = .ok y ∧ x.same y = true := by
  intro a b c v
  have ha : a.Definite := ⟨⟨by decide, by decide⟩, by decide⟩
  have hb : b.Definite := ⟨⟨by decide, by decide⟩, by decide⟩
  have hc : c.Definite := ⟨⟨by decide, by decide⟩, by decide⟩
  have hv : v.Inhabits a := by decide
  obtain ⟨f, hf⟩ : ∃ f, Conversion.between? a b .safe = some f := by
    rw [← Option.isSome_iff_exists]
    cbv
  obtain ⟨g, hg⟩ : ∃ g, Conversion.between? b c .safe = some g := by
    rw [← Option.isSome_iff_exists]
    cbv
  obtain ⟨h, hh, hroutes⟩ := safe_conversions_compose ha hb hc hf hg
  obtain ⟨w, x, y, ⟨hw, hx, hy⟩, -, hsame⟩ := hroutes v hv
  exact ⟨ha, hb, hc, hv, f, g, h, hf, hg, hh, w, x, y, hw, hx, hy, hsame⟩

end Retype
