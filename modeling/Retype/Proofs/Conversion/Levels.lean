import Retype.Proofs.Soundness
import Retype.Proofs.Unification

/-!
# Converting never runs out of levels

`Value.convert` gives the parts that are converted in turn one level less than the whole has, and
starts with as many levels as the value or the target is deep. This module shows that they are
enough, so that the levels can be forgotten: a value that is not of the wanted type already is
converted by applying the conversion from its type (`Value.convert_eq`).

* Nothing gets deeper than what it comes from: neither a common type (`Common.depth_le`), nor a
  refined type (`Refines.depth_le`), nor what a conversion makes of a value (`Within.coincide`).
* So a part that is converted in turn, first by a conversion that was left open and then once more
  to the common type of its collection, is at each time less deep than the whole. Two ways of
  converting that do the same below a depth do the same for conversions of that depth.

Both facts are shown at once: `Coincide P x y` says that two results are the same and that a
success has the property `P`. Values need not be well formed for this.
-/

namespace Retype

/-! ### Depths of types -/

namespace Ty

theorem depth_le_succ_iff {t : Ty} {n : Nat} : t.depth ≤ n + 1 ↔ ∀ p ∈ t.parts, p.depth ≤ n := by
  cases t with
  | tuple ts =>
    rw [depth, ← depthAll_le_iff, parts]
    omega
  | object as =>
    rw [depth, depthAttributes_eq, ← depthAll_le_iff, parts]
    omega
  | sequence k e | map e =>
    simp only [depth, parts, List.forall_mem_singleton]
    omega
  | _ => simp [depth, parts]

@[simp] theorem depth_stripped (t : Ty) : t.stripped.depth = t.depth := by
  have hall : ∀ {ts : List Ty}, (∀ t ∈ ts, t.stripped.depth = t.depth) →
      depthAll (ts.map stripped) = depthAll ts := by
    intro ts h
    induction ts with
    | nil => rfl
    | cons t ts ih =>
      rw [List.map_cons, depthAll, depthAll, h t List.mem_cons_self,
        ih fun t ht => h t (List.mem_cons_of_mem _ ht)]
  induction t with
  | sequence k e ih | map e ih => simp only [stripped, depth, ih]
  | tuple ts ih => rw [stripped, depth, depth, strippedAll_eq_map, hall ih]
  | object as ih =>
    have hparts := hall (List.forall_mem_map.mpr ih)
    rw [List.map_map] at hparts
    rw [stripped, depth, depth, depthAttributes_eq, depthAttributes_eq, strippedAttributes_eq_map,
      List.map_map, ← hparts]
    rfl
  | _ => rfl

/-- A common type is no deeper than the deepest of the types. -/
theorem Common.depth_le {safety : Safety} {ts : List Ty} {u : Ty} {n : Nat}
    (h : Common safety ts u) (bound : ∀ t ∈ ts, t.depth ≤ n) : u.depth ≤ n := by
  have concrete : ∀ {ts : List Ty} {n : Nat}, (∀ t ∈ ts, t.depth ≤ n + 1) →
      ∀ t ∈ concrete ts, ∀ p ∈ t.parts, p.depth ≤ n := fun h t ht =>
    depth_le_succ_iff.mp (h t (mem_concrete.mp ht).1)
  have positive : ∀ {ts : List Ty} {n : Nat}, Apart (Ty.concrete ts) → (∀ t ∈ ts, t.depth ≤ n) →
      ∃ m, n = m + 1 := by
    intro ts n apart h
    obtain ⟨t, ht⟩ := List.exists_mem_of_ne_nil _ apart.ne_nil
    have hdepth := h t (mem_concrete.mp ht).1
    have hpos := t.depth_pos
    exact ⟨n - 1, by omega⟩
  induction h generalizing n with
  | blank nonempty all =>
    obtain ⟨t, ht⟩ := List.exists_mem_of_ne_nil _ nonempty
    exact all t ht ▸ bound t ht
  | same mem | choose _ mem => exact bound _ (mem_concrete.mp mem).1
  | map apart _ _ _ _ ih | list apart _ _ _ _ ih | set apart _ _ _ ih =>
    obtain ⟨m, rfl⟩ := positive apart bound
    refine depth_le_succ_iff.mpr (List.forall_mem_singleton.mpr (ih fun p hp => ?_))
    obtain ⟨t, ht, hpt⟩ := List.mem_flatMap.mp hp
    exact concrete bound t ht p hpt
  | object apart _ length _ _ ih =>
    obtain ⟨m, rfl⟩ := positive apart bound
    refine depth_le_succ_iff.mpr fun p hp => ?_
    obtain ⟨a, ha, rfl⟩ := List.mem_map.mp hp
    obtain ⟨f, hf, rfl⟩ := List.mem_map.mp ha
    obtain ⟨i, hi⟩ := List.getElem?_of_mem hf
    obtain ⟨hname, hu⟩ := List.getElem?_zip_eq_some.mp hi
    refine ih i f.1 f.2 hname hu fun p hp => ?_
    obtain ⟨t, ht, hpt⟩ := mem_parts_of_mem_attributes hp
    exact concrete bound t ht p hpt
  | tuple apart _ _ _ ih =>
    obtain ⟨m, rfl⟩ := positive apart bound
    refine depth_le_succ_iff.mpr fun u hu => ?_
    obtain ⟨i, hi⟩ := List.getElem?_of_mem hu
    refine ih i u hi fun p hp => ?_
    obtain ⟨t, ht, hpt⟩ := mem_parts_of_mem_elements hp
    exact concrete bound t ht p hpt

theorem depth_unify?_le {ts : List Ty} {safety : Safety} {u : Ty} {n : Nat}
    (h : unify? ts safety = some u) (bound : ∀ t ∈ ts, t.depth ≤ n) : u.depth ≤ n :=
  (common_of_unify? h).depth_le bound

theorem depth_merged_le {ts : List Ty} {n : Nat} (bound : ∀ t ∈ ts, t.depth ≤ n) (hn : 0 < n) :
    (merged ts).depth ≤ n := by
  unfold merged
  cases h : unify? ts .risky with
  | none => exact hn
  | some u => exact depth_unify?_le h bound

/-- A refined type is no deeper than the declared type or the input. -/
theorem Refines.depth_le {d i r : Ty} {n : Nat} (h : Refines d i r) (hd : d.depth ≤ n)
    (hi : i.depth ≤ n) : r.depth ≤ n := by
  have positive : ∀ {t : Ty} {n : Nat}, t.depth ≤ n → ∃ m, n = m + 1 := by
    intro t n h
    have hpos := t.depth_pos
    exact ⟨n - 1, by omega⟩
  induction h generalizing n with
  | blank | primitive | capsule => exact hd
  | hole => exact hi
  | map _ ih | sequence _ ih =>
    obtain ⟨m, rfl⟩ := positive hd
    simp only [depth_le_succ_iff, parts, List.forall_mem_singleton] at hd hi ⊢
    exact ih hd hi
  | gather _ ih | collect _ ih =>
    obtain ⟨m, rfl⟩ := positive hd
    simp only [depth_le_succ_iff, parts, List.forall_mem_singleton] at hd hi ⊢
    exact ih hd (depth_merged_le hi (Nat.lt_of_lt_of_le (depth_pos _) hd))
  | @select ds rs i layout _ ih =>
    obtain ⟨m, rfl⟩ := positive hd
    simp only [depth_le_succ_iff, parts, List.forall_mem_singleton, List.forall_mem_map] at hd hi ⊢
    refine forall_mem_of_getElem? (length_eq_of_layout layout).symm fun k d r hdk hrk => ?_
    exact ih k d r hdk hrk (hd d (List.mem_of_getElem? hdk)) hi
  | @object ds is rs layout _ missing ih =>
    obtain ⟨m, rfl⟩ := positive hd
    simp only [depth_le_succ_iff, parts, List.forall_mem_map] at hd hi ⊢
    refine forall_mem_of_getElem? (length_eq_of_layout layout).symm fun k d r hdk hrk => ?_
    have hdepth := hd d (List.mem_of_getElem? hdk)
    cases hfind : Named.find? d.name is with
    | none => exact missing k d r hdk hrk hfind ▸ hdepth
    | some i => exact ih k d i r hdk hrk hfind hdepth (hi i (Named.mem_of_find? hfind).1)
  | @tuple ds is rs input length _ ih =>
    obtain ⟨m, rfl⟩ := positive hd
    simp only [depth_le_succ_iff, parts] at hd hi ⊢
    refine forall_mem_of_getElem? length.symm fun k d r hdk hrk => ?_
    obtain ⟨i, hik⟩ := exists_getElem?_of_length input hdk
    exact ih k d i r hdk hik hrk (hd d (List.mem_of_getElem? hdk)) (hi i (List.mem_of_getElem? hik))

end Ty

/-! ### Heights of values -/

namespace Value

theorem heightAll_le_iff {vs : List Value} {n : Nat} :
    heightAll vs ≤ n ↔ ∀ v ∈ vs, v.height ≤ n := by
  induction vs with
  | nil => simp [heightAll]
  | cons v vs ih => simp only [heightAll, Nat.max_le, ih, List.forall_mem_cons]

theorem heightEntries_le_iff {es : List (String × Value)} {n : Nat} :
    heightEntries es ≤ n ↔ ∀ e ∈ es, e.2.height ≤ n := by
  induction es with
  | nil => simp [heightEntries]
  | cons e es ih => simp only [heightEntries, Nat.max_le, ih, List.forall_mem_cons]

theorem height_pos (v : Value) : 0 < v.height := by
  cases v with
  | null t | unknown t => exact t.depth_pos
  | _ =>
    simp only [height]
    omega

@[simp] theorem height_sequence_le_iff {k : SequenceKind} {e : Ty} {items : List Value} {n : Nat} :
    (Value.sequence k e items).height ≤ n + 1 ↔ e.depth ≤ n ∧ ∀ v ∈ items, v.height ≤ n := by
  rw [height, ← heightAll_le_iff]
  omega

@[simp] theorem height_map_le_iff {e : Ty} {entries : List (String × Value)} {n : Nat} :
    (Value.map e entries).height ≤ n + 1 ↔ e.depth ≤ n ∧ ∀ x ∈ entries, x.2.height ≤ n := by
  rw [height, ← heightEntries_le_iff]
  omega

@[simp] theorem height_tuple_le_iff {items : List Value} {n : Nat} :
    (Value.tuple items).height ≤ n + 1 ↔ ∀ v ∈ items, v.height ≤ n := by
  rw [height, ← heightAll_le_iff]
  omega

@[simp] theorem height_object_le_iff {attributes : List (String × Value)} {n : Nat} :
    (Value.object attributes).height ≤ n + 1 ↔ ∀ x ∈ attributes, x.2.height ≤ n := by
  rw [height, ← heightEntries_le_iff]
  omega

/-- The type of a value is no deeper than the value. -/
theorem depth_ty_le {v : Value} {n : Nat} (h : v.height ≤ n) : v.ty.depth ≤ n := by
  induction v generalizing n with
  | null t | unknown t | string | number | bool | capsule => exact h
  | sequence k e items | map e entries =>
    simp only [ty, Ty.depth, height] at h ⊢
    omega
  | tuple items ih =>
    obtain ⟨m, rfl⟩ : ∃ m, n = m + 1 := ⟨n - 1, by rw [height] at h; omega⟩
    rw [height_tuple_le_iff] at h
    rw [ty, tyAll_eq_map, Ty.depth_le_succ_iff]
    exact List.forall_mem_map.mpr fun v hv => ih v hv (h v hv)
  | object attributes ih =>
    obtain ⟨m, rfl⟩ : ∃ m, n = m + 1 := ⟨n - 1, by rw [height] at h; omega⟩
    rw [height_object_le_iff] at h
    rw [ty, tyAttributes_eq_map, Ty.depth_le_succ_iff, Ty.parts, List.map_map]
    exact List.forall_mem_map.mpr fun x hx => ih x hx (h x hx)

/-- Sets drop items, which makes nothing deeper. -/
theorem height_collect_le {k : SequenceKind} {e : Ty} {items : List Value} {n : Nat}
    (he : e.depth ≤ n) (h : ∀ v ∈ items, v.height ≤ n) : (collect k e items).height ≤ n + 1 := by
  cases k with
  | list => exact height_sequence_le_iff.mpr ⟨he, h⟩
  | set => exact height_sequence_le_iff.mpr ⟨he, fun v hv => h v (mem_of_mem_dedupFrom hv)⟩

/-- Plain data has no depth of its own, and no more has a null of a primitive type. -/
theorem height_toPrimitive {q : Primitive} {v w : Value} (h : v.toPrimitive q = .ok w) :
    w.height = 1 := by
  have hty : w.ty = .primitive q := by
    cases v with
    | null t | unknown t => cases h; rfl
    | _ => exact (ty_toPrimitive rfl h).1
  cases w with
  | null t | unknown t => exact congrArg Ty.depth hty
  | string | number | bool => rfl
  | _ => cases hty

end Value

/-! ### Results that coincide -/

section Coincide

variable {α β : Type}

/-- Two results are the same, and a success has the property. -/
def Coincide (P : α → Prop) (x y : Except Fault α) : Prop := x = y ∧ ∀ a, x = .ok a → P a

variable {P : α → Prop} {Q : β → Prop}

theorem Coincide.ok {a : α} (h : P a) : Coincide P (.ok a) (.ok a) :=
  ⟨rfl, by rintro _ ⟨⟩; exact h⟩

theorem Coincide.error {f : Fault} : Coincide P (.error f) (.error f) :=
  ⟨rfl, by rintro _ ⟨⟩⟩

theorem Coincide.of_eq {x : Except Fault α} (h : ∀ a, x = .ok a → P a) : Coincide P x x :=
  ⟨rfl, h⟩

theorem Coincide.bind {x y : Except Fault α} {f g : α → Except Fault β} (h : Coincide P x y)
    (next : ∀ a, P a → Coincide Q (f a) (g a)) : Coincide Q (x.bind f) (y.bind g) := by
  obtain ⟨rfl, hx⟩ := h
  cases x with
  | error e => exact .error
  | ok a => exact next a (hx a rfl)

theorem Coincide.map {x y : Except Fault α} {f : α → β} (h : Coincide P x y)
    (next : ∀ a, P a → Q (f a)) : Coincide Q (x.map f) (y.map f) := by
  obtain ⟨rfl, hx⟩ := h
  cases x with
  | error e => exact .error
  | ok a => exact .ok (next a (hx a rfl))

theorem Coincide.locate {step : Step} {x y : Except Fault α} (h : Coincide P x y) :
    Coincide P (Conversion.locate step x) (Conversion.locate step y) :=
  ⟨congrArg _ h.1, fun a ha => h.2 a (Conversion.locate_eq_ok_iff.mp ha)⟩

theorem Coincide.mapM {f g : α → Except Fault β} {as : List α}
    (h : ∀ a ∈ as, Coincide Q (f a) (g a)) :
    Coincide (fun bs => ∀ b ∈ bs, Q b) (as.mapM f) (as.mapM g) := by
  induction as with
  | nil => exact .ok (by simp)
  | cons a as ih =>
    rw [List.mapM_cons, List.mapM_cons]
    refine (h a List.mem_cons_self).bind fun b hb => ?_
    refine (ih fun a ha => h a (List.mem_cons_of_mem _ ha)).bind fun bs hbs => ?_
    exact .ok (List.forall_mem_cons.mpr ⟨hb, hbs⟩)

end Coincide

namespace Conversion

/-! ### Conversions of a depth -/

/-- The types that a conversion goes to are within a depth, each of them at its place: what stands
one level below is within one less. -/
inductive Within : Nat → Conversion → Prop
  | identity {n : Nat} : Within n .identity
  | deferred {n : Nat} {t : Ty} (target : t.depth ≤ n) : Within n (.deferred t)
  | covering {n : Nat} {t : Ty} {c : Conversion} (target : t.depth ≤ n)
      (shut : ∀ u, c ≠ .deferred u) (inner : Within n c) : Within n (.covering t c)
  | primitive {n : Nat} {q : Primitive} : Within n (.primitive q)
  | eachItem {n : Nat} {l : SequenceKind} {c : Conversion} {e : Ty} (inner : Within n c)
      (element : e.depth ≤ n) : Within (n + 1) (.eachItem l c e)
  | eachEntry {n : Nat} {c : Conversion} {e : Ty} (inner : Within n c) (element : e.depth ≤ n) :
      Within (n + 1) (.eachEntry c e)
  | positions {n : Nat} {l : SequenceKind} {cs : List Conversion} {e : Ty}
      (each : ∀ c ∈ cs, Within n c) (element : e.depth ≤ n) : Within (n + 1) (.positions l cs e)
  | gather {n : Nat} {cs : List (String × Conversion)} {e : Ty} (each : ∀ c ∈ cs, Within n c.2)
      (element : e.depth ≤ n) : Within (n + 1) (.gather cs e)
  | tuple {n : Nat} {cs : List Conversion} (each : ∀ c ∈ cs, Within n c) :
      Within (n + 1) (.tuple cs)
  | object {n : Nat} {slots : List (Slot Conversion)}
      (targets : ∀ slot ∈ slots, slot.target.type.depth ≤ n)
      (each : ∀ slot ∈ slots, Within n slot.conversion) : Within (n + 1) (.object slots)
  | select {n : Nat} {slots : List (Slot Conversion)}
      (targets : ∀ slot ∈ slots, slot.target.type.depth ≤ n)
      (each : ∀ slot ∈ slots, Within n slot.conversion) : Within (n + 1) (.select slots)

theorem Elects.depth_le {safety : Safety} {parts : List Ty} {t e : Ty} {n : Nat}
    (h : Elects safety parts t e) (ht : t.depth ≤ n) (hparts : ∀ p ∈ parts, p.depth ≤ n) :
    e.depth ≤ n := by
  cases h with
  | common _ unified => exact Ty.depth_unify?_le unified hparts
  | declared => exact ht

/-- A conversion between types of a depth is within that depth. -/
theorem within_of_between? {source target : Ty} {safety : Safety} {c : Conversion} {n : Nat}
    (h : between? source target safety = some c) (hs : source.depth ≤ n) (ht : target.depth ≤ n) :
    Within n c := by
  induction n generalizing source target c with
  | zero => exact absurd hs (Nat.not_le.mpr source.depth_pos)
  | succ n ih =>
    have hcover : target.stripped.depth ≤ n + 1 := by simpa using ht
    have hs' := Ty.depth_le_succ_iff.mp hs
    have ht' := Ty.depth_le_succ_iff.mp ht
    cases rule_of_between? h with
    | same => exact .covering hcover nofun .identity
    | pass => exact .identity
    | later => exact .deferred ht
    | primitive => exact .covering hcover nofun .primitive
    | sequence permitted element =>
      have helement := ht' _ List.mem_cons_self
      exact .covering hcover nofun
        (.eachItem (ih element (hs' _ List.mem_cons_self) helement) helement)
    | map element =>
      have helement := ht' _ List.mem_cons_self
      exact .covering hcover nofun
        (.eachEntry (ih element (hs' _ List.mem_cons_self) helement) helement)
    | positions permitted elects length each =>
      have helement := elects.depth_le (ht' _ List.mem_cons_self) hs'
      refine .covering hcover nofun (.positions (fun c hc => ?_) helement)
      obtain ⟨i, hi⟩ := List.getElem?_of_mem hc
      obtain ⟨s, hsi⟩ := exists_getElem?_of_length length hi
      exact ih (each i s c hsi hi) (hs' s (List.mem_of_getElem? hsi)) helement
    | gather elects names each =>
      have helement := elects.depth_le (ht' _ List.mem_cons_self) hs'
      refine .covering hcover nofun (.gather (fun c hc => ?_) helement)
      obtain ⟨i, hi⟩ := List.getElem?_of_mem hc
      obtain ⟨a, ha, -⟩ := Named.exists_getElem? names hi
      exact ih (each i a c ha hi) (hs' _ (List.mem_map_of_mem (List.mem_of_getElem? ha))) helement
    | tuple arity length each =>
      refine .covering hcover nofun (.tuple fun c hc => ?_)
      obtain ⟨i, hi⟩ := List.getElem?_of_mem hc
      obtain ⟨s, hsi⟩ := exists_getElem?_of_length length hi
      obtain ⟨t, hti⟩ := exists_getElem?_of_length arity.symm hsi
      exact ih (each i s t c hsi hti hi) (hs' s (List.mem_of_getElem? hsi))
        (ht' t (List.mem_of_getElem? hti))
    | @object as bs slots known targets found missing =>
      subst targets
      have htarget : ∀ slot ∈ slots, slot.target.type.depth ≤ n := fun slot hslot =>
        ht' _ (List.mem_map_of_mem (List.mem_map_of_mem hslot))
      refine .covering hcover nofun (.object htarget fun slot hslot => ?_)
      cases hfind : Named.find? slot.target.name as with
      | some a =>
        exact ih (found slot hslot a hfind)
          (hs' _ (List.mem_map_of_mem (Named.mem_of_find? hfind).1)) (htarget slot hslot)
      | none =>
        rw [(missing slot hslot hfind).2]
        exact .deferred (htarget slot hslot)
    | @select s bs slots permitted targets each =>
      subst targets
      have htarget : ∀ slot ∈ slots, slot.target.type.depth ≤ n := fun slot hslot =>
        ht' _ (List.mem_map_of_mem (List.mem_map_of_mem hslot))
      exact .covering hcover nofun (.select htarget fun slot hslot =>
        ih (each slot hslot) (hs' _ List.mem_cons_self) (htarget slot hslot))

/-! ### Ways of converting that agree up to a depth -/

/-- Two ways of converting do the same in tasks up to a size, and what comes of such a task is
no larger. -/
def AgreeTo (n : Nat) (f g : Value → Ty → Except Fault Value) : Prop :=
  ∀ v t, Value.rank v t ≤ n → Coincide (fun w => w.height ≤ Value.rank v t) (f v t) (g v t)

variable {f g : Value → Ty → Except Fault Value} {n : Nat}

theorem AgreeTo.mono {m : Nat} (h : AgreeTo n f g) (hmn : m ≤ n) : AgreeTo m f g :=
  fun v t hrank => h v t (hrank.trans hmn)

theorem AgreeTo.coincide (h : AgreeTo n f g) {v : Value} {t : Ty} (hv : v.height ≤ n)
    (ht : t.depth ≤ n) : Coincide (fun w => w.height ≤ n) (f v t) (g v t) := by
  have hrank : Value.rank v t ≤ n := Nat.max_le.mpr ⟨hv, ht⟩
  exact ⟨(h v t hrank).1, fun w hw => ((h v t hrank).2 w hw).trans hrank⟩

theorem coincide_refine {d i : Ty} (hd : d.depth ≤ n) (hi : i.depth ≤ n) :
    Coincide (fun r => r.depth ≤ n) (d.refine i) (d.refine i) :=
  .of_eq fun _ hr => (Ty.refine_eq_ok_iff.mp hr).depth_le hd hi

theorem coincide_eachPart {h k : Value → Except Fault Value} {parts : List (Step × Value)}
    (each : ∀ part ∈ parts, Coincide (fun w => w.height ≤ n) (h part.2) (k part.2)) :
    Coincide (fun done : List (Step × Value) => ∀ part ∈ done, part.2.height ≤ n)
      (eachPart h parts) (eachPart k parts) :=
  .mapM fun part hpart => (each part hpart).locate.map fun _ hw => hw

/-- Parts of a depth settle on parts of a type of that depth. -/
theorem coincide_settle (agree : AgreeTo n f g) {declared : Ty} {parts : List (Step × Value)}
    (hd : declared.depth ≤ n) (hparts : ∀ part ∈ parts, part.2.height ≤ n) :
    Coincide (fun settled : Ty × List Value => settled.1.depth ≤ n ∧ ∀ v ∈ settled.2, v.height ≤ n)
      (settle f declared parts) (settle g declared parts) := by
  have hstripped : declared.stripped.depth ≤ n := by simpa using hd
  unfold settle
  split
  · cases parts with
    | nil => exact .ok ⟨hstripped, by simp⟩
    | cons first rest =>
      have htypes : ∀ t ∈ first.2.ty :: rest.map fun part => part.2.ty, t.depth ≤ n := by
        rw [← List.map_cons (f := fun part : Step × Value => part.2.ty), List.forall_mem_map]
        exact fun part hpart => Value.depth_ty_le (hparts part hpart)
      dsimp only
      split
      · refine .ok ⟨htypes _ List.mem_cons_self, ?_⟩
        rw [← List.map_cons (f := Prod.snd), List.forall_mem_map]
        exact hparts
      · refine Coincide.bind (.of_eq (P := fun u : Ty => u.depth ≤ n) fun u hu => ?_) fun u hu => ?_
        · exact Ty.depth_unify?_le (Ty.unify_eq_ok_iff.mp hu) htypes
        · exact (coincide_eachPart fun part hpart => agree.coincide (hparts part hpart) hu).map
            fun done hdone => ⟨hu, List.forall_mem_map.mpr hdone⟩
  · exact .ok ⟨hstripped, List.forall_mem_map.mpr hparts⟩

theorem coincide_applyAll {cs : List Conversion} {items : List Value}
    (each : ∀ c ∈ cs, ∀ x ∈ items,
      Coincide (fun w => w.height ≤ n) (applyWith f c x) (applyWith g c x)) :
    Coincide (fun done : List (Step × Value) => ∀ part ∈ done, part.2.height ≤ n)
      (applyAll f cs (Value.indexed items)) (applyAll g cs (Value.indexed items)) := by
  rw [applyAll_eq_mapM, applyAll_eq_mapM]
  refine .mapM fun p hp => .map (P := fun w => w.height ≤ n) ?_ fun _ hw => hw
  obtain ⟨hc, hpart⟩ := List.of_mem_zip hp
  exact (each p.1 hc p.2.2 (mem_of_mem_indexed hpart)).locate

theorem coincide_gather {cs : List (String × Conversion)} {attributes : List (String × Value)}
    {v : Value}
    (each : ∀ c ∈ cs, ∀ x ∈ attributes,
      Coincide (fun w => w.height ≤ n) (applyWith f c.2 x.2) (applyWith g c.2 x.2)) :
    Coincide (fun done : List (Step × Value) => ∀ part ∈ done, part.2.height ≤ n)
      (attributes.mapM fun a =>
        match applyNamed f cs a.1 a.2 with
        | some result => (locate (.attr a.1) result).map fun v => (Step.attr a.1, v)
        | none => wrongShape .object v)
      (attributes.mapM fun a =>
        match applyNamed g cs a.1 a.2 with
        | some result => (locate (.attr a.1) result).map fun v => (Step.attr a.1, v)
        | none => wrongShape .object v) := by
  refine .mapM fun x hx => ?_
  rw [applyNamed_eq_map, applyNamed_eq_map]
  cases hfind : Named.find? x.1 cs with
  | none => exact .error
  | some c => exact (each c (Named.mem_of_find? hfind).1 x hx).locate.map fun _ hw => hw

theorem coincide_fill {step : String → Step} {slots : List (Slot Conversion)}
    {entries : List (String × Value)}
    (htargets : ∀ slot ∈ slots, slot.target.type.depth ≤ n)
    (each : ∀ slot ∈ slots, ∀ x ∈ entries,
      Coincide (fun w => w.height ≤ n) (applyWith f slot.conversion x.2)
        (applyWith g slot.conversion x.2)) :
    Coincide (fun filled : List (String × Value) => ∀ x ∈ filled, x.2.height ≤ n)
      (fill f step slots entries) (fill g step slots entries) := by
  rw [fill_eq_mapM, fill_eq_mapM]
  refine .mapM fun slot hslot => .map (P := fun w => w.height ≤ n) ?_ fun _ hw => hw
  cases hfind : Named.find? slot.target.name entries with
  | some x => exact (each slot hslot x (Named.mem_of_find? hfind).1).locate
  | none =>
    dsimp only [absent]
    split
    · exact .ok (by simpa [Value.height] using htargets slot hslot)
    · exact .error

/-- **Step.** A conversion within a depth takes the ways of converting only to tasks below that
depth, unless it is left open, and makes nothing deeper of a value of that depth. -/
theorem Within.coincide {m : Nat} {c : Conversion} {v : Value} (h : Within m c) (hm : m = n + 1)
    (agree : AgreeTo n f g) (later : ∀ t, c = .deferred t → AgreeTo (n + 1) f g)
    (hv : v.height ≤ n + 1) :
    Coincide (fun w => w.height ≤ n + 1) (applyWith f c v) (applyWith g c v) := by
  -- a part is one level below, where the ways of converting agree even on what is left open
  have below : ∀ {n : Nat} {c : Conversion} {v : Value},
      (∀ {n' : Nat} {v : Value}, n = n' + 1 → AgreeTo n' f g →
        (∀ t, c = .deferred t → AgreeTo (n' + 1) f g) → v.height ≤ n' + 1 →
        Coincide (fun w => w.height ≤ n' + 1) (applyWith f c v) (applyWith g c v)) →
      AgreeTo n f g → v.height ≤ n →
      Coincide (fun w => w.height ≤ n) (applyWith f c v) (applyWith g c v) := by
    intro n c v ih agree hv
    obtain ⟨n, rfl⟩ : ∃ m, n = m + 1 := ⟨n - 1, by have := v.height_pos; omega⟩
    exact ih rfl (agree.mono (Nat.le_succ n)) (fun _ _ => agree) hv
  induction h generalizing n v with
  | identity => exact .ok hv
  | @deferred m t ht =>
    subst hm
    have hstripped : t.stripped.depth ≤ n + 1 := by simpa using ht
    unfold applyWith
    split
    · exact .ok hstripped
    · exact .ok hstripped
    · exact (later t rfl).coincide hv ht
  | @covering m t inner ht shut inside ih =>
    subst hm
    have data := @ih n v rfl agree (fun u hu => absurd hu (shut u)) hv
    cases v with
    | null i | unknown i => exact (coincide_refine ht hv).map fun _ hr => hr
    | _ => exact data
  | primitive =>
    refine .of_eq fun w hw => ?_
    rw [Value.height_toPrimitive hw]
    omega
  | eachItem _ element ih =>
    cases hm
    cases v with
    | sequence k own items =>
      obtain ⟨hown, hitems⟩ := Value.height_sequence_le_iff.mp hv
      rw [applyWith, applyWith]
      split
      · refine (coincide_refine element hown).map fun r hr => ?_
        simpa using hr
      · refine (coincide_eachPart fun part hpart => ?_).bind fun parts hparts =>
          (coincide_settle agree element hparts).map fun settled hsettled =>
            Value.height_collect_le hsettled.1 hsettled.2
        exact below ih agree (hitems _ (mem_of_mem_indexed hpart))
    | _ => exact .error
  | eachEntry _ element ih =>
    cases hm
    cases v with
    | map own entries =>
      obtain ⟨hown, hentries⟩ := Value.height_map_le_iff.mp hv
      rw [applyWith, applyWith]
      split
      · refine (coincide_refine element hown).map fun r hr => ?_
        simpa using hr
      · refine (coincide_eachPart fun part hpart => ?_).bind fun parts hparts =>
          (coincide_settle agree element hparts).map fun settled hsettled =>
            Value.height_map_le_iff.mpr ⟨hsettled.1, fun x hx =>
              hsettled.2 _ (List.of_mem_zip hx).2⟩
        obtain ⟨x, hx, rfl⟩ := List.mem_map.mp hpart
        exact below ih agree (hentries x hx)
    | _ => exact .error
  | positions _ element ih =>
    cases hm
    cases v with
    | tuple items =>
      rw [Value.height_tuple_le_iff] at hv
      rw [applyWith, applyWith]
      split
      · split
        · exact .ok (by simpa using element)
        · exact (coincide_applyAll fun c hc x hx => below (ih c hc) agree (hv x hx)).bind
            fun parts hparts => (coincide_settle agree element hparts).map
              fun settled hsettled => Value.height_collect_le hsettled.1 hsettled.2
      · exact .error
    | _ => exact .error
  | gather _ element ih =>
    cases hm
    cases v with
    | object attributes =>
      rw [Value.height_object_le_iff] at hv
      rw [applyWith, applyWith]
      split
      · exact .ok (by simpa using element)
      · exact (coincide_gather fun c hc x hx => below (ih c hc) agree (hv x hx)).bind
          fun parts hparts => (coincide_settle agree element hparts).map fun settled hsettled =>
            Value.height_map_le_iff.mpr ⟨hsettled.1, fun x hx =>
              hsettled.2 _ (List.of_mem_zip hx).2⟩
    | _ => exact .error
  | tuple _ ih =>
    cases hm
    cases v with
    | tuple items =>
      rw [Value.height_tuple_le_iff] at hv
      rw [applyWith, applyWith]
      split
      · exact (coincide_applyAll fun c hc x hx => below (ih c hc) agree (hv x hx)).map
          fun parts hparts => Value.height_tuple_le_iff.mpr (List.forall_mem_map.mpr hparts)
      · exact .error
    | _ => exact .error
  | object targets _ ih =>
    cases hm
    cases v with
    | object attributes =>
      rw [Value.height_object_le_iff] at hv
      rw [applyWith, applyWith]
      exact Coincide.bind (.of_eq (P := fun _ => True) fun _ _ => trivial) fun _ _ =>
        (coincide_fill targets fun slot hslot x hx => below (ih slot hslot) agree (hv x hx)).map
          fun _ => Value.height_object_le_iff.mpr
    | _ => exact .error
  | select targets _ ih =>
    cases hm
    cases v with
    | map own entries =>
      rw [Value.height_map_le_iff] at hv
      rw [applyWith, applyWith]
      exact Coincide.bind (.of_eq (P := fun _ => True) fun _ _ => trivial) fun _ _ =>
        (coincide_fill targets fun slot hslot x hx => below (ih slot hslot) agree (hv.2 x hx)).map
          fun _ => Value.height_object_le_iff.mpr
    | _ => exact .error

/-- A null or an unknown of the placeholder type takes the type that it is converted to; it is not
converted in turn. -/
theorem Plan.coincide_blank {safety : Safety} {v : Value} {t : Ty} {c : Conversion}
    (plan : Plan safety v.ty t c) (blank : v.ty = .dynamic) (ht : t.depth ≤ n)
    (hv : v.height ≤ n) :
    Coincide (fun w => w.height ≤ n) (applyWith f c v) (applyWith g c v) := by
  have hrefine : Coincide (fun r => r.depth ≤ n) (t.stripped.refine v.ty)
      (t.stripped.refine v.ty) := coincide_refine (by simpa using ht) (Value.depth_ty_le hv)
  cases v with
  | null i =>
    have hnull : ∀ f, applyWith f c (.null i) = (t.stripped.refine i).map .null :=
      fun f => (plan.applyWith_blank f).1
    rw [hnull, hnull]
    exact hrefine.map fun _ hr => hr
  | unknown i =>
    have hunknown : ∀ f, applyWith f c (.unknown i) = (t.stripped.refine i).map .unknown :=
      fun f => (plan.applyWith_blank f).2
    rw [hunknown, hunknown]
    exact hrefine.map fun _ hr => hr
  | _ => cases blank

/-- Only conversions of placeholders are left open. -/
theorem Plan.source_eq_dynamic {safety : Safety} {s t u : Ty} (plan : Plan safety s t (.deferred u)) :
    s = .dynamic := by
  cases plan
  rfl

end Conversion

namespace Value

open Conversion

theorem rank_pos (v : Value) (t : Ty) : 0 < rank v t :=
  Nat.lt_of_lt_of_le v.height_pos (Nat.le_max_left _ _)

/-- **Run.** Any number of levels that is at least the size of a task does the same in it. -/
theorem agreeTo_convertWithin {n a b : Nat} (ha : n ≤ a) (hb : n ≤ b) :
    AgreeTo n (convertWithin a) (convertWithin b) := by
  induction n generalizing a b with
  | zero => exact fun v t hrank => absurd (rank_pos v t) (Nat.not_lt.mpr hrank)
  | succ n ih =>
    obtain ⟨a, rfl⟩ : ∃ k, a = k + 1 := ⟨a - 1, by omega⟩
    obtain ⟨b, rfl⟩ : ∃ k, b = k + 1 := ⟨b - 1, by omega⟩
    intro v t hrank
    rw [convertWithin, convertWithin]
    split
    · exact .ok (Nat.le_max_left _ _)
    cases hbetween : between? v.ty t .risky with
    | none => exact .error
    | some c =>
      have plan := plan_of_between? hbetween
      obtain ⟨m, hm⟩ : ∃ m, rank v t = m + 1 := ⟨rank v t - 1, by have := rank_pos v t; omega⟩
      have hv : v.height ≤ m + 1 := hm ▸ Nat.le_max_left _ _
      have ht : t.depth ≤ m + 1 := hm ▸ Nat.le_max_right _ _
      have hs := depth_ty_le hv
      have within := within_of_between? hbetween hs ht
      have agree : AgreeTo m (convertWithin a) (convertWithin b) :=
        (ih (by omega) (by omega)).mono (by omega)
      rw [hm]
      by_cases blank : v.ty = .dynamic
      · exact plan.coincide_blank blank ht hv
      · exact within.coincide rfl agree (fun u hu => absurd (hu ▸ plan).source_eq_dynamic blank) hv

theorem convertWithin_eq_convert {n : Nat} {v : Value} {t : Ty} (h : rank v t ≤ n) :
    convertWithin n v t = convert v t :=
  (agreeTo_convertWithin h (Nat.le_refl _) v t (Nat.le_refl _)).1

/-- **Unfolding.** A value that is not of the wanted type is converted by the conversion from its
type, with leave to take risks. -/
theorem convert_eq (v : Value) (t : Ty) : v.convert t =
    if v.ty = t then .ok v
    else
      match between? v.ty t .risky with
      | some c => c.apply v
      | none => .error (explain v.ty t) := by
  obtain ⟨m, hm⟩ : ∃ m, rank v t = m + 1 := ⟨rank v t - 1, by have := rank_pos v t; omega⟩
  have hv : v.height ≤ m + 1 := hm ▸ Nat.le_max_left _ _
  have ht : t.depth ≤ m + 1 := hm ▸ Nat.le_max_right _ _
  have agree : AgreeTo (m + 1) (convertWithin (m + 1)) convert := fun v' t' hrank =>
    ⟨convertWithin_eq_convert hrank,
      (agreeTo_convertWithin hrank (Nat.le_refl _) v' t' (Nat.le_refl _)).2⟩
  rw [← convertWithin_eq_convert (Nat.le_succ _), hm, convertWithin]
  split
  · rfl
  cases h : between? v.ty t .risky with
  | none => rfl
  | some c =>
    exact ((within_of_between? h (depth_ty_le hv) ht).coincide rfl (agree.mono (Nat.le_succ m))
      (fun _ _ => agree) hv).1

theorem convert_of_ty_eq {v : Value} {t : Ty} (h : v.ty = t) : v.convert t = .ok v := by
  rw [convert_eq, if_pos h]

theorem convert_of_between? {v : Value} {t : Ty} {c : Conversion} (hne : v.ty ≠ t)
    (h : between? v.ty t .risky = some c) : v.convert t = c.apply v := by
  rw [convert_eq, if_neg hne, h]

end Value

end Retype
