import Retype.Proofs.Conversion.Plan
import Retype.Proofs.Named

/-!
# When a conversion exists

`Ty.Converts safety source target` says that there is a conversion from one type to the other,
whatever it does. There is one rule for each pair of shapes that convert (`Converts.sequence`,
`Converts.positions`, …), which leads from conversions of parts to conversions of wholes. The
other direction goes through the plans: types convert exactly when there is a plan
(`Converts.plan`, `converts_of_plan`), and plans are taken apart by their rules. Outside of
placeholders the rules can be read both ways (`converts_sequence_iff` and its companions).

A type *joins* a common type if it converts to it and, where nothing is to be risked, no primitive
inside becomes another (`joins_iff`); `Ty.widens` is read part by part for that.
-/

namespace Retype

namespace Ty

/-- There is a conversion from the source to the target. -/
def Converts (safety : Safety) (source target : Ty) : Prop :=
  (Conversion.between? source target safety).isSome = true

instance (safety : Safety) (source target : Ty) : Decidable (Converts safety source target) :=
  inferInstanceAs (Decidable (_ = true))

variable {safety : Safety}

theorem not_converts_iff {s t : Ty} :
    ¬Converts safety s t ↔ Conversion.between? s t safety = none :=
  Option.not_isSome_iff_eq_none

theorem Converts.plan {s t : Ty} (h : Converts safety s t) :
    ∃ c, Conversion.Plan safety s t c := by
  obtain ⟨c, hc⟩ := Option.isSome_iff_exists.mp h
  exact ⟨c, Conversion.plan_of_between? hc⟩

theorem converts_refl (t : Ty) : Converts safety t t := by
  rw [Converts, Conversion.between?.eq_def, if_pos rfl]
  rfl

/-! ### From parts to wholes -/

theorem converts_dynamic (s : Ty) : Converts safety s .dynamic := by
  by_cases hs : s = .dynamic
  · rw [hs]
    exact converts_refl _
  · rw [Converts, Conversion.between?.eq_def, if_neg hs]
    rfl

theorem dynamic_converts (t : Ty) : Converts safety .dynamic t := by
  by_cases ht : t = .dynamic
  · rw [ht]
    exact converts_refl _
  · rw [Converts, Conversion.between?.eq_def, if_neg (Ne.symm ht)]
    cases t with
    | dynamic => exact absurd rfl ht
    | _ => rfl

theorem Converts.primitive {p q : Primitive} (permitted : Primitive.convertible safety p q = true) :
    Converts safety (.primitive p) (.primitive q) := by
  rw [Converts, Conversion.between?.eq_def, Option.isSome_map]
  split
  · rfl
  · dsimp only
    rw [if_pos permitted]
    rfl

theorem Converts.sequence {k l : SequenceKind} {s t : Ty}
    (permitted : SequenceKind.convertible safety k l = true) (element : Converts safety s t) :
    Converts safety (.sequence k s) (.sequence l t) := by
  rw [Converts] at element
  rw [Converts, Conversion.between?.eq_def, Option.isSome_map]
  split
  · rfl
  · dsimp only
    rw [if_pos permitted, Option.isSome_map, element]

theorem Converts.map {s t : Ty} (element : Converts safety s t) :
    Converts safety (.map s) (.map t) := by
  rw [Converts] at element
  rw [Converts, Conversion.between?.eq_def, Option.isSome_map]
  split
  · rfl
  · dsimp only
    rw [Option.isSome_map, element]

/-- The search settles on what the parts are converted to. -/
theorem elected {parts : List Ty} {t e : Ty} (h : Conversion.Elects safety parts t e) :
    (if t.isDynamic && !parts.isEmpty then unify? parts safety else some t) = some e := by
  cases h with
  | common nonempty unified => simp [isDynamic, nonempty, unified]
  | declared settled =>
    rw [if_neg]
    simp only [Bool.and_eq_true, isDynamic_iff, Bool.not_eq_true', List.isEmpty_eq_false_iff]
    exact fun h => h.2 (settled h.1)

theorem Converts.positions {l : SequenceKind} {ss : List Ty} {t e : Ty}
    (permitted : SequenceKind.convertible safety .list l = true)
    (elects : Conversion.Elects safety ss t e) (each : ∀ s ∈ ss, Converts safety s e) :
    Converts safety (.tuple ss) (.sequence l t) := by
  rw [Converts, Conversion.between?.eq_def, if_neg (by simp), Option.isSome_map]
  dsimp only
  rw [if_pos permitted, elected elects, Option.bind_some, Option.isSome_map]
  exact isSome_mapM.mpr each

theorem Converts.gather {as : List (Attribute Ty)} {t e : Ty}
    (elects : Conversion.Elects safety (as.map (·.type)) t e)
    (each : ∀ a ∈ as, Converts safety a.type e) : Converts safety (.object as) (.map t) := by
  have helected := elected elects
  simp only [List.isEmpty_map] at helected
  rw [Converts, Conversion.between?.eq_def, if_neg (by simp), Option.isSome_map]
  dsimp only
  rw [helected, Option.bind_some, Option.isSome_map, isSome_mapM]
  intro a ha
  rw [Option.isSome_map]
  exact each a ha

theorem Converts.tuple {ss ts : List Ty} (arity : ss.length = ts.length)
    (each : ∀ (i : Nat) s t, ss[i]? = some s → ts[i]? = some t → Converts safety s t) :
    Converts safety (.tuple ss) (.tuple ts) := by
  by_cases hsame : ss = ts
  · rw [hsame]
    exact converts_refl _
  · rw [Converts, Conversion.between?_tuple hsame, if_pos arity, Option.isSome_map, isSome_mapM]
    intro p hp
    obtain ⟨i, hi⟩ := List.getElem?_of_mem hp
    obtain ⟨hs, ht⟩ := List.getElem?_zip_eq_some.mp hi
    exact each i p.1 p.2 hs ht

/-- Objects convert name by name; what the source lacks has to be optional. -/
theorem Converts.object {as bs : List (Attribute Ty)}
    (known : ∀ a ∈ as, Named.contains a.name bs = true)
    (found : ∀ b ∈ bs, ∀ a, Named.find? b.name as = some a → Converts safety a.type b.type)
    (missing : ∀ b ∈ bs, Named.find? b.name as = none → b.optional = true) :
    Converts safety (.object as) (.object bs) := by
  by_cases hsame : as = bs
  · rw [hsame]
    exact converts_refl _
  · rw [Converts, Conversion.between?.eq_def, if_neg (by simpa using hsame), Option.isSome_map]
    dsimp only
    rw [if_pos (List.all_eq_true.mpr known), Option.isSome_map, isSome_mapM]
    intro b hb
    split
    · rename_i a ha
      rw [Option.isSome_map]
      exact found b hb a ha
    · rename_i hnone
      rw [if_pos (missing b hb hnone)]
      rfl

/-- Objects of the same names convert position by position. -/
theorem Converts.objectOfNames {as bs : List (Attribute Ty)} (ascending : Named.Ascending as)
    (names : Named.names as = Named.names bs)
    (each : ∀ (i : Nat) (a b : Attribute Ty), as[i]? = some a → bs[i]? = some b →
      Converts safety a.type b.type) :
    Converts safety (.object as) (.object bs) := by
  refine .object (fun a ha => ?_) (fun b hb a ha => ?_) fun b hb hnone => ?_
  · rw [Named.contains_iff, ← names]
    exact List.mem_map_of_mem ha
  · obtain ⟨i, hi⟩ := List.getElem?_of_mem hb
    exact each i a b (Named.getElem?_of_find? ascending names hi ha) hi
  · obtain ⟨i, hi⟩ := List.getElem?_of_mem hb
    obtain ⟨a, -, ha⟩ := Named.exists_find?_getElem? ascending names hi
    rw [show Named.find? b.name as = some a from ha] at hnone
    cases hnone

theorem Converts.select {s : Ty} {bs : List (Attribute Ty)} (permitted : safety = .risky)
    (each : ∀ b ∈ bs, Converts safety s b.type) : Converts safety (.map s) (.object bs) := by
  rw [Converts, Conversion.between?.eq_def, if_neg (by simp), Option.isSome_map]
  dsimp only
  rw [if_pos permitted, Option.isSome_map, isSome_mapM]
  intro b hb
  rw [Option.isSome_map]
  exact each b hb

/-- What there is a plan for converts. -/
theorem converts_of_plan {s t : Ty} {c : Conversion} (plan : Conversion.Plan safety s t c) :
    Converts safety s t := by
  induction plan with
  | same => exact converts_refl _
  | pass => exact converts_dynamic _
  | later => exact dynamic_converts _
  | primitive permitted => exact .primitive permitted
  | sequence permitted _ ih => exact ih.sequence permitted
  | positions permitted elects length _ ih =>
    refine .positions permitted elects fun s hs => ?_
    obtain ⟨i, hi⟩ := List.getElem?_of_mem hs
    obtain ⟨c, hc⟩ := exists_getElem?_of_length length.symm hi
    exact ih i s c hi hc
  | map _ ih => exact ih.map
  | gather elects names _ ih =>
    refine .gather elects fun a ha => ?_
    obtain ⟨i, hi⟩ := List.getElem?_of_mem ha
    obtain ⟨c, hc, -⟩ := Named.exists_getElem? names.symm hi
    exact ih i a c hi hc
  | tuple arity length _ ih =>
    refine .tuple arity fun i s t hs ht => ?_
    obtain ⟨c, hc⟩ := exists_getElem?_of_length length.symm hs
    exact ih i s t c hs ht hc
  | object known targets _ missing ih =>
    subst targets
    refine .object known (fun b hb a ha => ?_) fun b hb hnone => ?_
    · obtain ⟨slot, hslot, rfl⟩ := List.mem_map.mp hb
      exact ih slot hslot a ha
    · obtain ⟨slot, hslot, rfl⟩ := List.mem_map.mp hb
      exact missing slot hslot hnone
  | select permitted targets _ ih =>
    subst targets
    refine .select permitted fun b hb => ?_
    obtain ⟨slot, hslot, rfl⟩ := List.mem_map.mp hb
    exact ih slot hslot

/-! ### From wholes to parts -/

theorem converts_primitive_iff {p q : Primitive} :
    Converts safety (.primitive p) (.primitive q) ↔ Primitive.convertible safety p q = true := by
  refine ⟨fun h => ?_, .primitive⟩
  obtain ⟨c, plan⟩ := h.plan
  cases plan with
  | same => simp [Primitive.convertible]
  | primitive permitted => exact permitted

theorem converts_sequence_iff {k l : SequenceKind} {s t : Ty} :
    Converts safety (.sequence k s) (.sequence l t) ↔
      SequenceKind.convertible safety k l = true ∧ Converts safety s t := by
  refine ⟨fun h => ?_, fun ⟨permitted, element⟩ => .sequence permitted element⟩
  obtain ⟨c, plan⟩ := h.plan
  cases plan with
  | same => exact ⟨by cases k <;> simp [SequenceKind.convertible], converts_refl s⟩
  | sequence permitted element => exact ⟨permitted, converts_of_plan element⟩

theorem converts_map_iff {s t : Ty} :
    Converts safety (.map s) (.map t) ↔ Converts safety s t := by
  refine ⟨fun h => ?_, .map⟩
  obtain ⟨c, plan⟩ := h.plan
  cases plan with
  | same => exact converts_refl s
  | map element => exact converts_of_plan element

theorem converts_positions_iff {l : SequenceKind} {ss : List Ty} {t : Ty} (solid : t ≠ .dynamic) :
    Converts safety (.tuple ss) (.sequence l t) ↔
      SequenceKind.convertible safety .list l = true ∧ ∀ s ∈ ss, Converts safety s t := by
  refine ⟨fun h => ?_, fun ⟨permitted, each⟩ =>
    .positions permitted (.declared fun hdyn => absurd hdyn solid) each⟩
  obtain ⟨c, plan⟩ := h.plan
  cases plan with
  | positions permitted elects length each =>
    cases elects with
    | common => exact absurd rfl solid
    | declared =>
      refine ⟨permitted, fun s hs => ?_⟩
      obtain ⟨i, hi⟩ := List.getElem?_of_mem hs
      obtain ⟨c, hc⟩ := exists_getElem?_of_length length.symm hi
      exact converts_of_plan (each i s c hi hc)

theorem converts_gather_iff {as : List (Attribute Ty)} {t : Ty} (solid : t ≠ .dynamic) :
    Converts safety (.object as) (.map t) ↔ ∀ a ∈ as, Converts safety a.type t := by
  refine ⟨fun h => ?_, .gather (.declared fun hdyn => absurd hdyn solid)⟩
  obtain ⟨c, plan⟩ := h.plan
  cases plan with
  | gather elects names each =>
    cases elects with
    | common => exact absurd rfl solid
    | declared =>
      intro a ha
      obtain ⟨i, hi⟩ := List.getElem?_of_mem ha
      obtain ⟨c, hc, -⟩ := Named.exists_getElem? names.symm hi
      exact converts_of_plan (each i a c hi hc)

theorem converts_tuple_iff {ss ts : List Ty} :
    Converts safety (.tuple ss) (.tuple ts) ↔ ss.length = ts.length ∧
      ∀ (i : Nat) s t, ss[i]? = some s → ts[i]? = some t → Converts safety s t := by
  refine ⟨fun h => ?_, fun ⟨arity, each⟩ => .tuple arity each⟩
  obtain ⟨c, plan⟩ := h.plan
  cases plan with
  | same =>
    refine ⟨rfl, fun i s t hs ht => ?_⟩
    obtain rfl : s = t := Option.some.inj (hs.symm.trans ht)
    exact converts_refl s
  | tuple arity length each =>
    refine ⟨arity, fun i s t hs ht => ?_⟩
    obtain ⟨c, hc⟩ := exists_getElem?_of_length length.symm hs
    exact converts_of_plan (each i s t c hs ht hc)

theorem converts_object_iff {as bs : List (Attribute Ty)} (ascending : Named.Ascending as) :
    Converts safety (.object as) (.object bs) ↔
      (∀ a ∈ as, Named.contains a.name bs = true) ∧
      (∀ b ∈ bs, ∀ a, Named.find? b.name as = some a → Converts safety a.type b.type) ∧
      ∀ b ∈ bs, Named.find? b.name as = none → b.optional = true := by
  refine ⟨fun h => ?_, fun ⟨known, found, missing⟩ => .object known found missing⟩
  obtain ⟨c, plan⟩ := h.plan
  cases plan with
  | same =>
    have hfind : ∀ a ∈ as, Named.find? a.name as = some a := by
      intro a ha
      obtain ⟨i, hi⟩ := List.getElem?_of_mem ha
      exact Named.find?_of_getElem? ascending hi
    refine ⟨fun a ha => ?_, fun b hb a ha => ?_, fun b hb hnone => ?_⟩
    · rw [← Named.isSome_find?, hfind a ha]
      rfl
    · obtain rfl : b = a := Option.some.inj ((hfind b hb).symm.trans ha)
      exact converts_refl b.type
    · rw [hfind b hb] at hnone
      cases hnone
  | object known targets found missing =>
    subst targets
    refine ⟨known, fun b hb a ha => ?_, fun b hb hnone => ?_⟩
    · obtain ⟨slot, hslot, rfl⟩ := List.mem_map.mp hb
      exact converts_of_plan (found slot hslot a ha)
    · obtain ⟨slot, hslot, rfl⟩ := List.mem_map.mp hb
      exact missing slot hslot hnone

theorem converts_select_iff {s : Ty} {bs : List (Attribute Ty)} :
    Converts safety (.map s) (.object bs) ↔
      safety = .risky ∧ ∀ b ∈ bs, Converts safety s b.type := by
  refine ⟨fun h => ?_, fun ⟨permitted, each⟩ => .select permitted each⟩
  obtain ⟨c, plan⟩ := h.plan
  cases plan with
  | select permitted targets each =>
    subst targets
    refine ⟨permitted, fun b hb => ?_⟩
    obtain ⟨slot, hslot, rfl⟩ := List.mem_map.mp hb
    exact converts_of_plan (each slot hslot)

/-! ### Widening, part by part -/

theorem widens_sequence (k l : SequenceKind) (s t : Ty) :
    widens (.sequence k s) (.sequence l t) = widens s t := by
  rw [widens]

theorem widens_map (s t : Ty) : widens (.map s) (.map t) = widens s t := by
  rw [widens]

theorem widensEach_eq_false {ss ts : List Ty}
    (h : ∀ (i : Nat) s t, ss[i]? = some s → ts[i]? = some t → widens s t = false) :
    widensEach ss ts = false := by
  induction ss generalizing ts with
  | nil => simp [widensEach]
  | cons s ss ih =>
    cases ts with
    | nil => simp [widensEach]
    | cons t ts =>
      rw [widensEach, h 0 s t rfl rfl, ih fun i s t hs ht => h (i + 1) s t hs ht]
      rfl

theorem widensSome_eq_any (ss : List Ty) (t : Ty) : widensSome ss t = ss.any (widens · t) := by
  induction ss with
  | nil => rfl
  | cons s ss ih => simp [widensSome, ih]

theorem widensSomeAttribute_eq_any (as : List (Attribute Ty)) (t : Ty) :
    widensSomeAttribute as t = as.any (widens ·.type t) := by
  induction as with
  | nil => rfl
  | cons a as ih => simp [widensSomeAttribute, ih]

theorem widensAttributes_eq_any (as bs : List (Attribute Ty)) :
    widensAttributes as bs =
      as.any fun a => (Named.find? a.name bs).any fun b => widens a.type b.type := by
  induction as with
  | nil => rfl
  | cons a as ih => simp [widensAttributes, ih]

/-- A type becomes the common type by staying what it is or by a conversion, which in safe mode
turns no primitive into another. -/
theorem joins_iff {u t : Ty} : joins safety u t = true ↔
    t = u ∨ Converts safety t u ∧ (safety = .risky ∨ widens t u = false) := by
  simp [joins, Converts]

theorem Converts.of_joins {u t : Ty} (h : joins safety u t = true) : Converts safety t u := by
  rcases joins_iff.mp h with rfl | ⟨converts, -⟩
  · exact converts_refl _
  · exact converts

end Ty

end Retype
