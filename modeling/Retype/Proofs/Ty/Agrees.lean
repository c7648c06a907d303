import Retype.Proofs.Ty.Conforms
import Retype.Proofs.Unification

/-!
# Types that agree

Two types agree if they are the same tree except where one of them has a placeholder
(`Ty.Agrees`); optional marks play no part. Agreement is conformance without a direction: types
without placeholders agree only if they are the same, marks aside (`Agrees.stripped_eq`).

Types that convert to each other without risk, and without turning a primitive into another,
agree (`agrees_of_reaches`): every such conversion that leads to another kind of type leads in one
direction only.
-/

namespace Retype

namespace Ty

/-- The types are the same tree except where one of them has a placeholder. -/
inductive Agrees : Ty → Ty → Prop
  | left {t : Ty} : Agrees .dynamic t
  | right {t : Ty} : Agrees t .dynamic
  | primitive {k : Primitive} : Agrees (.primitive k) (.primitive k)
  | sequence {k : SequenceKind} {s t : Ty} (element : Agrees s t) :
      Agrees (.sequence k s) (.sequence k t)
  | map {s t : Ty} (element : Agrees s t) : Agrees (.map s) (.map t)
  | tuple {ss ts : List Ty} (length : ss.length = ts.length)
      (each : ∀ (i : Nat) s t, ss[i]? = some s → ts[i]? = some t → Agrees s t) :
      Agrees (.tuple ss) (.tuple ts)
  | object {as bs : List (Attribute Ty)} (names : Named.names as = Named.names bs)
      (each : ∀ (i : Nat) (a b : Attribute Ty), as[i]? = some a → bs[i]? = some b →
        Agrees a.type b.type) :
      Agrees (.object as) (.object bs)
  | capsule {n : String} : Agrees (.capsule n) (.capsule n)

theorem Conforms.agrees {t p : Ty} (h : t.Conforms p) : t.Agrees p := by
  unfold Conforms at h
  induction h with
  | hole => exact .right
  | primitive => exact .primitive
  | sequence _ ih => exact .sequence ih
  | map _ ih => exact .map ih
  | tuple length _ ih => exact .tuple length ih
  | object names _ ih => exact .object names ih
  | capsule => exact .capsule

theorem agrees_refl (t : Ty) : t.Agrees t := (conforms_refl t).agrees

/-- Where neither type has placeholders, agreement is conformance. -/
theorem Agrees.conforms {t u : Ty} (h : t.Agrees u) (ht : t.hasDynamic = false) :
    t.Conforms u := by
  unfold Conforms
  have inside : ∀ {t p : Ty}, t.hasDynamic = false → p ∈ t.parts → p.hasDynamic = false :=
    fun h hp => (hasDynamic_eq_false_iff.mp h).2 _ hp
  induction h with
  | left => cases ht
  | right => exact .hole trivial
  | primitive => exact .primitive
  | sequence _ ih => exact .sequence (ih ht)
  | map _ ih => exact .map (ih ht)
  | tuple length _ ih =>
    exact .tuple length fun i s t hs ht' =>
      ih i s t hs ht' (inside ht (List.mem_of_getElem? hs))
  | object names _ ih =>
    exact .object names fun i a b ha hb =>
      ih i a b ha hb (inside ht (List.mem_map_of_mem (List.mem_of_getElem? ha)))
  | capsule => exact .capsule

/-- Definite types that agree are the same. -/
theorem Agrees.eq_of_definite {t u : Ty} (h : t.Agrees u) (ht : t.Definite) (hu : u.Definite) :
    t = u :=
  calc t = t.stripped := ht.plain.unmarked.stripped_eq.symm
    _ = u.stripped := (h.conforms ht.solid).stripped_eq hu.solid
    _ = u := hu.plain.unmarked.stripped_eq

/-! ### Conversions both ways -/

theorem widensEach_getElem? {ss ts : List Ty} (h : widensEach ss ts = false) {i : Nat} {s t : Ty}
    (hs : ss[i]? = some s) (ht : ts[i]? = some t) : widens s t = false := by
  induction ss generalizing ts i with
  | nil => simp at hs
  | cons s' ss ih =>
    cases ts with
    | nil => simp at ht
    | cons t' ts =>
      rw [widensEach, Bool.or_eq_false_iff] at h
      cases i with
      | zero =>
        cases hs
        cases ht
        exact h.1
      | succ i => exact ih h.2 hs ht

section Inversion

variable {safety : Safety}

theorem Reaches.of_sequence {k l : SequenceKind} {s t : Ty} (lawful : s.Lawful)
    (h : Reaches safety (.sequence k s) (.sequence l t)) :
    (k = l ∨ SequenceKind.convertible safety k l = true) ∧ Reaches safety s t := by
  obtain ⟨c, plan⟩ := h.converts.plan
  cases plan with
  | same => exact ⟨.inl rfl, lawful.reaches_self⟩
  | sequence permitted element =>
    exact ⟨.inr permitted, converts_of_plan element, fun hsafe => by
      simpa [widens] using h.careful hsafe⟩

theorem Reaches.of_map {s t : Ty} (lawful : s.Lawful) (h : Reaches safety (.map s) (.map t)) :
    Reaches safety s t := by
  obtain ⟨c, plan⟩ := h.converts.plan
  cases plan with
  | same => exact lawful.reaches_self
  | map element =>
    exact ⟨converts_of_plan element, fun hsafe => by simpa [widens] using h.careful hsafe⟩

theorem Reaches.of_tuple {ss ts : List Ty} (lawful : ∀ s ∈ ss, s.Lawful)
    (h : Reaches safety (.tuple ss) (.tuple ts)) :
    ss.length = ts.length ∧
      ∀ (i : Nat) s t, ss[i]? = some s → ts[i]? = some t → Reaches safety s t := by
  obtain ⟨c, plan⟩ := h.converts.plan
  cases plan with
  | same =>
    refine ⟨rfl, fun i s t hs ht => ?_⟩
    obtain rfl : s = t := Option.some.inj (hs.symm.trans ht)
    exact (lawful s (List.mem_of_getElem? hs)).reaches_self
  | tuple arity length each =>
    refine ⟨arity, fun i s t hs ht => ⟨?_, fun hsafe => ?_⟩⟩
    · obtain ⟨c, hc⟩ := exists_getElem?_of_length length.symm hs
      exact converts_of_plan (each i s t c hs ht hc)
    · have careful := h.careful hsafe
      rw [widens] at careful
      exact widensEach_getElem? careful hs ht

/-- A tuple reaches a list or set only if each of its elements reaches the element type. -/
theorem Reaches.of_positions {l : SequenceKind} {ss : List Ty} {t : Ty} (solid : t ≠ .dynamic)
    (h : Reaches safety (.tuple ss) (.sequence l t)) :
    SequenceKind.convertible safety .list l = true ∧ ∀ s ∈ ss, Reaches safety s t := by
  obtain ⟨permitted, parts⟩ := (converts_positions_iff solid).mp h.converts
  refine ⟨permitted, fun s hs => ⟨parts s hs, fun hsafe => ?_⟩⟩
  have careful := h.careful hsafe
  rw [widens, widensSome_eq_any, List.any_eq_false] at careful
  simpa using careful s hs

theorem Reaches.of_gather {as : List (Attribute Ty)} {t : Ty} (solid : t ≠ .dynamic)
    (h : Reaches safety (.object as) (.map t)) : ∀ a ∈ as, Reaches safety a.type t := by
  have parts := (converts_gather_iff solid).mp h.converts
  refine fun a ha => ⟨parts a ha, fun hsafe => ?_⟩
  have careful := h.careful hsafe
  rw [widens, widensSomeAttribute_eq_any, List.any_eq_false] at careful
  simpa using careful a ha

/-- An object reaches another only if that has all its names, and then name by name. -/
theorem Reaches.of_object {as bs : List (Attribute Ty)} (lawful : (Ty.object as).Lawful)
    (h : Reaches safety (.object as) (.object bs)) :
    (∀ a ∈ as, Named.contains a.name bs = true) ∧
      ∀ a ∈ as, ∀ b, Named.find? a.name bs = some b → Named.find? b.name as = some a →
        Reaches safety a.type b.type := by
  have careful : safety = .safe → ∀ a ∈ as, ∀ b, Named.find? a.name bs = some b →
      widens a.type b.type = false := by
    intro hsafe a ha b hb
    have hwidens := h.careful hsafe
    rw [widens, widensAttributes_eq_any, List.any_eq_false] at hwidens
    simpa [hb] using hwidens a ha
  obtain ⟨c, plan⟩ := h.converts.plan
  cases plan with
  | same =>
    refine ⟨fun a ha => ?_, fun a ha b hb _ => ⟨?_, fun hsafe => careful hsafe a ha b hb⟩⟩
    · exact Named.contains_iff.mpr (List.mem_map_of_mem ha)
    · obtain ⟨i, hi⟩ := List.getElem?_of_mem ha
      have hfind : Named.find? a.name as = some a := Named.find?_of_getElem? lawful.ascending hi
      obtain rfl : a = b := Option.some.inj (hfind.symm.trans hb)
      exact converts_refl _
  | object known targets found missing =>
    subst targets
    refine ⟨known, fun a ha b hb hab => ⟨?_, fun hsafe => careful hsafe a ha b hb⟩⟩
    obtain ⟨slot, hslot, rfl⟩ := List.mem_map.mp (Named.mem_of_find? hb).1
    exact converts_of_plan (found slot hslot a hab)

end Inversion

/-- **Agreement.** Types that safely reach each other agree. -/
theorem agrees_of_reaches {t u : Ty} (ht : t.Lawful) (hu : u.Lawful) (htu : Reaches .safe t u)
    (hut : Reaches .safe u t) : t.Agrees u := by
  induction t generalizing u with
  | primitive p =>
    obtain ⟨c, plan⟩ := htu.converts.plan
    cases plan with
    | same => exact .primitive
    | pass => exact .right
    | primitive =>
      have careful := htu.careful rfl
      obtain rfl : p = _ := by simpa [widens] using careful
      exact .primitive
  | sequence k s ih =>
    obtain ⟨c, plan⟩ := htu.converts.plan
    cases plan with
    | same => exact agrees_refl _
    | pass => exact .right
    | @sequence _ l _ t =>
      have hs := (throughout_sequence.mp ht).2
      have ht' := (throughout_sequence.mp hu).2
      obtain ⟨there, hst⟩ := htu.of_sequence hs
      obtain ⟨back, hts⟩ := hut.of_sequence ht'
      -- sets become lists, but lists do not become sets
      obtain rfl : k = l := by
        cases k <;> cases l <;> simp_all [SequenceKind.convertible]
      exact .sequence (ih hs ht' hst hts)
  | map s ih =>
    obtain ⟨c, plan⟩ := htu.converts.plan
    cases plan with
    | same => exact agrees_refl _
    | pass => exact .right
    | map =>
      have hs := (throughout_map.mp ht).2
      have ht' := (throughout_map.mp hu).2
      exact .map (ih hs ht' (htu.of_map hs) (hut.of_map ht'))
    | select permitted => cases permitted
  | tuple ss ih =>
    obtain ⟨c, plan⟩ := htu.converts.plan
    cases plan with
    | same => exact agrees_refl _
    | pass => exact .right
    | tuple =>
      have hss := (throughout_tuple.mp ht).2
      have hts := (throughout_tuple.mp hu).2
      obtain ⟨length, there⟩ := htu.of_tuple hss
      obtain ⟨-, back⟩ := hut.of_tuple hts
      exact .tuple length fun i s t hs ht =>
        ih s (List.mem_of_getElem? hs) (hss s (List.mem_of_getElem? hs))
          (hts t (List.mem_of_getElem? ht)) (there i s t hs ht) (back i t s ht hs)
    | positions =>
      -- no list or set becomes a tuple
      obtain ⟨c', plan'⟩ := hut.converts.plan
      cases plan'
  | object as ih =>
    obtain ⟨c, plan⟩ := htu.converts.plan
    cases plan with
    | same => exact agrees_refl _
    | pass => exact .right
    | @object _ bs =>
      have has := (throughout_object.mp ht).2
      have hbs := (throughout_object.mp hu).2
      obtain ⟨known, there⟩ := htu.of_object ht
      obtain ⟨known', back⟩ := hut.of_object hu
      have names : Named.names as = Named.names bs :=
        Named.names_eq_of_contains ht.ascending hu.ascending known known'
      refine .object names fun i a b ha hb => ?_
      have hmem := List.mem_of_getElem? ha
      have hmem' := List.mem_of_getElem? hb
      obtain ⟨b', hb', hfind⟩ := Named.exists_find?_getElem? hu.ascending names.symm ha
      obtain ⟨a', ha', hfind'⟩ := Named.exists_find?_getElem? ht.ascending names hb
      obtain rfl : a = a' := Option.some.inj (ha.symm.trans ha')
      obtain rfl : b = b' := Option.some.inj (hb.symm.trans hb')
      exact ih a hmem (has a hmem) (hbs b hmem') (there a hmem b hfind hfind')
        (back b hmem' a hfind' hfind)
    | gather =>
      -- a map becomes an object only at a risk
      obtain ⟨c', plan'⟩ := hut.converts.plan
      cases plan' with
      | select permitted => cases permitted
  | capsule n =>
    obtain ⟨c, plan⟩ := htu.converts.plan
    cases plan with
    | same => exact .capsule
    | pass => exact .right
  | dynamic => exact .left

end Ty

end Retype
