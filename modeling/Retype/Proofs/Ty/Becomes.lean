import Retype.Proofs.Conversion.Converts
import Retype.Proofs.Homogeneity
import Retype.Proofs.OrderIndependence

/-!
# What types become

A safe conversion is chosen by the types alone. Where the parts of a tuple or an object go into a
collection whose element type has a placeholder inside, the types that they come out with are
brought together only when there is a value. For *full* values, in which no null, unknown or empty
collection hides a part, the source and the target still tell which types these are:

* `Ty.Becomes source target result`: full values of the source come out with the result type. At
  each of the places just mentioned the parts come out with one type, or with a common type that
  each of them converts to safely (`Ty.Agreed`).
* `Ty.Stuck source target`: at some such place the parts come out with types that have nothing in
  common, not even at a risk.
* `Ty.Direct source target`: there are no such places, because wherever a tuple or an object goes
  into a collection, the element type has no placeholder or is one. Then the conversion brings the
  parts together before there is a value, and `Direct.exists_becomes` gives the result type.

The relations leave out parts with a common type that some of them reach at a risk only, or that
has a placeholder itself.
-/

namespace Retype

namespace Conversion

theorem Elects.unique {safety : Safety} {parts : List Ty} {t u u' : Ty}
    (h : Elects safety parts t u) (h' : Elects safety parts t u') : u = u' :=
  Option.some.inj ((Ty.elected h).symm.trans (Ty.elected h'))

/-- A placeholder in the type that parts are converted to was declared. -/
theorem Elects.hasDynamic {safety : Safety} {parts : List Ty} {t u : Ty}
    (h : Elects safety parts t u) (hu : u.hasDynamic = true) : t.hasDynamic = true := by
  cases h with
  | common => rfl
  | declared => exact hu

end Conversion

namespace Ty

open Conversion

/-! ### The type of the result -/

/-- The type that parts of the given types are given in a collection, whatever data they hold: the
one that they all have, or a common type without placeholders that each of them converts to
safely. -/
inductive Agreed (rs : List Ty) (r : Ty) : Prop
  | alike (all : ∀ x ∈ rs, x = r)
  | common (unified : unify? rs .risky = some r) (solid : r.hasDynamic = false)
      (safe : ∀ x ∈ rs, Converts .safe x r)

/-- Full values of the first type that are safely converted to the second come out with the
third. -/
inductive Becomes : Ty → Ty → Ty → Prop
  | solid {s t : Ty} (solid : t.hasDynamic = false) : Becomes s t t.stripped
  | hole {s : Ty} : Becomes s .dynamic s
  | sequence {k l : SequenceKind} {s t r : Ty} (element : Becomes s t r) :
      Becomes (.sequence k s) (.sequence l t) (.sequence l r)
  | map {s t r : Ty} (element : Becomes s t r) : Becomes (.map s) (.map t) (.map r)
  | emptyTuple {l : SequenceKind} {t : Ty} :
      Becomes (.tuple []) (.sequence l t) (.sequence l t.stripped)
  | positions {l : SequenceKind} {ss rs : List Ty} {t u r : Ty} (nonempty : ss ≠ [])
      (elects : Elects .safe ss t u) (length : ss.length = rs.length)
      (each : ∀ (i : Nat) s r, ss[i]? = some s → rs[i]? = some r → Becomes s u r)
      (agreed : Agreed rs r) : Becomes (.tuple ss) (.sequence l t) (.sequence l r)
  | emptyObject {t : Ty} : Becomes (.object []) (.map t) (.map t.stripped)
  | gather {as : List (Attribute Ty)} {rs : List Ty} {t u r : Ty} (nonempty : as ≠ [])
      (elects : Elects .safe (as.map (·.type)) t u) (length : as.length = rs.length)
      (each : ∀ (i : Nat) (a : Attribute Ty) r, as[i]? = some a → rs[i]? = some r →
        Becomes a.type u r)
      (agreed : Agreed rs r) : Becomes (.object as) (.map t) (.map r)
  | tuple {ss ts rs : List Ty} (arity : ss.length = ts.length) (length : ts.length = rs.length)
      (each : ∀ (i : Nat) s t r, ss[i]? = some s → ts[i]? = some t → rs[i]? = some r →
        Becomes s t r) : Becomes (.tuple ss) (.tuple ts) (.tuple rs)
  | object {as bs cs : List (Attribute Ty)} (names : Named.names bs = Named.names cs)
      (required : ∀ c ∈ cs, c.optional = false)
      (found : ∀ (i : Nat) (b a c : Attribute Ty), bs[i]? = some b → cs[i]? = some c →
        Named.find? b.name as = some a → Becomes a.type b.type c.type)
      (missing : ∀ (i : Nat) (b c : Attribute Ty), bs[i]? = some b → cs[i]? = some c →
        Named.find? b.name as = none → c.type = b.type.stripped) :
      Becomes (.object as) (.object bs) (.object cs)

/-- Copies of one type agree on it. -/
theorem Agreed.eq_of_forall_eq {rs : List Ty} {x r : Ty} (h : Agreed rs r) (hne : rs ≠ [])
    (all : ∀ y ∈ rs, y = x) : r = x := by
  cases h with
  | alike same =>
    obtain ⟨y, hy⟩ := List.exists_mem_of_ne_nil _ hne
    rw [← same y hy, all y hy]
  | common unified => exact (common_of_unify? unified).eq_of_forall_eq all

theorem Agreed.eq_of_each {α : Type} {as : List α} {rs : List Ty} {x r : Ty} (h : Agreed rs r)
    (hne : as ≠ []) (hlen : as.length = rs.length)
    (each : ∀ (i : Nat) a y, as[i]? = some a → rs[i]? = some y → y = x) : r = x :=
  h.eq_of_forall_eq (ne_nil_of_length_eq hlen hne) (forall_mem_of_getElem? hlen each)

/-- Where the target has no placeholder the result is the target. -/
theorem Becomes.eq_of_solid {s t r : Ty} (h : Becomes s t r) (solid : t.hasDynamic = false) :
    r = t.stripped := by
  induction h with
  | solid => rfl
  | hole => cases solid
  | sequence _ ih => rw [ih solid]; rfl
  | map _ ih => rw [ih solid]; rfl
  | emptyTuple | emptyObject => rfl
  | positions nonempty elects length each agreed ih =>
    obtain rfl := elects.eq_of_solid solid
    rw [agreed.eq_of_each nonempty length fun i s r hs hr => ih i s r hs hr solid]
    rfl
  | gather nonempty elects length each agreed ih =>
    obtain rfl := elects.eq_of_solid solid
    rw [agreed.eq_of_each nonempty length fun i a r ha hr => ih i a r ha hr solid]
    rfl
  | @tuple ss ts rs arity length each ih =>
    rw [stripped, strippedAll_eq_map, tuple.injEq, ← List.map_id rs]
    refine map_eq_map_of_getElem? length.symm fun i r t hr ht => ?_
    obtain ⟨s, hs⟩ := exists_getElem?_of_length arity ht
    exact ih i s t r hs ht hr ((hasDynamic_eq_false_iff.mp solid).2 t (List.mem_of_getElem? ht))
  | @object as bs cs names required found missing ih =>
    rw [stripped, strippedAttributes_eq_map, object.injEq, ← List.map_id cs]
    refine map_eq_map_of_getElem? (Named.length_eq_of_names names.symm) fun i c b hc hb => ?_
    have htype : c.type = b.type.stripped := by
      cases hfind : Named.find? b.name as with
      | none => exact missing i b c hb hc hfind
      | some a =>
        exact ih i b a c hb hc hfind ((hasDynamic_eq_false_iff.mp solid).2 _
          (List.mem_map_of_mem (List.mem_of_getElem? hb)))
    have hname : b.name = c.name := Named.name_eq_of_names names hb hc
    rw [← htype, hname, ← required c (List.mem_of_getElem? hc), id]

/-! ### Parts without a common type -/

/-- Full values of the first type have parts that come out with types that have nothing in common,
where they are to be brought together on the way to the second. -/
inductive Stuck : Ty → Ty → Prop
  | positions {l : SequenceKind} {ss rs : List Ty} {t u : Ty} (nonempty : ss ≠ [])
      (elects : Elects .safe ss t u) (length : ss.length = rs.length)
      (each : ∀ (i : Nat) s r, ss[i]? = some s → rs[i]? = some r → Becomes s u r)
      (clash : unify? rs .risky = none) : Stuck (.tuple ss) (.sequence l t)
  | gather {as : List (Attribute Ty)} {rs : List Ty} {t u : Ty} (nonempty : as ≠ [])
      (elects : Elects .safe (as.map (·.type)) t u) (length : as.length = rs.length)
      (each : ∀ (i : Nat) (a : Attribute Ty) r, as[i]? = some a → rs[i]? = some r →
        Becomes a.type u r)
      (clash : unify? rs .risky = none) : Stuck (.object as) (.map t)
  | inPositions {l : SequenceKind} {ss : List Ty} {s t u : Ty} (elects : Elects .safe ss t u)
      (source : s ∈ ss) (inside : Stuck s u) : Stuck (.tuple ss) (.sequence l t)
  | inGather {as : List (Attribute Ty)} {a : Attribute Ty} {t u : Ty}
      (elects : Elects .safe (as.map (·.type)) t u) (source : a ∈ as)
      (inside : Stuck a.type u) : Stuck (.object as) (.map t)
  | inSequence {k l : SequenceKind} {s t : Ty} (inside : Stuck s t) :
      Stuck (.sequence k s) (.sequence l t)
  | inMap {s t : Ty} (inside : Stuck s t) : Stuck (.map s) (.map t)
  | inTuple {ss ts : List Ty} {s t : Ty} {i : Nat} (source : ss[i]? = some s)
      (target : ts[i]? = some t) (inside : Stuck s t) : Stuck (.tuple ss) (.tuple ts)
  | inObject {as bs : List (Attribute Ty)} {a b : Attribute Ty} (target : b ∈ bs)
      (source : Named.find? b.name as = some a) (inside : Stuck a.type b.type) :
      Stuck (.object as) (.object bs)

/-- Parts have nothing in common only if the type that they go to has a placeholder. -/
theorem hasDynamic_of_clash {α : Type} {as : List α} {rs : List Ty} {u : Ty} (hne : as ≠ [])
    (hlen : as.length = rs.length)
    (each : ∀ (i : Nat) a r, as[i]? = some a → rs[i]? = some r → ∃ s, Becomes s u r)
    (clash : unify? rs .risky = none) : u.hasDynamic = true := by
  by_contra hsolid
  have all : ∀ y ∈ rs, y = u.stripped := forall_mem_of_getElem? hlen fun i a y ha hy => by
    obtain ⟨s, becomes⟩ := each i a y ha hy
    exact becomes.eq_of_solid (by simpa using hsolid)
  rw [unify?_of_forall_eq (ne_nil_of_length_eq hlen hne) all] at clash
  cases clash

theorem Stuck.hasDynamic {s t : Ty} (h : Stuck s t) : t.hasDynamic = true := by
  induction h with
  | positions nonempty elects length each clash =>
    rw [Ty.hasDynamic]
    exact elects.hasDynamic (hasDynamic_of_clash nonempty length
      (fun i s r hs hr => ⟨s, each i s r hs hr⟩) clash)
  | gather nonempty elects length each clash =>
    rw [Ty.hasDynamic]
    exact elects.hasDynamic (hasDynamic_of_clash nonempty length
      (fun i a r ha hr => ⟨a.type, each i a r ha hr⟩) clash)
  | inPositions elects _ _ ih | inGather elects _ _ ih =>
    rw [Ty.hasDynamic]
    exact elects.hasDynamic ih
  | inSequence _ ih | inMap _ ih => exact ih
  | inTuple _ target _ ih =>
    rw [Ty.hasDynamic, hasDynamicAll_eq_any, List.any_eq_true]
    exact ⟨_, List.mem_of_getElem? target, ih⟩
  | inObject target _ _ ih =>
    rw [Ty.hasDynamic, hasDynamicAttributes_eq_any, List.any_eq_true]
    exact ⟨_, target, ih⟩

/-! ### Nothing to bring together -/

/-- Wherever a tuple or an object goes into a collection, the element type is without placeholders
or is itself the placeholder. -/
inductive Direct : Ty → Ty → Prop
  | solid {s t : Ty} (solid : t.hasDynamic = false) : Direct s t
  | hole {s : Ty} : Direct s .dynamic
  | sequence {k l : SequenceKind} {s t : Ty} (element : Direct s t) :
      Direct (.sequence k s) (.sequence l t)
  | map {s t : Ty} (element : Direct s t) : Direct (.map s) (.map t)
  | positions {l : SequenceKind} {ss : List Ty} : Direct (.tuple ss) (.sequence l .dynamic)
  | gather {as : List (Attribute Ty)} : Direct (.object as) (.map .dynamic)
  | tuple {ss ts : List Ty}
      (each : ∀ (i : Nat) s t, ss[i]? = some s → ts[i]? = some t → Direct s t) :
      Direct (.tuple ss) (.tuple ts)
  | object {as bs : List (Attribute Ty)}
      (each : ∀ b ∈ bs, ∀ a, Named.find? b.name as = some a → Direct a.type b.type) :
      Direct (.object as) (.object bs)

/-- Where types are direct, what full values become follows from the types. -/
theorem Direct.exists_becomes {s t : Ty} (h : Direct s t) (converts : Converts .safe s t)
    (hs : s.Definite) : ∃ r, Becomes s t r := by
  have agreed : ∀ n (u : Ty), Agreed (List.replicate n u) u := fun n u =>
    .alike fun x hx => List.eq_of_mem_replicate hx
  induction h with
  | solid solid => exact ⟨_, .solid solid⟩
  | hole => exact ⟨_, .hole⟩
  | sequence _ ih =>
    obtain ⟨-, element⟩ := converts_sequence_iff.mp converts
    obtain ⟨r, becomes⟩ := ih element (hs.part (by simp [parts]))
    exact ⟨_, .sequence becomes⟩
  | map _ ih =>
    obtain ⟨r, becomes⟩ := ih (converts_map_iff.mp converts) (hs.part (by simp [parts]))
    exact ⟨_, .map becomes⟩
  | @positions l ss =>
    obtain ⟨_, plan⟩ := converts.plan
    cases plan with
    | @positions _ _ _ u _ _ elects =>
      cases elects with
      | common nonempty unified =>
        -- the parts are converted to their common type, which has no placeholder
        have hu := Definite.common (common_of_unify? unified) fun s hmem => hs.part hmem
        refine ⟨_, .positions nonempty (.common nonempty unified) List.length_replicate.symm
          (fun i s r _ hr => ?_) (agreed ss.length u.stripped)⟩
        rw [List.eq_of_mem_replicate (List.mem_of_getElem? hr)]
        exact .solid hu.solid
      | declared settled =>
        rw [settled rfl]
        exact ⟨_, .emptyTuple⟩
  | @gather as =>
    obtain ⟨_, plan⟩ := converts.plan
    cases plan with
    | @gather _ _ u _ elects =>
      cases elects with
      | common nonempty unified =>
        have hu := Definite.common (common_of_unify? unified) fun s hmem => hs.part hmem
        refine ⟨_, .gather (by simpa using nonempty) (.common nonempty unified)
          List.length_replicate.symm (fun i a r _ hr => ?_) (agreed as.length u.stripped)⟩
        rw [List.eq_of_mem_replicate (List.mem_of_getElem? hr)]
        exact .solid hu.solid
      | declared settled =>
        rw [List.map_eq_nil_iff.mp (settled rfl)]
        exact ⟨_, .emptyObject⟩
  | @tuple ss ts each ih =>
    obtain ⟨arity, parts⟩ := converts_tuple_iff.mp converts
    have hpair : ∀ p ∈ ss.zip ts, ∃ r, Becomes p.1 p.2 r := by
      intro p hp
      obtain ⟨i, hi⟩ := List.getElem?_of_mem hp
      obtain ⟨hsi, hti⟩ := List.getElem?_zip_eq_some.mp hi
      exact ih i p.1 p.2 hsi hti (parts i p.1 p.2 hsi hti) (hs.part (List.mem_of_getElem? hsi))
    obtain ⟨rs, hrs⟩ := exists_forall₂ hpair
    obtain ⟨hlen, heach⟩ := forall₂_iff_getElem?.mp hrs
    refine ⟨.tuple rs, .tuple arity (by simpa [arity] using hlen) fun i s t r hsi hti hr => ?_⟩
    exact heach i (s, t) r (List.getElem?_zip_eq_some.mpr ⟨hsi, hti⟩) hr
  | @object as bs each ih =>
    obtain ⟨-, parts, -⟩ := (converts_object_iff (Lawful.ascending hs.plain.lawful)).mp converts
    have hattribute : ∀ b ∈ bs, ∃ c : Attribute Ty, b.name = c.name ∧ c.optional = false ∧
        (∀ a, Named.find? b.name as = some a → Becomes a.type b.type c.type) ∧
        (Named.find? b.name as = none → c.type = b.type.stripped) := by
      intro b hb
      cases hfind : Named.find? b.name as with
      | none => exact ⟨⟨b.name, false, b.type.stripped⟩, rfl, rfl, by simp, fun _ => rfl⟩
      | some a =>
        obtain ⟨r, becomes⟩ := ih b hb a hfind (parts b hb a hfind)
          (hs.part (List.mem_map_of_mem (Named.mem_of_find? hfind).1))
        refine ⟨⟨b.name, false, r⟩, rfl, rfl, fun a' ha' => ?_, by simp⟩
        cases ha'
        exact becomes
    obtain ⟨cs, hcs⟩ := exists_forall₂ hattribute
    obtain ⟨hlen, heach⟩ := forall₂_iff_getElem?.mp hcs
    refine ⟨.object cs, .object (map_eq_map_of_getElem? hlen fun i b c hb hc =>
        (heach i b c hb hc).1) ?_ (fun i b a c hb hc => (heach i b c hb hc).2.2.1 a)
      fun i b c hb hc => (heach i b c hb hc).2.2.2⟩
    exact forall_mem_of_getElem? hlen fun i b c hb hc => (heach i b c hb hc).2.1

end Ty

end Retype
