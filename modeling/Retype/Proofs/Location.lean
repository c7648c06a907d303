import Retype.Proofs.Blueprint
import Retype.Proofs.Conversion.Faults
import Retype.Proofs.Conversion.Levels

/-!
# Where a path leads

A fault has a path, and `Value.at?` follows it from the value that was to be converted. For the
fault of a text that cannot be read the path should end at this very text.

It does wherever the parts of a collection are converted once. If they come out with different
types, because their element type was declared with a placeholder inside, they are converted
again, to a common type; a fault of this second conversion has a path inside the converted part,
which may have another shape than the part itself: an object has become a map, a set has lost
items. `Value.Leads` follows a path beside the conversion, with the types that each part is
converted between (`Ty.Enters`), and allows for this: a part that is converted again is exchanged
for what it was converted to. Up to such an exchange every path leads to the text
(`path_leads_to_literal`), and `Ty.Once` gives a condition on the types under which none is needed.

The proof goes along the path. One conversion fails either right at a text or in a part, with the
rest of the path (`located_of_apply`).
-/

namespace Retype

/-! ### Following a path -/

namespace Value

/-- The value of an entry of a map. -/
def entry? (name : String) : Value → Option Value
  | .map _ entries => (Named.find? name entries).map Prod.snd
  | _ => none

/-- The part behind one step. -/
def step? (v : Value) : Step → Option Value
  | .index position => v.item? position
  | .key name => v.entry? name
  | .attr name => v.attribute? name

/-- The part at the end of a path, if there is a part behind every step. -/
def at? : Value → Path → Option Value
  | v, [] => some v
  | v, step :: rest => (v.step? step).bind fun part => part.at? rest

theorem step?_index_sequence {k : SequenceKind} {e : Ty} {items : List Value} {i : Nat} {x : Value}
    (h : items[i]? = some x) : (Value.sequence k e items).step? (.index i) = some x := h

theorem step?_index_tuple {items : List Value} {i : Nat} {x : Value} (h : items[i]? = some x) :
    (Value.tuple items).step? (.index i) = some x := h

theorem step?_key {e : Ty} {entries : List (String × Value)} {name : String} {x : String × Value}
    (h : Named.find? name entries = some x) : (Value.map e entries).step? (.key name) = some x.2 :=
  congrArg (Option.map Prod.snd) h

theorem step?_attr {attributes : List (String × Value)} {name : String} {x : String × Value}
    (h : Named.find? name attributes = some x) :
    (Value.object attributes).step? (.attr name) = some x.2 :=
  congrArg (Option.map Prod.snd) h

/-- What is behind a step is a member. -/
theorem mem_members_of_step? {v x : Value} {step : Step} (h : v.step? step = some x) :
    x ∈ v.members := by
  cases step with
  | index i =>
    obtain ⟨items, hitems, hx⟩ := Option.bind_eq_some_iff.mp h
    cases v <;> cases hitems <;> exact List.mem_of_getElem? hx
  | key name | attr name =>
    cases v <;> try cases h
    obtain ⟨e, he, rfl⟩ := Option.map_eq_some_iff.mp h
    exact List.mem_map_of_mem (Named.mem_of_find? he).1

end Value

/-! ### Types whose parts are converted once -/

namespace Ty

/-- Whether the type is a list, set or map type with an element type of the given kind. -/
def elementIs (kind : Ty → Bool) (t : Ty) : Bool := t.element?.any kind

/-- Whether there is a placeholder inside the type, though it is not one itself. -/
def isPartial (t : Ty) : Bool := t.hasDynamic && !t.isDynamic

/-- What goes into a collection has the element type after one conversion: no element type of the
target is known in part, and one that is not known at all is found from a source that is known. -/
structure Once (source target : Ty) : Prop where
  elements : target.Lacks (elementIs isPartial)
  known : source.hasDynamic = false ∨ target.Lacks (elementIs isDynamic)

/-- Nothing is left to find in a target without placeholders. -/
theorem once_of_solid {s t : Ty} (solid : t.hasDynamic = false) : Once s t := by
  have lacks : ∀ kind : Ty → Bool, (∀ t, kind t = true → t.hasDynamic = true) →
      t.Lacks (elementIs kind) := by
    intro kind hkind
    induction hn : t.depth using Nat.strongRecOn generalizing t with
    | ind n ih =>
      subst hn
      have hparts := (hasDynamic_eq_false_iff.mp solid).2
      refine .intro ?_ fun p hp => ih _ (depth_lt_of_mem_parts hp) (hparts p hp) rfl
      rw [elementIs, Option.any_eq_false]
      intro e he
      rw [Bool.eq_false_iff]
      intro htrue
      have hopen := hkind e htrue
      rw [hparts e (mem_parts_of_element? he)] at hopen
      cases hopen
  refine ⟨lacks _ fun t ht => ?_, .inr (lacks _ fun t ht => ?_)⟩
  · exact (Bool.and_eq_true_iff.mp ht).1
  · rw [(isDynamic_iff t).mp ht]
    rfl

namespace Once

theorem part {s t p q : Ty} (h : Once s t) (hp : p ∈ s.parts) (hq : q ∈ t.parts) :
    Once p q where
  elements := h.elements.part hq
  known := h.known.imp (fun solid => (hasDynamic_eq_false_iff.mp solid).2 p hp) (·.part hq)

/-- An element type with a placeholder is one, and then the source is known. -/
theorem eq_dynamic {s t e : Ty} (h : Once s t) (he : t.element? = some e)
    (opens : e.hasDynamic = true) : e = .dynamic ∧ s.hasDynamic = false := by
  have hpartial : isPartial e = false := by
    simpa [elementIs, he] using h.elements.here
  have hdyn : e = .dynamic := by simpa [isPartial, opens] using hpartial
  refine ⟨hdyn, h.known.resolve_right fun lacks => ?_⟩
  have hknown : isDynamic e = false := by simpa [elementIs, he] using lacks.here
  simp [hdyn, isDynamic] at hknown

open Conversion

/-- The type that parts are converted to on the way into a collection is known. -/
theorem solid_of_elects {s t e u : Ty} (h : Once s t) (he : t.element? = some e)
    (elects : Elects .risky s.parts e u) (nonempty : s.parts ≠ []) : u.hasDynamic = false := by
  cases elects with
  | common _ unified =>
    obtain ⟨-, hs⟩ := h.eq_dynamic he rfl
    exact (common_of_unify? unified).solid (hasDynamic_eq_false_iff.mp hs).2
  | declared settled =>
    by_contra hopen
    exact nonempty (settled (h.eq_dynamic he (by simpa using hopen)).1)

theorem elected {s t e u p : Ty} (h : Once s t) (he : t.element? = some e)
    (elects : Elects .risky s.parts e u) (hp : p ∈ s.parts) : Once p u :=
  once_of_solid (h.solid_of_elects he elects (List.ne_nil_of_mem hp))

end Once

/-! ### Following a path beside the conversion -/

/-- When a value is converted from the first type to the second, the part behind the step is
converted from the third type to the fourth. -/
inductive Enters : Ty → Ty → Step → Ty → Ty → Prop
  | item {k l : SequenceKind} {s t : Ty} {i : Nat} :
      Enters (.sequence k s) (.sequence l t) (.index i) s t
  | entry {s t : Ty} {name : String} : Enters (.map s) (.map t) (.key name) s t
  | position {l : SequenceKind} {ss : List Ty} {s t u : Ty} {i : Nat} (part : ss[i]? = some s)
      (elects : Conversion.Elects .risky ss t u) :
      Enters (.tuple ss) (.sequence l t) (.index i) s u
  | gathered {as : List (Attribute Ty)} {a : Attribute Ty} {t u : Ty} (part : a ∈ as)
      (elects : Conversion.Elects .risky (as.map (·.type)) t u) :
      Enters (.object as) (.map t) (.attr a.name) a.type u
  | component {ss ts : List Ty} {s t : Ty} {i : Nat} (source : ss[i]? = some s)
      (target : ts[i]? = some t) : Enters (.tuple ss) (.tuple ts) (.index i) s t
  | field {as bs : List (Attribute Ty)} {a b : Attribute Ty}
      (source : Named.find? b.name as = some a) (target : b ∈ bs) :
      Enters (.object as) (.object bs) (.attr b.name) a.type b.type
  | selected {s : Ty} {bs : List (Attribute Ty)} {b : Attribute Ty} (target : b ∈ bs) :
      Enters (.map s) (.object bs) (.key b.name) s b.type

theorem Enters.once {s t p d : Ty} {step : Step} (h : Enters s t step p d) (once : Once s t) :
    Once p d := by
  cases h with
  | item | entry => exact once.part List.mem_cons_self List.mem_cons_self
  | position part elects => exact once.elected rfl elects (List.mem_of_getElem? part)
  | gathered part elects => exact once.elected rfl elects (List.mem_map_of_mem part)
  | component source target =>
    exact once.part (List.mem_of_getElem? source) (List.mem_of_getElem? target)
  | field source target =>
    exact once.part (List.mem_map_of_mem (Named.mem_of_find? source).1) (List.mem_map_of_mem target)
  | selected target => exact once.part List.mem_cons_self (List.mem_map_of_mem target)

theorem Enters.lawful {s t p d : Ty} {step : Step} (h : Enters s t step p d) (hs : s.Lawful)
    (ht : t.Lawful) : p.Lawful ∧ d.Lawful := by
  cases h with
  | item | entry => exact ⟨hs.part List.mem_cons_self, ht.part List.mem_cons_self⟩
  | position part elects =>
    exact ⟨hs.part (List.mem_of_getElem? part),
      (elects.lawful (ht.part List.mem_cons_self) fun _ hp => hs.part hp).1⟩
  | gathered part elects =>
    exact ⟨hs.part (List.mem_map_of_mem part),
      (elects.lawful (ht.part List.mem_cons_self) fun _ hp => hs.part hp).1⟩
  | component source target =>
    exact ⟨hs.part (List.mem_of_getElem? source), ht.part (List.mem_of_getElem? target)⟩
  | field source target =>
    exact ⟨hs.part (List.mem_map_of_mem (Named.mem_of_find? source).1),
      ht.part (List.mem_map_of_mem target)⟩
  | selected target => exact ⟨hs.part List.mem_cons_self, ht.part (List.mem_map_of_mem target)⟩

end Ty

namespace Conversion

/-- When the value is converted from `s` to `t`, the part behind the step is converted to `d`, with
the given outcome. -/
inductive Attempt (s t : Ty) (v : Value) (d : Ty) (step : Step) (outcome : Except Fault Value) :
    Prop
  | intro {x : Value} {p : Ty} {c : Conversion} (enters : Ty.Enters s t step p d)
      (part : v.step? step = some x) (conforms : x.ty.Conforms p)
      (conversion : between? p d .risky = some c) (applied : c.apply x = outcome)

/-- Parts of a collection were converted and came out with different types. The value is one of
them, and the type is their common type. -/
structure Again (declared : Ty) (parts : List (Step × Value)) (v : Value) (u : Ty) : Prop where
  unsettled : declared.hasDynamic = true
  apart : ∃ p ∈ parts, ∃ p' ∈ parts, p.2.ty ≠ p'.2.ty
  unified : Ty.unify (parts.map (·.2.ty)) .risky = .ok u
  mem : v ∈ parts.map Prod.snd

end Conversion

/-- The value is converted from the first type to the second, and the path leads to the text. A part
that goes into a collection is exchanged on the way for what it has become as an element, if it is
converted again because such parts came out with different types. -/
inductive Value.Leads (text : String) : Ty → Ty → Value → Path → Prop
  | here {s t : Ty} : Leads text s t (.string text) []
  /-- What was left open is converted from the type that it turns out to have. -/
  | opened {t : Ty} {v : Value} {path : Path} (inside : Leads text v.ty t v path) :
      Leads text .dynamic t v path
  | into {s t p d : Ty} {v x : Value} {step : Step} {rest : Path} (enters : Ty.Enters s t step p d)
      (part : v.step? step = some x) (inside : Leads text p d x rest) :
      Leads text s t v (step :: rest)
  | exchange {s t d u : Ty} {v w : Value} {step : Step} {rest : Path} {parts : List (Step × Value)}
      (collection : t.element?.isSome = true)
      (converted : ∀ part ∈ parts, Conversion.Attempt s t v d part.1 (.ok part.2))
      (part : (step, w) ∈ parts) (again : Conversion.Again d parts w u)
      (inside : Leads text w.ty u w rest) : Leads text s t v (step :: rest)

/-! ### Faults that are not about a text -/

/-- Whether a cause is about types, whatever the data. -/
def Cause.concernsTypes : Cause → Bool
  | .incompatible _ _ | .arityMismatch _ _ | .unsupportedAttribute _ | .missingAttribute _
  | .noCommonType _ _ | .nothingToUnify => true
  | .invalidLiteral _ _ | .inconsistent _ | .tooDeep _ _ => false

theorem Ty.concernsTypes_unify {ts : List Ty} {safety : Safety} {fault : Fault}
    (h : unify ts safety = .error fault) : fault.cause.concernsTypes = true := by
  rcases cause_of_unify h with hcause | ⟨left, right, hcause⟩ <;> rw [hcause] <;> rfl

namespace Conversion

open Value

variable {q : Primitive} {text : String} {path : Path}

theorem concernsTypes_apart (parts : List Ty) (s t : Ty) :
    (apart parts s t).concernsTypes = true := by
  unfold apart
  split
  · rename_i fault hunify
    exact Ty.concernsTypes_unify hunify
  · rfl

theorem concernsTypes_misfit? {s t : Ty} {cause : Cause} (h : misfit? s t = some cause) :
    cause.concernsTypes = true := by
  unfold misfit? at h
  split at h
  · split at h <;> cases h
    rfl
  · split at h
    · cases h
      rfl
    · obtain ⟨b, -, rfl⟩ := Option.map_eq_some_iff.mp h
      rfl
  · cases h
    exact concernsTypes_apart _ _ _
  · cases h
    exact concernsTypes_apart _ _ _
  · cases h

/-- Two types that do not convert are at fault as types. -/
theorem concernsTypes_explain (s t : Ty) : (explain s t).cause.concernsTypes = true := by
  induction hn : t.depth using Nat.strongRecOn generalizing s t with
  | ind n ih =>
    subst hn
    rw [explain]
    split
    · rename_i cause hcause
      exact concernsTypes_misfit? hcause
    · split
      · rename_i part hpart
        have hmem := List.mem_of_find?_eq_some hpart
        exact ih _ (depth_lt_of_mem_correspondence hmem) part.2.1 part.2.2 rfl
      · rfl

theorem cause_explain_ne_literal (s t : Ty) : (explain s t).cause ≠ .invalidLiteral q text := by
  intro h
  have htypes := concernsTypes_explain s t
  rw [h] at htypes
  cases htypes

theorem refine_ne_literal {d i : Ty} : d.refine i ≠ .error ⟨.invalidLiteral q text, path⟩ := by
  intro h
  obtain ⟨d', i', hcause⟩ := Ty.notRefinable_of_refine h
  cases hcause

/-- Plain data is at fault only as a text, and as a whole. -/
theorem eq_string_of_toPrimitive {p : Primitive} {v : Value}
    (h : v.toPrimitive p = .error ⟨.invalidLiteral q text, path⟩) :
    v = .string text ∧ path = [] := by
  cases v with
  | string own =>
    cases p with
    | string => cases h
    | number =>
      rw [toPrimitive] at h
      cases hread : Decimal.parse? own <;> rw [hread] at h <;> cases h
      exact ⟨rfl, rfl⟩
    | bool =>
      rw [toPrimitive] at h
      cases hread : boolOfText? own <;> rw [hread] at h <;> cases h
      exact ⟨rfl, rfl⟩
  | number d | bool b => cases p <;> cases h
  | _ => cases h

/-- Nulls and unknowns have no text. -/
theorem inner_of_covering {t : Ty} {inner : Conversion} {v : Value}
    (h : (Conversion.covering t inner).apply v = .error ⟨.invalidLiteral q text, path⟩) :
    v.isConcrete = true ∧ inner.apply v = .error ⟨.invalidLiteral q text, path⟩ := by
  cases v with
  | null i | unknown i => exact absurd (map_eq_error_iff.mp h) refine_ne_literal
  | _ => exact ⟨rfl, h⟩

/-- Parts that have no common type say so; otherwise one of them is at fault when it is converted
once more. -/
theorem exists_of_settle_literal {convert : Value → Ty → Except Fault Value} {declared : Ty}
    {parts : List (Step × Value)}
    (h : settle convert declared parts = .error ⟨.invalidLiteral q text, path⟩) :
    ∃ part ∈ parts, ∃ e f, Again declared parts part.2 e ∧ convert part.2 e = .error f ∧
      ⟨.invalidLiteral q text, path⟩ = f.within part.1 := by
  unfold settle at h
  split at h
  · rename_i opens
    cases parts with
    | nil => cases h
    | cons first rest =>
      dsimp only at h
      split at h
      · cases h
      · rename_i hall
        have apart : ∃ p ∈ first :: rest, ∃ p' ∈ first :: rest, p.2.ty ≠ p'.2.ty := by
          simp only [List.all_eq_true, not_forall, beq_iff_eq] at hall
          obtain ⟨part, hpart, hne⟩ := hall
          exact ⟨part, List.mem_cons_of_mem _ hpart, first, List.mem_cons_self, hne⟩
        rcases bind_eq_error_iff.mp h with hunify | ⟨e, he, hparts⟩
        · rcases Ty.cause_of_unify hunify with hcause | ⟨left, right, hcause⟩ <;> cases hcause
        · obtain ⟨part, hpart, f, hfail, hf⟩ :=
            exists_of_eachPart_error (map_eq_error_iff.mp hparts)
          exact ⟨part, hpart, e, f, ⟨opens, apart, he, List.mem_map_of_mem hpart⟩, hfail, hf⟩
  · cases h

/-! ### Faults of a text -/

/-- From a value that is converted from `s` to `t` the path leads to the text; it does so without
exchange of a part where no part is converted twice. -/
structure Located (text : String) (s t : Ty) (v : Value) (path : Path) : Prop where
  leads : Leads text s t v path
  once : Ty.Once s t → v.at? path = some (.string text)

/-- A fault of a text whose path is the given one is located by its path. -/
def Locates (q : Primitive) (text : String) (path : Path) : Prop :=
  ∀ ⦃s t : Ty⦄ ⦃c : Conversion⦄ ⦃v : Value⦄, between? s t .risky = some c → v.Sound →
    v.ty.Conforms s → s.Lawful → t.Lawful → c.apply v = .error ⟨.invalidLiteral q text, path⟩ →
      Located text s t v path

namespace Attempt

variable {s t d : Ty} {v w : Value} {step : Step}

/-- What a part becomes is sound. -/
theorem sound (h : Attempt s t v d step (.ok w)) (hv : v.Sound) (hs : s.Lawful) (ht : t.Lawful) :
    w.Sound := by
  obtain ⟨enters, part, conforms, conversion, applied⟩ := h
  obtain ⟨hp, hd⟩ := enters.lawful hs ht
  have hx := hv.member (mem_members_of_step? part)
  exact ((yields_of_apply (plan_of_between? conversion) hx conforms applied).sound sound_convert
    hx hp hd).2

/-- A part that may become anything stays what it is. -/
theorem ty_of_dynamic (h : Attempt s t v .dynamic step (.ok w)) (hv : v.Sound) {e : Ty}
    (he : v.element? = some e) (solid : e.hasDynamic = false) : w.ty = e.stripped := by
  obtain ⟨-, part, -, conversion, applied⟩ := h
  have hmem := mem_members_of_step? part
  have hx := (hv.member hmem).ty_eq (hv.here.conform e he _ hmem) solid
  cases rule_of_between? conversion with
  | same solid => exact absurd rfl solid
  | later solid => exact absurd rfl solid
  | pass =>
    cases applied
    exact hx

/-- The fault of a part is located in the part. -/
theorem located {f : Fault} (h : Attempt s t v d step (.error f)) (hv : v.Sound) (hs : s.Lawful)
    (ht : t.Lawful) (below : ∀ step rest, path = step :: rest → Locates q text rest)
    (hf : ⟨.invalidLiteral q text, path⟩ = f.within step) : Located text s t v path := by
  obtain ⟨enters, part, conforms, conversion, applied⟩ := h
  obtain ⟨hp, hd⟩ := enters.lawful hs ht
  obtain ⟨cause, rest⟩ := f
  cases hf
  have inside := below step rest rfl conversion (hv.member (mem_members_of_step? part)) conforms
    hp hd applied
  refine ⟨.into enters part inside.leads, fun honce => ?_⟩
  rw [at?, part]
  exact inside.once (enters.once honce)

end Attempt

/-- Without a conversion between the types, no text is looked at. -/
theorem exists_of_convert_literal {v : Value} {t : Ty}
    (h : v.convert t = .error ⟨.invalidLiteral q text, path⟩) :
    ∃ c, between? v.ty t .risky = some c ∧ c.apply v = .error ⟨.invalidLiteral q text, path⟩ := by
  rw [convert_eq] at h
  split at h
  · cases h
  · split at h
    · rename_i c hc
      exact ⟨c, hc, h⟩
    · have hfault := Except.error.inj h
      exact absurd (congrArg Fault.cause hfault) (cause_explain_ne_literal _ _)

theorem Locates.convert {v : Value} {t : Ty} (h : Locates q text path) (hv : v.Sound)
    (ht : t.Lawful) (hconvert : v.convert t = .error ⟨.invalidLiteral q text, path⟩) :
    Located text v.ty t v path := by
  obtain ⟨c, hc, happly⟩ := exists_of_convert_literal hconvert
  exact h hc hv (Ty.conforms_refl _) hv.ty_plain.lawful ht happly

/-- Parts that go into a collection are at fault when they are converted, or when they are
converted once more; and they are not if they come out alike. -/
theorem located_of_collect {α : Type} {l : List α} {g : α → Except Fault (Step × Value)}
    {build : Ty × List Value → Value} {s t d : Ty} {v : Value} (hv : v.Sound) (hs : s.Lawful)
    (ht : t.Lawful) (collection : t.element?.isSome = true)
    (below : ∀ step rest, path = step :: rest → Locates q text rest)
    (attempts : ∀ a ∈ l, ∃ step outcome, Attempt s t v d step outcome ∧
      g a = (locate step outcome).map fun w => (step, w))
    (alike : Ty.Once s t → d.hasDynamic = true →
      ∃ e, ∀ step w, Attempt s t v d step (.ok w) → w.ty = e)
    (h : ((l.mapM g).bind fun parts => (settle Value.convert d parts).map build) =
      .error ⟨.invalidLiteral q text, path⟩) : Located text s t v path := by
  rcases bind_eq_error_iff.mp h with hparts | ⟨done, hdone, hsettle⟩
  · obtain ⟨a, ha, hfail⟩ := exists_of_mapM_eq_error hparts
    obtain ⟨step, outcome, attempt, hg⟩ := attempts a ha
    rw [hg] at hfail
    obtain ⟨f, rfl, hf⟩ := locate_eq_error (map_eq_error_iff.mp hfail)
    exact attempt.located hv hs ht below hf
  · have each : ∀ part ∈ done, Attempt s t v d part.1 (.ok part.2) := by
      intro part hpart
      obtain ⟨a, ha, hga⟩ := exists_of_mem_right (mapM_eq_ok_iff.mp hdone) hpart
      obtain ⟨step, outcome, attempt, hg⟩ := attempts a ha
      rw [hg] at hga
      obtain ⟨w, hw, rfl⟩ := map_eq_ok_iff.mp hga
      rwa [locate_eq_ok_iff.mp hw] at attempt
    obtain ⟨part, hpart, e, ⟨cause, rest⟩, again, hfail, hf⟩ :=
      exists_of_settle_literal (map_eq_error_iff.mp hsettle)
    cases hf
    have sound : ∀ part ∈ done, part.2.Sound := fun part hpart => (each part hpart).sound hv hs ht
    have he : e.Plain := by
      refine .common (Ty.common_of_unify? (Ty.unify_eq_ok_iff.mp again.unified)) fun u hu => ?_
      obtain ⟨p, hp, rfl⟩ := List.mem_map.mp hu
      exact (sound p hp).ty_plain
    have inside := (below _ _ rfl).convert (sound part hpart) he.lawful hfail
    refine ⟨.exchange collection each hpart again inside.leads, fun honce => ?_⟩
    -- where no part is converted twice, the parts have come out alike
    obtain ⟨p, hp, p', hp', hne⟩ := again.apart
    obtain ⟨r, hr⟩ := alike honce again.unsettled
    exact absurd ((hr _ _ (each p hp)).trans (hr _ _ (each p' hp')).symm) hne

/-- Members of a known type that may become anything come out alike. -/
theorem alike_of_element {s t own e d : Ty} {v : Value} (hv : v.Sound)
    (hown : v.element? = some own) (conforms : own.Conforms e) (hs : s.element? = some e)
    (ht : t.element? = some d) (honce : Ty.Once s t) (opens : d.hasDynamic = true) :
    ∃ r, ∀ step w, Attempt s t v d step (.ok w) → w.ty = r := by
  obtain ⟨rfl, solid⟩ := honce.eq_dynamic ht opens
  have he := (Ty.hasDynamic_eq_false_iff.mp solid).2 e (Ty.mem_parts_of_element? hs)
  have hsolid : own.hasDynamic = false := by
    rw [← Ty.hasDynamic_stripped, conforms.stripped_eq he, Ty.hasDynamic_stripped, he]
  exact ⟨own.stripped, fun step w attempt => attempt.ty_of_dynamic hv hown hsolid⟩

/-- Parts that are converted to a known type are not converted again. -/
theorem alike_of_elects {s t e d : Ty} {v : Value} (ht : t.element? = some e)
    (elects : Elects .risky s.parts e d) (nonempty : s.parts ≠ []) (honce : Ty.Once s t)
    (opens : d.hasDynamic = true) : ∃ r, ∀ step w, Attempt s t v d step (.ok w) → w.ty = r := by
  rw [honce.solid_of_elects ht elects nonempty] at opens
  cases opens

/-- Of the entries that fill the attributes of an object one is at fault, not a name. -/
theorem located_of_fill {s : Ty} {slots : List (Slot Conversion)} {v : Value} {step : String → Step}
    {entries : List (String × Value)} {build : List (String × Value) → Value} (hv : v.Sound)
    (hs : s.Lawful) (ht : (Ty.object (slots.map (·.target))).Lawful)
    (below : ∀ step rest, path = step :: rest → Locates q text rest)
    (attempts : ∀ slot ∈ slots, ∀ x, Named.find? slot.target.name entries = some x →
      Attempt s (.object (slots.map (·.target))) v slot.target.type (step slot.target.name)
        (slot.conversion.apply x.2))
    (h : ((checkNames slots entries).bind fun _ =>
      (fill Value.convert step slots entries).map build) = .error ⟨.invalidLiteral q text, path⟩) :
    Located text s (.object (slots.map (·.target))) v path := by
  rcases bind_eq_error_iff.mp h with hcheck | ⟨_, -, hfill⟩
  · obtain ⟨x, -, -, hcause⟩ := exists_of_checkNames_error hcheck
    cases hcause
  · obtain ⟨slot, hslot, ⟨x, hx, f, hfail, hf⟩ | ⟨-, -, hcause⟩⟩ :=
      exists_of_fill_error (map_eq_error_iff.mp hfill)
    · have attempt := attempts slot hslot x hx
      rw [apply, hfail] at attempt
      exact attempt.located hv hs ht below hf
    · cases hcause

/-- **Step.** A conversion that is not left open fails at a text right away, or in a part. -/
theorem located_of_apply {s t : Ty} {c : Conversion} {v : Value}
    (below : ∀ step rest, path = step :: rest → Locates q text rest)
    (hc : between? s t .risky = some c) (source : s ≠ .dynamic) (hv : v.Sound)
    (hty : v.ty.Conforms s) (hs : s.Lawful) (ht : t.Lawful)
    (h : c.apply v = .error ⟨.invalidLiteral q text, path⟩) : Located text s t v path := by
  cases rule_of_between? hc with
  | same solid => cases (inner_of_covering h).2
  | pass => cases h
  | later => exact absurd rfl source
  | primitive permitted =>
    obtain ⟨rfl, rfl⟩ := eq_string_of_toPrimitive (inner_of_covering h).2
    exact ⟨.here, fun _ => rfl⟩
  | @sequence k l s t c permitted element =>
    obtain ⟨data, hin⟩ := inner_of_covering h
    obtain ⟨own, items, rfl, hown⟩ := exists_of_conforms_sequence hty data
    rw [apply, applyWith] at hin
    split at hin
    · -- only the element type of an empty collection is looked at
      exact absurd (map_eq_error_iff.mp hin) refine_ne_literal
    · refine located_of_collect hv hs ht rfl below (fun part hpart => ?_)
        (alike_of_element hv rfl hown rfl rfl) hin
      obtain ⟨i, x, rfl, hx⟩ := exists_of_mem_indexed hpart
      have hconf := (hv.here.conform own rfl x (List.mem_of_getElem? hx)).trans hown
      exact ⟨_, _, .intro .item (step?_index_sequence hx) hconf element rfl, rfl⟩
  | @positions l ss t e cs permitted elects length each =>
    obtain ⟨data, hin⟩ := inner_of_covering h
    obtain ⟨items, rfl, hlen, hitems⟩ := exists_of_conforms_tuple hty data
    rw [apply, applyWith, if_pos (hlen.symm.trans length), applyAll_eq_mapM] at hin
    split at hin
    · cases hin
    · rename_i hne
      have hparts : ss ≠ [] := ne_nil_of_length_eq hlen.symm (by simpa using hne)
      refine located_of_collect hv hs ht rfl below (fun p hp => ?_)
        (alike_of_elects rfl elects hparts) hin
      obtain ⟨i, hci, hx, hstep⟩ := exists_of_mem_zip_indexed hp
      obtain ⟨s, hsi⟩ := exists_getElem?_of_length length hci
      exact ⟨_, _, .intro (hstep ▸ .position hsi elects) (hstep ▸ step?_index_tuple hx)
        (hitems i s _ hsi hx) (each i s _ hsi hci) rfl, rfl⟩
  | @map s t c element =>
    obtain ⟨data, hin⟩ := inner_of_covering h
    obtain ⟨own, entries, rfl, hown⟩ := exists_of_conforms_map hty data
    rw [apply, applyWith] at hin
    split at hin
    · exact absurd (map_eq_error_iff.mp hin) refine_ne_literal
    · refine located_of_collect hv hs ht rfl below (fun part hpart => ?_)
        (alike_of_element hv rfl hown rfl rfl) hin
      obtain ⟨x, hx, rfl⟩ := List.mem_map.mp hpart
      have hconf := (hv.here.conform own rfl x.2 (List.mem_map_of_mem hx)).trans hown
      have behind := step?_key (e := own) (Named.find?_of_mem hv.here.names hx)
      exact ⟨_, _, .intro .entry behind hconf element rfl, rfl⟩
  | @gather as t e cs elects names each =>
    obtain ⟨data, hin⟩ := inner_of_covering h
    obtain ⟨attributes, rfl, hnames, hfields⟩ := exists_of_conforms_object hty data
    rw [apply, applyWith] at hin
    split at hin
    · cases hin
    · rename_i hne
      have hlen : attributes.length = (as.map (·.type)).length := by
        simpa using (Named.length_eq_of_names hnames).symm
      have hparts : as.map (·.type) ≠ [] := ne_nil_of_length_eq hlen (by simpa using hne)
      have hasc : Named.Ascending cs := by
        rw [Named.Ascending, ← names, hnames]
        exact hv.here.names
      refine located_of_collect hv hs ht rfl below (fun x hx => ?_)
        (alike_of_elects rfl elects hparts) hin
      obtain ⟨i, hi⟩ := List.getElem?_of_mem hx
      obtain ⟨a, ha, hname⟩ := Named.exists_getElem? hnames hi
      obtain ⟨c, hci, hfind⟩ := Named.exists_find?_getElem? hasc (names.symm.trans hnames) hi
      have enters : Ty.Enters (.object as) (.map t) (.attr x.1) a.type e := by
        rw [← show a.name = x.1 from hname]
        exact .gathered (List.mem_of_getElem? ha) elects
      refine ⟨.attr x.1, _, .intro enters (step?_attr (Named.find?_of_mem hv.here.names hx))
        (hfields i a x ha hi) (each i a c ha hci) rfl, ?_⟩
      -- the conversion is looked up by name, and stands where the attribute does
      rw [applyNamed_eq_map, show Named.find? x.1 cs = some c from hfind]
      rfl
  | @tuple ss ts cs arity length each =>
    obtain ⟨data, hin⟩ := inner_of_covering h
    obtain ⟨items, rfl, hlen, hitems⟩ := exists_of_conforms_tuple hty data
    rw [apply, applyWith, if_pos (hlen.symm.trans length)] at hin
    obtain ⟨i, c, x, hci, hx, f, hfail, hf⟩ := exists_of_applyAll_error (map_eq_error_iff.mp hin)
    obtain ⟨s, hsi⟩ := exists_getElem?_of_length length hci
    obtain ⟨t, hti⟩ := exists_getElem?_of_length arity.symm hsi
    have attempt : Attempt (.tuple ss) (.tuple ts) (.tuple items) t (.index i) (.error f) :=
      .intro (.component hsi hti) (step?_index_tuple hx) (hitems i s x hsi hx)
        (each i s t c hsi hti hci) hfail
    exact attempt.located hv hs ht below hf
  | @object as bs slots known targets found missing =>
    obtain ⟨data, hin⟩ := inner_of_covering h
    obtain ⟨attributes, rfl, hnames, hfields⟩ := exists_of_conforms_object hty data
    subst targets
    rw [apply, applyWith] at hin
    refine located_of_fill hv hs ht below (fun slot hslot x hx => ?_) hin
    obtain ⟨a, ha⟩ := Named.exists_find? hnames hx
    exact .intro (.field ha (List.mem_map_of_mem hslot)) (step?_attr hx)
      (Named.rel_of_find? hv.here.names hnames hfields ha hx) (found slot hslot a ha) rfl
  | @select s bs slots permitted targets each =>
    obtain ⟨data, hin⟩ := inner_of_covering h
    obtain ⟨own, entries, rfl, hown⟩ := exists_of_conforms_map hty data
    subst targets
    rw [apply, applyWith] at hin
    refine located_of_fill hv hs ht below (fun slot hslot x hx => ?_) hin
    have hmem : x.2 ∈ (Value.map own entries).members :=
      List.mem_map_of_mem (Named.mem_of_find? hx).1
    exact .intro (.selected (List.mem_map_of_mem hslot)) (step?_key hx)
      ((hv.here.conform own rfl x.2 hmem).trans hown) (each slot hslot) rfl

/-- What is left open is converted from the type of the value. -/
theorem locates_of_below (below : ∀ step rest, path = step :: rest → Locates q text rest) :
    Locates q text path := by
  intro s t c v hc hv hty hs ht h
  by_cases source : s = .dynamic
  · subst source
    cases rule_of_between? hc with
    | same solid => exact absurd rfl solid
    | pass => cases h
    | later solid =>
      unfold apply applyWith at h
      split at h
      · cases h
      · cases h
      · rename_i hnull hunknown
        obtain ⟨c, hc, happly⟩ := exists_of_convert_literal h
        obtain ⟨leads, once⟩ := located_of_apply below hc (ty_ne_dynamic hnull hunknown) hv
          (Ty.conforms_refl _) hv.ty_plain.lawful ht happly
        -- a placeholder is no known source, so the target itself has to be known
        refine ⟨.opened leads, fun honce => once ⟨honce.elements, .inr ?_⟩⟩
        exact honce.known.resolve_left (by simp [Ty.hasDynamic])
  · exact located_of_apply below hc source hv hty hs ht h

/-- **Run.** A fault of a text is located by its path, however long the path is. -/
theorem locates (path : Path) : Locates q text path := by
  induction path with
  | nil => exact locates_of_below fun _ _ h => by cases h
  | cons step rest ih =>
    refine locates_of_below fun _ _ h => ?_
    cases h
    exact ih

end Conversion

/-- **Literal faults.** If a text cannot be read as the plain data that is wanted, the path of the
fault leads from the value to the text, where a part of a collection whose parts came out with
different types is exchanged for what it was converted to; where the parts of collections are
converted once, the text is the part at the path. -/
theorem path_leads_to_literal {v : Value} {want : Ty} {q : Primitive} {text : String} {path : Path}
    (hv : v.WellFormed) (marks : v.Unmarked) (names : v.Lawful) (hwant : want.Lawful)
    (h : v.convert want = .error ⟨.invalidLiteral q text, path⟩) :
    Value.Leads text v.ty want v path ∧ (Ty.Once v.ty want → v.at? path = some (.string text)) := by
  have located := (Conversion.locates path).convert (hv.sound marks names) hwant h
  exact ⟨located.leads, located.once⟩

/-- A text among the truth values of an attribute: the path names the attribute and the
position. -/
theorem path_leads_to_literal_object_to_map :
    let v : Value := .object [("a", .list .bool [.bool true]),
      ("b", .tuple [.string "false", .string "x"])]
    let want : Ty := .map (.set .bool)
    let path : Path := [.attr "b", .index 1]
    v.WellFormed ∧ v.Unmarked ∧ v.Lawful ∧ want.Lawful ∧ Ty.Once v.ty want ∧
      v.convert want = .error ⟨.invalidLiteral .bool "x", path⟩ ∧
      Value.Leads "x" v.ty want v path ∧ v.at? path = some (.string "x") := by
  intro v want path
  have once : Ty.Once v.ty want := Ty.once_of_solid rfl
  have hconvert : v.convert want = .error ⟨.invalidLiteral .bool "x", path⟩ := by cbv
  obtain ⟨leads, located⟩ :=
    path_leads_to_literal (by decide) (by decide) (by decide) (by decide) hconvert
  exact ⟨by decide, by decide, by decide, by decide, once, hconvert, leads, located once⟩

/-- Two objects in a tuple become maps with elements of different types, and the maps are converted
once more. The path goes through a key of the map that the first object has become, not through
the attribute of the object. -/
theorem path_misses_literal_in_tuple :
    let v : Value := .tuple [.object [("a", .set .string [.string "x"])],
      .object [("a", .list .bool [.bool true])]]
    let want : Ty := .list (.map .dynamic)
    let path : Path := [.index 0, .key "a", .index 0]
    v.WellFormed ∧ v.Unmarked ∧ v.Lawful ∧ want.Lawful ∧
      v.convert want = .error ⟨.invalidLiteral .bool "x", path⟩ ∧ v.at? path = none ∧
      v.at? [.index 0, .attr "a", .index 0] = some (.string "x") :=
  ⟨by decide, by decide, by decide, by decide, by cbv, rfl, rfl⟩

end Retype
