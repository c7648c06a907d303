import Retype.Conversion.Explain
import Retype.Proofs.Unification

/-!
# What an explanation says of two types

`Conversion.explain` is asked about types that do not convert, at whatever risk. What it answers is
described here without it:

* its path is followed through both types at once (`Ty.beside?`), and it passes by parts that
  convert only (`Ty.Traces`), so it leads to the first parts that do not;
* its cause is what is wrong with the types at the end of the path (`Ty.Verdict`).

The search for an explanation is a second recursion beside the search for a conversion, and it is
right only as long as the two look at the same parts. Where the shapes fit and all corresponding
parts convert, the types themselves convert (`converts_of_correspondence`); so for types that do
not, either the shapes are to blame, or some part is, or there are no parts to look at.
-/

namespace Retype

/-! ### Paths through two types -/

namespace Step

/-- Of two steps from the same place, the first is taken before the second. -/
def Before : Step → Step → Prop
  | .index i, .index j => i < j
  | .key m, .key n | .attr m, .attr n => m < n
  | _, _ => False

theorem Before.asymm {a b : Step} (h : a.Before b) : ¬b.Before a := by
  intro h'
  cases a with
  | index i =>
    cases b with
    | index j => exact Nat.lt_asymm h h'
    | key | attr => exact h
  | key m =>
    cases b with
    | key n => exact String.lt_asymm h h'
    | index | attr => exact h
  | attr m =>
    cases b with
    | attr n => exact String.lt_asymm h h'
    | index | key => exact h

end Step

namespace Ty

/-- The parts behind one step through both types at once. -/
def beside? : Step → Ty → Ty → Option (Ty × Ty)
  | .index i, .tuple ss, .tuple ts => ss[i]?.bind fun s => ts[i]?.map fun t => (s, t)
  | .index i, .tuple ss, .sequence _ t => ss[i]?.map fun s => (s, t)
  | .attr name, .object as, .object bs =>
    (Named.find? name as).bind fun a => (Named.find? name bs).map fun b => (a.type, b.type)
  | .attr name, .object as, .map t => (Named.find? name as).map fun a => (a.type, t)
  | .key name, .map s, .object bs => (Named.find? name bs).map fun b => (s, b.type)
  | _, _, _ => none

theorem mem_parts_of_beside? {step : Step} {s t p q : Ty} (h : beside? step s t = some (p, q)) :
    p ∈ s.parts ∧ q ∈ t.parts := by
  unfold beside? at h
  split at h
  · obtain ⟨_, hs, h⟩ := Option.bind_eq_some_iff.mp h
    obtain ⟨_, ht, ⟨⟩⟩ := Option.map_eq_some_iff.mp h
    exact ⟨List.mem_of_getElem? hs, List.mem_of_getElem? ht⟩
  · obtain ⟨_, hs, ⟨⟩⟩ := Option.map_eq_some_iff.mp h
    exact ⟨List.mem_of_getElem? hs, List.mem_cons_self⟩
  · obtain ⟨_, ha, h⟩ := Option.bind_eq_some_iff.mp h
    obtain ⟨_, hb, ⟨⟩⟩ := Option.map_eq_some_iff.mp h
    exact ⟨List.mem_map_of_mem (Named.mem_of_find? ha).1,
      List.mem_map_of_mem (Named.mem_of_find? hb).1⟩
  · obtain ⟨_, ha, ⟨⟩⟩ := Option.map_eq_some_iff.mp h
    exact ⟨List.mem_map_of_mem (Named.mem_of_find? ha).1, List.mem_cons_self⟩
  · obtain ⟨_, hb, ⟨⟩⟩ := Option.map_eq_some_iff.mp h
    exact ⟨List.mem_cons_self, List.mem_map_of_mem (Named.mem_of_find? hb).1⟩
  · cases h

/-- The path leads through both types at once to two parts of them, and at each step all parts
before the one it goes into convert. -/
inductive Traces : Path → Ty → Ty → Ty → Ty → Prop
  | here {s t : Ty} : Traces [] s t s t
  | into {s t p q s' t' : Ty} {step : Step} {rest : Path} (parts : beside? step s t = some (p, q))
      (earlier : ∀ (step' : Step) (p' q' : Ty), step'.Before step →
        beside? step' s t = some (p', q') → Converts .risky p' q')
      (inside : Traces rest p q s' t') : Traces (step :: rest) s t s' t'

/-- Types of kinds that have causes of their own, for when it is not a part that fails. -/
inductive Telling : Ty → Ty → Prop
  | arity {ss ts : List Ty} (different : ss.length ≠ ts.length) : Telling (.tuple ss) (.tuple ts)
  | names {as bs : List (Attribute Ty)} : Telling (.object as) (.object bs)
  | items {l : SequenceKind} {ss : List Ty} : Telling (.tuple ss) (.sequence l .dynamic)
  | attributes {as : List (Attribute Ty)} : Telling (.object as) (.map .dynamic)

/-- What is wrong with two types that do not convert. -/
inductive Verdict : Ty → Ty → Cause → Prop
  | arity {ss ts : List Ty} (different : ss.length ≠ ts.length) :
      Verdict (.tuple ss) (.tuple ts) (.arityMismatch ts.length ss.length)
  /-- The smallest name that the target does not have. -/
  | unsupported {as bs : List (Attribute Ty)} {a : Attribute Ty} (mem : a ∈ as)
      (unknown : Named.contains a.name bs = false)
      (least : ∀ a' ∈ as, Named.contains a'.name bs = false → ¬a'.name < a.name) :
      Verdict (.object as) (.object bs) (.unsupportedAttribute a.name)
  /-- The target has all names; the smallest one that it requires and that is not there. -/
  | missing {as bs : List (Attribute Ty)} {b : Attribute Ty}
      (known : ∀ a ∈ as, Named.contains a.name bs = true) (mem : b ∈ bs)
      (absent : Named.contains b.name as = false) (required : b.optional = false)
      (least : ∀ b' ∈ bs, Named.contains b'.name as = false → b'.optional = false →
        ¬b'.name < b.name) :
      Verdict (.object as) (.object bs) (.missingAttribute b.name)
  /-- The elements have no common type, and the fault is that of the search for one. -/
  | items {l : SequenceKind} {ss : List Ty} {left right : Ty}
      (apart : unify ss .risky = .error (.of (.noCommonType left right))) :
      Verdict (.tuple ss) (.sequence l .dynamic) (.noCommonType left right)
  | attributes {as : List (Attribute Ty)} {left right : Ty}
      (apart : unify (as.map (·.type)) .risky = .error (.of (.noCommonType left right))) :
      Verdict (.object as) (.map .dynamic) (.noCommonType left right)
  /-- All other types, which then have no parts that correspond. -/
  | incompatible {s t : Ty} (silent : ¬Telling s t) (innermost : ∀ step, beside? step s t = none) :
      Verdict s t (.incompatible s t)

end Ty

/-! ### The parts that are looked at -/

namespace Conversion

open Ty

theorem mem_mapIdx_index {α : Type} {l : List α} {f : α → Ty × Ty} {step : Step} {parts : Ty × Ty} :
    (step, parts) ∈ l.mapIdx (fun i a => (Step.index i, f a)) ↔
      ∃ i a, step = .index i ∧ l[i]? = some a ∧ f a = parts := by
  simp only [List.mem_mapIdx, Prod.mk.injEq, List.getElem?_eq_some_iff]
  constructor
  · rintro ⟨i, hi, rfl, hf⟩
    exact ⟨i, l[i], rfl, ⟨hi, rfl⟩, hf⟩
  · rintro ⟨i, a, rfl, ⟨hi, rfl⟩, hf⟩
    exact ⟨i, hi, rfl, hf⟩

theorem pairwise_mapIdx_index {α : Type} {l : List α} {f : α → Ty × Ty} :
    (l.mapIdx fun i a => (Step.index i, f a)).Pairwise fun part part' =>
      part.1.Before part'.1 := by
  rw [List.pairwise_iff_getElem]
  intro i j hi hj hlt
  simpa [Step.Before] using hlt

/-- The corresponding parts are those that some step leads to. -/
theorem mem_correspondence_iff {s t p q : Ty} {step : Step} (hs : s.Lawful) (ht : t.Lawful) :
    (step, p, q) ∈ correspondence s t ↔ beside? step s t = some (p, q) := by
  fun_cases correspondence s t with
  | case1 ss ts =>
    rw [mem_mapIdx_index]
    cases step <;> simp [beside?, List.getElem?_zip_eq_some, Option.bind_eq_some_iff]
  | case2 ss l t =>
    rw [mem_mapIdx_index (f := fun s => (s, t))]
    cases step <;> simp [beside?]
  | case3 as bs =>
    cases step with
    | index | key => simp [beside?]
    | attr name =>
      simp only [List.mem_filterMap, Option.map_eq_some_iff, Prod.mk.injEq, Step.attr.injEq,
        beside?, Option.bind_eq_some_iff]
      constructor
      · rintro ⟨b, hb, a, ha, rfl, rfl, rfl⟩
        exact ⟨a, ha, b, Named.find?_of_mem ht.ascending hb, rfl, rfl⟩
      · rintro ⟨a, ha, b, hb, rfl, rfl⟩
        obtain ⟨hmem, rfl⟩ := Named.mem_of_find? hb
        exact ⟨b, hmem, a, ha, rfl, rfl, rfl⟩
  | case4 as t =>
    cases step with
    | index | key => simp [beside?]
    | attr name =>
      simp only [List.mem_map, Prod.mk.injEq, Step.attr.injEq, beside?, Option.map_eq_some_iff]
      constructor
      · rintro ⟨a, ha, rfl, rfl, rfl⟩
        exact ⟨a, Named.find?_of_mem hs.ascending ha, rfl, rfl⟩
      · rintro ⟨a, ha, rfl, rfl⟩
        obtain ⟨hmem, rfl⟩ := Named.mem_of_find? ha
        exact ⟨a, hmem, rfl, rfl, rfl⟩
  | case5 s bs =>
    cases step with
    | index | attr => simp [beside?]
    | key name =>
      simp only [List.mem_map, Prod.mk.injEq, Step.key.injEq, beside?, Option.map_eq_some_iff]
      constructor
      · rintro ⟨b, hb, rfl, rfl, rfl⟩
        exact ⟨b, Named.find?_of_mem ht.ascending hb, rfl, rfl⟩
      · rintro ⟨b, hb, rfl, rfl⟩
        obtain ⟨hmem, rfl⟩ := Named.mem_of_find? hb
        exact ⟨b, hmem, rfl, rfl, rfl⟩
  | case6 => fun_cases beside? step s t <;> simp_all

/-- Corresponding parts are looked at in the order of their steps. -/
theorem pairwise_correspondence {s t : Ty} (hs : s.Lawful) (ht : t.Lawful) :
    (correspondence s t).Pairwise fun part part' => part.1.Before part'.1 := by
  fun_cases correspondence s t with
  | case1 ss ts => exact pairwise_mapIdx_index
  | case2 ss l t => exact pairwise_mapIdx_index (f := fun s => (s, t))
  | case3 as bs =>
    refine List.pairwise_filterMap.mpr ((List.pairwise_map.mp ht.ascending).imp ?_)
    intro b b' hlt part hpart part' hpart'
    obtain ⟨a, -, rfl⟩ := Option.map_eq_some_iff.mp hpart
    obtain ⟨a', -, rfl⟩ := Option.map_eq_some_iff.mp hpart'
    exact hlt
  | case4 as t =>
    exact List.pairwise_map.mpr ((List.pairwise_map.mp hs.ascending).imp fun hlt => hlt)
  | case5 s bs =>
    exact List.pairwise_map.mpr ((List.pairwise_map.mp ht.ascending).imp fun hlt => hlt)
  | case6 => exact .nil

/-- Before the first part that fails all parts convert. -/
theorem converts_of_before {s t p q p' q' : Ty} {step step' : Step} (hs : s.Lawful) (ht : t.Lawful)
    (first : (correspondence s t).find? (fun part => (between? part.2.1 part.2.2 .risky).isNone) =
      some (step, p, q))
    (before : step'.Before step) (beside : beside? step' s t = some (p', q')) :
    Converts .risky p' q' := by
  by_contra hfails
  have hmem := (mem_correspondence_iff hs ht).mpr beside
  exact Named.not_rel_of_find? Step.Before.asymm (pairwise_correspondence hs ht) first hmem
    (by simpa using not_converts_iff.mp hfails) before

/-! ### What is wrong with the shapes -/

/-- Parts that are to have a common type, but do not convert to any that they could settle on, have
none. -/
theorem exists_noCommonType {parts : List Ty} {s t : Ty}
    (h : ∀ e, Elects .risky parts .dynamic e → ¬∀ p ∈ parts, Converts .risky p e) :
    ∃ left right, Ty.unify parts .risky = .error (.of (.noCommonType left right)) ∧
      apart parts s t = .noCommonType left right := by
  cases parts with
  | nil => exact absurd (by simp) (h .dynamic (.declared fun _ => rfl))
  | cons p ps =>
    cases hu : unify? (p :: ps) .risky with
    | some u =>
      exact absurd (fun q => (common_of_unify? hu).converts) (h u (.common (by simp) hu))
    | none =>
      obtain ⟨left, right, hunify⟩ : ∃ left right,
          Ty.unify (p :: ps) .risky = .error (.of (.noCommonType left right)) := by
        rw [unify, hu]
        exact ⟨_, _, rfl⟩
      refine ⟨left, right, hunify, ?_⟩
      rw [apart, hunify]
      rfl

/-- A misfit of the shapes is what it is said to be. -/
theorem verdict_of_misfit? {s t : Ty} {cause : Cause} (hs : s.Lawful) (ht : t.Lawful)
    (h : misfit? s t = some cause) (fails : ¬Converts .risky s t) : Verdict s t cause := by
  revert h
  fun_cases misfit? s t with
  | case1 | case7 => exact nofun
  | case2 ss ts different =>
    rintro ⟨⟩
    exact .arity different
  | case3 as bs extra hextra =>
    rintro ⟨⟩
    refine .unsupported (List.mem_of_find?_eq_some hextra) ?_ fun a ha hunknown => ?_
    · simpa using List.find?_some hextra
    · exact Named.not_lt_of_find? hs.ascending hextra ha (by simp [hunknown])
  | case4 as bs hknown =>
    intro h
    obtain ⟨b, hb, rfl⟩ := Option.map_eq_some_iff.mp h
    have hfound := List.find?_some hb
    simp only [Bool.and_eq_true, Bool.not_eq_true'] at hfound
    refine .missing (by simpa using hknown) (List.mem_of_find?_eq_some hb) hfound.1 hfound.2
      fun b' hb' habsent hrequired => ?_
    exact Named.not_lt_of_find? ht.ascending hb hb' (by simp [habsent, hrequired])
  | case5 ss l =>
    rintro ⟨⟩
    obtain ⟨left, right, hunify, hcause⟩ := exists_noCommonType (s := .tuple ss)
      (t := .sequence l .dynamic) fun e elects each =>
        fails (.positions (by simp [SequenceKind.convertible]) elects each)
    rw [hcause]
    exact .items hunify
  | case6 as =>
    rintro ⟨⟩
    obtain ⟨left, right, hunify, hcause⟩ := exists_noCommonType (s := .object as)
      (t := .map .dynamic) fun e elects each =>
        fails (.gather elects (List.forall_mem_map.mp each))
    rw [hcause]
    exact .attributes hunify

/-- **In step.** Types whose shapes fit and whose corresponding parts all convert are converted,
unless they are of kinds that have no corresponding parts. -/
theorem converts_of_correspondence {s t : Ty} (fits : misfit? s t = none)
    (each : ∀ part ∈ correspondence s t, Converts .risky part.2.1 part.2.2) :
    Converts .risky s t ∨ ¬Telling s t ∧ correspondence s t = [] := by
  revert each
  fun_cases correspondence s t with
  | case1 ss ts =>
    intro each
    have hlen : ss.length = ts.length := by simpa [misfit?] using fits
    refine .inl (.tuple hlen fun i s t hs ht => ?_)
    exact each (.index i, s, t)
      (mem_mapIdx_index.mpr ⟨i, (s, t), rfl, List.getElem?_zip_eq_some.mpr ⟨hs, ht⟩, rfl⟩)
  | case2 ss l t =>
    intro each
    have solid : t ≠ .dynamic := by
      rintro rfl
      simp [misfit?] at fits
    refine .inl ((converts_positions_iff solid).mpr ⟨by simp [SequenceKind.convertible], ?_⟩)
    intro s hs
    obtain ⟨i, hi⟩ := List.getElem?_of_mem hs
    exact each (.index i, s, t) (mem_mapIdx_index.mpr ⟨i, s, rfl, hi, rfl⟩)
  | case3 as bs =>
    intro each
    simp only [misfit?] at fits
    split at fits
    · cases fits
    · rename_i hknown
      have hmissing := List.find?_eq_none.mp (Option.map_eq_none_iff.mp fits)
      refine .inl (.object (by simpa using hknown) (fun b hb a ha => ?_) fun b hb hnone => ?_)
      · exact each (.attr b.name, a.type, b.type)
          (List.mem_filterMap.mpr ⟨b, hb, by rw [ha, Option.map_some]⟩)
      · have habsent : Named.contains b.name as = false := by
          rw [← Named.isSome_find?, hnone]
          rfl
        simpa [habsent] using hmissing b hb
  | case4 as t =>
    intro each
    have solid : t ≠ .dynamic := by
      rintro rfl
      simp [misfit?] at fits
    refine .inl ((converts_gather_iff solid).mpr fun a ha => ?_)
    exact each (.attr a.name, a.type, t) (List.mem_map_of_mem ha)
  | case5 s bs =>
    intro each
    refine .inl (.select rfl fun b hb => ?_)
    exact each (.key b.name, s, b.type) (List.mem_map_of_mem hb)
  | case6 _ _ tuples positions objects gathered selected =>
    refine fun _ => .inr ⟨fun telling => ?_, rfl⟩
    cases telling with
    | arity => exact tuples _ _ rfl rfl
    | names => exact objects _ _ rfl rfl
    | items => exact positions _ _ _ rfl rfl
    | attributes => exact gathered _ _ rfl rfl

end Conversion

/-- **Explanations are truthful.** The path of an explanation leads through both types to parts that
do not convert, past parts that do; and its cause is what is wrong with these parts. -/
theorem explain_truthful {source target : Ty} (hs : source.Lawful) (ht : target.Lawful)
    (h : Conversion.between? source target .risky = none) :
    ∃ s t, Ty.Traces (Conversion.explain source target).path source target s t ∧
      Conversion.between? s t .risky = none ∧
      Ty.Verdict s t (Conversion.explain source target).cause := by
  -- each level gives one step of the path; the search ends where the shapes do not fit
  fun_induction Conversion.explain source target with
  | case1 source target cause hcause =>
    exact ⟨source, target, .here, h,
      Conversion.verdict_of_misfit? hs ht hcause (Ty.not_converts_iff.mpr h)⟩
  | case2 source target _ part hfirst ih =>
    obtain ⟨step, p, q⟩ := part
    have beside :=
      (Conversion.mem_correspondence_iff hs ht).mp (List.mem_of_find?_eq_some hfirst)
    obtain ⟨hp, hq⟩ := Ty.mem_parts_of_beside? beside
    have fails : Conversion.between? p q .risky = none := by simpa using List.find?_some hfirst
    obtain ⟨s, t, traces, hst, verdict⟩ := ih (hs.part hp) (ht.part hq) fails
    refine ⟨s, t, .into beside (fun step' p' q' before beside' => ?_) traces, hst, verdict⟩
    exact Conversion.converts_of_before hs ht hfirst before beside'
  | case3 source target fits hnone =>
    have each : ∀ part ∈ Conversion.correspondence source target,
        Ty.Converts .risky part.2.1 part.2.2 := by
      simpa [Ty.Converts, Option.isSome_iff_ne_none] using hnone
    obtain ⟨silent, hnil⟩ :=
      (Conversion.converts_of_correspondence fits each).resolve_left (Ty.not_converts_iff.mpr h)
    refine ⟨source, target, .here, h, .incompatible silent fun step => ?_⟩
    refine Option.eq_none_iff_forall_ne_some.mpr fun parts hparts => ?_
    have hmem := (Conversion.mem_correspondence_iff hs ht).mpr hparts
    rw [hnil] at hmem
    cases hmem

/-- A map of tuples does not become an object. Its first attribute takes anything; in the second
the elements of the tuple become texts up to the object at the end, which has a name too many. -/
theorem explain_truthful_map_to_object :
    let extra : Ty := .object [⟨"p", false, .bool⟩, ⟨"z", false, .number⟩]
    let source : Ty := .map (.tuple [.number, extra])
    let target : Ty := .object [⟨"a", false, .dynamic⟩,
      ⟨"b", true, .tuple [.string, .object [⟨"p", false, .string⟩]]⟩, ⟨"c", false, .bool⟩]
    let path : Path := [.key "b", .index 1]
    source.Lawful ∧ target.Lawful ∧ Conversion.between? source target .risky = none ∧
      Conversion.explain source target = ⟨.unsupportedAttribute "z", path⟩ ∧
      ∃ s t, Ty.Traces path source target s t ∧ Conversion.between? s t .risky = none ∧
        Ty.Verdict s t (.unsupportedAttribute "z") := by
  intro extra source target path
  have hs : source.Lawful := by decide
  have ht : target.Lawful := by decide
  have h : Conversion.between? source target .risky = none := by cbv
  have hexplain : Conversion.explain source target = ⟨.unsupportedAttribute "z", path⟩ := by
    decide +kernel
  refine ⟨hs, ht, h, hexplain, ?_⟩
  have truthful := explain_truthful hs ht h
  rwa [hexplain] at truthful

end Retype
