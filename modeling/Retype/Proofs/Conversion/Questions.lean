import Retype.Proofs.Conversion.Plan

/-!
# How the search recurses

`Conversion.between?` and `Ty.unify?` need each other: parts that go into a collection are brought
together first, and a common type is one that every type converts to. Neither goes on with parts of
what it was given alone: the types that a conversion goes to may have been built on the way. This
module says why the search comes to an end all the same.

* A `Question` is what the search is asked, and `Question.step` answers one, given a way to answer
  those that it leads to. These are listed by `Question.Calls`, and nothing else counts: if they are
  answered as the search answers them, so is the question (`Question.step_eq_answer`).
* Each of them is about less (`Question.Calls.size_lt`). A conversion asks about parts of its
  source, and a common type about parts of the types or about the types themselves; targets do not
  matter.

`Terminates` is what the two facts say together, for any recursion. It makes the equation of a
recursion a definition (`Terminates.solution_iff`).
-/

namespace Retype

/-! ### Recursions that come to an end -/

section Terminates

variable {α : Type} {β : α → Type}

/-- The recursion `step`, in which a problem leads to the problems that it `calls`, comes to an
end, with the results `f`: there is no endless chain of calls, and the results of the calls are all
that a result is made of. -/
structure Terminates (step : ((a : α) → β a) → (a : α) → β a) (calls : α → α → Prop)
    (f : (a : α) → β a) : Prop where
  wellFounded : WellFounded fun b a => calls a b
  determined : ∀ (g : (a : α) → β a) (a : α), (∀ b, calls a b → g b = f b) → step g a = f a

/-- A recursion that comes to an end is a definition: its equation holds of one function alone. -/
theorem Terminates.solution_iff {step : ((a : α) → β a) → (a : α) → β a} {calls : α → α → Prop}
    {f g : (a : α) → β a} (h : Terminates step calls f) : (∀ a, g a = step g a) ↔ g = f := by
  constructor
  · intro solves
    funext a
    induction a using h.wellFounded.induction with
    | _ a ih => rw [solves, h.determined g a ih]
  · rintro rfl a
    exact (h.determined g a fun _ _ => rfl).symm

/-- What every call makes smaller is smaller after any number of calls. -/
theorem lt_of_transGen {calls : α → α → Prop} {size : α → Nat}
    (step : ∀ a b, calls a b → size b < size a) {a b : α} (h : Relation.TransGen calls a b) :
    size b < size a := by
  induction h with
  | single h => exact step _ _ h
  | tail _ h ih => exact (step _ _ h).trans ih

end Terminates

/-! ### Searches that agree member by member -/

section Congruence

variable {α β : Type}

theorem mapM_congr_of_mem {f g : α → Option β} {as : List α} (h : ∀ a ∈ as, f a = g a) :
    as.mapM f = as.mapM g := by
  induction as with
  | nil => rfl
  | cons a as ih =>
    obtain ⟨head, tail⟩ := List.forall_mem_cons.mp h
    rw [List.mapM_cons, List.mapM_cons, head, ih tail]

theorem find?_congr_of_mem {p q : α → Bool} {as : List α} (h : ∀ a ∈ as, p a = q a) :
    as.find? p = as.find? q := by
  induction as with
  | nil => rfl
  | cons a as ih =>
    obtain ⟨head, tail⟩ := List.forall_mem_cons.mp h
    rw [List.find?_cons, List.find?_cons, head, ih tail]

theorem all_congr_of_mem {p q : α → Bool} {as : List α} (h : ∀ a ∈ as, p a = q a) :
    as.all p = as.all q := by
  rw [Bool.eq_iff_iff, List.all_eq_true, List.all_eq_true]
  exact forall₂_congr fun a ha => by rw [h a ha]

end Congruence

/-! ### Questions and answers -/

/-- What the search is asked for: the conversion between two types, or the common type of
several. -/
inductive Question where
  | conversion (source target : Ty)
  | common (types : List Ty)

namespace Question

/-- The kind of answer that a question has. -/
abbrev Answer : Question → Type
  | .conversion _ _ => Option Conversion
  | .common _ => Option Ty

/-- The answers of the search. -/
def answer (safety : Safety) : (q : Question) → q.Answer
  | .conversion source target => Conversion.between? source target safety
  | .common types => Ty.unify? types safety

/-- The element type of a collection that parts go into, if they have one in common. -/
def elect (ask : (q : Question) → q.Answer) (parts : List Ty) (t : Ty) : Option Ty :=
  if t.isDynamic && !parts.isEmpty then ask (.common parts) else some t

/-- The candidates for a common type. -/
def candidates (ask : (q : Question) → q.Answer) (types : List Ty) : Blueprint → List Ty
  | .build frame groups => ((groups.mapM fun group => ask (.common group)).bind frame.fill?).toList
  | .choose => Preference.sorted types
  | .clash => []

/-- One step of the search: the answer to a question, with a way to answer those that it leads
to. -/
def step (safety : Safety) (ask : (q : Question) → q.Answer) : (q : Question) → q.Answer
  | .conversion source target =>
    Option.map (Conversion.covered source target) <|
      if source = target then some .identity
      else
        match source, target with
        | _, .dynamic => some .identity
        | .dynamic, _ => some (.deferred target)
        | .primitive p, .primitive q =>
          if Primitive.convertible safety p q then some (.primitive q) else none
        | .sequence k s, .sequence l t =>
          if SequenceKind.convertible safety k l then
            (ask (.conversion s t)).map fun c => .eachItem l c t
          else none
        | .tuple ss, .sequence l t =>
          if SequenceKind.convertible safety .list l then
            (elect ask ss t).bind fun element =>
              (ss.mapM fun s => ask (.conversion s element)).map fun parts =>
                .positions l parts element
          else none
        | .map s, .map t => (ask (.conversion s t)).map fun c => .eachEntry c t
        | .object as, .map t =>
          (elect ask (as.map (·.type)) t).bind fun element =>
            (as.mapM fun a => (ask (.conversion a.type element)).map fun c => (a.name, c)).map
              fun parts => .gather parts element
        | .tuple ss, .tuple ts =>
          if ss.length = ts.length then
            ((ss.zip ts).mapM fun p => ask (.conversion p.1 p.2)).map .tuple
          else none
        | .object as, .object bs =>
          if as.all fun a => Named.contains a.name bs then
            (bs.mapM fun (b : Attribute Ty) =>
              match Named.find? b.name as with
              | some a => (ask (.conversion a.type b.type)).map (Slot.mk b)
              | none =>
                if b.optional then some (Slot.mk b (.deferred b.type)) else none).map .object
          else none
        | .map s, .object bs =>
          if safety = .risky then
            (bs.mapM fun (b : Attribute Ty) =>
              (ask (.conversion s b.type)).map (Slot.mk b)).map .select
          else none
        | _, _ => none
  | .common types =>
    match Ty.concrete types with
    | [] => if types.isEmpty then none else some .dynamic
    | first :: rest =>
      if rest.all (· == first) then some first
      else
        (candidates ask (first :: rest) (Blueprint.of (first :: rest) safety)).find? fun u =>
          (first :: rest).all fun t =>
            t == u ||
              ((ask (.conversion t u)).isSome && (safety == Safety.risky || !t.widens u))

/-- The questions that a question leads to. Some of them are not asked, if an earlier one has no
answer or the types are the same already. -/
inductive Calls (safety : Safety) : Question → Question → Prop
  | sequence {k l : SequenceKind} {s t : Ty} :
      Calls safety (.conversion (.sequence k s) (.sequence l t)) (.conversion s t)
  | items {l : SequenceKind} {ss : List Ty} :
      Calls safety (.conversion (.tuple ss) (.sequence l .dynamic)) (.common ss)
  | item {l : SequenceKind} {ss : List Ty} {s t u : Ty} (mem : s ∈ ss)
      (elects : Conversion.Elects safety ss t u) :
      Calls safety (.conversion (.tuple ss) (.sequence l t)) (.conversion s u)
  | map {s t : Ty} : Calls safety (.conversion (.map s) (.map t)) (.conversion s t)
  | fields {as : List (Attribute Ty)} :
      Calls safety (.conversion (.object as) (.map .dynamic)) (.common (as.map (·.type)))
  | field {as : List (Attribute Ty)} {a : Attribute Ty} {t u : Ty} (mem : a ∈ as)
      (elects : Conversion.Elects safety (as.map (·.type)) t u) :
      Calls safety (.conversion (.object as) (.map t)) (.conversion a.type u)
  | tuple {ss ts : List Ty} {p : Ty × Ty} (mem : p ∈ ss.zip ts) :
      Calls safety (.conversion (.tuple ss) (.tuple ts)) (.conversion p.1 p.2)
  | object {as bs : List (Attribute Ty)} {a b : Attribute Ty} (target : b ∈ bs)
      (source : Named.find? b.name as = some a) :
      Calls safety (.conversion (.object as) (.object bs)) (.conversion a.type b.type)
  | select {s : Ty} {bs : List (Attribute Ty)} {b : Attribute Ty} (target : b ∈ bs) :
      Calls safety (.conversion (.map s) (.object bs)) (.conversion s b.type)
  /-- A common type is built from common types of parts. -/
  | group {types group : List Ty}
      (mem : group ∈ (Blueprint.of (Ty.concrete types) safety).groups) :
      Calls safety (.common types) (.common group)
  /-- A candidate has to be one that every type converts to. -/
  | candidate {types : List Ty} {t u : Ty} (mem : t ∈ Ty.concrete types)
      (candidate : u ∈ (Blueprint.of (Ty.concrete types) safety).candidates (Ty.concrete types)
        safety) :
      Calls safety (.common types) (.conversion t u)

/-! ### Every call is about less -/

/-- How much a question is about: the depth of the source, or of the deepest type. At the same depth
a common type is more than a conversion. -/
def size : Question → Nat
  | .conversion source _ => 2 * source.depth
  | .common types => 2 * Ty.depthAll types + 1

theorem Calls.size_lt {safety : Safety} {q q' : Question} (h : Calls safety q q') :
    q'.size < q.size := by
  cases h with
  | sequence | map | select =>
    simp only [size, Ty.depth]
    omega
  | items =>
    simp only [size, Ty.depth]
    omega
  | fields =>
    simp only [size, Ty.depth, Ty.depthAttributes_eq]
    omega
  | item mem =>
    have := Ty.depth_lt_of_mem_tuple mem
    simp only [size]
    omega
  | tuple mem =>
    have := Ty.depth_lt_of_mem_tuple (List.of_mem_zip mem).1
    simp only [size]
    omega
  | field mem =>
    have := Ty.depth_lt_of_mem_object mem
    simp only [size]
    omega
  | object _ source =>
    have := Ty.depth_lt_of_mem_object (Named.mem_of_find? source).1
    simp only [size]
    omega
  | @group types group mem =>
    have hless := Blueprint.depthAll_lt_of_mem_groups mem
    have hmono := Ty.depthAll_mono fun t (ht : t ∈ Ty.concrete types) => (Ty.mem_concrete.mp ht).1
    simp only [size]
    omega
  | candidate mem =>
    have := Ty.depth_le_depthAll (Ty.mem_concrete.mp mem).1
    simp only [size]
    omega

/-! ### The search solves its own step -/

variable {safety : Safety} {ask : (q : Question) → q.Answer}

/-- Parts elect an element type if the question for their common type is answered as the search
answers it. -/
theorem elect_eq {parts : List Ty} {t : Ty}
    (h : t = .dynamic → ask (.common parts) = Ty.unify? parts safety) :
    elect ask parts t =
      if t.isDynamic && !parts.isEmpty then Ty.unify? parts safety else some t := by
  unfold elect
  split
  · rename_i hopen
    rw [Bool.and_eq_true, Ty.isDynamic_iff] at hopen
    exact h hopen.1
  · rfl

theorem step_conversion {source target : Ty}
    (h : ∀ q, Calls safety (.conversion source target) q → ask q = answer safety q) :
    step safety ask (.conversion source target) = Conversion.between? source target safety := by
  rw [Conversion.between?.eq_def]
  refine congrArg (Option.map _) (ite_congr rfl (fun _ => rfl) fun _ => ?_)
  cases source with
  | sequence k s =>
    cases target with
    | sequence l t =>
      have hask : ask (.conversion s t) = Conversion.between? s t safety := h _ .sequence
      simp only [hask]
    | _ => rfl
  | map s =>
    cases target with
    | map t =>
      have hask : ask (.conversion s t) = Conversion.between? s t safety := h _ .map
      simp only [hask]
    | object bs =>
      have hask : ∀ b ∈ bs, ask (.conversion s b.type) = Conversion.between? s b.type safety :=
        fun b hb => h _ (.select hb)
      refine ite_congr rfl (fun _ => congrArg _ (mapM_congr_of_mem fun b hb => ?_)) fun _ => rfl
      rw [hask b hb]
    | _ => rfl
  | tuple ss =>
    cases target with
    | sequence l t =>
      have hcommon : t = .dynamic → ask (.common ss) = Ty.unify? ss safety := by
        rintro rfl
        exact h _ .items
      refine ite_congr rfl (fun _ => ?_) fun _ => rfl
      rw [elect_eq hcommon]
      refine Option.bind_congr fun u hu => congrArg _ (mapM_congr_of_mem fun s hs => ?_)
      exact h _ (.item hs (Conversion.elects_of_eq hu))
    | tuple ts =>
      refine ite_congr rfl (fun _ => congrArg _ ?_) fun _ => rfl
      simp only [List.mapM_subtype, List.unattach_attach]
      exact mapM_congr_of_mem fun p hp => h _ (.tuple hp)
    | _ => rfl
  | object as =>
    cases target with
    | map t =>
      have hcommon : t = .dynamic →
          ask (.common (as.map (·.type))) = Ty.unify? (as.map (·.type)) safety := by
        rintro rfl
        exact h _ .fields
      have helect := elect_eq hcommon
      rw [List.isEmpty_map] at helect
      dsimp only
      rw [helect]
      refine Option.bind_congr fun u hu => congrArg _ (mapM_congr_of_mem fun a ha => ?_)
      have hask : ask (.conversion a.type u) = Conversion.between? a.type u safety :=
        h _ (.field ha (Conversion.elects_of_eq (by rwa [List.isEmpty_map])))
      rw [hask]
    | object bs =>
      refine ite_congr rfl (fun _ => congrArg _ (mapM_congr_of_mem fun b hb => ?_)) fun _ => rfl
      have hask : ∀ a, Named.find? b.name as = some a →
          ask (.conversion a.type b.type) = Conversion.between? a.type b.type safety :=
        fun a ha => h _ (.object hb ha)
      symm
      split
      · rename_i a ha
        simp only [ha, hask a ha]
      · rename_i hnone
        simp only [hnone]
    | _ => rfl
  | _ => cases target <;> rfl

/-- The candidates are those of the search if the groups are answered as the search answers
them. -/
theorem candidates_eq {types : List Ty} {blueprint : Blueprint}
    (h : ∀ group ∈ blueprint.groups, ask (.common group) = Ty.unify? group safety) :
    candidates ask types blueprint = blueprint.candidates types safety := by
  cases blueprint with
  | build frame groups =>
    have hgroups : (groups.mapM fun group => ask (.common group)) =
        groups.mapM fun group => Ty.unify? group safety := mapM_congr_of_mem h
    simp only [candidates, Blueprint.candidates, hgroups]
  | choose | clash => rfl

theorem step_common {types : List Ty}
    (h : ∀ q, Calls safety (.common types) q → ask q = answer safety q) :
    step safety ask (.common types) = Ty.unify? types safety := by
  rw [Ty.unify?_eq]
  change (match Ty.concrete types with | [] => _ | _ :: _ => _) =
    match Ty.concrete types with | [] => _ | _ :: _ => _
  cases hconcrete : Ty.concrete types with
  | nil => rfl
  | cons first rest =>
    refine ite_congr rfl (fun _ => rfl) fun _ => ?_
    have hgroups : ∀ group ∈ (Blueprint.of (Ty.concrete types) safety).groups,
        ask (.common group) = Ty.unify? group safety := fun group hgroup => h _ (.group hgroup)
    rw [Ty.merge?_eq, ← hconcrete, candidates_eq hgroups]
    refine find?_congr_of_mem fun u hu => all_congr_of_mem fun t ht => ?_
    have hask : ask (.conversion t u) = Conversion.between? t u safety := h _ (.candidate ht hu)
    rw [hask, Ty.joins]

/-- **Only the calls count.** If the questions that a question leads to are answered as the search
answers them, so is the question. -/
theorem step_eq_answer {q : Question}
    (h : ∀ q', Calls safety q q' → ask q' = answer safety q') :
    step safety ask q = answer safety q := by
  cases q with
  | conversion source target => exact step_conversion h
  | common types => exact step_common h

/-- **The search comes to an end.** -/
theorem terminates (safety : Safety) :
    Terminates (step safety) (Calls safety) (answer safety) where
  wellFounded := Subrelation.wf Calls.size_lt (measure size).wf
  determined _ _ := step_eq_answer

end Question

end Retype
