import Mathlib.Data.Finset.Card
import Mathlib.Data.List.Infix
import Retype.Proofs.Conversion.Levels
import Retype.Session

/-!
# What a session remembers does not show

A session is asked one thing after another (`Session.run`). The answers are those that would be
given without any memory (`Request.reference`): the first type that is too deep is refused, and
otherwise the question is answered afresh. Only the number of remembered conversions depends on what
was asked before: it is the number of different conversions looked up since the memory was last
cleared (`lookups`), as long as there is room for them (`session_transparent`).

The proof relates a session to the set of its lookups (`Session.Reflects`): every conversion that is
remembered is the one that a fresh search finds, and none is remembered twice or lost. One request
preserves this (`Reflects.step`), and so does a run (`Reflects.run`).
-/

namespace Retype

/-! ### Requests and replies -/

/-- What a session can be asked. -/
inductive Request where
  /-- To convert a value to a type. -/
  | convert (v : Value) (want : Ty)
  /-- For a conversion, and for what it makes of some values. -/
  | conversion (query : Query) (values : List Value)
  /-- For the common type of types. -/
  | unify (types : List Ty) (safety : Safety)
  /-- For the common type of types and their conversions into it. -/
  | unifyWithConversions (types : List Ty) (safety : Safety)
  /-- To fill the placeholders of a declared type. -/
  | refine (declared input : Ty)
  /-- To forget every conversion. -/
  | clear
  /-- How many conversions are remembered. -/
  | cached

/-- What a session answers. -/
inductive Reply where
  | value (result : Except Fault Value)
  | conversion (result : Except Fault (Option (Conversion × List (Except Fault Value))))
  | type (result : Except Fault Ty)
  | typeWithConversions (result : Except Fault (Ty × List Conversion))
  | cleared
  | count (number : Nat)

/-- A conversion, and what it makes of some values. -/
def Conversion.tried (values : List Value) (c : Conversion) :
    Conversion × List (Except Fault Value) :=
  (c, values.map c.apply)

namespace Session

/-- The reply to a request, and the session after it. -/
def step (session : Session) : Request → Reply × Session
  | .convert v want =>
    let (result, session) := session.convert v want
    (.value result, session)
  | .conversion query values =>
    let (result, session) := session.conversion query
    (.conversion (result.map (·.map (Conversion.tried values))), session)
  | .unify types safety => (.type (session.unify types safety), session)
  | .unifyWithConversions types safety =>
    (.typeWithConversions (session.unifyWithConversions types safety), session)
  | .refine declared input => (.type (session.refine declared input), session)
  | .clear => (.cleared, session.clear)
  | .cached => (.count session.cached, session)

/-- The replies to requests, one after another, and the session after them. -/
def run (session : Session) : List Request → List Reply × Session
  | [] => ([], session)
  | request :: requests =>
    let (reply, session) := session.step request
    let (replies, session) := session.run requests
    (reply :: replies, session)

end Session

/-! ### Answers without memory -/

/-- The answer, unless one of the types is too deep; then the first of them is refused. -/
def Settings.within {α : Type} (settings : Settings) (types : List Ty) (answer : Except Fault α) :
    Except Fault α :=
  match types.find? fun t => settings.maxTypeDepth < t.depth with
  | some t => .error (.of (.tooDeep settings.maxTypeDepth t.depth))
  | none => answer

/-- A question between types that are not too deep. -/
def Query.allowed? (settings : Settings) (query : Query) : Option Query :=
  if ∀ t ∈ [query.source, query.target], t.depth ≤ settings.maxTypeDepth then some query else none

namespace Request

/-- The conversion that is looked up for a request, if any is. -/
def query? (settings : Settings) : Request → Option Query
  | .convert v want => if v.ty = want then none else Query.allowed? settings ⟨v.ty, want, .risky⟩
  | .conversion query _ => query.allowed? settings
  | _ => none

/-- The conversions looked up since the memory was cleared, after one more request. -/
def lookups (settings : Settings) (seen : Finset Query) (request : Request) : Finset Query :=
  match request with
  | .clear => ∅
  | request => (request.query? settings).elim seen (insert · seen)

/-- The reply to a request when nothing is remembered but which conversions were looked up. -/
def reference (settings : Settings) (seen : Finset Query) : Request → Reply
  | .convert v want =>
    .value (if v.ty = want then .ok v else settings.within [v.ty, want] (v.convert want))
  | .conversion query values =>
    .conversion (settings.within [query.source, query.target]
      (.ok ((Conversion.between? query.source query.target query.safety).map
        (Conversion.tried values))))
  | .unify types safety => .type (settings.within types (Ty.unify types safety))
  | .unifyWithConversions types safety =>
    .typeWithConversions (settings.within types (Ty.unifyWithConversions types safety))
  | .refine declared input => .type (settings.within [input, declared] (declared.refine input))
  | .clear => .cleared
  | .cached => .count (if settings.cacheCapacity = 0 then 0 else seen.card)

end Request

/-- The conversions looked up in a run since the memory was cleared, beside those of before. -/
def lookups (settings : Settings) (seen : Finset Query) (requests : List Request) : Finset Query :=
  requests.foldl (Request.lookups settings) seen

/-- The replies to requests when nothing is remembered but which conversions were looked up. -/
def references (settings : Settings) (seen : Finset Query) : List Request → List Reply
  | [] => []
  | request :: requests =>
    request.reference settings seen ::
      references settings (request.lookups settings seen) requests

/-! ### Limits -/

namespace Settings

variable {settings : Settings}

theorem checkDepths_eq_within (types : List Ty) :
    settings.checkDepths types = settings.within types (.ok ()) := by
  induction types with
  | nil => rfl
  | cons t ts ih =>
    rw [checkDepths, checkDepth, within, List.find?_cons]
    by_cases deep : settings.maxTypeDepth < t.depth
    · simp [deep, Except.bind]
    · simpa [deep, Except.bind, within] using ih

theorem within_bind {α β : Type} {types : List Ty} (answer : Except Fault α)
    (next : α → Except Fault β) :
    (settings.within types answer).bind next = settings.within types (answer.bind next) := by
  unfold within
  split <;> rfl

theorem within_map {α β : Type} {types : List Ty} (answer : Except Fault α) (f : α → β) :
    (settings.within types answer).map f = settings.within types (answer.map f) := by
  unfold within
  split <;> rfl

theorem within_of_le {α : Type} {types : List Ty} {answer : Except Fault α}
    (h : ∀ t ∈ types, t.depth ≤ settings.maxTypeDepth) : settings.within types answer = answer := by
  have hnone : types.find? (fun t => settings.maxTypeDepth < t.depth) = none := by simpa using h
  rw [within, hnone]

theorem exists_within_eq_error {types : List Ty}
    (h : ¬∀ t ∈ types, t.depth ≤ settings.maxTypeDepth) :
    ∃ fault, ∀ {α : Type} (answer : Except Fault α), settings.within types answer = .error fault := by
  have hsome : (types.find? fun t => settings.maxTypeDepth < t.depth).isSome = true := by
    simpa using h
  obtain ⟨t, ht⟩ := Option.isSome_iff_exists.mp hsome
  refine ⟨.of (.tooDeep settings.maxTypeDepth t.depth), fun answer => ?_⟩
  rw [within, ht]

end Settings

/-! ### The memory -/

namespace Session

/-- What is remembered is right and is what was looked up; nothing is where there is no room for
anything. -/
structure Reflects (session : Session) (settings : Settings) (seen : Finset Query) : Prop where
  limits : session.settings = settings
  right : ∀ entry ∈ session.cache, entry.2 = entry.1.answer
  distinct : (session.cache.map Prod.fst).Nodup
  kept : settings.cacheCapacity ≠ 0 → (session.cache.map Prod.fst).toFinset = seen
  disabled : settings.cacheCapacity = 0 → session.cache = []

variable {session : Session} {settings : Settings} {seen : Finset Query}

theorem reflects_start (settings : Settings) : (start settings).Reflects settings ∅ :=
  ⟨rfl, by simp [start], by simp [start], by simp [start], fun _ => rfl⟩

theorem Reflects.clear (h : session.Reflects settings seen) : session.clear.Reflects settings ∅ :=
  ⟨h.limits, by simp [Session.clear], by simp [Session.clear], by simp [Session.clear], fun _ => rfl⟩

theorem Reflects.cached (h : session.Reflects settings seen) :
    session.cached = if settings.cacheCapacity = 0 then 0 else seen.card := by
  split
  · rename_i hzero
    rw [Session.cached, h.disabled hzero]
    rfl
  · rename_i henabled
    rw [← h.kept henabled, List.toFinset_card_of_nodup h.distinct, Session.cached, List.length_map]

theorem Reflects.mem_cache (h : session.Reflects settings seen)
    (enabled : settings.cacheCapacity ≠ 0) {query : Query} :
    query ∈ session.cache.map Prod.fst ↔ query ∈ seen := by
  rw [← h.kept enabled, List.mem_toFinset]

/-- A conversion that was not looked up before is remembered: there is room, or nothing is ever
remembered. -/
theorem Reflects.remember (h : session.Reflects settings seen) {query : Query}
    (new : query ∉ session.cache.map Prod.fst)
    (room : settings.cacheCapacity = 0 ∨ (insert query seen).card ≤ settings.cacheCapacity) :
    (session.remember query query.answer).Reflects settings (insert query seen) := by
  rcases Nat.eq_zero_or_pos settings.cacheCapacity with hzero | hpos
  · have hfull : session.remember query query.answer = session := by
      rw [Session.remember, if_neg]
      rw [h.limits, hzero]
      exact Nat.not_lt_zero _
    rw [hfull]
    exact ⟨h.limits, h.right, h.distinct, fun enabled => absurd hzero enabled, h.disabled⟩
  · have enabled : settings.cacheCapacity ≠ 0 := Nat.ne_of_gt hpos
    have hcard : (insert query seen).card = session.cached + 1 := by
      rw [h.cached, if_neg enabled, Finset.card_insert_of_notMem (mt (h.mem_cache enabled).mpr new)]
    have hroom : session.cached < session.settings.cacheCapacity := by
      rw [h.limits]
      rcases room with hzero | hle
      · exact absurd hzero enabled
      · omega
    rw [Session.remember, if_pos hroom]
    refine ⟨h.limits, ?_, ?_, fun _ => ?_, fun hzero => absurd hzero enabled⟩
    · exact List.forall_mem_cons.mpr ⟨rfl, h.right⟩
    · exact List.nodup_cons.mpr ⟨new, h.distinct⟩
    · rw [List.map_cons, List.toFinset_cons, h.kept enabled]

/-- Looking up a conversion finds the right one, and leaves it remembered. -/
theorem Reflects.lookup (h : session.Reflects settings seen) {query : Query}
    (room : settings.cacheCapacity = 0 ∨ (insert query seen).card ≤ settings.cacheCapacity) :
    (session.lookup query).1 = query.answer ∧
      (session.lookup query).2.Reflects settings (insert query seen) := by
  unfold Session.lookup
  cases hlookup : session.cache.lookup query with
  | none =>
    refine ⟨rfl, h.remember (fun hmem => ?_) room⟩
    obtain ⟨entry, hentry, rfl⟩ := List.mem_map.mp hmem
    simpa using List.lookup_eq_none_iff.mp hlookup entry hentry
  | some answer =>
    obtain ⟨before, after, hcache, -⟩ := List.lookup_eq_some_iff.mp hlookup
    have hmem : (query, answer) ∈ session.cache := by simp [hcache]
    refine ⟨h.right _ hmem, h.limits, h.right, h.distinct, fun enabled => ?_, h.disabled⟩
    have hseen : query ∈ seen := (h.mem_cache enabled).mp (List.mem_map_of_mem hmem)
    rw [h.kept enabled, Finset.insert_eq_of_mem hseen]

/-- A conversion that is asked for is the right one, within the limits. -/
theorem Reflects.conversion (h : session.Reflects settings seen) {query : Query}
    (room : settings.cacheCapacity = 0 ∨
      ((query.allowed? settings).elim seen (insert · seen)).card ≤ settings.cacheCapacity) :
    (session.conversion query).1 =
        settings.within [query.source, query.target] (.ok query.answer) ∧
      (session.conversion query).2.Reflects settings
        ((query.allowed? settings).elim seen (insert · seen)) := by
  unfold Session.conversion
  rw [h.limits, Settings.checkDepths_eq_within]
  by_cases shallow : ∀ t ∈ [query.source, query.target], t.depth ≤ settings.maxTypeDepth
  · rw [Query.allowed?, if_pos shallow] at room ⊢
    rw [Settings.within_of_le shallow, Settings.within_of_le shallow]
    obtain ⟨answer, after⟩ := h.lookup room
    exact ⟨congrArg Except.ok answer, after⟩
  · obtain ⟨fault, hfault⟩ := Settings.exists_within_eq_error shallow
    rw [Query.allowed?, if_neg shallow, hfault, hfault]
    exact ⟨rfl, h⟩

/-- A value is converted as it is without a session, within the limits. -/
theorem Reflects.convert (h : session.Reflects settings seen) {v : Value} {want : Ty}
    (hne : v.ty ≠ want)
    (room : settings.cacheCapacity = 0 ∨
      ((Query.allowed? settings ⟨v.ty, want, .risky⟩).elim seen (insert · seen)).card ≤
        settings.cacheCapacity) :
    (session.convert v want).1 = settings.within [v.ty, want] (v.convert want) ∧
      (session.convert v want).2.Reflects settings
        ((Query.allowed? settings ⟨v.ty, want, .risky⟩).elim seen (insert · seen)) := by
  obtain ⟨answer, after⟩ := h.conversion room
  rw [Session.convert, if_neg hne]
  generalize session.conversion ⟨v.ty, want, .risky⟩ = outcome at answer after ⊢
  obtain ⟨result, later⟩ := outcome
  by_cases shallow : ∀ t ∈ [v.ty, want], t.depth ≤ settings.maxTypeDepth
  · rw [Settings.within_of_le shallow, Query.answer] at answer
    rw [Settings.within_of_le shallow, Value.convert_eq, if_neg hne]
    cases hbetween : Conversion.between? v.ty want .risky with
    | none =>
      rw [hbetween] at answer
      subst answer
      exact ⟨rfl, after⟩
    | some c =>
      rw [hbetween] at answer
      subst answer
      exact ⟨rfl, after⟩
  · obtain ⟨fault, hfault⟩ := Settings.exists_within_eq_error shallow
    rw [hfault] at answer
    rw [hfault]
    subst answer
    exact ⟨rfl, after⟩

/-- **Step.** A request is answered as if nothing were remembered, and what is remembered afterwards
is right again. -/
theorem Reflects.step (h : session.Reflects settings seen) (request : Request)
    (room : settings.cacheCapacity = 0 ∨
      (request.lookups settings seen).card ≤ settings.cacheCapacity) :
    (session.step request).1 = request.reference settings seen ∧
      (session.step request).2.Reflects settings (request.lookups settings seen) := by
  have checked : ∀ {α : Type} (types : List Ty) (answer : Except Fault α),
      (session.settings.checkDepths types).bind (fun _ => answer) = settings.within types answer := by
    intro α types answer
    rw [h.limits, Settings.checkDepths_eq_within, Settings.within_bind]
    rfl
  cases request with
  | convert v want =>
    rw [Request.reference]
    by_cases hty : v.ty = want
    · have hseen : (Request.convert v want).lookups settings seen = seen := by
        dsimp only [Request.lookups, Request.query?]
        rw [if_pos hty]
        rfl
      rw [hseen, Session.step, Session.convert, if_pos hty, if_pos hty]
      exact ⟨rfl, h⟩
    · have hseen : (Request.convert v want).lookups settings seen =
          (Query.allowed? settings ⟨v.ty, want, .risky⟩).elim seen (insert · seen) := by
        dsimp only [Request.lookups, Request.query?]
        rw [if_neg hty]
      rw [hseen] at room ⊢
      obtain ⟨answer, after⟩ := h.convert hty room
      rw [if_neg hty]
      exact ⟨congrArg Reply.value answer, after⟩
  | conversion query values =>
    obtain ⟨answer, after⟩ := h.conversion room
    have tried : (session.conversion query).1.map (·.map (Conversion.tried values)) =
        settings.within [query.source, query.target]
          (.ok (query.answer.map (Conversion.tried values))) := by
      rw [answer, Settings.within_map]
      rfl
    exact ⟨congrArg Reply.conversion tried, after⟩
  | unify types safety => exact ⟨congrArg Reply.type (checked types _), h⟩
  | unifyWithConversions types safety =>
    exact ⟨congrArg Reply.typeWithConversions (checked types _), h⟩
  | refine declared input => exact ⟨congrArg Reply.type (checked [input, declared] _), h⟩
  | clear => exact ⟨rfl, h.clear⟩
  | cached => exact ⟨congrArg Reply.count h.cached, h⟩

/-- **Run.** Requests are answered, one after another, as if nothing were remembered. -/
theorem Reflects.run (h : session.Reflects settings seen) {requests : List Request}
    (room : ∀ done ∈ requests.inits, settings.cacheCapacity = 0 ∨
      (lookups settings seen done).card ≤ settings.cacheCapacity) :
    (session.run requests).1 = references settings seen requests ∧
      (session.run requests).2.Reflects settings (lookups settings seen requests) := by
  induction requests generalizing session seen with
  | nil => exact ⟨rfl, h⟩
  | cons request requests ih =>
    rw [List.inits_cons, List.forall_mem_cons, List.forall_mem_map] at room
    obtain ⟨reply, after⟩ := h.step request (room.2 [] (by simp))
    obtain ⟨replies, last⟩ := ih after room.2
    refine ⟨?_, last⟩
    rw [Session.run, references, ← reply, ← replies]

end Session

/-- **The memory does not show.** Whatever a session is asked, its replies are those given without
memory; and after every request the number of conversions it remembers is the number of different
ones looked up since it was cleared, or 0 if it is not to remember any. This holds as long as there
is room for them. -/
theorem session_transparent (settings : Settings) (requests : List Request)
    (room : settings.cacheCapacity = 0 ∨ ∀ done ∈ requests.inits,
      (lookups settings ∅ done).card ≤ settings.cacheCapacity) :
    ((Session.start settings).run requests).1 = references settings ∅ requests ∧
      ∀ done ∈ requests.inits, ((Session.start settings).run done).2.cached =
        if settings.cacheCapacity = 0 then 0 else (lookups settings ∅ done).card := by
  have hstart := Session.reflects_start settings
  have room' : ∀ done ∈ requests.inits, settings.cacheCapacity = 0 ∨
      (lookups settings ∅ done).card ≤ settings.cacheCapacity :=
    fun done hdone => room.imp id fun h => h done hdone
  refine ⟨(hstart.run room').1, fun done hdone => (hstart.run fun part hpart => ?_).2.cached⟩
  rw [List.mem_inits] at hdone hpart
  exact room' part ((List.mem_inits _ _).mpr (hpart.trans hdone))

/-- A conversion that exists and one that does not are asked for twice; a text is kept as it is, a
type is too deep, and the memory is cleared in between. -/
theorem session_transparent_two_conversions :
    let settings : Settings := ⟨2, 2⟩
    let written : Request := .convert (.number ⟨1, 0⟩) .string
    let missing : Request := .conversion ⟨.bool, .number, .risky⟩ [.bool true]
    let requests : List Request := [written, missing, written, .convert (.string "x") .string,
      .conversion ⟨.string, .list (.list .string), .safe⟩ [], .unify [.number, .string] .safe,
      .cached, .clear, missing, .cached]
    (∀ done ∈ requests.inits, (lookups settings ∅ done).card ≤ settings.cacheCapacity) ∧
      ((Session.start settings).run requests).1 = references settings ∅ requests ∧
      ((Session.start settings).run requests).2.cached = 1 := by
  intro settings written missing requests
  have room : ∀ done ∈ requests.inits,
      (lookups settings ∅ done).card ≤ settings.cacheCapacity := by decide +kernel
  obtain ⟨replies, counts⟩ := session_transparent settings requests (.inr room)
  refine ⟨room, replies, ?_⟩
  rw [counts requests ((List.mem_inits _ _).mpr (List.prefix_refl _))]
  decide +kernel

end Retype
