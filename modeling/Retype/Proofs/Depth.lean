import Retype.Proofs.Session

/-!
# Nothing gets deeper

No operation builds a type that is deeper than the types it works on. For common types and refined
types this is said by `Ty.depth_unify?_le` and `Ty.Refines.depth_le`. For values the depth of the
type alone is not what goes through a conversion: a list may record a type that hides how deep its
items are. The height of a value, which looks inside, does go through (`Value.height_convert_le`,
`Conversion.Within.height_le`), and of a well-formed value it is no more than the depth of its type
(`Value.WellFormed.height_le`).

It follows that a session whose requests are within its limit never replies with anything that is
not (`Session.Truthful.run`). This does not depend on what it remembers, or on whether there is
room: it only has to remember conversions as they are.
-/

namespace Retype

namespace Value

/-- A well-formed value is no deeper than its type says. -/
theorem WellFormed.height_le {v : Value} (h : v.WellFormed) : v.height ≤ v.ty.depth := by
  have positive : ∀ t : Ty, ∃ n, t.depth = n + 1 := fun t =>
    ⟨t.depth - 1, by have := t.depth_pos; omega⟩
  induction v with
  | null t | unknown t | string | number | bool | capsule => exact Nat.le_refl _
  | sequence k e items ih =>
    have hitems : ∀ x ∈ items, x.height ≤ e.depth := fun x hx =>
      h.here.1 e rfl x hx ▸ ih x hx (h.member hx)
    rw [ty, Ty.depth, Nat.add_comm]
    exact height_sequence_le_iff.mpr ⟨Nat.le_refl _, hitems⟩
  | map e entries ih =>
    have hentries : ∀ x ∈ entries, x.2.height ≤ e.depth := fun x hx =>
      h.here.1 e rfl x.2 (List.mem_map_of_mem hx) ▸ ih x hx (h.member (List.mem_map_of_mem hx))
    rw [ty, Ty.depth, Nat.add_comm]
    exact height_map_le_iff.mpr ⟨Nat.le_refl _, hentries⟩
  | tuple items ih =>
    obtain ⟨n, hn⟩ := positive (Value.tuple items).ty
    have hparts := Ty.depth_le_succ_iff.mp (Nat.le_of_eq hn)
    rw [ty, tyAll_eq_map, Ty.parts, List.forall_mem_map] at hparts
    rw [hn, height_tuple_le_iff]
    exact fun x hx => (ih x hx (h.member hx)).trans (hparts x hx)
  | object attributes ih =>
    obtain ⟨n, hn⟩ := positive (Value.object attributes).ty
    have hparts := Ty.depth_le_succ_iff.mp (Nat.le_of_eq hn)
    rw [ty, tyAttributes_eq_map, Ty.parts, List.map_map, List.forall_mem_map] at hparts
    rw [hn, height_object_le_iff]
    exact fun x hx => (ih x hx (h.member (List.mem_map_of_mem hx))).trans (hparts x hx)

/-- Converting makes nothing deeper than the value and the target. -/
theorem height_convert_le {v w : Value} {want : Ty} (h : v.convert want = .ok w) :
    w.height ≤ rank v want :=
  (agreeTo_convertWithin (Nat.le_refl _) (Nat.le_refl _) v want (Nat.le_refl _)).2 w h

theorem WellFormed.depth_convert_le {v w : Value} {want : Ty} (hv : v.WellFormed)
    (h : v.convert want = .ok w) : w.ty.depth ≤ max v.ty.depth want.depth := by
  have hheight : w.height ≤ max v.height want.depth := height_convert_le h
  have hv := hv.height_le
  exact depth_ty_le (by omega)

end Value

namespace Conversion

/-- A conversion within a depth makes nothing deeper of a value within that depth. -/
theorem Within.height_le {n : Nat} {c : Conversion} {v w : Value} (within : Within n c)
    (hv : v.height ≤ n) (h : c.apply v = .ok w) : w.height ≤ n := by
  have agree : ∀ n, AgreeTo n Value.convert Value.convert := fun n v t _ =>
    .of_eq fun _ hw => Value.height_convert_le hw
  obtain ⟨m, rfl⟩ : ∃ m, n = m + 1 := ⟨n - 1, by have := v.height_pos; omega⟩
  exact (within.coincide rfl (agree m) (fun _ _ => agree (m + 1)) hv).2 w h

/-- Whatever the conversion makes of a well-formed value with a type within the limit has a type
within the limit. -/
def Keeps (limit : Nat) (c : Conversion) : Prop :=
  ∀ v w, v.WellFormed → v.ty.depth ≤ limit → c.apply v = .ok w → w.ty.depth ≤ limit

theorem Within.keeps {limit : Nat} {c : Conversion} (within : Within limit c) : c.Keeps limit :=
  fun _ _ hv hdepth h => Value.depth_ty_le (within.height_le (hv.height_le.trans hdepth) h)

theorem keeps_of_between? {limit : Nat} {source target : Ty} {safety : Safety} {c : Conversion}
    (h : between? source target safety = some c) (hs : source.depth ≤ limit)
    (ht : target.depth ≤ limit) : c.Keeps limit :=
  (within_of_between? h hs ht).keeps

end Conversion

/-! ### Requests and replies within a limit -/

/-- The types and the values of a request are within the limit, and the values are well formed. -/
def Request.Within (limit : Nat) : Request → Prop
  | .convert v want => (v.WellFormed ∧ v.ty.depth ≤ limit) ∧ want.depth ≤ limit
  | .conversion query values =>
    (query.source.depth ≤ limit ∧ query.target.depth ≤ limit) ∧
      ∀ v ∈ values, v.WellFormed ∧ v.ty.depth ≤ limit
  | .unify types _ | .unifyWithConversions types _ => ∀ t ∈ types, t.depth ≤ limit
  | .refine declared input => declared.depth ≤ limit ∧ input.depth ≤ limit
  | .clear | .cached => True

/-- The types of a reply, those of values included, are within the limit, and its conversions stay
within it. -/
def Reply.Within (limit : Nat) : Reply → Prop
  | .value result => ∀ w, result = .ok w → w.ty.depth ≤ limit
  | .conversion result => ∀ c outcomes, result = .ok (some (c, outcomes)) →
      c.Keeps limit ∧ ∀ w, .ok w ∈ outcomes → w.ty.depth ≤ limit
  | .type result => ∀ t, result = .ok t → t.depth ≤ limit
  | .typeWithConversions result => ∀ u cs, result = .ok (u, cs) →
      u.depth ≤ limit ∧ ∀ c ∈ cs, c.Keeps limit
  | .cleared | .count _ => True

theorem Ty.depth_unify_le {types : List Ty} {safety : Safety} {u : Ty} {limit : Nat}
    (h : Ty.unify types safety = .ok u) (bound : ∀ t ∈ types, t.depth ≤ limit) :
    u.depth ≤ limit :=
  depth_unify?_le (unify_eq_ok_iff.mp h) bound

theorem Ty.depth_refine_le {declared input r : Ty} {limit : Nat}
    (h : declared.refine input = .ok r) (hd : declared.depth ≤ limit) (hi : input.depth ≤ limit) :
    r.depth ≤ limit :=
  (refine_eq_ok_iff.mp h).depth_le hd hi

/-- The conversions into a common type stay within the limit. -/
theorem Ty.keeps_of_unifyWithConversions {types : List Ty} {safety : Safety} {u : Ty}
    {cs : List Conversion} {limit : Nat} (h : Ty.unifyWithConversions types safety = .ok (u, cs))
    (bound : ∀ t ∈ types, t.depth ≤ limit) : u.depth ≤ limit ∧ ∀ c ∈ cs, c.Keeps limit := by
  obtain ⟨hcommon, hcs⟩ := Ty.unifyWithConversions_eq_ok h
  have hu := depth_unify?_le hcommon bound
  refine ⟨hu, fun c hc => ?_⟩
  obtain ⟨t, ht, ⟨-, rfl⟩ | hbetween⟩ := exists_of_mem_right hcs hc
  · exact Conversion.Within.identity.keeps
  · exact Conversion.keeps_of_between? hbetween (bound t ht) hu

/-! ### Sessions -/

namespace Session

/-- What is remembered is what a fresh search finds. -/
structure Truthful (session : Session) (settings : Settings) : Prop where
  limits : session.settings = settings
  right : ∀ entry ∈ session.cache, entry.2 = entry.1.answer

variable {session : Session} {settings : Settings}

theorem truthful_start (settings : Settings) : (start settings).Truthful settings :=
  ⟨rfl, by simp [start]⟩

theorem Truthful.lookup (h : session.Truthful settings) (query : Query) :
    (session.lookup query).1 = query.answer ∧ (session.lookup query).2.Truthful settings := by
  unfold Session.lookup
  cases hlookup : session.cache.lookup query with
  | none =>
    refine ⟨rfl, ?_⟩
    dsimp only [Session.remember]
    split
    · exact ⟨h.limits, List.forall_mem_cons.mpr ⟨rfl, h.right⟩⟩
    · exact h
  | some answer =>
    obtain ⟨before, after, hcache, -⟩ := List.lookup_eq_some_iff.mp hlookup
    have hmem : (query, answer) ∈ session.cache := by simp [hcache]
    exact ⟨h.right _ hmem, h⟩

theorem Truthful.conversion (h : session.Truthful settings) (query : Query) :
    (∀ answer, (session.conversion query).1 = .ok answer → answer = query.answer) ∧
      (session.conversion query).2.Truthful settings := by
  unfold Session.conversion
  split
  · exact ⟨nofun, h⟩
  · obtain ⟨answer, after⟩ := h.lookup query
    refine ⟨fun found hfound => ?_, after⟩
    rw [← Except.ok.inj hfound, answer]

theorem Truthful.convert (h : session.Truthful settings) (v : Value) (want : Ty) :
    (∀ w, (session.convert v want).1 = .ok w → v.convert want = .ok w) ∧
      (session.convert v want).2.Truthful settings := by
  unfold Session.convert
  split
  · rename_i hty
    refine ⟨fun w hw => ?_, h⟩
    rw [← hw, Value.convert_of_ty_eq hty]
  · rename_i hne
    obtain ⟨answer, after⟩ := h.conversion ⟨v.ty, want, .risky⟩
    generalize session.conversion ⟨v.ty, want, .risky⟩ = outcome at answer after
    obtain ⟨result, later⟩ := outcome
    cases result with
    | error fault => exact ⟨nofun, after⟩
    | ok found =>
      cases found with
      | none => exact ⟨nofun, after⟩
      | some c =>
        refine ⟨fun w hw => ?_, after⟩
        rw [Value.convert_of_between? hne (answer _ rfl).symm]
        exact hw

/-- **Step.** A request within the limit has a reply within the limit, and what is remembered
afterwards is right again. -/
theorem Truthful.step (h : session.Truthful settings) {request : Request}
    (within : request.Within settings.maxTypeDepth) :
    (session.step request).1.Within settings.maxTypeDepth ∧
      (session.step request).2.Truthful settings := by
  cases request with
  | convert v want =>
    obtain ⟨⟨hv, hdepth⟩, hwant⟩ := within
    obtain ⟨converts, after⟩ := h.convert v want
    exact ⟨fun w hw => (hv.depth_convert_le (converts w hw)).trans (Nat.max_le.mpr ⟨hdepth, hwant⟩),
      after⟩
  | conversion query values =>
    obtain ⟨⟨hs, ht⟩, hvalues⟩ := within
    obtain ⟨answer, after⟩ := h.conversion query
    refine ⟨fun c outcomes hreply => ?_, after⟩
    obtain ⟨found, hfound, hreply⟩ := map_eq_ok_iff.mp hreply
    obtain ⟨c', rfl, htried⟩ := Option.map_eq_some_iff.mp hreply
    cases htried
    have keeps := Conversion.keeps_of_between? (answer _ hfound).symm hs ht
    refine ⟨keeps, fun w hw => ?_⟩
    obtain ⟨v, hv, happly⟩ := List.mem_map.mp hw
    exact keeps v w (hvalues v hv).1 (hvalues v hv).2 happly
  | unify types safety =>
    refine ⟨fun u hu => ?_, h⟩
    obtain ⟨_, -, hu⟩ := bind_eq_ok_iff.mp hu
    exact Ty.depth_unify_le hu within
  | unifyWithConversions types safety =>
    refine ⟨fun u cs hu => ?_, h⟩
    obtain ⟨_, -, hu⟩ := bind_eq_ok_iff.mp hu
    exact Ty.keeps_of_unifyWithConversions hu within
  | refine declared input =>
    refine ⟨fun r hr => ?_, h⟩
    obtain ⟨_, -, hr⟩ := bind_eq_ok_iff.mp hr
    exact Ty.depth_refine_le hr within.1 within.2
  | clear => exact ⟨trivial, h.limits, by simp [Session.step, Session.clear]⟩
  | cached => exact ⟨trivial, h⟩

/-- **Run.** Requests within the limit, one after another, have replies within the limit. -/
theorem Truthful.run (h : session.Truthful settings) {requests : List Request}
    (within : ∀ request ∈ requests, request.Within settings.maxTypeDepth) :
    ∀ reply ∈ (session.run requests).1, reply.Within settings.maxTypeDepth := by
  induction requests generalizing session with
  | nil => exact fun reply hreply => nomatch hreply
  | cons request requests ih =>
    rw [List.forall_mem_cons] at within
    obtain ⟨reply, after⟩ := h.step within.1
    exact List.forall_mem_cons.mpr ⟨reply, ih after within.2⟩

end Session

/-- **Nothing gets deeper.** A common type is no deeper than the types, a refined type no deeper
than the declared type and the input, and the type of a converted value no deeper than the target
and the type of the value it came from. So a session that is asked within its limit replies within
it. -/
theorem depth_never_grows :
    (∀ (ts : List Ty) (safety : Safety) (u : Ty), Ty.unify ts safety = .ok u →
      u.depth ≤ Ty.depthAll ts) ∧
    (∀ declared input r : Ty, declared.refine input = .ok r →
      r.depth ≤ max input.depth declared.depth) ∧
    (∀ (v w : Value) (want : Ty), v.WellFormed → v.convert want = .ok w →
      w.ty.depth ≤ max v.ty.depth want.depth) ∧
    ∀ (settings : Settings) (requests : List Request),
      (∀ request ∈ requests, request.Within settings.maxTypeDepth) →
      ∀ reply ∈ ((Session.start settings).run requests).1, reply.Within settings.maxTypeDepth := by
  refine ⟨fun ts safety u h => ?_, fun declared input r h => ?_, fun v w want hv h => ?_,
    fun settings requests within => ?_⟩
  · exact Ty.depth_unify_le h fun t ht => Ty.depth_le_depthAll ht
  · exact Ty.depth_refine_le h (Nat.le_max_right _ _) (Nat.le_max_left _ _)
  · exact hv.depth_convert_le h
  · exact (Session.truthful_start settings).run within

/-- A tuple of lists is gathered in a list, where both become lists of texts. -/
theorem depth_never_grows_tuple_to_list :
    let settings : Settings := ⟨1, 3⟩
    let v : Value := .tuple [.list .bool [.bool true], .list .string [.string "x"]]
    let w : Value := .list (.list .string)
      [.list .string [.string "true"], .list .string [.string "x"]]
    let requests : List Request := [.convert v (.list .dynamic),
      .unify [.tuple [.tuple [.bool]], .list (.set .number)] .risky,
      .refine (.map .dynamic) (.object [⟨"a", false, .list .bool⟩])]
    (v.WellFormed ∧ v.convert (.list .dynamic) = .ok w ∧
      w.ty.depth ≤ max v.ty.depth (Ty.list .dynamic).depth) ∧
      (∀ request ∈ requests, request.Within settings.maxTypeDepth) ∧
      ∀ reply ∈ ((Session.start settings).run requests).1,
        reply.Within settings.maxTypeDepth := by
  intro settings v w requests
  have wellFormed : v.WellFormed := by decide
  have converts : v.convert (.list .dynamic) = .ok w := by cbv
  have within : ∀ request ∈ requests, request.Within settings.maxTypeDepth := by
    refine List.forall_mem_cons.mpr ⟨⟨⟨wellFormed, by decide⟩, by decide⟩, ?_⟩
    refine List.forall_mem_cons.mpr ⟨?_, List.forall_mem_singleton.mpr ⟨by decide, by decide⟩⟩
    exact List.forall_mem_cons.mpr ⟨by decide, List.forall_mem_singleton.mpr (by decide)⟩
  obtain ⟨-, -, convert, session⟩ := depth_never_grows
  exact ⟨⟨wellFormed, converts, convert v w _ wellFormed converts⟩, within,
    session settings requests within⟩

end Retype
