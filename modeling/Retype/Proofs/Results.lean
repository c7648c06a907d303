import Mathlib.Data.List.Forall2
import Mathlib.Data.List.Permutation

/-!
# Successful results

Steps that can fail are chained with `bind` and `map`, and lists of them are run with `mapM`.
Each lemma here says what a chain that succeeded went through: `bind_eq_ok_iff` and
`map_eq_ok_iff` for one link, `mapM_eq_ok_iff` and `mapM_eq_some_iff` for a list, where the
results stand beside the inputs position by position (`List.Forall₂`). Two searches that run side by
side have related results if their steps have (`rel_mapM`).

Relations that are defined by rules cannot mention `List.Forall₂` of themselves, so they speak
of positions instead; `forall₂_iff_getElem?` goes from one form to the other.
-/

namespace Retype

variable {ε α β γ : Type}

theorem bind_eq_ok_iff {x : Except ε α} {f : α → Except ε β} {b : β} :
    x.bind f = .ok b ↔ ∃ a, x = .ok a ∧ f a = .ok b := by
  cases x <;> simp [Except.bind]

theorem map_eq_ok_iff {x : Except ε α} {f : α → β} {b : β} :
    x.map f = .ok b ↔ ∃ a, x = .ok a ∧ f a = b := by
  cases x <;> simp [Except.map]

theorem mapError_eq_ok_iff {x : Except ε α} {f : ε → γ} {a : α} :
    x.mapError f = .ok a ↔ x = .ok a := by
  cases x <;> simp [Except.mapError]

theorem map_eq_error_iff {x : Except ε α} {f : α → β} {e : ε} :
    x.map f = .error e ↔ x = .error e := by
  cases x <;> simp [Except.map]

theorem bind_eq_error_iff {x : Except ε α} {f : α → Except ε β} {e : ε} :
    x.bind f = .error e ↔ x = .error e ∨ ∃ a, x = .ok a ∧ f a = .error e := by
  cases x <;> simp [Except.bind]

theorem mapError_eq_error_iff {x : Except ε α} {f : ε → γ} {e : γ} :
    x.mapError f = .error e ↔ ∃ e', x = .error e' ∧ f e' = e := by
  cases x <;> simp [Except.mapError]

/-- Running a step on each member succeeds exactly when each run does. -/
theorem mapM_eq_ok_iff {f : α → Except ε β} {as : List α} {bs : List β} :
    as.mapM f = .ok bs ↔ List.Forall₂ (fun a b => f a = .ok b) as bs := by
  induction as generalizing bs with
  | nil => simp [pure, Except.pure, eq_comm]
  | cons a as ih =>
    rw [List.mapM_cons, List.forall₂_cons_left_iff]
    constructor
    · intro h
      obtain ⟨b, hb, h⟩ := bind_eq_ok_iff.mp h
      obtain ⟨bs', hbs, h⟩ := bind_eq_ok_iff.mp h
      exact ⟨b, bs', hb, ih.mp hbs, by injection h with h; exact h.symm⟩
    · rintro ⟨b, bs', hb, hbs, rfl⟩
      exact bind_eq_ok_iff.mpr ⟨b, hb, bind_eq_ok_iff.mpr ⟨bs', ih.mpr hbs, rfl⟩⟩

/-- If each member is related to something, the whole list is, position by position. -/
theorem exists_forall₂ {R : α → β → Prop} {as : List α} (h : ∀ a ∈ as, ∃ b, R a b) :
    ∃ bs, List.Forall₂ R as bs := by
  induction as with
  | nil => exact ⟨[], .nil⟩
  | cons a as ih =>
    obtain ⟨b, hb⟩ := h a List.mem_cons_self
    obtain ⟨bs, hbs⟩ := ih fun a ha => h a (List.mem_cons_of_mem _ ha)
    exact ⟨b :: bs, .cons hb hbs⟩

/-- Running a step on each member succeeds if it does on each. -/
theorem exists_mapM_eq_ok {f : α → Except ε β} {as : List α} (h : ∀ a ∈ as, ∃ b, f a = .ok b) :
    ∃ bs, as.mapM f = .ok bs := by
  simp only [mapM_eq_ok_iff]
  exact exists_forall₂ h

/-- Running a step on each member fails as the step does on some member. -/
theorem exists_of_mapM_eq_error {f : α → Except ε β} {as : List α} {e : ε}
    (h : as.mapM f = .error e) : ∃ a ∈ as, f a = .error e := by
  induction as with
  | nil => cases h
  | cons a as ih =>
    rw [List.mapM_cons] at h
    cases ha : f a with
    | error e' =>
      rw [ha] at h
      cases h
      exact ⟨a, List.mem_cons_self, ha⟩
    | ok b =>
      rw [ha] at h
      cases has : as.mapM f with
      | ok bs => simp [has, bind, Except.bind, pure, Except.pure] at h
      | error e' =>
        have heq : e' = e := by simpa [has, bind, Except.bind] using h
        obtain ⟨a', ha', hfail⟩ := ih (heq ▸ has)
        exact ⟨a', List.mem_cons_of_mem _ ha', hfail⟩

/-- The results for a list are the results for its members. -/
theorem mapM_eq_some_iff {f : α → Option β} {as : List α} {bs : List β} :
    as.mapM f = some bs ↔ List.Forall₂ (fun a b => f a = some b) as bs := by
  induction as generalizing bs with
  | nil => simp [eq_comm]
  | cons a as ih =>
    rw [List.mapM_cons, List.forall₂_cons_left_iff]
    constructor
    · intro h
      obtain ⟨b, hb, h⟩ := Option.bind_eq_some_iff.mp h
      obtain ⟨bs', hbs, h⟩ := Option.bind_eq_some_iff.mp h
      exact ⟨b, bs', hb, ih.mp hbs, by injection h with h; exact h.symm⟩
    · rintro ⟨b, bs', hb, hbs, rfl⟩
      exact Option.bind_eq_some_iff.mpr ⟨b, hb, Option.bind_eq_some_iff.mpr ⟨bs', ih.mpr hbs, rfl⟩⟩

/-- Asking for a result for each member succeeds exactly when each has one. -/
theorem isSome_mapM {f : α → Option β} {as : List α} :
    (as.mapM f).isSome = true ↔ ∀ a ∈ as, (f a).isSome = true := by
  induction as with
  | nil => simp
  | cons a as ih =>
    rw [List.mapM_cons, List.forall_mem_cons, ← ih]
    cases f a <;> cases as.mapM f <;> simp

/-- Two answers are related if there are both or neither, and both are related. -/
theorem rel_iff {R : α → β → Prop} {x : Option α} {y : Option β} :
    Option.Rel R x y ↔ x.isSome = y.isSome ∧ ∀ a b, x = some a → y = some b → R a b := by
  constructor
  · rintro (h | _)
    · exact ⟨rfl, by rintro _ _ ⟨⟩ ⟨⟩; exact h⟩
    · exact ⟨rfl, by rintro _ _ ⟨⟩⟩
  · rintro ⟨hsome, h⟩
    cases x <;> cases y <;> cases hsome
    · exact .none
    · exact .some (h _ _ rfl rfl)

theorem rel_eq_iff {x y : Option α} : Option.Rel Eq x y ↔ x = y := by
  constructor
  · rintro (rfl | _) <;> rfl
  · rintro rfl
    exact rel_iff.mpr ⟨rfl, fun a b ha hb => Option.some.inj (ha.symm.trans hb)⟩

/-- Related answers for the members of two lists give related answers for the lists. -/
theorem rel_mapM {R : β → β → Prop} {f : α → Option β} {as as' : List α}
    (h : List.Forall₂ (fun a a' => Option.Rel R (f a) (f a')) as as') :
    Option.Rel (List.Forall₂ R) (as.mapM f) (as'.mapM f) := by
  induction h with
  | nil => exact .some .nil
  | @cons a a' as as' head _ ih =>
    rw [List.mapM_cons, List.mapM_cons]
    generalize f a = x, f a' = x' at head ⊢
    generalize as.mapM f = y, as'.mapM f = y' at ih ⊢
    cases head with
    | none => exact .none
    | some hb =>
      cases ih with
      | none => exact .none
      | some hbs => exact .some (.cons hb hbs)

/-- Two lists are related position by position when they have one length and the members at
each position are related. -/
theorem forall₂_iff_getElem? {R : α → β → Prop} {as : List α} {bs : List β} :
    List.Forall₂ R as bs ↔
      as.length = bs.length ∧ ∀ (i : Nat) a b, as[i]? = some a → bs[i]? = some b → R a b := by
  rw [List.forall₂_iff_get]
  refine and_congr_right fun _ => ⟨fun h i a b ha hb => ?_, fun h i ha hb => ?_⟩
  · obtain ⟨ha', rfl⟩ := List.getElem?_eq_some_iff.mp ha
    obtain ⟨hb', rfl⟩ := List.getElem?_eq_some_iff.mp hb
    exact h i ha' hb'
  · exact h i _ _ (List.getElem?_eq_getElem ha) (List.getElem?_eq_getElem hb)

/-- Lists of one length have members at the same positions. -/
theorem exists_getElem?_of_length {as : List α} {bs : List β} {i : Nat} {b : β}
    (hlen : as.length = bs.length) (hb : bs[i]? = some b) : ∃ a, as[i]? = some a := by
  obtain ⟨hi, -⟩ := List.getElem?_eq_some_iff.mp hb
  exact ⟨_, List.getElem?_eq_getElem (hlen ▸ hi)⟩

theorem ne_nil_of_length_eq {as : List α} {bs : List β} (hlen : as.length = bs.length)
    (hne : as ≠ []) : bs ≠ [] :=
  List.ne_nil_of_length_pos (hlen ▸ List.length_pos_of_ne_nil hne)

/-- What holds of the members at each position of two lists holds of every member. -/
theorem forall_mem_of_getElem? {as : List α} {bs : List β} {Q : β → Prop}
    (hlen : as.length = bs.length)
    (heach : ∀ (i : Nat) a b, as[i]? = some a → bs[i]? = some b → Q b) : ∀ b ∈ bs, Q b := by
  intro b hb
  obtain ⟨i, hb⟩ := List.getElem?_of_mem hb
  obtain ⟨a, ha⟩ := exists_getElem?_of_length hlen hb
  exact heach i a b ha hb

/-- Two lists have the same image if the members at each position do. -/
theorem map_eq_map_of_getElem? {f : α → γ} {g : β → γ} {as : List α} {bs : List β}
    (hlen : as.length = bs.length)
    (heach : ∀ (i : Nat) a b, as[i]? = some a → bs[i]? = some b → f a = g b) :
    as.map f = bs.map g := by
  rw [← List.forall₂_eq_eq_eq, List.forall₂_map_left_iff, List.forall₂_map_right_iff]
  exact forall₂_iff_getElem?.mpr ⟨hlen, heach⟩

/-- Relatedness position by position is monotone in what holds of the members. -/
theorem forall₂_of_mem {R S : α → β → Prop} {as : List α} {bs : List β}
    (h : List.Forall₂ R as bs) (himp : ∀ a ∈ as, ∀ b ∈ bs, R a b → S a b) :
    List.Forall₂ S as bs := by
  rw [forall₂_iff_getElem?] at h ⊢
  exact ⟨h.1, fun i a b ha hb =>
    himp a (List.mem_of_getElem? ha) b (List.mem_of_getElem? hb) (h.2 i a b ha hb)⟩

/-- Members beside the same member of a third list are beside each other. -/
theorem forall₂_of_source {R : β → γ → Prop} {as : List α} {bs : List β} {cs : List γ}
    (hb : as.length = bs.length) (hc : as.length = cs.length)
    (each : ∀ (i : Nat) a b c, as[i]? = some a → bs[i]? = some b → cs[i]? = some c → R b c) :
    List.Forall₂ R bs cs := by
  refine forall₂_iff_getElem?.mpr ⟨hb.symm.trans hc, fun i b c hbi hci => ?_⟩
  obtain ⟨a, ha⟩ := exists_getElem?_of_length hb hbi
  exact each i a b c ha hbi hci

/-- Relatedness position by position may be composed. -/
theorem forall₂_trans {R : α → β → Prop} {S : β → γ → Prop} {T : α → γ → Prop} {as : List α}
    {bs : List β} {cs : List γ} (hab : List.Forall₂ R as bs) (hbc : List.Forall₂ S bs cs)
    (himp : ∀ a ∈ as, ∀ b c, R a b → S b c → T a c) : List.Forall₂ T as cs := by
  rw [forall₂_iff_getElem?] at *
  refine ⟨hab.1.trans hbc.1, fun i a c ha hc => ?_⟩
  obtain ⟨b, hb⟩ := exists_getElem?_of_length hbc.1 hc
  exact himp a (List.mem_of_getElem? ha) b c (hab.2 i a b ha hb) (hbc.2 i b c hb hc)

/-- Two lists are related position by position if what stands beside their members is. -/
theorem forall₂_of_beside {R : α → α → Prop} {S : β → β → Prop} {as as' : List α} {bs bs' : List β}
    (hlen : as.length = bs.length) (hlen' : as'.length = bs'.length) (h : List.Forall₂ S bs bs')
    (himp : ∀ (i : Nat) a a' b b', as[i]? = some a → as'[i]? = some a' → bs[i]? = some b →
      bs'[i]? = some b' → S b b' → R a a') : List.Forall₂ R as as' := by
  obtain ⟨hlength, heach⟩ := forall₂_iff_getElem?.mp h
  refine forall₂_iff_getElem?.mpr ⟨(hlen.trans hlength).trans hlen'.symm, fun i a a' ha ha' => ?_⟩
  obtain ⟨b, hb⟩ := exists_getElem?_of_length hlen.symm ha
  obtain ⟨b', hb'⟩ := exists_getElem?_of_length hlen'.symm ha'
  exact himp i a a' b b' ha ha' hb hb' (heach i b b' hb hb')

/-- What is read off the members of two lists, where there is something to read at each position,
is related if it is for members beside each other. -/
theorem forall₂_filterMap {δ : Type} {R : α → β → Prop} {S : γ → δ → Prop} {f : α → Option γ}
    {g : β → Option δ} {as : List α} {bs : List β} (h : List.Forall₂ R as bs)
    (himp : ∀ a ∈ as, ∀ b ∈ bs, R a b → ∃ c d, f a = some c ∧ g b = some d ∧ S c d) :
    List.Forall₂ S (as.filterMap f) (bs.filterMap g) := by
  induction h with
  | nil => exact .nil
  | @cons a b as bs hab _ ih =>
    obtain ⟨c, d, hc, hd, hS⟩ := himp a List.mem_cons_self b List.mem_cons_self hab
    rw [List.filterMap_cons_some hc, List.filterMap_cons_some hd]
    exact .cons hS (ih fun a ha b hb => himp a (List.mem_cons_of_mem _ ha) b
      (List.mem_cons_of_mem _ hb))

/-- What holds of any two members of a list carries over to the members related to them. -/
theorem pairwise_of_forall₂ {R : α → β → Prop} {P : α → α → Prop} {Q : β → β → Prop} {as : List α}
    {bs : List β} (h : List.Forall₂ R as bs) (hP : as.Pairwise P)
    (himp : ∀ a ∈ as, ∀ a' ∈ as, ∀ b b', R a b → R a' b' → P a a' → Q b b') : bs.Pairwise Q := by
  induction h with
  | nil => exact .nil
  | @cons a b as bs hab hrest ih =>
    obtain ⟨hfirst, hP⟩ := List.pairwise_cons.mp hP
    refine .cons (fun b' hb' => ?_) (ih hP fun x hx x' hx' =>
      himp x (List.mem_cons_of_mem _ hx) x' (List.mem_cons_of_mem _ hx'))
    obtain ⟨i, hi⟩ := List.getElem?_of_mem hb'
    obtain ⟨a', ha'⟩ := exists_getElem?_of_length hrest.length_eq hi
    have hmem := List.mem_of_getElem? ha'
    exact himp a List.mem_cons_self a' (List.mem_cons_of_mem _ hmem) b b' hab
      ((forall₂_iff_getElem?.mp hrest).2 i a' b' ha' hi) (hfirst a' hmem)

/-- Running a step on each member succeeds, with results that are related to what stands beside
the members, if this is so of each. -/
theorem exists_mapM_beside {f : α → Except ε β} {as : List α} {cs : List γ} {R : β → γ → Prop}
    (hlen : as.length = cs.length)
    (h : ∀ (i : Nat) a c, as[i]? = some a → cs[i]? = some c → ∃ b, f a = .ok b ∧ R b c) :
    ∃ bs, as.mapM f = .ok bs ∧ List.Forall₂ R bs cs := by
  obtain ⟨bs, hbs⟩ : ∃ bs, as.mapM f = .ok bs := by
    refine exists_mapM_eq_ok fun a ha => ?_
    obtain ⟨i, ha⟩ := List.getElem?_of_mem ha
    obtain ⟨c, hc⟩ := exists_getElem?_of_length hlen.symm ha
    obtain ⟨b, hb, -⟩ := h i a c ha hc
    exact ⟨b, hb⟩
  obtain ⟨hlen', heach⟩ := forall₂_iff_getElem?.mp (mapM_eq_ok_iff.mp hbs)
  refine ⟨bs, hbs, forall₂_iff_getElem?.mpr ⟨hlen'.symm.trans hlen, fun i b c hb hc => ?_⟩⟩
  obtain ⟨a, ha⟩ := exists_getElem?_of_length hlen' hb
  obtain ⟨b', hb', hR⟩ := h i a c ha hc
  rw [heach i a b ha hb] at hb'
  cases hb'
  exact hR

/-- Two steps that run side by side have the same results if each result of the first is one of
the second. -/
theorem mapM_eq_ok_beside {f : α → Except ε β} {g : γ → Except ε β} {as : List α} {cs : List γ}
    {bs : List β} (hlen : as.length = cs.length) (h : as.mapM f = .ok bs)
    (himp : ∀ (i : Nat) a c b, as[i]? = some a → cs[i]? = some c → f a = .ok b → g c = .ok b) :
    cs.mapM g = .ok bs := by
  obtain ⟨hlength, heach⟩ := forall₂_iff_getElem?.mp (mapM_eq_ok_iff.mp h)
  refine mapM_eq_ok_iff.mpr (forall₂_of_source hlen hlength fun i a c b ha hc hb => ?_)
  exact himp i a c b ha hc (heach i a b ha hb)

/-- Each member on the right is related to one on the left. -/
theorem exists_of_mem_right {R : α → β → Prop} {as : List α} {bs : List β}
    (h : List.Forall₂ R as bs) {b : β} (hb : b ∈ bs) : ∃ a ∈ as, R a b := by
  induction h with
  | nil => cases hb
  | cons hab _ ih =>
    rcases List.mem_cons.mp hb with rfl | hb
    · exact ⟨_, List.mem_cons_self, hab⟩
    · obtain ⟨a, ha, hR⟩ := ih hb
      exact ⟨a, List.mem_cons_of_mem _ ha, hR⟩

end Retype
