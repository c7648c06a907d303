import Mathlib.Data.List.Perm.Basic
import Retype.Proofs.Results

/-!
# Lists that match up to their order

Two lists match under a relation if one of them can be put in an order in which its members stand
beside related members of the other (`Matched`). This is what remains of `List.Forall₂` when the
order does not count, as it does not among the items of a set.

* Matching lists have one length, and every member has a partner (`Matched.length_eq`,
  `Matched.left`, `Matched.right`). Conversely, partners can be taken one by one if neither list
  holds two members that are related to each other (`matched_of_distinct`).
* What does not depend on the order, and is the same for partners, is the same for the lists
  (`Matched.perm_map`).
* Running a step on the members of matching lists fails for both, or gives matching results
  (`Concur.mapM_matched`), if this is so of partners.
-/

namespace Retype

variable {α β γ : Type} {R : α → β → Prop}

/-- The members of the second list can be put in an order in which they stand beside related
members of the first. -/
def Matched (R : α → β → Prop) (xs : List α) (ys : List β) : Prop :=
  ∃ zs, List.Forall₂ R xs zs ∧ zs.Perm ys

theorem Matched.of_forall₂ {xs : List α} {ys : List β} (h : List.Forall₂ R xs ys) :
    Matched R xs ys :=
  ⟨ys, h, .refl ys⟩

theorem Matched.of_perm {R : α → α → Prop} (refl : ∀ x, R x x) {xs ys : List α} (h : xs.Perm ys) :
    Matched R xs ys :=
  ⟨xs, List.forall₂_same.mpr fun x _ => refl x, h⟩

theorem Matched.length_eq {xs : List α} {ys : List β} (h : Matched R xs ys) :
    xs.length = ys.length := by
  obtain ⟨zs, each, perm⟩ := h
  exact each.length_eq.trans perm.length_eq

theorem Matched.left {xs : List α} {ys : List β} (h : Matched R xs ys) :
    ∀ x ∈ xs, ∃ y ∈ ys, R x y := by
  obtain ⟨zs, each, perm⟩ := h
  intro x hx
  obtain ⟨z, hz, hxz⟩ := exists_of_mem_right each.flip hx
  exact ⟨z, perm.mem_iff.mp hz, hxz⟩

theorem Matched.right {xs : List α} {ys : List β} (h : Matched R xs ys) :
    ∀ y ∈ ys, ∃ x ∈ xs, R x y := by
  obtain ⟨zs, each, perm⟩ := h
  exact fun y hy => exists_of_mem_right each (perm.mem_iff.mpr hy)

/-- Partners are members, so they need to be related in the new way only as such. -/
theorem Matched.imp {S : α → β → Prop} {xs : List α} {ys : List β} (h : Matched R xs ys)
    (himp : ∀ x ∈ xs, ∀ y ∈ ys, R x y → S x y) : Matched S xs ys := by
  obtain ⟨zs, each, perm⟩ := h
  exact ⟨zs, forall₂_of_mem each fun x hx z hz => himp x hx z (perm.mem_iff.mp hz), perm⟩

/-- The first list may be put in another order. -/
theorem Matched.perm_left {xs xs' : List α} {ys : List β} (h : Matched R xs ys)
    (perm : xs'.Perm xs) : Matched R xs' ys := by
  obtain ⟨zs, each, hzs⟩ := h
  obtain ⟨zs', each', hzs'⟩ := List.perm_comp_forall₂ perm each
  exact ⟨zs', each', hzs'.trans hzs⟩

/-- The second list may be put in another order. -/
theorem Matched.perm_right {xs : List α} {ys ys' : List β} (h : Matched R xs ys)
    (perm : ys.Perm ys') : Matched R xs ys' := by
  obtain ⟨zs, each, hzs⟩ := h
  exact ⟨zs, each, hzs.trans perm⟩

theorem Matched.append {xs xs' : List α} {ys ys' : List β} (h : Matched R xs ys)
    (h' : Matched R xs' ys') : Matched R (xs ++ xs') (ys ++ ys') := by
  obtain ⟨zs, each, perm⟩ := h
  obtain ⟨zs', each', perm'⟩ := h'
  exact ⟨zs ++ zs', List.rel_append each each', perm.append perm'⟩

/-- Members that pass a test match if partners pass it together. -/
theorem Matched.filter {p : α → Bool} {q : β → Bool} {xs : List α} {ys : List β}
    (h : Matched R xs ys) (test : ∀ {x y}, R x y → p x = q y) :
    Matched R (xs.filter p) (ys.filter q) := by
  obtain ⟨zs, each, perm⟩ := h
  have kept := List.rel_filter (fun _ _ hxy => Bool.eq_iff_iff.mp (test hxy)) each
  exact ⟨zs.filter q, kept, perm.filter q⟩

/-- Lists match if those of their members that pass a test do, and those that fail it. -/
theorem Matched.of_filter {R : α → α → Prop} {p : α → Bool} {xs ys : List α}
    (pass : Matched R (xs.filter p) (ys.filter p))
    (miss : Matched R (xs.filter (!p ·)) (ys.filter (!p ·))) : Matched R xs ys :=
  ((pass.append miss).perm_left (List.filter_append_perm p xs).symm).perm_right
    (List.filter_append_perm p ys)

theorem map_eq_map_of_forall₂ {f : α → γ} {g : β → γ} {xs : List α} {ys : List β}
    (h : List.Forall₂ (fun x y => f x = g y) xs ys) : xs.map f = ys.map g := by
  rwa [← List.forall₂_eq_eq_eq, List.forall₂_map_left_iff, List.forall₂_map_right_iff]

/-- Images that are the same for partners are the same, up to their order. -/
theorem Matched.perm_map {f : α → γ} {g : β → γ} {xs : List α} {ys : List β}
    (h : Matched R xs ys) (himp : ∀ x ∈ xs, ∀ y ∈ ys, R x y → f x = g y) :
    (xs.map f).Perm (ys.map g) := by
  obtain ⟨zs, each, perm⟩ := h.imp himp
  rw [map_eq_map_of_forall₂ each]
  exact perm.map g

/-- Images match if their members do by their images. -/
theorem matched_map_iff {α' β' : Type} {f : α' → α} {g : β' → β} {xs : List α'} {ys : List β'} :
    Matched R (xs.map f) (ys.map g) ↔ Matched (fun x y => R (f x) (g y)) xs ys := by
  constructor
  · rintro ⟨zs, each, perm⟩
    have images : List.Forall₂ (fun z y => z = g y) (ys.map g) ys :=
      List.forall₂_map_left_iff.mpr (List.forall₂_same.mpr fun _ _ => rfl)
    obtain ⟨ys', each', perm'⟩ := List.perm_comp_forall₂ perm images
    refine ⟨ys', forall₂_trans (List.forall₂_map_left_iff.mp each) each' ?_, perm'⟩
    rintro x _ _ y hxy rfl
    exact hxy
  · rintro ⟨zs, each, perm⟩
    refine ⟨zs.map g, ?_, perm.map g⟩
    rwa [List.forall₂_map_left_iff, List.forall₂_map_right_iff]

/-- Two lists without repetition, in which each member has a partner in the other, match. -/
theorem matched_of_distinct {R : α → α → Prop} (symm : ∀ {x y}, R x y → R y x)
    (trans : ∀ {x y z}, R x y → R y z → R x z) {xs ys : List α}
    (left : ∀ x ∈ xs, ∃ y ∈ ys, R x y) (right : ∀ y ∈ ys, ∃ x ∈ xs, R x y)
    (hxs : xs.Pairwise fun x y => ¬R x y) (hys : ys.Pairwise fun x y => ¬R x y) :
    Matched R xs ys := by
  induction xs generalizing ys with
  | nil =>
    cases ys with
    | nil => exact .of_forall₂ .nil
    | cons y ys => simpa using right y List.mem_cons_self
  | cons x xs ih =>
    -- take the partner of the first member out; the rest still match
    obtain ⟨y, hy, hxy⟩ := left x List.mem_cons_self
    obtain ⟨before, after, rfl⟩ := List.append_of_mem hy
    have hmid : (before ++ y :: after).Perm (y :: (before ++ after)) := List.perm_middle
    have hys' := hmid.pairwise hys fun h h' => h (symm h')
    obtain ⟨hx, hxs⟩ := List.pairwise_cons.mp hxs
    obtain ⟨hy', hys'⟩ := List.pairwise_cons.mp hys'
    have rest : Matched R xs (before ++ after) := by
      refine ih (fun x' hx' => ?_) (fun y' hy'' => ?_) hxs hys'
      · obtain ⟨y', hy'', hxy'⟩ := left x' (List.mem_cons_of_mem _ hx')
        rcases List.mem_cons.mp (hmid.mem_iff.mp hy'') with rfl | hmem
        -- two members with one partner would be related
        · exact absurd (trans hxy (symm hxy')) (hx x' hx')
        · exact ⟨y', hmem, hxy'⟩
      · obtain ⟨x', hx', hxy'⟩ := right y' (hmid.mem_iff.mpr (List.mem_cons_of_mem _ hy''))
        rcases List.mem_cons.mp hx' with rfl | hmem
        · exact absurd (trans (symm hxy) hxy') (hy' y' hy'')
        · exact ⟨x', hmem, hxy'⟩
    have first : Matched R [x] [y] := .of_forall₂ (.cons hxy .nil)
    exact (first.append rest).perm_right hmid.symm

/-! ### Two runs side by side -/

variable {ε : Type}

/-- Two runs both fail, or both succeed with related results. -/
inductive Concur (R : α → β → Prop) : Except ε α → Except ε β → Prop
  | fail {e f : ε} : Concur R (.error e) (.error f)
  | succeed {a : α} {b : β} (related : R a b) : Concur R (.ok a) (.ok b)

theorem Concur.refl {R : α → α → Prop} (refl : ∀ a, R a a) (x : Except ε α) : Concur R x x := by
  cases x with
  | error e => exact .fail
  | ok a => exact .succeed (refl a)

theorem Concur.imp {S : α → β → Prop} {x : Except ε α} {y : Except ε β} (h : Concur R x y)
    (himp : ∀ a b, R a b → S a b) : Concur S x y := by
  cases h with
  | fail => exact .fail
  | succeed related => exact .succeed (himp _ _ related)

/-- Runs that are compared through a third have results that are related through its result. -/
theorem Concur.comp {S : β → γ → Prop} {T : α → γ → Prop} {x : Except ε α} {y : Except ε β}
    {z : Except ε γ} (hxy : Concur R x y) (hyz : Concur S y z)
    (himp : ∀ a b c, R a b → S b c → T a c) : Concur T x z := by
  cases hxy with
  | fail => cases hyz; exact .fail
  | succeed related =>
    cases hyz with
    | succeed related' => exact .succeed (himp _ _ _ related related')

section Chain

variable {α' β' : Type} {S : α' → β' → Prop}

theorem Concur.bind {f : α → Except ε α'} {g : β → Except ε β'} {x : Except ε α} {y : Except ε β}
    (h : Concur R x y) (himp : ∀ a b, R a b → Concur S (f a) (g b)) :
    Concur S (x.bind f) (y.bind g) := by
  cases h with
  | fail => exact .fail
  | succeed related => exact himp _ _ related

theorem Concur.map {f : α → α'} {g : β → β'} {x : Except ε α} {y : Except ε β}
    (h : Concur R x y) (himp : ∀ a b, R a b → S (f a) (g b)) : Concur S (x.map f) (y.map g) := by
  cases h with
  | fail => exact .fail
  | succeed related => exact .succeed (himp _ _ related)

theorem Concur.mapError {ε' : Type} {f g : ε → ε'} {x : Except ε α} {y : Except ε β}
    (h : Concur R x y) : Concur R (x.mapError f) (y.mapError g) := by
  cases h with
  | fail => exact .fail
  | succeed related => exact .succeed related

theorem Concur.mapM_forall₂ {f : α → Except ε α'} {g : β → Except ε β'} {as : List α}
    {bs : List β} (h : List.Forall₂ (fun a b => Concur S (f a) (g b)) as bs) :
    Concur (List.Forall₂ S) (as.mapM f) (bs.mapM g) := by
  induction h with
  | nil => exact .succeed .nil
  | cons head _ ih =>
    rw [List.mapM_cons, List.mapM_cons]
    refine head.bind fun a b hab => ih.bind fun as bs habs => ?_
    exact .succeed (.cons hab habs)

/-- In another order the same steps succeed, and their results are in that order. -/
theorem Concur.mapM_perm {f : α → Except ε β} {as bs : List α} (h : as.Perm bs) :
    Concur List.Perm (as.mapM f) (bs.mapM f) := by
  induction h with
  | nil => exact .succeed .nil
  | cons a _ ih =>
    rw [List.mapM_cons, List.mapM_cons]
    refine Concur.bind (R := Eq) (.refl (fun _ => rfl) (f a)) ?_
    rintro b _ rfl
    exact ih.bind fun bs cs perm => .succeed (perm.cons b)
  | swap a b as =>
    rw [List.mapM_cons, List.mapM_cons, List.mapM_cons, List.mapM_cons]
    cases f a with
    | error e => cases f b <;> exact .fail
    | ok a' =>
      cases f b with
      | error e => exact .fail
      | ok b' =>
        cases as.mapM f with
        | error e => exact .fail
        | ok as' => exact .succeed (.swap a' b' as')
  | trans _ _ ih ih' => exact ih.comp ih' fun _ _ _ => .trans

/-- **Matching runs.** Steps that fail together or give related results for partners do so for
matching lists. -/
theorem Concur.mapM_matched {f : α → Except ε α'} {g : β → Except ε β'} {as : List α}
    {bs : List β} (h : Matched (fun a b => Concur S (f a) (g b)) as bs) :
    Concur (Matched S) (as.mapM f) (bs.mapM g) := by
  obtain ⟨cs, each, perm⟩ := h
  exact (Concur.mapM_forall₂ each).comp (.mapM_perm perm) fun _ cs _ hcs hperm => ⟨cs, hcs, hperm⟩

end Chain

end Retype
