import Retype.Proofs.Matching
import Retype.Proofs.Value.WellFormed

/-!
# Laws of equality

`Value.Alike` says in one step, without recursion, when two values are equal, given what it means
for their members (`same_iff`). From it follows that equality is an equivalence (`same_refl`,
`same_symm`, `same_trans`), and that equal values have one type.

Equal values have equal codes (`Value.feed`) as long as their sets are proper: items have the
recorded type, and known items are pairwise different (`feed_eq_of_same`). The items of two equal
sets of this kind match one to one (`ProperSets.matched`): the known ones because no two of them
are equal, and the unknown ones because they are all alike and there are as many of them. So
whatever is made of the codes of the items without regard to their order is the same.
-/

namespace Retype

namespace Value

/-- Two values agree on the outside, and their members are related. -/
inductive Alike (R : Value → Value → Prop) : Value → Value → Prop
  | null {t : Ty} : Alike R (.null t) (.null t)
  | unknown {t : Ty} : Alike R (.unknown t) (.unknown t)
  | string {a : String} : Alike R (.string a) (.string a)
  | number {a b : Decimal} (normal : a.normalize = b.normalize) : Alike R (.number a) (.number b)
  | bool {a : Bool} : Alike R (.bool a) (.bool a)
  | capsule {n : String} {i : Nat} : Alike R (.capsule n i) (.capsule n i)
  | list {e : Ty} {xs ys : List Value} (each : List.Forall₂ R xs ys) :
      Alike R (.list e xs) (.list e ys)
  | set {e : Ty} {xs ys : List Value} (length : xs.length = ys.length)
      (left : ∀ x ∈ xs, ∃ y ∈ ys, R x y) (right : ∀ y ∈ ys, ∃ x ∈ xs, R x y) :
      Alike R (.set e xs) (.set e ys)
  | map {e : Ty} {xs ys : List (String × Value)}
      (each : List.Forall₂ (fun x y => x.1 = y.1 ∧ R x.2 y.2) xs ys) :
      Alike R (.map e xs) (.map e ys)
  | tuple {xs ys : List Value} (each : List.Forall₂ R xs ys) : Alike R (.tuple xs) (.tuple ys)
  | object {xs ys : List (String × Value)}
      (each : List.Forall₂ (fun x y => x.1 = y.1 ∧ R x.2 y.2) xs ys) :
      Alike R (.object xs) (.object ys)

theorem sameAll_iff {xs ys : List Value} :
    sameAll xs ys = true ↔ List.Forall₂ (fun x y => same x y = true) xs ys := by
  induction xs generalizing ys with
  | nil => cases ys <;> simp [sameAll]
  | cons x xs ih => cases ys <;> simp [sameAll, ih]

theorem sameEntries_iff {xs ys : List (String × Value)} :
    sameEntries xs ys = true ↔
      List.Forall₂ (fun x y => x.1 = y.1 ∧ same x.2 y.2 = true) xs ys := by
  induction xs generalizing ys with
  | nil => cases ys <;> simp [sameEntries]
  | cons x xs ih => cases ys <;> simp [sameEntries, ih]

/-- **Unfolding.** Values are equal if they agree on the outside and their members are equal. -/
theorem same_iff {v w : Value} : same v w = true ↔ Alike (fun x y => same x y = true) v w := by
  constructor
  · intro h
    cases v with
    | sequence k e xs =>
      cases k
      · cases w with
        | sequence l d ys =>
          cases l
          · simp only [same, Bool.and_eq_true, beq_iff_eq, sameAll_iff] at h
            obtain ⟨rfl, h⟩ := h
            exact .list h
          · simp [same] at h
        | _ => simp [same] at h
      · cases w with
        | sequence l d ys =>
          cases l
          · simp [same] at h
          · simp only [same, Bool.and_eq_true, beq_iff_eq, allFoundIn_eq, someSame_eq,
              List.all_eq_true, List.any_eq_true] at h
            obtain ⟨⟨⟨rfl, hlen⟩, hleft⟩, hright⟩ := h
            exact .set hlen hleft hright
        | _ => simp [same] at h
    | map e xs =>
      cases w with
      | map d ys =>
        simp only [same, Bool.and_eq_true, beq_iff_eq, sameEntries_iff] at h
        obtain ⟨rfl, h⟩ := h
        exact .map h
      | _ => simp [same] at h
    | tuple xs =>
      cases w with
      | tuple ys => exact .tuple (sameAll_iff.mp (by simpa [same] using h))
      | _ => simp [same] at h
    | object xs =>
      cases w with
      | object ys => exact .object (sameEntries_iff.mp (by simpa [same] using h))
      | _ => simp [same] at h
    | number a =>
      cases w with
      | number b => exact .number (by simpa [same, Decimal.same] using h)
      | _ => simp [same] at h
    | capsule n i =>
      cases w with
      | capsule m j =>
        simp only [same, Bool.and_eq_true, beq_iff_eq] at h
        obtain ⟨rfl, rfl⟩ := h
        exact .capsule
      | _ => simp [same] at h
    | null t | unknown t | string t | bool t =>
      cases w <;> simp only [same, beq_iff_eq, Bool.false_eq_true] at h
      subst h
      constructor
  · intro h
    cases h with
    | list each => simpa [same] using sameAll_iff.mpr each
    | set length left right =>
      simp only [same, Bool.and_eq_true, beq_iff_eq, allFoundIn_eq, someSame_eq,
        List.all_eq_true, List.any_eq_true]
      exact ⟨⟨⟨trivial, length⟩, left⟩, right⟩
    | map each => simpa [same] using sameEntries_iff.mpr each
    | tuple each => simpa [same] using sameAll_iff.mpr each
    | object each => simpa [same] using sameEntries_iff.mpr each
    | number normal => simpa [same, Decimal.same] using normal
    | null | unknown | string | bool | capsule => simp [same]

/-! ### An equivalence -/

theorem same_refl (v : Value) : same v v = true := by
  induction v with
  | null t | unknown t | string t | bool t | capsule n i => simp [same]
  | number a => exact same_iff.mpr (.number rfl)
  | sequence k e xs ih =>
    cases k with
    | list => exact same_iff.mpr (.list (List.forall₂_same.mpr ih))
    | set =>
      exact same_iff.mpr (.set rfl (fun x hx => ⟨x, hx, ih x hx⟩) fun x hx => ⟨x, hx, ih x hx⟩)
  | map e xs ih => exact same_iff.mpr (.map (List.forall₂_same.mpr fun x hx => ⟨rfl, ih x hx⟩))
  | tuple xs ih => exact same_iff.mpr (.tuple (List.forall₂_same.mpr ih))
  | object xs ih =>
    exact same_iff.mpr (.object (List.forall₂_same.mpr fun x hx => ⟨rfl, ih x hx⟩))

theorem same_symm {v w : Value} (h : same v w = true) : same w v = true := by
  induction v generalizing w with
  | null t | unknown t | string t | bool t | capsule n i =>
    cases same_iff.mp h
    exact h
  | number a => cases same_iff.mp h with | number normal => exact same_iff.mpr (.number normal.symm)
  | sequence k e xs ih =>
    cases same_iff.mp h with
    | list each =>
      exact same_iff.mpr (.list (forall₂_of_mem each fun x hx y _ => ih x hx).flip)
    | set length left right =>
      refine same_iff.mpr (.set length.symm (fun y hy => ?_) fun x hx => ?_)
      · obtain ⟨x, hx, hxy⟩ := right y hy
        exact ⟨x, hx, ih x hx hxy⟩
      · obtain ⟨y, hy, hxy⟩ := left x hx
        exact ⟨y, hy, ih x hx hxy⟩
  | map e xs ih =>
    cases same_iff.mp h with
    | map each =>
      exact same_iff.mpr (.map (forall₂_of_mem each fun x hx y _ hxy =>
        ⟨hxy.1.symm, ih x hx hxy.2⟩).flip)
  | tuple xs ih =>
    cases same_iff.mp h with
    | tuple each =>
      exact same_iff.mpr (.tuple (forall₂_of_mem each fun x hx y _ => ih x hx).flip)
  | object xs ih =>
    cases same_iff.mp h with
    | object each =>
      exact same_iff.mpr (.object (forall₂_of_mem each fun x hx y _ hxy =>
        ⟨hxy.1.symm, ih x hx hxy.2⟩).flip)

theorem same_trans {u v w : Value} (huv : same u v = true) (hvw : same v w = true) :
    same u w = true := by
  induction u generalizing v w with
  | null t | unknown t | string t | bool t | capsule n i =>
    cases same_iff.mp huv
    exact hvw
  | number a =>
    cases same_iff.mp huv with
    | number normal =>
      cases same_iff.mp hvw with
      | number normal' => exact same_iff.mpr (.number (normal.trans normal'))
  | sequence k e xs ih =>
    cases same_iff.mp huv with
    | list each =>
      cases same_iff.mp hvw with
      | list each' =>
        exact same_iff.mpr (.list (forall₂_trans each each' fun x hx y z => ih x hx))
    | set length left right =>
      cases same_iff.mp hvw with
      | set length' left' right' =>
        refine same_iff.mpr (.set (length.trans length') (fun x hx => ?_) fun z hz => ?_)
        · obtain ⟨y, hy, hxy⟩ := left x hx
          obtain ⟨z, hz, hyz⟩ := left' y hy
          exact ⟨z, hz, ih x hx hxy hyz⟩
        · obtain ⟨y, hy, hyz⟩ := right' z hz
          obtain ⟨x, hx, hxy⟩ := right y hy
          exact ⟨x, hx, ih x hx hxy hyz⟩
  | map e xs ih =>
    cases same_iff.mp huv with
    | map each =>
      cases same_iff.mp hvw with
      | map each' =>
        exact same_iff.mpr (.map (forall₂_trans each each' fun x hx y z hxy hyz =>
          ⟨hxy.1.trans hyz.1, ih x hx hxy.2 hyz.2⟩))
  | tuple xs ih =>
    cases same_iff.mp huv with
    | tuple each =>
      cases same_iff.mp hvw with
      | tuple each' =>
        exact same_iff.mpr (.tuple (forall₂_trans each each' fun x hx y z => ih x hx))
  | object xs ih =>
    cases same_iff.mp huv with
    | object each =>
      cases same_iff.mp hvw with
      | object each' =>
        exact same_iff.mpr (.object (forall₂_trans each each' fun x hx y z hxy hyz =>
          ⟨hxy.1.trans hyz.1, ih x hx hxy.2 hyz.2⟩))

theorem isUnknown_eq_of_same {v w : Value} (h : same v w = true) : v.isUnknown = w.isUnknown := by
  cases same_iff.mp h <;> rfl

/-- Equal values have one type. -/
theorem ty_eq_of_same {v w : Value} (h : same v w = true) : v.ty = w.ty := by
  induction v generalizing w with
  | null t | unknown t | string t | number t | bool t | sequence k e xs | map e xs
  | capsule n i =>
    cases same_iff.mp h <;> rfl
  | tuple xs ih =>
    cases same_iff.mp h with
    | tuple each =>
      rw [ty, ty, tyAll_eq_map, tyAll_eq_map]
      obtain ⟨length, each⟩ := forall₂_iff_getElem?.mp each
      rw [map_eq_map_of_getElem? length fun i x y hx hy =>
        ih x (List.mem_of_getElem? hx) (each i x y hx hy)]
  | object xs ih =>
    cases same_iff.mp h with
    | object each =>
      rw [ty, ty, tyAttributes_eq_map, tyAttributes_eq_map]
      obtain ⟨length, each⟩ := forall₂_iff_getElem?.mp each
      rw [map_eq_map_of_getElem? length fun i x y hx hy => ?_]
      obtain ⟨hname, hsame⟩ := each i x y hx hy
      rw [hname, ih x (List.mem_of_getElem? hx) hsame]

section Feed

variable {combine : List (List Nat) → List Nat}

/-! ### Equal values have equal codes -/

/-- In every set the items have the recorded type, and no two equal ones are known. -/
def ProperSets (v : Value) : Prop :=
  v.Everywhere fun v => (∀ e items, v = .set e items → ∀ x ∈ items, x.ty = e) ∧ v.Distinct same

theorem WellFormed.properSets {v : Value} (h : v.WellFormed) : v.ProperSets :=
  h.mono fun v hv => ⟨fun e items hset x hx => by
    subst hset
    exact hv.1 e rfl x hx, hv.2⟩

/-- The known items of a proper set are pairwise different. -/
theorem ProperSets.pairwise_known {e : Ty} {xs : List Value} (h : (Value.set e xs).ProperSets) :
    (xs.filter (!·.isUnknown)).Pairwise fun x y => ¬same x y = true := by
  refine List.pairwise_filter.mpr ((h.here.2 e xs rfl).imp fun hxy hx hy => ?_)
  simpa using hxy (by simpa using hx) (by simpa using hy)

/-- The unknown items of a proper set are all the same. -/
theorem ProperSets.filter_unknown {e : Ty} {xs : List Value} (h : (Value.set e xs).ProperSets) :
    xs.filter isUnknown = List.replicate (xs.filter isUnknown).length (.unknown e) := by
  refine List.eq_replicate_iff.mpr ⟨rfl, fun x hx => ?_⟩
  obtain ⟨hx, hunknown⟩ := List.mem_filter.mp hx
  have hty := h.here.1 e xs rfl x hx
  cases x with
  | unknown t => rw [← hty, ty]
  | _ => simp [isUnknown] at hunknown

/-- The items of two equal sets match one to one. -/
theorem ProperSets.matched {e : Ty} {xs ys : List Value} (hxs : (Value.set e xs).ProperSets)
    (hys : (Value.set e ys).ProperSets) (hlen : xs.length = ys.length)
    (left : ∀ x ∈ xs, ∃ y ∈ ys, same x y = true) (right : ∀ y ∈ ys, ∃ x ∈ xs, same x y = true) :
    Matched (fun x y => same x y = true) xs ys := by
  have known : Matched (fun x y => same x y = true) (xs.filter (!·.isUnknown))
      (ys.filter (!·.isUnknown)) := by
    refine matched_of_distinct (R := fun x y => same x y = true) same_symm same_trans
      (fun x hx => ?_) (fun y hy => ?_) hxs.pairwise_known hys.pairwise_known
    · obtain ⟨hx, hknown⟩ := List.mem_filter.mp hx
      obtain ⟨y, hy, hxy⟩ := left x hx
      exact ⟨y, List.mem_filter.mpr ⟨hy, isUnknown_eq_of_same hxy ▸ hknown⟩, hxy⟩
    · obtain ⟨hy, hknown⟩ := List.mem_filter.mp hy
      obtain ⟨x, hx, hxy⟩ := right y hy
      exact ⟨x, List.mem_filter.mpr ⟨hx, isUnknown_eq_of_same hxy ▸ hknown⟩, hxy⟩
  -- as many items are known in both, so as many are unknown
  have count : (xs.filter isUnknown).length = (ys.filter isUnknown).length := by
    have hx := (List.filter_append_perm isUnknown xs).length_eq
    have hy := (List.filter_append_perm isUnknown ys).length_eq
    have hk := known.length_eq
    simp only [List.length_append] at hx hy
    omega
  have unknown : Matched (fun x y => same x y = true) (xs.filter isUnknown)
      (ys.filter isUnknown) := by
    rw [hxs.filter_unknown, hys.filter_unknown, count]
    exact .of_forall₂ (List.forall₂_same.mpr fun x _ => same_refl x)
  exact .of_filter unknown known

/-- **Codes.** Equal values with proper sets have the same code, in whatever way the codes of the
items of a set are put together, if only their order does not count. -/
theorem feed_eq_of_same (order : ∀ {xs ys}, xs.Perm ys → combine xs = combine ys) {v w : Value}
    (h : same v w = true) (hv : v.ProperSets) (hw : w.ProperSets) :
    v.feed combine = w.feed combine := by
  -- entries, and items beside each other, are compared one by one
  have items : ∀ {xs ys : List Value}, List.Forall₂ (fun x y => same x y = true) xs ys →
      (∀ x ∈ xs, ∀ y ∈ ys, same x y = true → x.feed combine = y.feed combine) →
      feeds combine xs = feeds combine ys := by
    intro xs ys each ih
    rw [feeds_eq_map, feeds_eq_map]
    exact map_eq_map_of_forall₂ (forall₂_of_mem each ih)
  have entries : ∀ {xs ys : List (String × Value)},
      List.Forall₂ (fun x y => x.1 = y.1 ∧ same x.2 y.2 = true) xs ys →
      (∀ x ∈ xs, ∀ y ∈ ys, same x.2 y.2 = true → x.2.feed combine = y.2.feed combine) →
      feedEntries combine xs = feedEntries combine ys := by
    intro xs ys each ih
    rw [feedEntries_eq_map, feedEntries_eq_map]
    refine map_eq_map_of_forall₂ (forall₂_of_mem each fun x hx y hy hxy => ?_)
    rw [hxy.1, ih x hx y hy hxy.2]
  induction v generalizing w with
  | null t | unknown t | string t | bool t | capsule n i =>
    cases same_iff.mp h
    rfl
  | number a =>
    cases same_iff.mp h with
    | number normal => rw [feed, feed, Decimal.code, normal, Decimal.code]
  | sequence k e xs ih =>
    have ih : ∀ ys, w.members = ys → ∀ x ∈ xs, ∀ y ∈ ys, same x y = true →
        x.feed combine = y.feed combine := by
      rintro ys rfl x hx y hy hxy
      exact ih x hx hxy (hv.member hx) (hw.member hy)
    cases same_iff.mp h with
    | list each => rw [feed, feed, items each (ih _ rfl), each.length_eq]
    | set length left right =>
      have codes := (hv.matched hw length left right).perm_map (ih _ rfl)
      rw [feed, feed, feeds_eq_map, feeds_eq_map, order codes, length]
  | tuple xs ih =>
    cases same_iff.mp h with
    | tuple each =>
      rw [feed, feed, each.length_eq, items each fun x hx y hy hxy =>
        ih x hx hxy (hv.member hx) (hw.member hy)]
  | map e xs ih =>
    cases same_iff.mp h with
    | map each =>
      rw [feed, feed, each.length_eq, entries each fun x hx y hy hxy =>
        ih x hx hxy (hv.member (List.mem_map_of_mem hx)) (hw.member (List.mem_map_of_mem hy))]
  | object xs ih =>
    cases same_iff.mp h with
    | object each =>
      rw [feed, feed, each.length_eq, entries each fun x hx y hy hxy =>
        ih x hx hxy (hv.member (List.mem_map_of_mem hx)) (hw.member (List.mem_map_of_mem hy))]

end Feed

/-- Sorting forgets the order that was given. -/
theorem ascending_eq_of_perm {xs ys : List (List Nat)} (h : xs.Perm ys) :
    ascending xs = ascending ys := by
  have trans : ∀ a b c : List Nat, (!b.lex a) = true → (!c.lex b) = true → (!c.lex a) = true := by
    intro a b c hab hbc
    rw [Bool.not_eq_true', List.lex_eq_false_iff_ge] at hab hbc ⊢
    exact List.le_trans hab hbc
  have total : ∀ a b : List Nat, (!b.lex a || !a.lex b) = true := by
    intro a b
    rw [Bool.or_eq_true, Bool.not_eq_true', Bool.not_eq_true', List.lex_eq_false_iff_ge,
      List.lex_eq_false_iff_ge]
    exact List.le_total a b
  have antisymm : ∀ a b : List Nat, (!b.lex a) = true → (!a.lex b) = true → a = b := by
    intro a b hab hba
    rw [Bool.not_eq_true', List.lex_eq_false_iff_ge] at hab hba
    exact List.le_antisymm hab hba
  have sorted : (xs.mergeSort fun a b => !b.lex a) = ys.mergeSort fun a b => !b.lex a :=
    List.Perm.eq_of_pairwise (fun a b _ _ => antisymm a b)
      (List.pairwise_mergeSort trans total xs) (List.pairwise_mergeSort trans total ys)
      ((List.mergeSort_perm xs _).trans (h.trans (List.mergeSort_perm ys _).symm))
  rw [ascending, ascending, sorted]

/-- **Fingerprints.** Equal values with proper sets have the same fingerprint. -/
theorem fingerprint_eq_of_same {v w : Value} (h : same v w = true) (hv : v.ProperSets)
    (hw : w.ProperSets) : v.fingerprint = w.fingerprint := by
  rw [fingerprint, fingerprint, feed_eq_of_same ascending_eq_of_perm h hv hw]

/-- **Hashing.** Equal values with proper sets are hashed alike, by every hasher. -/
theorem hashed_eq_of_same (digest : List Nat → UInt64) {v w : Value} (h : same v w = true)
    (hv : v.ProperSets) (hw : w.ProperSets) : v.hashed digest = w.hashed digest := by
  refine feed_eq_of_same (fun perm => ?_) h hv hw
  rw [perm.foldl_eq' fun x _ y _ total => ?_]
  rw [UInt64.add_assoc, UInt64.add_comm (digest x), UInt64.add_assoc]

end Value

end Retype
