import Retype.Proofs.Value.Equality

/-!
# What a set keeps of its items

`Value.dedup` goes through the items once and remembers the known ones that it has kept.
`dedup_concat` says what this comes to, without the memory: an item is kept exactly if it is
unknown, or no item before it is a duplicate of it. All else follows by adding items at the end.

* The items that are kept stand in their order (`dedup_sublist`). All unknown ones are there, and
  of duplicates the first (`filter_isUnknown_dedup`, `filter_duplicates_dedup`).
* What is kept of the first items does not depend on those that follow (`dedup_prefix`), so an
  item that is dropped (`Dropped`) is a duplicate of one that stays (`Dropped.exists_kept`).
* Being duplicates is an equivalence, so items that match give items that match, in whatever order
  they come (`matched_dedup`), and the same set (`duplicates_set`).

Where sets are proper, duplicates are the same as equal items (`duplicates_eq_same`).
-/

namespace Retype

namespace Value

/-! ### Duplicates -/

theorem duplicates_iff {x y : Value} :
    x.duplicates y = true ↔ same x y = true ∧ x.fingerprint = y.fingerprint := by
  simp [duplicates]

theorem duplicates_refl (x : Value) : x.duplicates x = true :=
  duplicates_iff.mpr ⟨same_refl x, rfl⟩

theorem duplicates_symm {x y : Value} (h : x.duplicates y = true) : y.duplicates x = true := by
  obtain ⟨hsame, hcode⟩ := duplicates_iff.mp h
  exact duplicates_iff.mpr ⟨same_symm hsame, hcode.symm⟩

theorem duplicates_trans {x y z : Value} (hxy : x.duplicates y = true)
    (hyz : y.duplicates z = true) : x.duplicates z = true := by
  obtain ⟨hsame, hcode⟩ := duplicates_iff.mp hxy
  obtain ⟨hsame', hcode'⟩ := duplicates_iff.mp hyz
  exact duplicates_iff.mpr ⟨same_trans hsame hsame', hcode.trans hcode'⟩

theorem isUnknown_eq_of_duplicates {x y : Value} (h : x.duplicates y = true) :
    x.isUnknown = y.isUnknown :=
  isUnknown_eq_of_same (duplicates_iff.mp h).1

/-- Duplicates have the same duplicates. -/
theorem duplicates_eq_of_duplicates {x y : Value} (h : x.duplicates y = true) :
    x.duplicates = y.duplicates := by
  funext z
  exact Bool.eq_iff_iff.mpr ⟨duplicates_trans (duplicates_symm h), duplicates_trans h⟩

/-- **Agreement.** Equal values with proper sets are duplicates. -/
theorem duplicates_eq_same {x y : Value} (hx : x.ProperSets) (hy : y.ProperSets) :
    x.duplicates y = x.same y := by
  refine Bool.eq_iff_iff.mpr ⟨fun h => (duplicates_iff.mp h).1, fun h => ?_⟩
  exact duplicates_iff.mpr ⟨h, fingerprint_eq_of_same h hx hy⟩

/-! ### One more item -/

/-- Later items are compared with the known items that were kept. -/
theorem dedupFrom_append (seen xs ys : List Value) :
    dedupFrom seen (xs ++ ys) = dedupFrom seen xs ++
      dedupFrom (((dedupFrom seen xs).filter (!·.isUnknown)).reverse ++ seen) ys := by
  induction xs generalizing seen with
  | nil => rfl
  | cons x xs ih =>
    rw [List.cons_append, dedupFrom, dedupFrom]
    split
    · rename_i hunknown
      rw [ih, List.cons_append, List.filter_cons_of_neg (by simpa using hunknown)]
    · rename_i hknown
      split
      · exact ih seen
      · rw [ih, List.cons_append, List.filter_cons_of_pos (by simpa using hknown),
          List.reverse_cons, List.append_assoc, List.singleton_append]

/-- Of every item a duplicate was seen before, or is kept. -/
theorem exists_duplicate_of_mem (seen : List Value) {items : List Value} {x : Value}
    (h : x ∈ items) :
    ∃ y, (y ∈ seen ∨ y ∈ dedupFrom seen items) ∧ x.duplicates y = true := by
  induction items generalizing seen with
  | nil => cases h
  | cons z items ih =>
    rw [dedupFrom]
    split
    · rcases List.mem_cons.mp h with rfl | h
      · exact ⟨x, .inr List.mem_cons_self, duplicates_refl x⟩
      · obtain ⟨y, hy, hdup⟩ := ih seen h
        exact ⟨y, hy.imp_right (List.mem_cons_of_mem z), hdup⟩
    · split
      · rename_i hseen
        rcases List.mem_cons.mp h with rfl | h
        · obtain ⟨y, hy, hdup⟩ := List.any_eq_true.mp hseen
          exact ⟨y, .inl hy, hdup⟩
        · exact ih seen h
      · rcases List.mem_cons.mp h with rfl | h
        · exact ⟨x, .inr List.mem_cons_self, duplicates_refl x⟩
        · obtain ⟨y, hy, hdup⟩ := ih (z :: seen) h
          rcases hy with hy | hy
          · rcases List.mem_cons.mp hy with rfl | hy
            · exact ⟨y, .inr List.mem_cons_self, hdup⟩
            · exact ⟨y, .inl hy, hdup⟩
          · exact ⟨y, .inr (List.mem_cons_of_mem z hy), hdup⟩

theorem exists_duplicate_in_dedup {xs : List Value} {x : Value} (h : x ∈ xs) :
    ∃ y ∈ dedup xs, x.duplicates y = true := by
  obtain ⟨y, hy, hdup⟩ := exists_duplicate_of_mem [] h
  exact ⟨y, hy.resolve_left List.not_mem_nil, hdup⟩

theorem mem_of_mem_dedup {xs : List Value} {x : Value} (h : x ∈ dedup xs) : x ∈ xs :=
  mem_of_mem_dedupFrom h

/-- What is kept has the duplicates that the items have. -/
theorem any_duplicates_dedup (xs : List Value) (x : Value) :
    (dedup xs).any x.duplicates = xs.any x.duplicates := by
  rw [Bool.eq_iff_iff, List.any_eq_true, List.any_eq_true]
  constructor
  · rintro ⟨y, hy, hdup⟩
    exact ⟨y, mem_of_mem_dedup hy, hdup⟩
  · rintro ⟨y, hy, hdup⟩
    obtain ⟨z, hz, hdup'⟩ := exists_duplicate_in_dedup hy
    exact ⟨z, hz, duplicates_trans hdup hdup'⟩

/-- Whether an item is kept after the given ones. -/
def keeps (before : List Value) (x : Value) : Bool := x.isUnknown || !before.any x.duplicates

/-- **One more item.** An item at the end is kept if it is unknown, or no item before it is a
duplicate of it. -/
theorem dedup_concat (xs : List Value) (x : Value) :
    dedup (xs ++ [x]) = dedup xs ++ if keeps xs x then [x] else [] := by
  have hseen : x.isUnknown = false →
      (((dedup xs).filter (!isUnknown ·)).reverse ++ []).any x.duplicates =
        xs.any x.duplicates := by
    intro hknown
    -- a duplicate of a known item is known
    rw [← any_duplicates_dedup xs, List.append_nil, List.any_reverse, List.any_filter]
    congr 1
    funext y
    cases hdup : x.duplicates y with
    | false => rw [Bool.and_false]
    | true => rw [← isUnknown_eq_of_duplicates hdup, hknown, Bool.not_false, Bool.true_and]
  rw [dedup, dedupFrom_append]
  congr 1
  rw [dedupFrom, keeps]
  cases hunknown : x.isUnknown with
  | true => rfl
  | false =>
    rw [show dedupFrom [] xs = dedup xs from rfl, hseen hunknown]
    cases xs.any x.duplicates <;> rfl

/-! ### What is kept -/

theorem dedup_sublist (xs : List Value) : (dedup xs).Sublist xs := by
  induction xs using List.reverseRecOn with
  | nil => exact .slnil
  | append_singleton xs x ih =>
    rw [dedup_concat]
    refine ih.append ?_
    split
    · exact .refl _
    · exact List.nil_sublist _

/-- All unknown items are kept. -/
theorem filter_isUnknown_dedup (xs : List Value) :
    (dedup xs).filter isUnknown = xs.filter isUnknown := by
  induction xs using List.reverseRecOn with
  | nil => rfl
  | append_singleton xs x ih =>
    rw [dedup_concat, List.filter_append, List.filter_append, ih]
    congr 1
    cases hunknown : x.isUnknown with
    | true => simp [keeps, hunknown]
    | false => split <;> simp [hunknown]

/-- Of the duplicates of a known item, the first is kept. -/
theorem filter_duplicates_dedup {x : Value} (hx : x.isUnknown = false) (xs : List Value) :
    (dedup xs).filter x.duplicates = (xs.find? x.duplicates).toList := by
  induction xs using List.reverseRecOn with
  | nil => rfl
  | append_singleton xs y ih =>
    rw [dedup_concat, List.filter_append, List.find?_append, ih]
    cases hdup : x.duplicates y with
    | false =>
      have hlast : [y].find? x.duplicates = none := by simp [hdup]
      rw [hlast, Option.or_none]
      split <;> simp [hdup]
    | true =>
      -- the item is kept if it is the first
      have hkeeps : keeps xs y = !xs.any x.duplicates := by
        rw [keeps, ← isUnknown_eq_of_duplicates hdup, hx, Bool.false_or,
          duplicates_eq_of_duplicates hdup]
      have hlast : [y].find? x.duplicates = some y := by simp [hdup]
      rw [hkeeps, hlast]
      cases hfind : xs.find? x.duplicates with
      | none =>
        have hnone : xs.any x.duplicates = false := by
          simpa using hfind
        simp [hnone, hdup]
      | some z =>
        have hsome : xs.any x.duplicates = true :=
          List.any_eq_true.mpr ⟨z, List.mem_of_find?_eq_some hfind, List.find?_some hfind⟩
        simp [hsome]

/-- **Positions.** The items that are kept are those at the positions where an item is kept after
the ones before it. -/
theorem dedup_eq_filter (xs : List Value) :
    dedup xs = (xs.zipIdx.filter fun p => keeps (xs.take p.2) p.1).map Prod.fst := by
  induction xs using List.reverseRecOn with
  | nil => rfl
  | append_singleton xs x ih =>
    have earlier : (xs.zipIdx.filter fun p => keeps ((xs ++ [x]).take p.2) p.1) =
        xs.zipIdx.filter fun p => keeps (xs.take p.2) p.1 := by
      refine List.filter_congr fun p hp => ?_
      have hlt := (List.mem_zipIdx hp).2.1
      rw [List.take_append_of_le_length (by omega)]
    rw [dedup_concat, List.zipIdx_append, List.filter_append, List.map_append, earlier, ih]
    congr 1
    simp only [List.zipIdx_singleton, Nat.zero_add, List.filter_singleton, List.take_left]
    split <;> simp_all

/-- What is kept is not thinned out again. -/
theorem dedup_dedup (xs : List Value) : dedup (dedup xs) = dedup xs := by
  induction xs using List.reverseRecOn with
  | nil => rfl
  | append_singleton xs x ih =>
    rw [dedup_concat]
    split
    · rename_i hkeeps
      have hkeeps' : keeps (dedup xs) x = true := by
        rwa [keeps, any_duplicates_dedup]
      rw [dedup_concat, hkeeps', if_pos rfl, ih]
    · rw [List.append_nil, ih]

/-! ### What is dropped -/

/-- What is kept of the first items does not depend on later ones. -/
theorem dedup_prefix (xs ys : List Value) : dedup xs <+: dedup (xs ++ ys) := by
  induction ys using List.reverseRecOn with
  | nil => exact (List.append_nil xs).symm ▸ List.prefix_rfl
  | append_singleton ys y ih =>
    rw [← List.append_assoc, dedup_concat]
    exact ih.trans (List.prefix_append _ _)

/-- The item is dropped if it comes after the given ones. -/
def Dropped (before : List Value) (x : Value) : Prop := dedup (before ++ [x]) = dedup before

theorem dropped_iff {before : List Value} {x : Value} :
    Dropped before x ↔ x.isUnknown = false ∧ ∃ y ∈ before, x.duplicates y = true := by
  have hkeeps : Dropped before x ↔ keeps before x = false := by
    rw [Dropped, dedup_concat]
    cases keeps before x <;> simp
  rw [hkeeps, keeps, Bool.or_eq_false_iff, Bool.not_eq_false', List.any_eq_true]

/-- A dropped item is known, and a duplicate of it is kept before. -/
theorem Dropped.exists_kept {before : List Value} {x : Value} (h : Dropped before x) :
    x.isUnknown = false ∧ ∃ y ∈ dedup before, y.duplicates x = true := by
  obtain ⟨hknown, y, hy, hdup⟩ := dropped_iff.mp h
  obtain ⟨z, hz, hdup'⟩ := exists_duplicate_in_dedup hy
  exact ⟨hknown, z, hz, duplicates_symm (duplicates_trans hdup hdup')⟩

/-! ### Items in another order -/

/-- No two known items that are kept are duplicates. -/
theorem pairwise_known_dedup (xs : List Value) :
    ((dedup xs).filter (!·.isUnknown)).Pairwise fun x y => ¬x.duplicates y = true := by
  refine List.pairwise_filter.mpr ((pairwise_dedupFrom [] xs).imp fun hxy hx hy hdup => ?_)
  have hnot := hxy (by simpa using hx) (by simpa using hy)
  rw [duplicates_symm hdup] at hnot
  cases hnot

/-- A known item that is kept has a duplicate that is kept among any items that have one. -/
theorem exists_known_in_dedup {xs ys : List Value} {x : Value}
    (h : ∀ x ∈ xs, ∃ y ∈ ys, x.duplicates y = true)
    (hx : x ∈ (dedup xs).filter (!·.isUnknown)) :
    ∃ y ∈ (dedup ys).filter (!·.isUnknown), x.duplicates y = true := by
  obtain ⟨hx, hknown⟩ := List.mem_filter.mp hx
  obtain ⟨y, hy, hdup⟩ := h x (mem_of_mem_dedup hx)
  obtain ⟨z, hz, hdup'⟩ := exists_duplicate_in_dedup hy
  have hxz := duplicates_trans hdup hdup'
  exact ⟨z, List.mem_filter.mpr ⟨hz, isUnknown_eq_of_duplicates hxz ▸ hknown⟩, hxz⟩

/-- **Order.** Of items that match, items are kept that match. -/
theorem matched_dedup {xs ys : List Value}
    (h : Matched (fun x y => x.duplicates y = true) xs ys) :
    Matched (fun x y => x.duplicates y = true) (dedup xs) (dedup ys) := by
  have unknown : Matched (fun x y => x.duplicates y = true) ((dedup xs).filter isUnknown)
      ((dedup ys).filter isUnknown) := by
    rw [filter_isUnknown_dedup, filter_isUnknown_dedup]
    exact h.filter isUnknown_eq_of_duplicates
  have known : Matched (fun x y => x.duplicates y = true) ((dedup xs).filter (!·.isUnknown))
      ((dedup ys).filter (!·.isUnknown)) := by
    refine matched_of_distinct (R := fun x y => x.duplicates y = true) duplicates_symm
      duplicates_trans (fun x hx => exists_known_in_dedup h.left hx) (fun y hy => ?_)
      (pairwise_known_dedup xs) (pairwise_known_dedup ys)
    have back : ∀ y ∈ ys, ∃ x ∈ xs, y.duplicates x = true := fun y hy => by
      obtain ⟨x, hx, hdup⟩ := h.right y hy
      exact ⟨x, hx, duplicates_symm hdup⟩
    obtain ⟨x, hx, hdup⟩ := exists_known_in_dedup back hy
    exact ⟨x, hx, duplicates_symm hdup⟩
  exact .of_filter unknown known

/-- Sets are duplicates if their items match. -/
theorem duplicates_set {e : Ty} {xs ys : List Value}
    (h : Matched (fun x y => x.duplicates y = true) xs ys) :
    (Value.set e xs).duplicates (.set e ys) = true := by
  have hsame : Matched (fun x y => same x y = true) xs ys :=
    h.imp fun _ _ _ _ hdup => (duplicates_iff.mp hdup).1
  have codes : (xs.map (feed ascending)).Perm (ys.map (feed ascending)) :=
    h.perm_map fun x _ y _ hdup => (duplicates_iff.mp hdup).2
  refine duplicates_iff.mpr ⟨same_iff.mpr (.set h.length_eq hsame.left hsame.right), ?_⟩
  rw [fingerprint, fingerprint, feed, feed, feeds_eq_map, feeds_eq_map,
    h.length_eq, ascending_eq_of_perm codes]

/-- **Sets of the same items.** Sets that are collected from matching items are duplicates. -/
theorem duplicates_collect {e : Ty} {xs ys : List Value}
    (h : Matched (fun x y => x.duplicates y = true) xs ys) :
    (collect .set e xs).duplicates (collect .set e ys) = true :=
  duplicates_set (matched_dedup h)

/-! ### Equality and hashing -/

/-- **Equality agrees with hashing.** Equality is an equivalence, on all values whatsoever. Two
equal values in which all sets are proper feed every hasher with the same data, and have the same
fingerprint; so, among such items, one is dropped exactly if it is known and equal to an item
before it. -/
theorem equality_agrees_with_hashing :
    (Equivalence fun v w : Value => v.same w = true) ∧
      (∀ v w : Value, v.ProperSets → w.ProperSets → v.same w = true →
        (∀ digest, v.hashed digest = w.hashed digest) ∧ v.fingerprint = w.fingerprint) ∧
      ∀ (before : List Value) (x : Value), (∀ y ∈ before, y.ProperSets) → x.ProperSets →
        (Dropped before x ↔ x.isUnknown = false ∧ ∃ y ∈ before, x.same y = true) := by
  refine ⟨⟨same_refl, same_symm, same_trans⟩, fun v w hv hw h => ?_, fun before x hbefore hx => ?_⟩
  · exact ⟨fun digest => hashed_eq_of_same digest h hv hw, fingerprint_eq_of_same h hv hw⟩
  · rw [dropped_iff]
    refine and_congr_right fun _ => exists_congr fun y => and_congr_right fun hy => ?_
    rw [duplicates_eq_same hx (hbefore y hy)]

/-- Two sets of sets, in different orders and with a number in different forms: they are hashed
alike, and the second is dropped after the first. -/
theorem equality_agrees_with_hashing_sets_of_sets :
    let v : Value := .set (.set .number) [.set .number [.number ⟨250, 2⟩, .unknown .number],
      .set .number [.unknown .number, .unknown .number]]
    let w : Value := .set (.set .number) [.set .number [.unknown .number, .unknown .number],
      .set .number [.unknown .number, .number ⟨25, 1⟩]]
    v.WellFormed ∧ w.WellFormed ∧ v.same w = true ∧
      (∀ digest, v.hashed digest = w.hashed digest) ∧ v.fingerprint = w.fingerprint ∧
      Dropped [v] w := by
  intro v w
  have hv : v.WellFormed := by decide +kernel
  have hw : w.WellFormed := by decide +kernel
  have hsame : v.same w = true := by decide +kernel
  obtain ⟨hhashed, hcode⟩ :=
    equality_agrees_with_hashing.2.1 v w hv.properSets hw.properSets hsame
  have hbefore : ∀ y ∈ [v], y.ProperSets := by
    intro y hy
    rw [List.mem_singleton.mp hy]
    exact hv.properSets
  refine ⟨hv, hw, hsame, hhashed, hcode, ?_⟩
  exact (equality_agrees_with_hashing.2.2 [v] w hbefore hw.properSets).mpr
    ⟨rfl, v, List.mem_singleton_self v, same_symm hsame⟩

end Value

end Retype
