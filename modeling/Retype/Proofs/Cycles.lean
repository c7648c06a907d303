import Mathlib.Data.Set.Finite.Basic
import Mathlib.Order.WellFounded
import Retype.Proofs.Preference

/-!
# Preferences that go in a circle

"More general than" is no order: tuples are compared part by part, and parts that cannot be
compared do not count, so three tuples may each be more general than the next. A topological sort
then gets stuck. This module says what `Preference.order` does all the same.

* The counters stay what they count, in every state of the sort (`Sorting.Counts.after`), so none
  of them goes below zero.
* A position that is placed stands behind everything more general (`before_of_mem_placed`), and so
  behind everything that leads to it. Hence what is placed is below no cycle.
* A position that is appended has something more general that is appended as well
  (`exists_outranks_of_mem_appended`). Going on like this among finitely many positions ends in a
  cycle.

So the positions that are appended are exactly those below a cycle (`mem_appended_iff`), and only
two of these can stand in the wrong order.
-/

namespace Retype.Preference

open Relation

variable {types : List Ty} {i j : Nat}

/-! ### The counters in every state -/

namespace Sorting

/-- **Run.** However many steps the sort has taken, its counters are right. -/
theorem Counts.after {s : Sorting} (h : s.Counts types) (steps : Nat) :
    (Sorting.run types steps s).Counts types := by
  induction steps generalizing s with
  | zero => exact h
  | succ steps ih =>
    rw [Sorting.run]
    cases hnext : s.next? with
    | none => exact h
    | some next =>
      obtain ⟨ready, -⟩ := h.next?_eq_some hnext
      exact ih (h.place ready.lt ready.pending)

theorem Counts.nonneg {s : Sorting} (h : s.Counts types) : ∀ degree ∈ s.degrees, 0 ≤ degree := by
  intro degree hdegree
  obtain ⟨k, hk⟩ := List.getElem?_of_mem hdegree
  have hlt : k < types.length := h.length ▸ (List.getElem?_eq_some_iff.mp hk).1
  rw [h.degree k hlt] at hk
  exact Option.some.inj hk ▸ Int.natCast_nonneg _

/-- With as many steps as there are types the sort comes to its end. -/
theorem next?_run (types : List Ty) : (run types types.length (start types)).next? = none := by
  have counts := (counts_start types).after types.length
  cases hnext : (run types types.length (start types)).next? with
  | none => rfl
  | some next => exact absurd (counts.next?_eq_some hnext).1 ((greedy_placed types).2 next)

end Sorting

/-! ### Placed and appended -/

/-- The positions that are never ready, in the order given. -/
def appended (types : List Ty) : List Nat :=
  (List.range types.length).filter fun i => !(placed types).contains i

theorem order_eq_append (types : List Ty) : order types = placed types ++ appended types := rfl

theorem mem_appended : i ∈ appended types ↔ i < types.length ∧ i ∉ placed types := by
  simp [appended]

theorem lt_length_of_mem_placed (h : i ∈ placed types) : i < types.length := by
  obtain ⟨front, back, hsplit⟩ := List.append_of_mem h
  exact (hsplit ▸ (greedy_placed types).1).split.1.lt

/-- **Permutation.** Every position is listed once. -/
theorem order_perm (types : List Ty) : (order types).Perm (List.range types.length) := by
  have nodup : (placed types).Nodup := by simpa using (greedy_placed types).1.nodup List.nodup_nil
  refine (List.perm_ext_iff_of_nodup ?_ List.nodup_range).mpr fun i => ?_
  · refine List.nodup_append.mpr ⟨nodup, List.nodup_range.filter _, ?_⟩
    rintro i hi _ hj rfl
    exact (mem_appended.mp hj).2 hi
  · rw [order_eq_append, List.mem_append, mem_appended, List.mem_range]
    constructor
    · rintro (hi | ⟨hlt, -⟩)
      · exact lt_length_of_mem_placed hi
      · exact hlt
    · intro hlt
      by_cases hi : i ∈ placed types
      · exact .inl hi
      · exact .inr ⟨hlt, hi⟩

/-! ### More general, in one step and in several -/

/-- The type at the first position is more general than the type at the second. -/
def Outranks (types : List Ty) (i j : Nat) : Prop :=
  ∃ s t, types[i]? = some s ∧ types[j]? = some t ∧ compare s t = .lt

/-- From a position on a cycle one gets to this position, each time to something less general. -/
def BelowCycle (types : List Ty) (i : Nat) : Prop :=
  ∃ k, TransGen (Outranks types) k k ∧ ReflTransGen (Outranks types) k i

theorem BelowCycle.tail (h : BelowCycle types i) (next : Outranks types i j) :
    BelowCycle types j := by
  obtain ⟨k, cycle, reach⟩ := h
  exact ⟨k, cycle, reach.tail next⟩

theorem Outranks.lt_length (h : Outranks types i j) : i < types.length ∧ j < types.length := by
  obtain ⟨s, t, hs, ht, -⟩ := h
  exact ⟨(List.getElem?_eq_some_iff.mp hs).1, (List.getElem?_eq_some_iff.mp ht).1⟩

theorem BelowCycle.lt_length (h : BelowCycle types i) : i < types.length := by
  obtain ⟨k, cycle, reach⟩ := h
  obtain ⟨m, -, hlast⟩ := TransGen.tail'_iff.mp (cycle.trans_left reach)
  exact hlast.lt_length.2

/-- What stands in front comes before what does not. -/
theorem idxOf_lt_idxOf {front back : List Nat} (hi : i ∈ front) (hj : j ∉ front) :
    (front ++ back).idxOf i < (front ++ back).idxOf j := by
  rw [List.idxOf_append_of_mem hi, List.idxOf_append_of_notMem hj]
  have := List.idxOf_lt_length_of_mem hi
  omega

/-- **Step.** What is more general than a position that is placed is placed before it. -/
theorem before_of_mem_placed (hj : j ∈ placed types) (h : Outranks types i j) :
    i ∈ placed types ∧ (order types).idxOf i < (order types).idxOf j := by
  obtain ⟨front, back, hsplit⟩ := List.append_of_mem hj
  have ready : Ready types front j := by
    simpa using (hsplit ▸ (greedy_placed types).1).split.1
  have hi : i ∈ front := ready.released i (precedes_iff.mpr h)
  refine ⟨hsplit ▸ List.mem_append_left _ hi, ?_⟩
  rw [order_eq_append, hsplit, List.append_assoc]
  exact idxOf_lt_idxOf hi ready.pending

/-- **Run.** What leads to a position that is placed is placed before it. -/
theorem before_of_transGen (hj : j ∈ placed types) (h : TransGen (Outranks types) i j) :
    i ∈ placed types ∧ (order types).idxOf i < (order types).idxOf j := by
  induction h using TransGen.head_induction_on with
  | single h => exact before_of_mem_placed hj h
  | head h _ ih =>
    obtain ⟨hmem, hlt⟩ := before_of_mem_placed ih.1 h
    exact ⟨hmem, hlt.trans ih.2⟩

/-- A position waits for ever only if something more general does. -/
theorem exists_outranks_of_mem_appended (hj : j ∈ appended types) :
    ∃ i ∈ appended types, Outranks types i j := by
  obtain ⟨hlt, hpending⟩ := mem_appended.mp hj
  have hnot := (greedy_placed types).2 j
  by_contra hcon
  push Not at hcon
  refine hnot ⟨hlt, hpending, fun k hk => ?_⟩
  by_contra hkpending
  exact hcon k (mem_appended.mpr ⟨lt_length_of_precedes hk, hkpending⟩) (precedes_iff.mp hk)

theorem belowCycle_of_mem_appended (hi : i ∈ appended types) : BelowCycle types i := by
  by_contra hfree
  -- among the appended positions below no cycle, none would be the most general
  let Free := { k // k ∈ appended types ∧ ¬BelowCycle types k }
  let Leads : Free → Free → Prop := fun a b => TransGen (Outranks types) a.1 b.1
  have finite : Finite Free :=
    ((List.finite_toSet (appended types)).subset fun _ h => h.1).to_subtype
  have trans : IsTrans Free Leads := ⟨fun _ _ _ hab hbc => TransGen.trans hab hbc⟩
  have irrefl : Std.Irrefl Leads := ⟨fun k cycle => k.2.2 ⟨k.1, cycle, .refl⟩⟩
  have wf : WellFounded Leads := Finite.wellFounded_of_trans_of_irrefl Leads
  obtain ⟨least, -, hleast⟩ := wf.has_min Set.univ ⟨⟨i, hi, hfree⟩, trivial⟩
  obtain ⟨k, hk, hnext⟩ := exists_outranks_of_mem_appended least.2.1
  exact hleast ⟨k, hk, fun below => least.2.2 (below.tail hnext)⟩ trivial (.single hnext)

/-- **Stuck.** The positions that are appended are those below a cycle. -/
theorem mem_appended_iff : i ∈ appended types ↔ BelowCycle types i := by
  refine ⟨belowCycle_of_mem_appended, fun below => mem_appended.mpr ⟨below.lt_length, ?_⟩⟩
  obtain ⟨k, cycle, reach⟩ := below
  intro hplaced
  have hk : k ∈ placed types := (before_of_transGen hplaced (cycle.trans_left reach)).1
  exact Nat.lt_irrefl _ (before_of_transGen hk cycle).2

/-- Something more general comes first, unless both are appended. -/
theorem Outranks.before_or_appended (h : Outranks types i j) :
    (order types).idxOf i < (order types).idxOf j ∨ i ∈ appended types ∧ j ∈ appended types := by
  by_cases hj : j ∈ placed types
  · exact .inl (before_of_mem_placed hj h).2
  · by_cases hi : i ∈ placed types
    · exact .inl (idxOf_lt_idxOf hi hj)
    · exact .inr ⟨mem_appended.mpr ⟨h.lt_length.1, hi⟩, mem_appended.mpr ⟨h.lt_length.2, hj⟩⟩

/-- **A sound order in spite of cycles.** Comparing in the other direction turns a comparison
around. For all types, the sort comes to its end and lists every position once; in no state of it
is a counter below zero; and something less general comes first only if both positions are
appended, which happens exactly to the positions below a cycle. Without cycles, whatever is more
general comes first. -/
theorem order_sound_despite_cycles :
    (∀ s t : Ty, compare t s = (compare s t).swap) ∧
    ∀ types : List Ty,
      (Sorting.run types types.length (.start types)).next? = none ∧
      (order types).Perm (List.range types.length) ∧
      (∀ steps, ∀ degree ∈ (Sorting.run types steps (.start types)).degrees, 0 ≤ degree) ∧
      order types = placed types ++ appended types ∧
      (∀ i, i ∈ appended types ↔ BelowCycle types i) ∧
      (∀ i j, Outranks types i j → (order types).idxOf j < (order types).idxOf i →
        (i ∈ appended types ∧ BelowCycle types i) ∧ j ∈ appended types ∧ BelowCycle types j) ∧
      ((∀ k, ¬TransGen (Outranks types) k k) →
        ∀ i j, Outranks types i j → (order types).idxOf i < (order types).idxOf j) := by
  refine ⟨compare_swap, fun types => ⟨Sorting.next?_run types, order_perm types, fun steps => ?_,
    order_eq_append types, fun i => mem_appended_iff, fun i j h behind => ?_,
    fun acyclic i j h => ?_⟩⟩
  · exact ((Sorting.counts_start types).after steps).nonneg
  · obtain ⟨hi, hj⟩ := h.before_or_appended.resolve_left (Nat.lt_asymm behind)
    exact ⟨⟨hi, mem_appended_iff.mp hi⟩, hj, mem_appended_iff.mp hj⟩
  · refine h.before_or_appended.resolve_right fun ⟨hi, _⟩ => ?_
    obtain ⟨k, cycle, -⟩ := mem_appended_iff.mp hi
    exact acyclic k cycle

/-- Three tuples in a circle hold back one another, and the placeholder, which is less general than
each of them and is given first; plain data does not go in a circle. -/
theorem order_sound_tuples_in_a_circle :
    let circle : List Ty := [.dynamic, .tuple [.string, .list .bool, .number],
      .tuple [.number, .string, .list .bool], .tuple [.list .bool, .number, .string], .string]
    let plain : List Ty := [.dynamic, .number, .string, .bool]
    (Outranks circle 1 0 ∧ (order circle).idxOf 0 < (order circle).idxOf 1 ∧
      (1 ∈ appended circle ∧ BelowCycle circle 1) ∧ 0 ∈ appended circle ∧ BelowCycle circle 0) ∧
      (∀ k, ¬TransGen (Outranks plain) k k) ∧ Outranks plain 2 1 ∧
        (order plain).idxOf 2 < (order plain).idxOf 1 := by
  intro circle plain
  have outranks : Outranks circle 1 0 := ⟨_, _, rfl, rfl, by decide⟩
  have behind : (order circle).idxOf 0 < (order circle).idxOf 1 := by decide
  have outranks' : Outranks plain 2 1 := ⟨_, _, rfl, rfl, by decide⟩
  -- each step goes on in the order, so none leads back
  have forward : ∀ i j, Outranks plain i j → (order plain).idxOf i < (order plain).idxOf j := by
    intro i j h
    have hall : ∀ i < 4, ∀ j < 4, precedes plain i j = true →
        (order plain).idxOf i < (order plain).idxOf j := by decide
    exact hall i h.lt_length.1 j h.lt_length.2 (precedes_iff.mpr h)
  have acyclic : ∀ k, ¬TransGen (Outranks plain) k k := by
    intro k cycle
    have hlt := cycle.lift ((order plain).idxOf ·) forward
    rw [transGen_eq_self] at hlt
    exact Nat.lt_irrefl _ hlt
  obtain ⟨-, sound⟩ := order_sound_despite_cycles
  obtain ⟨-, -, -, -, -, stuck, -⟩ := sound circle
  obtain ⟨-, -, -, -, -, -, first⟩ := sound plain
  exact ⟨⟨outranks, behind, stuck 1 0 outranks behind⟩, acyclic, outranks',
    first acyclic 2 1 outranks'⟩

end Retype.Preference
