import Mathlib.Data.List.Perm.Subperm
import Mathlib.Data.List.Permutation
import Mathlib.Logic.Relation
import Retype.Preference
import Retype.Proofs.Results

/-!
# The order of preference

`Preference.order` is a topological sort. Its counters say for each position how many more general
types are still to be placed (`Sorting.Counts`), so a position is placed when it is *ready*, that
is, when everything more general is placed already, and of several ready ones the earliest
(`Greedy`). What is never ready stands at the end, in the order given (`exists_order_eq`).

One type is more general than another exactly when that is less general than it (`compare_swap`),
and a structure is more general than another if the parts that differ all say so
(`unanimous_zipWith_eq_lt`).

The positions that are placed are those that no cycle holds back: whose types are accessible
(`Acc`) under "more general than" among the types (`mem_placed_iff`). So the first type with some
property is the same in every order of the types exactly when one type leads the others with that
property (`Leads`): it comes first if it leads (`find?_sorted_of_leads`), and otherwise another
order brings another one to the front (`leads_of_find?_sorted`).
-/

namespace Retype.Preference

open Relation

/-! ### Comparing a type with itself -/

theorem unanimous_of_forall_eq {parts : List Ordering} (h : ∀ o ∈ parts, o = .eq) :
    unanimous parts = .eq := by
  have hlt : Ordering.lt ∉ parts := fun hmem => by cases h _ hmem
  have hgt : Ordering.gt ∉ parts := fun hmem => by cases h _ hmem
  simp [unanimous, hlt, hgt]

/-- No type is more general than itself. -/
theorem compare_self (t : Ty) : compare t t = .eq := by
  induction t with
  | primitive k => simp [compare, comparePrimitive]
  | sequence k e ih => cases k <;> simpa [compare] using ih
  | map e ih => simpa [compare] using ih
  | tuple ts ih =>
    rw [compare, if_pos rfl]
    refine unanimous_of_forall_eq ?_
    induction ts with
    | nil => simp [compareAll]
    | cons t ts rest =>
      obtain ⟨head, tail⟩ := List.forall_mem_cons.mp ih
      simpa [compareAll, head] using rest tail
  | object as ih =>
    rw [compare, if_pos rfl]
    refine unanimous_of_forall_eq ?_
    induction as with
    | nil => simp [compareAttributes]
    | cons a as rest =>
      obtain ⟨head, tail⟩ := List.forall_mem_cons.mp ih
      simpa [compareAttributes, head] using rest tail
  | capsule n => simp [compare]
  | dynamic => simp [compare]

/-! ### Comparing in both directions -/

theorem compareAll_eq_zipWith (ss ts : List Ty) :
    compareAll ss ts = List.zipWith compare ss ts := by
  induction ss generalizing ts with
  | nil => cases ts <;> rfl
  | cons s ss ih =>
    cases ts with
    | nil => rfl
    | cons t ts => rw [compareAll, ih, List.zipWith_cons_cons]

theorem compareAttributes_eq_zipWith (as bs : List (Attribute Ty)) :
    compareAttributes as bs = List.zipWith (fun a b => compare a.type b.type) as bs := by
  induction as generalizing bs with
  | nil => cases bs <;> rfl
  | cons a as ih =>
    cases bs with
    | nil => rfl
    | cons b bs => rw [compareAttributes, ih, List.zipWith_cons_cons]

theorem unanimous_map_swap (parts : List Ordering) :
    unanimous (parts.map Ordering.swap) = (unanimous parts).swap := by
  have turned : ∀ o : Ordering, (parts.map Ordering.swap).contains o = parts.contains o.swap := by
    intro o
    rw [Bool.eq_iff_iff, List.contains_iff_mem, List.contains_iff_mem, List.mem_map]
    constructor
    · rintro ⟨o, ho, rfl⟩
      rwa [Ordering.swap_swap]
    · exact fun ho => ⟨_, ho, Ordering.swap_swap⟩
  simp only [unanimous, turned, Ordering.swap_lt, Ordering.swap_gt]
  cases parts.contains Ordering.lt <;> cases parts.contains Ordering.gt <;> rfl

/-- Comparing in the other direction turns every comparison around. -/
theorem zipWith_swap {α : Type} {f : α → α → Ordering} {as : List α}
    (h : ∀ a ∈ as, ∀ b, f b a = (f a b).swap) (bs : List α) :
    List.zipWith f bs as = (List.zipWith f as bs).map Ordering.swap := by
  induction as generalizing bs with
  | nil => simp
  | cons a as ih =>
    obtain ⟨head, tail⟩ := List.forall_mem_cons.mp h
    cases bs with
    | nil => rfl
    | cons b bs => rw [List.zipWith_cons_cons, List.zipWith_cons_cons, List.map_cons, head, ih tail]

/-- One type is more general than another exactly when that is less general than it. -/
theorem compare_swap (s t : Ty) : compare t s = (compare s t).swap := by
  induction s generalizing t with
  | primitive p =>
    cases t with
    | primitive q => cases p <;> cases q <;> rfl
    | _ => rfl
  | sequence k s ih =>
    cases t with
    | sequence l t => cases k <;> cases l <;> simp only [compare, ih, Ordering.swap]
    | _ => cases k <;> rfl
  | map s ih =>
    cases t with
    | map t => simp only [compare, ih]
    | _ => rfl
  | tuple ss ih =>
    cases t with
    | tuple ts =>
      simp only [compare, compareAll_eq_zipWith, zipWith_swap ih ts, unanimous_map_swap,
        apply_ite Ordering.swap, Ordering.swap_eq, eq_comm]
    | sequence l => cases l <;> rfl
    | _ => rfl
  | object as ih =>
    cases t with
    | object bs =>
      have turned := zipWith_swap (f := fun a b : Attribute Ty => compare a.type b.type)
        (fun a ha b => ih a ha b.type) bs
      simp only [compare, compareAttributes_eq_zipWith, turned, unanimous_map_swap,
        apply_ite Ordering.swap, Ordering.swap_eq, eq_comm]
    | _ => rfl
  | capsule n => cases t <;> rfl
  | dynamic => cases t <;> rfl

/-- Of two lists the first is more general if what stands at each position is more general or the
same, and something differs. -/
theorem unanimous_zipWith_eq_lt {α : Type} {f : α → α → Ordering} {as bs : List α}
    (length : as.length = bs.length) (hne : as ≠ bs) (refl : ∀ a, f a a = .eq)
    (each : ∀ (i : Nat) a b, as[i]? = some a → bs[i]? = some b → a ≠ b → f a b = .lt) :
    unanimous (List.zipWith f as bs) = .lt := by
  have hlt : Ordering.lt ∈ List.zipWith f as bs := by
    obtain ⟨i, a, b, ha, hb, hab⟩ : ∃ (i : Nat) (a b : α), as[i]? = some a ∧ bs[i]? = some b ∧
        a ≠ b := by
      by_contra hsame
      push Not at hsame
      have hid := map_eq_map_of_getElem? (f := id) (g := id) length hsame
      exact hne (by simpa using hid)
    refine List.mem_of_getElem? (i := i) ?_
    rw [List.getElem?_zipWith, ha, hb, ← each i a b ha hb hab]
  have hgt : Ordering.gt ∉ List.zipWith f as bs := by
    intro hmem
    obtain ⟨i, hi⟩ := List.getElem?_of_mem hmem
    obtain ⟨a, b, ha, hb, hab⟩ := List.getElem?_zipWith_eq_some.mp hi
    by_cases heq : a = b
    · rw [heq, refl] at hab
      cases hab
    · rw [each i a b ha hb heq] at hab
      cases hab
  simp [unanimous, hlt, hgt]

/-! ### More general among the types -/

/-- One of the types is more general than the given type. -/
def Above (types : List Ty) (s t : Ty) : Prop := s ∈ types ∧ compare s t = .lt

theorem precedes_iff {types : List Ty} {i j : Nat} : precedes types i j = true ↔
    ∃ s t, types[i]? = some s ∧ types[j]? = some t ∧ compare s t = .lt := by
  unfold precedes
  split
  · rename_i s t hs ht
    simp only [hs, ht, Bool.and_eq_true, bne_iff_ne, beq_iff_eq, Option.some.injEq]
    constructor
    · rintro ⟨-, h⟩
      exact ⟨s, t, rfl, rfl, h⟩
    · rintro ⟨_, _, rfl, rfl, h⟩
      refine ⟨fun heq => ?_, h⟩
      subst heq
      rw [hs] at ht
      cases ht
      rw [compare_self] at h
      cases h
  · rename_i hnone
    simp only [Bool.false_eq_true, false_iff]
    rintro ⟨s, t, hs, ht, -⟩
    exact hnone s t hs ht

theorem lt_length_of_precedes {types : List Ty} {i j : Nat} (h : precedes types i j = true) :
    i < types.length := by
  obtain ⟨s, -, hs, -⟩ := precedes_iff.mp h
  exact (List.getElem?_eq_some_iff.mp hs).1

/-! ### Placing what is ready -/

/-- The position is still to be placed and everything more general is placed. -/
structure Ready (types : List Ty) (done : List Nat) (i : Nat) : Prop where
  lt : i < types.length
  pending : i ∉ done
  released : ∀ k, precedes types k i = true → k ∈ done

/-- After the positions that are done, each next one is the earliest that is ready. -/
inductive Greedy (types : List Ty) : List Nat → List Nat → Prop
  | nil {done : List Nat} : Greedy types done []
  | cons {done rest : List Nat} {next : Nat} (ready : Ready types done next)
      (earliest : ∀ i < next, ¬Ready types done i) (after : Greedy types (done ++ [next]) rest) :
      Greedy types done (next :: rest)

theorem Greedy.split {types : List Ty} {done front back : List Nat} {j : Nat}
    (h : Greedy types done (front ++ j :: back)) :
    Ready types (done ++ front) j ∧ ∀ i < j, ¬Ready types (done ++ front) i := by
  induction front generalizing done with
  | nil =>
    cases h with
    | cons ready earliest _ => simpa using ⟨ready, earliest⟩
  | cons i front ih =>
    cases h with
    | cons _ _ after => simpa using ih after

theorem Greedy.nodup {types : List Ty} {done placed : List Nat} (h : Greedy types done placed)
    (hdone : done.Nodup) : (done ++ placed).Nodup := by
  induction h with
  | nil => simpa using hdone
  | cons ready _ _ ih =>
    have hnext := ih (List.nodup_append.mpr ⟨hdone, by simp, by
      rintro i hi _ hj rfl
      rw [List.mem_singleton.mp hj] at hi
      exact ready.pending hi⟩)
    simpa using hnext

/-! ### The counters -/

namespace Sorting

/-- The counter of each position says how many more general types are still to be placed. -/
structure Counts (types : List Ty) (s : Sorting) : Prop where
  length : s.degrees.length = types.length
  degree : ∀ j < types.length, s.degrees[j]? = some
    (((List.range types.length).countP fun i => precedes types i j && !s.placed.contains i : Nat) :
      Int)

theorem counts_start (types : List Ty) : (start types).Counts types where
  length := by simp [start]
  degree j hj := by simp [start, hj]

/-- Taking one member out of a count takes one away, if it was counted. -/
theorem countP_and_ne {p : Nat → Bool} {a : Nat} {l : List Nat} (nodup : l.Nodup) (ha : a ∈ l) :
    ((l.countP fun i => p i && i != a : Nat) : Int) =
      if p a then (l.countP p : Int) - 1 else l.countP p := by
  induction l with
  | nil => cases ha
  | cons b l ih =>
    obtain ⟨hb, hl⟩ := List.nodup_cons.mp nodup
    rcases List.mem_cons.mp ha with rfl | ha
    · have hrest : (l.countP fun i => p i && i != a) = l.countP p :=
        List.countP_congr fun i hi => by
          have : i ≠ a := fun heq => hb (heq ▸ hi)
          simp [this]
      rw [List.countP_cons, List.countP_cons, hrest]
      cases hp : p a <;> simp
    · have hne : b ≠ a := fun heq => hb (heq ▸ ha)
      have := ih hl ha
      rw [List.countP_cons, List.countP_cons]
      cases hp : p a <;> cases hpb : p b <;> simp_all

theorem Counts.place {types : List Ty} {s : Sorting} {next : Nat} (h : s.Counts types)
    (hlt : next < types.length) (hpending : next ∉ s.placed) :
    (s.place types next).Counts types where
  length := by simp [Sorting.place, h.length]
  degree j hj := by
    have hcount := countP_and_ne (p := fun i => precedes types i j && !s.placed.contains i)
      List.nodup_range (List.mem_range.mpr hlt)
    have hpred : (fun i => precedes types i j && !(s.place types next).placed.contains i) =
        fun i => (precedes types i j && !s.placed.contains i) && i != next := by
      funext i
      simp only [Sorting.place, List.contains_append, Bool.not_or, Bool.and_assoc]
      congr 2
      rw [Bool.eq_iff_iff, Bool.not_eq_true', bne_iff_ne, List.contains_eq_mem,
        decide_eq_false_iff_not, List.mem_singleton]
    rw [hpred, hcount]
    simp only [Sorting.place, List.getElem?_mapIdx, h.degree j hj, Option.map_some]
    simp [hpending]

/-- The search for the next position finds what is ready. -/
theorem Counts.ready_iff {types : List Ty} {s : Sorting} (h : s.Counts types) {i : Nat}
    (hi : i < types.length) :
    (!s.placed.contains i && s.degrees[i]? == some 0) = true ↔ Ready types s.placed i := by
  rw [h.degree i hi]
  simp only [Bool.and_eq_true, Bool.not_eq_true', List.contains_eq_mem, decide_eq_false_iff_not,
    beq_iff_eq, Option.some.injEq, Int.natCast_eq_zero, List.countP_eq_zero, List.mem_range,
    not_and, not_not]
  constructor
  · rintro ⟨pending, released⟩
    exact ⟨hi, pending, fun k hk => released k (lt_length_of_precedes hk) hk⟩
  · rintro ⟨-, pending, released⟩
    exact ⟨pending, fun k _ hk => released k hk⟩

theorem Counts.next?_eq_some {types : List Ty} {s : Sorting} (h : s.Counts types) {next : Nat}
    (hnext : s.next? = some next) :
    Ready types s.placed next ∧ ∀ i < next, ¬Ready types s.placed i := by
  rw [next?, List.find?_range_eq_some] at hnext
  obtain ⟨hready, hlt, hearlier⟩ := hnext
  rw [List.mem_range, h.length] at hlt
  refine ⟨(h.ready_iff hlt).mp hready, fun i hi hi' => ?_⟩
  have hno := hearlier i hi
  rw [(h.ready_iff hi'.lt).mpr hi'] at hno
  cases hno

theorem Counts.next?_eq_none {types : List Ty} {s : Sorting} (h : s.Counts types)
    (hnext : s.next? = none) (i : Nat) : ¬Ready types s.placed i := by
  intro hi
  have hmem : i ∈ List.range s.degrees.length := by
    rw [List.mem_range, h.length]
    exact hi.lt
  exact List.find?_eq_none.mp hnext i hmem ((h.ready_iff hi.lt).mpr hi)

/-- Positions that are all different and all in range leave nothing out if there are enough. -/
theorem mem_of_nodup_of_length_le {n i : Nat} {placed : List Nat} (nodup : placed.Nodup)
    (hlt : ∀ i ∈ placed, i < n) (hlength : n ≤ placed.length) (hi : i < n) : i ∈ placed := by
  have hsub : placed.Subperm (List.range n) :=
    List.subperm_of_subset nodup fun i hi => List.mem_range.mpr (hlt i hi)
  have hperm := hsub.perm_of_length_le (by simpa using hlength)
  exact hperm.mem_iff.mpr (List.mem_range.mpr hi)

/-- **Run.** With enough steps, the sort goes on placing what is ready until nothing is. -/
theorem Counts.run {types : List Ty} {steps : Nat} {s : Sorting} (h : s.Counts types)
    (nodup : s.placed.Nodup) (hlt : ∀ i ∈ s.placed, i < types.length)
    (enough : types.length ≤ steps + s.placed.length) :
    ∃ rest, (Sorting.run types steps s).placed = s.placed ++ rest ∧
      Greedy types s.placed rest ∧ ∀ i, ¬Ready types (s.placed ++ rest) i := by
  induction steps generalizing s with
  | zero =>
    refine ⟨[], by simp [Sorting.run], .nil, fun i hi => ?_⟩
    rw [List.append_nil] at hi
    exact hi.pending (mem_of_nodup_of_length_le nodup hlt (by omega) hi.lt)
  | succ steps ih =>
    rw [Sorting.run]
    cases hnext : s.next? with
    | none => exact ⟨[], by simp, .nil, by simpa using h.next?_eq_none hnext⟩
    | some next =>
      obtain ⟨ready, earliest⟩ := h.next?_eq_some hnext
      have one : Greedy types s.placed [next] := .cons ready earliest .nil
      obtain ⟨rest, hrest, greedy, finished⟩ := ih (h.place ready.lt ready.pending)
        (by simpa [Sorting.place] using one.nodup nodup)
        (by simpa [Sorting.place, or_imp, forall_and] using ⟨hlt, ready.lt⟩)
        (by simp only [Sorting.place, List.length_append, List.length_singleton]; omega)
      refine ⟨next :: rest, ?_, .cons ready earliest greedy, ?_⟩
      · simpa [Sorting.place] using hrest
      · simpa [Sorting.place] using finished

end Sorting

/-- The positions that get ready, one after the other. -/
def placed (types : List Ty) : List Nat :=
  (Sorting.run types types.length (.start types)).placed

/-- The sort places what is ready until nothing is. -/
theorem greedy_placed (types : List Ty) :
    Greedy types [] (placed types) ∧ ∀ i, ¬Ready types (placed types) i := by
  obtain ⟨rest, hrest, greedy, finished⟩ := (Sorting.counts_start types).run
    (by simp [Sorting.start]) (by simp [Sorting.start]) (Nat.le_add_right types.length _)
  rw [show (Sorting.start types).placed = [] from rfl, List.nil_append] at hrest finished
  rw [placed, hrest]
  exact ⟨greedy, finished⟩

/-- **The order.** First come the positions that get ready, one after the other, then the others
as they are. -/
theorem exists_order_eq (types : List Ty) : ∃ placed,
    order types = placed ++ (List.range types.length).filter (!placed.contains ·) ∧
      Greedy types [] placed ∧ ∀ i, ¬Ready types placed i :=
  ⟨placed types, rfl, greedy_placed types⟩

/-- Sorting neither adds nor drops types. -/
theorem mem_sorted {types : List Ty} {t : Ty} : t ∈ sorted types ↔ t ∈ types := by
  obtain ⟨placed, horder, greedy, -⟩ := exists_order_eq types
  rw [sorted, horder, List.mem_filterMap]
  constructor
  · rintro ⟨i, -, hi⟩
    exact List.mem_of_getElem? hi
  · intro ht
    obtain ⟨i, hi⟩ := List.getElem?_of_mem ht
    have hlt := (List.getElem?_eq_some_iff.mp hi).1
    refine ⟨i, ?_, hi⟩
    by_cases hplaced : i ∈ placed
    · exact List.mem_append_left _ hplaced
    · exact List.mem_append_right _ (by simpa using ⟨hlt, hplaced⟩)

/-! ### Which types are placed -/

section Placed

variable {types : List Ty} {placed : List Nat}

/-- Types that are placed are accessible. -/
theorem Greedy.acc {done : List Nat} (h : Greedy types done placed)
    (hdone : ∀ i ∈ done, ∀ t, types[i]? = some t → Acc (Above types) t) :
    ∀ i ∈ placed, ∀ t, types[i]? = some t → Acc (Above types) t := by
  induction h with
  | nil => simp
  | @cons done rest next ready _ _ ih =>
    have hnext : ∀ t, types[next]? = some t → Acc (Above types) t := by
      intro t ht
      refine Acc.intro t fun s ⟨hs, hlt⟩ => ?_
      obtain ⟨k, hk⟩ := List.getElem?_of_mem hs
      exact hdone k (ready.released k (precedes_iff.mpr ⟨s, t, hk, ht, hlt⟩)) s hk
    refine List.forall_mem_cons.mpr ⟨hnext, ih fun i hi => ?_⟩
    rcases List.mem_append.mp hi with hi | hi
    · exact hdone i hi
    · rw [List.mem_singleton.mp hi]
      exact hnext

/-- Of the types that lead to an accessible one, some position is ready unless it is placed. -/
theorem exists_ready {t : Ty} (acc : Acc (Above types) t) {done : List Nat} {i : Nat}
    (hi : types[i]? = some t) (hpending : i ∉ done) :
    ∃ j s, types[j]? = some s ∧ ReflTransGen (Above types) s t ∧ Ready types done j := by
  induction acc generalizing i with
  | intro t _ ih =>
    by_cases hready : Ready types done i
    · exact ⟨i, t, hi, .refl, hready⟩
    · -- something more general is still to be placed
      have hlt := (List.getElem?_eq_some_iff.mp hi).1
      obtain ⟨k, hk, hknot⟩ : ∃ k, precedes types k i = true ∧ k ∉ done := by
        by_contra hcon
        push Not at hcon
        exact hready ⟨hlt, hpending, hcon⟩
      obtain ⟨s, t', hs, ht', hlt⟩ := precedes_iff.mp hk
      obtain rfl : t = t' := Option.some.inj (hi.symm.trans ht')
      have habove : Above types s t := ⟨List.mem_of_getElem? hs, hlt⟩
      obtain ⟨j, r, hj, hreach, hready⟩ := ih s habove hs hknot
      exact ⟨j, r, hj, hreach.tail habove, hready⟩

/-- The positions that are placed are those of accessible types. -/
theorem mem_placed_iff (greedy : Greedy types [] placed) (finished : ∀ i, ¬Ready types placed i)
    {i : Nat} {t : Ty} (hi : types[i]? = some t) : i ∈ placed ↔ Acc (Above types) t := by
  refine ⟨fun hmem => greedy.acc (by simp) i hmem t hi, fun acc => ?_⟩
  by_contra hpending
  obtain ⟨j, -, -, -, hready⟩ := exists_ready acc hi hpending
  exact finished j hready

/-- What leads to a type that is placed is placed before it. -/
theorem Greedy.exists_before (greedy : Greedy types [] placed) {front back : List Nat} {j : Nat}
    (hplaced : placed = front ++ j :: back) {s t : Ty} (hj : types[j]? = some t)
    (h : TransGen (Above types) s t) : ∃ i ∈ front, types[i]? = some s := by
  have step : ∀ {front back : List Nat} {j : Nat} {s t : Ty}, placed = front ++ j :: back →
      types[j]? = some t → Above types s t → ∃ i ∈ front, types[i]? = some s := by
    rintro front back j s t rfl hj ⟨hs, hlt⟩
    obtain ⟨k, hk⟩ := List.getElem?_of_mem hs
    have ready := greedy.split.1
    exact ⟨k, by simpa using ready.released k (precedes_iff.mpr ⟨s, t, hk, hj, hlt⟩), hk⟩
  induction h using TransGen.head_induction_on with
  | single h => exact step hplaced hj h
  | head h _ ih =>
    obtain ⟨i, hi, ht⟩ := ih
    obtain ⟨front', back', rfl⟩ := List.append_of_mem hi
    have hsplit : placed = front' ++ i :: (back' ++ j :: back) := by simpa using hplaced
    obtain ⟨k, hk, hs⟩ := step hsplit ht h
    exact ⟨k, List.mem_append_left _ hk, hs⟩

end Placed

/-! ### What comes first -/

/-- Among the types with some property, one leads: there is no other, or it is accessible and what
else is accessible is less general in one or more steps. -/
inductive Leads (types : List Ty) (good : Ty → Bool) (u : Ty) : Prop
  | alone (only : ∀ v ∈ types, good v = true → v = u)
  | first (acc : Acc (Above types) u)
      (before : ∀ v ∈ types, good v = true → Acc (Above types) v → v ≠ u →
        TransGen (Above types) u v)

section First

variable {types : List Ty} {good : Ty → Bool} {u : Ty}

/-- The first type with a property is the one at the first position whose type has it. -/
theorem find?_sorted_eq (types : List Ty) (good : Ty → Bool) :
    (sorted types).find? good =
      ((order types).find? fun i => types[i]?.any good).bind (types[·]?) := by
  rw [sorted, List.find?_filterMap]

/-- **The leader comes first.** -/
theorem find?_sorted_of_leads (hu : u ∈ types) (hgood : good u = true)
    (h : Leads types good u) : (sorted types).find? good = some u := by
  cases h with
  | alone only =>
    cases hfind : (sorted types).find? good with
    | none => exact absurd hgood (List.find?_eq_none.mp hfind u (mem_sorted.mpr hu))
    | some v =>
      rw [only v (mem_sorted.mp (List.mem_of_find?_eq_some hfind)) (List.find?_some hfind)]
  | first acc before =>
    obtain ⟨placed, horder, greedy, finished⟩ := exists_order_eq types
    obtain ⟨i, hi⟩ := List.getElem?_of_mem hu
    have hplaced : i ∈ placed := (mem_placed_iff greedy finished hi).mpr acc
    -- some position that is placed has a good type; take the first
    obtain ⟨j, hj⟩ : ∃ j, placed.find? (fun i => types[i]?.any good) = some j := by
      rw [← Option.isSome_iff_exists, List.find?_isSome]
      exact ⟨i, hplaced, by simp [hi, hgood]⟩
    rw [find?_sorted_eq, horder, List.find?_append, hj, Option.some_or, Option.bind_some]
    obtain ⟨hgoodj, front, back, hsplit, hfront⟩ := List.find?_eq_some_iff_append.mp hj
    obtain ⟨v, hv, hvgood⟩ := (Option.any_eq_true _ _).mp hgoodj
    by_cases hvu : v = u
    · rw [hv, hvu]
    · have hmem : j ∈ placed := by simp [hsplit]
      have hvacc := (mem_placed_iff greedy finished hv).mp hmem
      obtain ⟨k, hk, hku⟩ := greedy.exists_before hsplit hv
        (before v (List.mem_of_getElem? hv) hvgood hvacc hvu)
      have hbad := hfront k hk
      simp [hku, hgood] at hbad

theorem above_congr {types' : List Ty} (h : types'.Perm types) : Above types' = Above types := by
  funext s t
  rw [Above, Above, h.mem_iff]

theorem Leads.perm {types' : List Ty} (leads : Leads types good u) (h : types.Perm types') :
    Leads types' good u := by
  have habove := above_congr h
  cases leads with
  | alone only => exact .alone fun v hv => only v (h.mem_iff.mpr hv)
  | first acc before =>
    rw [habove] at acc before
    exact .first acc fun v hv => before v (h.mem_iff.mpr hv)

/-- What has no good type before it comes first in some order. -/
theorem exists_perm_of_acc (hu : u ∈ types) (hgood : good u = true) (acc : Acc (Above types) u)
    (least : ∀ v ∈ types, good v = true → ReflTransGen (Above types) v u → v = u) :
    ∃ types', types'.Perm types ∧ (sorted types').find? good = some u := by
  classical
  -- the types that lead to it go to the front
  let test : Ty → Bool := fun t => decide (ReflTransGen (Above types) t u)
  let types' := types.filter test ++ types.filter (!test ·)
  have hperm : types'.Perm types := List.filter_append_perm test types
  have habove := above_congr hperm
  refine ⟨types', hperm, ?_⟩
  obtain ⟨placed, horder, greedy, finished⟩ := exists_order_eq types'
  obtain ⟨i, hi⟩ := List.getElem?_of_mem (hperm.mem_iff.mpr hu)
  have hplaced : i ∈ placed := (mem_placed_iff greedy finished hi).mpr (habove ▸ acc)
  obtain ⟨j, hj⟩ : ∃ j, placed.find? (fun i => types'[i]?.any good) = some j := by
    rw [← Option.isSome_iff_exists, List.find?_isSome]
    exact ⟨i, hplaced, by simp [hi, hgood]⟩
  rw [find?_sorted_eq, horder, List.find?_append, hj, Option.some_or, Option.bind_some]
  obtain ⟨hgoodj, front, back, hsplit, hfront⟩ := List.find?_eq_some_iff_append.mp hj
  obtain ⟨v, hv, hvgood⟩ := (Option.any_eq_true _ _).mp hgoodj
  subst hsplit
  obtain ⟨-, earliest⟩ := greedy.split
  rw [List.nil_append] at earliest
  -- it is not placed yet, so something that leads to it is ready, and that stands in front
  have hpending : i ∉ front := fun hmem => by
    have hbad := hfront i hmem
    simp [hi, hgood] at hbad
  obtain ⟨k, s, hk, hreach, hready⟩ := exists_ready (habove ▸ acc) hi hpending
  rw [habove] at hreach
  have hkfront : k < (types.filter test).length := by
    by_contra hge
    rw [List.getElem?_append_right (by omega)] at hk
    have hnot := List.mem_filter.mp (List.mem_of_getElem? hk)
    simp [test, hreach] at hnot
  have hjk : j ≤ k := by
    by_contra hlt
    exact earliest k (by omega) hready
  rw [List.getElem?_append_left (by omega)] at hv
  obtain ⟨hvmem, hvreach⟩ := List.mem_filter.mp (List.mem_of_getElem? hv)
  rw [List.getElem?_append_left (by omega), hv,
    least v hvmem hvgood (by simpa [test] using hvreach)]

/-- If a cycle holds all good types back, any of them comes first in some order. -/
theorem exists_perm_of_not_acc (hu : u ∈ types) (hgood : good u = true)
    (held : ∀ v ∈ types, good v = true → ¬Acc (Above types) v) :
    ∃ types', types'.Perm types ∧ (sorted types').find? good = some u := by
  have hperm : (u :: types.erase u).Perm types := (List.perm_cons_erase hu).symm
  have habove := above_congr hperm
  refine ⟨u :: types.erase u, hperm, ?_⟩
  obtain ⟨placed, horder, greedy, finished⟩ := exists_order_eq (u :: types.erase u)
  -- nothing good is placed, and of what is left the first is good
  have hplaced : placed.find? (fun i => (u :: types.erase u)[i]?.any good) = none := by
    refine List.find?_eq_none.mpr fun i hi hgoodi => ?_
    obtain ⟨v, hv, hvgood⟩ := (Option.any_eq_true _ _).mp hgoodi
    have hacc := (mem_placed_iff greedy finished hv).mp hi
    exact held v (hperm.mem_iff.mp (List.mem_of_getElem? hv)) hvgood (habove ▸ hacc)
  have hzero : 0 ∉ placed := fun hmem =>
    held u hu hgood (habove ▸ (mem_placed_iff greedy finished (t := u) rfl).mp hmem)
  rw [find?_sorted_eq, horder, List.find?_append, hplaced, Option.none_or, List.length_cons,
    List.range_succ_eq_map, List.filter_cons_of_pos (by simpa using hzero),
    List.find?_cons_of_pos (by simpa using hgood)]
  rfl

/-- **No leader, no rule.** If one type comes first in every order, it leads. -/
theorem leads_of_find?_sorted (hu : u ∈ types) (hgood : good u = true)
    (h : ∀ types', types'.Perm types → (sorted types').find? good = some u) :
    Leads types good u := by
  have hfirst : ∀ v, (∃ types', types'.Perm types ∧ (sorted types').find? good = some v) →
      v = u := by
    rintro v ⟨types', hperm, hv⟩
    exact Option.some.inj (hv.symm.trans (h types' hperm))
  by_cases held : ∀ v ∈ types, good v = true → ¬Acc (Above types) v
  · exact .alone fun v hv hvgood => hfirst v (exists_perm_of_not_acc hv hvgood held)
  · -- below every good accessible type there is one with no good type before it, which is `u`
    have below : ∀ v, Acc (Above types) v → v ∈ types → good v = true →
        Acc (Above types) u ∧ ReflTransGen (Above types) u v := by
      intro v acc
      induction acc.transGen with
      | intro v _ ih =>
        intro hv hvgood
        by_cases least : ∀ w ∈ types, good w = true → ReflTransGen (Above types) w v → w = v
        · obtain rfl := hfirst v (exists_perm_of_acc hv hvgood acc least)
          exact ⟨acc, .refl⟩
        · push Not at least
          obtain ⟨w, hw, hwgood, hreach, hne⟩ := least
          have htrans : TransGen (Above types) w v :=
            (reflTransGen_iff_eq_or_transGen.mp hreach).resolve_left hne.symm
          have haccw : Acc (Above types) w := acc_transGen_iff.mp (acc.transGen.inv htrans)
          obtain ⟨hacc, hle⟩ := ih w htrans haccw hw hwgood
          exact ⟨hacc, hle.trans hreach⟩
    push Not at held
    obtain ⟨v, hv, hvgood, hvacc⟩ := held
    refine .first (below v hvacc hv hvgood).1 fun w hw hwgood hwacc hne => ?_
    exact (reflTransGen_iff_eq_or_transGen.mp (below w hwacc hw hwgood).2).resolve_left hne

end First

end Retype.Preference
