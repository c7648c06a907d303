import Retype.Proofs.Ty.Conforms
import Retype.Value.Build

/-!
# Well-formed values

A condition holds *everywhere* in a value if it holds of the value and of every value inside it
(`Value.Everywhere`). Conditions of this kind are

* `Value.WellFormed`: the members of every list, set and map have exactly the recorded element
  type, and no set holds two equal members that are known;
* `Value.Unmarked`: no recorded type has an optional mark;
* `Value.Lawful`: names are in ascending order, in recorded types as well as among the entries of
  maps and the attributes of objects, which is how values are built (`Named.ascending_ofList`).

What a conversion works on part way need not be well formed: a collection may record a type with
placeholders which its members have already filled. `Value.Sound` is what remains of
well-formedness: the types of the members conform to the recorded one.
-/

namespace Retype

namespace Value

/-- The values one level below: items, entries or attributes. -/
def members : Value → List Value
  | .sequence _ _ items | .tuple items => items
  | .map _ entries | .object entries => entries.map Prod.snd
  | _ => []

/-- The type that a list, set or map records for its members. -/
def element? : Value → Option Ty
  | .sequence _ element _ | .map element _ => some element
  | _ => none

/-- The types that the value itself records, not those inside it. -/
def recorded : Value → List Ty
  | .null type | .unknown type => [type]
  | .sequence _ element _ | .map element _ => [element]
  | _ => []

/-- The names of entries or attributes. -/
def keys (v : Value) : List String := (v.entries?.getD []).map Prod.fst

/-- The condition holds of the value and of every value inside it. -/
inductive Everywhere (P : Value → Prop) : Value → Prop
  | intro {v : Value} (here : P v) (below : ∀ m ∈ v.members, Everywhere P m) : Everywhere P v

variable {P Q : Value → Prop}

theorem everywhere_iff {v : Value} :
    v.Everywhere P ↔ P v ∧ ∀ m ∈ v.members, m.Everywhere P :=
  ⟨fun ⟨here, below⟩ => ⟨here, below⟩, fun ⟨here, below⟩ => ⟨here, below⟩⟩

theorem Everywhere.here {v : Value} (h : v.Everywhere P) : P v := (everywhere_iff.mp h).1

theorem Everywhere.member {v m : Value} (h : v.Everywhere P) (hm : m ∈ v.members) :
    m.Everywhere P :=
  (everywhere_iff.mp h).2 m hm

theorem Everywhere.mono (hPQ : ∀ v, P v → Q v) {v : Value} (h : v.Everywhere P) :
    v.Everywhere Q := by
  induction h with
  | intro here _ ih => exact .intro (hPQ _ here) ih

theorem Everywhere.and {v : Value} (hP : v.Everywhere P) (hQ : v.Everywhere Q) :
    v.Everywhere fun v => P v ∧ Q v := by
  induction hP with
  | intro here _ ih => exact .intro ⟨here, hQ.here⟩ fun m hm => ih m hm (hQ.member hm)

/-! ### The conditions -/

/-- The members of a collection have the recorded element type. -/
def Uniform (v : Value) : Prop := ∀ e, v.element? = some e → ∀ m ∈ v.members, m.ty = e

/-- Any two known members of a set are different, by the given test. -/
def Distinct (test : Value → Value → Bool) (v : Value) : Prop :=
  ∀ e items, v = .set e items →
    items.Pairwise fun x y => x.isUnknown = false → y.isUnknown = false → test x y = false

/-- In every list, set and map the members have exactly the recorded type, and no set holds two
equal members that are not unknown. -/
def WellFormed (v : Value) : Prop := v.Everywhere fun v => v.Uniform ∧ v.Distinct same

/-- No type recorded in the value has an optional mark. -/
def Unmarked (v : Value) : Prop := v.Everywhere fun v => ∀ t ∈ v.recorded, t.Unmarked

/-- Names are in ascending order, in recorded types and in the value itself. -/
def Lawful (v : Value) : Prop :=
  v.Everywhere fun v => (∀ t ∈ v.recorded, t.Lawful) ∧ v.keys.Pairwise (· < ·)

/-- What holds of a value, from outside, while it is being converted. -/
structure Consistent (v : Value) : Prop where
  /-- The types of the members of a collection conform to the recorded one. -/
  conform : ∀ e, v.element? = some e → ∀ m ∈ v.members, m.ty.Conforms e
  /-- No item of a set is a duplicate of one before it. -/
  distinct : v.Distinct fun x y => y.duplicates x
  plain : ∀ t ∈ v.recorded, t.Plain
  names : v.keys.Pairwise (· < ·)

/-- What holds of a value, through and through, while it is being converted. -/
def Sound (v : Value) : Prop := v.Everywhere Consistent

theorem Sound.member {v m : Value} (h : v.Sound) (hm : m ∈ v.members) : m.Sound :=
  Everywhere.member h hm

/-! ### Deciding the conditions -/

section Decide

variable (P) [DecidablePred P]

mutual

/-- Looks for the condition in the value and in every value inside it. -/
def testEverywhere : Value → Bool
  | .sequence k e items => decide (P (.sequence k e items)) && testItems items
  | .map e entries => decide (P (.map e entries)) && testEntries entries
  | .tuple items => decide (P (.tuple items)) && testItems items
  | .object attributes => decide (P (.object attributes)) && testEntries attributes
  | v => decide (P v)
termination_by structural v => v

/-- Looks for the condition in all the values. -/
def testItems : List Value → Bool
  | [] => true
  | v :: vs => testEverywhere v && testItems vs
termination_by structural vs => vs

/-- Looks for the condition in the values of all the entries. -/
def testEntries : List (String × Value) → Bool
  | [] => true
  | (_, v) :: es => testEverywhere v && testEntries es
termination_by structural es => es

end

theorem testItems_eq_all (vs : List Value) : testItems P vs = vs.all (testEverywhere P) := by
  induction vs with
  | nil => rfl
  | cons v vs ih => simp [testItems, ih]

theorem testEntries_eq_all (es : List (String × Value)) :
    testEntries P es = es.all fun e => testEverywhere P e.2 := by
  induction es with
  | nil => rfl
  | cons e es ih => simp [testEntries, ih]

theorem testEverywhere_iff (v : Value) : testEverywhere P v = true ↔ v.Everywhere P := by
  rw [everywhere_iff]
  induction v with
  | sequence k e items ih | tuple items ih =>
    simp only [testEverywhere, testItems_eq_all, members, Bool.and_eq_true, decide_eq_true_eq,
      List.all_eq_true]
    exact and_congr_right fun _ =>
      forall₂_congr fun v hv => (ih v hv).trans everywhere_iff.symm
  | map e entries ih | object entries ih =>
    simp only [testEverywhere, testEntries_eq_all, members, Bool.and_eq_true, decide_eq_true_eq,
      List.all_eq_true, List.forall_mem_map]
    exact and_congr_right fun _ =>
      forall₂_congr fun x hx => (ih x hx).trans everywhere_iff.symm
  | _ => simp [testEverywhere, members]

instance (v : Value) : Decidable (v.Everywhere P) := decidable_of_iff _ (testEverywhere_iff P v)

end Decide

instance (v : Value) : Decidable v.Uniform :=
  decidable_of_iff (∀ e ∈ v.element?, ∀ m ∈ v.members, m.ty = e) Iff.rfl

instance (test : Value → Value → Bool) : (v : Value) → Decidable (v.Distinct test)
  | .set e items =>
    decidable_of_iff (items.Pairwise fun x y =>
        x.isUnknown = false → y.isUnknown = false → test x y = false)
      ⟨fun h d ys heq => by cases heq; exact h, fun h => h e items rfl⟩
  | .list _ _ | .null _ | .unknown _ | .string _ | .number _ | .bool _ | .map _ _ | .tuple _
  | .object _ | .capsule _ _ => isTrue fun _ _ heq => by cases heq

instance (v : Value) : Decidable v.WellFormed :=
  inferInstanceAs (Decidable (v.Everywhere fun v => v.Uniform ∧ v.Distinct same))

instance (v : Value) : Decidable v.Unmarked :=
  inferInstanceAs (Decidable (v.Everywhere fun v => ∀ t ∈ v.recorded, t.Unmarked))

instance (v : Value) : Decidable v.Lawful :=
  inferInstanceAs (Decidable (v.Everywhere fun v =>
    (∀ t ∈ v.recorded, t.Lawful) ∧ v.keys.Pairwise (· < ·)))

/-! ### Sets are built without duplicates -/

theorem mem_of_mem_dedupFrom {seen items : List Value} {x : Value}
    (h : x ∈ dedupFrom seen items) : x ∈ items := by
  induction items generalizing seen with
  | nil => cases h
  | cons y items ih =>
    rw [dedupFrom] at h
    split at h
    · rcases List.mem_cons.mp h with rfl | h
      · exact List.mem_cons_self
      · exact List.mem_cons_of_mem _ (ih h)
    · split at h
      · exact List.mem_cons_of_mem _ (ih h)
      · rcases List.mem_cons.mp h with rfl | h
        · exact List.mem_cons_self
        · exact List.mem_cons_of_mem _ (ih h)

/-- A known item is kept only if it is no duplicate of what was seen. -/
theorem duplicates_of_mem_dedupFrom {seen items : List Value} {x y : Value}
    (h : x ∈ dedupFrom seen items) (known : x.isUnknown = false) (hy : y ∈ seen) :
    x.duplicates y = false := by
  induction items generalizing seen with
  | nil => cases h
  | cons z items ih =>
    rw [dedupFrom] at h
    split at h
    · rename_i hunknown
      rcases List.mem_cons.mp h with rfl | h
      · rw [known] at hunknown
        cases hunknown
      · exact ih h hy
    · split at h
      · exact ih h hy
      · rename_i hnew
        rcases List.mem_cons.mp h with rfl | h
        · simpa using fun hdup => hnew (List.any_eq_true.mpr ⟨y, hy, hdup⟩)
        · exact ih h (List.mem_cons_of_mem _ hy)

theorem pairwise_dedupFrom (seen items : List Value) :
    (dedupFrom seen items).Pairwise fun x y =>
      x.isUnknown = false → y.isUnknown = false → y.duplicates x = false := by
  induction items generalizing seen with
  | nil => exact .nil
  | cons x items ih =>
    rw [dedupFrom]
    split
    · rename_i hunknown
      refine .cons (fun y _ known => ?_) (ih seen)
      rw [hunknown] at known
      cases known
    · split
      · exact ih seen
      · exact .cons (fun y hy _ known => duplicates_of_mem_dedupFrom hy known List.mem_cons_self)
          (ih (x :: seen))

end Value

end Retype
