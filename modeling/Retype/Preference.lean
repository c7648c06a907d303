import Retype.Ty.Structure

/-!
# Preference among types

Where types of different kinds meet, the common type is one of them, and the most general comes
first: text before the other primitives, lists before sets and sets before tuples, maps before
objects, and the placeholder last. `Preference.compare` says which of two types is more general;
parts of a structure have to agree, or neither is.

`Preference.order` sorts positions so that a more general type stands before a less general one.
It places, again and again, the earliest type with no more general one left to place, counting
for each type how many of those are left. The relation need not be transitive and may have
cycles; what a cycle holds back is appended in the order given.
-/

namespace Retype.Preference

/-- Text is the most general of the primitives; the others are not comparable. -/
def comparePrimitive (p q : Primitive) : Ordering :=
  if p = q then .eq
  else if p = .string then .lt
  else if q = .string then .gt
  else .eq

/-- Parts that all lean to one side, or to none, decide; parts that disagree do not. -/
def unanimous (parts : List Ordering) : Ordering :=
  if parts.contains .lt then if parts.contains .gt then .eq else .lt
  else if parts.contains .gt then .gt else .eq

mutual

/-- `lt` if the first type is more general than the second, `gt` if it is less general, and `eq`
if neither can be said. -/
def compare : Ty → Ty → Ordering
  | .dynamic, .dynamic => .eq
  | .dynamic, _ => .gt
  | _, .dynamic => .lt
  | .primitive p, .primitive q => comparePrimitive p q
  | .sequence .list s, .sequence .list t => compare s t
  | .sequence .set s, .sequence .set t => compare s t
  | .sequence .list _, .sequence .set _ => .lt
  | .sequence .set _, .sequence .list _ => .gt
  | .sequence _ _, .tuple _ => .lt
  | .tuple _, .sequence _ _ => .gt
  | .map s, .map t => compare s t
  | .map _, .object _ => .lt
  | .object _, .map _ => .gt
  | .tuple ss, .tuple ts => if ss.length = ts.length then unanimous (compareAll ss ts) else .eq
  | .object as, .object bs =>
    if Named.names as = Named.names bs then unanimous (compareAttributes as bs) else .eq
  | _, _ => .eq

/-- The comparisons of types position by position. -/
def compareAll : List Ty → List Ty → List Ordering
  | s :: ss, t :: ts => compare s t :: compareAll ss ts
  | _, _ => []

/-- The comparisons of attributes position by position. -/
def compareAttributes : List (Attribute Ty) → List (Attribute Ty) → List Ordering
  | ⟨_, _, s⟩ :: as, ⟨_, _, t⟩ :: bs => compare s t :: compareAttributes as bs
  | _, _ => []

end

/-- Whether the type at position `i` is more general than the one at position `j`. -/
def precedes (types : List Ty) (i j : Nat) : Bool :=
  match types[i]?, types[j]? with
  | some s, some t => i != j && compare s t == .lt
  | _, _ => false

/-- A sort in progress: the positions placed so far, and for each position the number of more
general types that are still to be placed. -/
structure Sorting where
  placed : List Nat
  degrees : List Int

/-- Nothing is placed yet. -/
def Sorting.start (types : List Ty) : Sorting where
  placed := []
  degrees := (List.range types.length).map fun j =>
    ((List.range types.length).countP fun i => precedes types i j : Nat)

/-- The earliest position still to be placed with nothing more general left. -/
def Sorting.next? (s : Sorting) : Option Nat :=
  (List.range s.degrees.length).find? fun i => !s.placed.contains i && s.degrees[i]? == some 0

/-- Places a position; the types less general than it have one less to wait for. -/
def Sorting.place (types : List Ty) (s : Sorting) (next : Nat) : Sorting where
  placed := s.placed ++ [next]
  degrees := s.degrees.mapIdx fun j degree => if precedes types next j then degree - 1 else degree

/-- Places positions one after the other, at most `steps` of them. -/
def Sorting.run (types : List Ty) : Nat → Sorting → Sorting
  | 0, s => s
  | steps + 1, s =>
    match s.next? with
    | some next => run types steps (s.place types next)
    | none => s

/-- The positions of the types, more general types first. -/
def order (types : List Ty) : List Nat :=
  let placed := (Sorting.run types types.length (.start types)).placed
  placed ++ (List.range types.length).filter fun i => !placed.contains i

/-- The types themselves in that order. -/
def sorted (types : List Ty) : List Ty := (order types).filterMap (types[·]?)

end Retype.Preference
