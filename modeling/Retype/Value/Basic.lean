import Retype.Decimal.Basic
import Retype.Ty.Structure

/-!
# Typed values

A value belongs to exactly one type, `Value.ty`. Besides data there are two values of every type:
the null, for data that is absent, and the unknown, for data that is not there yet. Lists, sets
and maps record the type of their elements, so that empty ones have a type as well; a set keeps
its items in the order in which they were first seen.

Entries of a map and attributes of an object are kept in ascending order of their names.
-/

namespace Retype

/-- Values of structural types. -/
inductive Value where
  /-- Absent data of some type. -/
  | null (type : Ty)
  /-- Data of some type that is not known yet. -/
  | unknown (type : Ty)
  /-- Text. -/
  | string (text : String)
  /-- A number. -/
  | number (value : Decimal)
  /-- A truth value. -/
  | bool (value : Bool)
  /-- A list or a set. -/
  | sequence (kind : SequenceKind) (element : Ty) (items : List Value)
  /-- A map. -/
  | map (element : Ty) (entries : List (String × Value))
  /-- A tuple. -/
  | tuple (items : List Value)
  /-- An object. -/
  | object (attributes : List (String × Value))
  /-- A capsule: the name of its type and the identity of what it holds. -/
  | capsule (name : String) (content : Nat)

namespace Value

/-- The list with a given element type. -/
@[match_pattern] abbrev list (element : Ty) (items : List Value) : Value :=
  .sequence .list element items

/-- The set with a given element type. -/
@[match_pattern] abbrev set (element : Ty) (items : List Value) : Value :=
  .sequence .set element items

/-- Induction over values: items, entries and attributes are smaller. -/
@[elab_as_elim, induction_eliminator]
theorem induction {motive : Value → Prop}
    (null : ∀ type, motive (.null type))
    (unknown : ∀ type, motive (.unknown type))
    (string : ∀ text, motive (.string text))
    (number : ∀ value, motive (.number value))
    (bool : ∀ value, motive (.bool value))
    (sequence : ∀ kind element items, (∀ v ∈ items, motive v) →
      motive (.sequence kind element items))
    (map : ∀ element entries, (∀ e ∈ entries, motive e.2) → motive (.map element entries))
    (tuple : ∀ items, (∀ v ∈ items, motive v) → motive (.tuple items))
    (object : ∀ attributes, (∀ a ∈ attributes, motive a.2) → motive (.object attributes))
    (capsule : ∀ name content, motive (.capsule name content)) (v : Value) : motive v :=
  @Value.rec motive (fun vs => ∀ v ∈ vs, motive v) (fun es => ∀ e ∈ es, motive e.2)
    (fun e => motive e.2) null unknown string number bool sequence map tuple object capsule
    (by simp) (fun _ _ head tail => List.forall_mem_cons.2 ⟨head, tail⟩)
    (by simp) (fun _ _ head tail => List.forall_mem_cons.2 ⟨head, tail⟩)
    (fun _ _ value => value) v

/-! ### The type of a value -/

mutual

/-- The type of a value. -/
def ty : Value → Ty
  | .null type | .unknown type => type
  | .string _ => .string
  | .number _ => .number
  | .bool _ => .bool
  | .sequence kind element _ => .sequence kind element
  | .map element _ => .map element
  | .tuple items => .tuple (tyAll items)
  | .object attributes => .object (tyAttributes attributes)
  | .capsule name _ => .capsule name

/-- The type of each value. -/
def tyAll : List Value → List Ty
  | [] => []
  | v :: vs => ty v :: tyAll vs

/-- The attributes that the values of an object have; none is optional. -/
def tyAttributes : List (String × Value) → List (Attribute Ty)
  | [] => []
  | (name, v) :: attributes => ⟨name, false, ty v⟩ :: tyAttributes attributes

end

/-- The types of values are taken one by one. -/
theorem tyAll_eq_map (vs : List Value) : tyAll vs = vs.map ty := by
  induction vs with
  | nil => rfl
  | cons v vs ih => simp [tyAll, ih]

/-- The attributes of an object's type are those of its values. -/
theorem tyAttributes_eq_map (as : List (String × Value)) :
    tyAttributes as = as.map fun a => ⟨a.1, false, a.2.ty⟩ := by
  induction as with
  | nil => rfl
  | cons a as ih => simp [tyAttributes, ih]

/-! ### Looking into a value -/

/-- Whether the value is a null. -/
def isNull : Value → Bool
  | .null _ => true
  | _ => false

/-- Whether the value is an unknown. -/
def isUnknown : Value → Bool
  | .unknown _ => true
  | _ => false

/-- Whether the value has data of its own. -/
def isConcrete (v : Value) : Bool := !v.isNull && !v.isUnknown

/-- The text of a text. -/
def text? : Value → Option String
  | .string text => some text
  | _ => none

/-- The number of a number. -/
def number? : Value → Option Decimal
  | .number value => some value
  | _ => none

/-- The truth value of a truth value. -/
def bool? : Value → Option Bool
  | .bool value => some value
  | _ => none

/-- The items of a list, set or tuple. -/
def items? : Value → Option (List Value)
  | .sequence _ _ items | .tuple items => some items
  | _ => none

/-- The entries of a map or the attributes of an object. -/
def entries? : Value → Option (List (String × Value))
  | .map _ entries | .object entries => some entries
  | _ => none

/-- The value of an attribute of an object. -/
def attribute? (name : String) : Value → Option Value
  | .object attributes => (Named.find? name attributes).map Prod.snd
  | _ => none

/-- The item of a list, set or tuple at a position. -/
def item? (position : Nat) (v : Value) : Option Value := v.items?.bind (·[position]?)

end Value

end Retype
