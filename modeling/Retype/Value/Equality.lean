import Retype.Value.Basic

/-!
# Equality of values

`Value.same` compares values by what they mean: numbers by their numeric value, and sets without
regard to the order of their items (the same element type, the same number of items, and each
item of either set occurs in the other). A capsule equals only the capsule that holds the same
content.

Hashing looks at a value through a flat code, `Value.feed`: a number is coded by the digits of its
plain text, and the codes of the items of a set are put together in a way that is left open.
`Value.hashed` adds up their digests, as a hasher does. `Value.fingerprint` takes them in ascending
order: equal values agree on it as long as no set in them repeats an item, and duplicates are
looked for among values with the same fingerprint.
-/

namespace Retype

namespace Value

mutual

/-- Whether two values mean the same. -/
def same : Value → Value → Bool
  | .null s, .null t => s == t
  | .unknown s, .unknown t => s == t
  | .string a, .string b => a == b
  | .number a, .number b => a.same b
  | .bool a, .bool b => a == b
  | .sequence .list d xs, .sequence .list e ys => d == e && sameAll xs ys
  | .sequence .set d xs, .sequence .set e ys =>
    d == e && xs.length == ys.length && allFoundIn xs ys && ys.all fun y => someSame xs y
  | .map d xs, .map e ys => d == e && sameEntries xs ys
  | .tuple xs, .tuple ys => sameAll xs ys
  | .object xs, .object ys => sameEntries xs ys
  | .capsule m i, .capsule n j => m == n && i == j
  | _, _ => false
termination_by structural v => v

/-- Whether two lists agree position by position. -/
def sameAll : List Value → List Value → Bool
  | [], [] => true
  | x :: xs, y :: ys => same x y && sameAll xs ys
  | _, _ => false
termination_by structural v => v

/-- Whether two lists of entries agree in names and values. -/
def sameEntries : List (String × Value) → List (String × Value) → Bool
  | [], [] => true
  | (m, x) :: xs, (n, y) :: ys => m == n && same x y && sameEntries xs ys
  | _, _ => false
termination_by structural v => v

/-- Whether each of the first values has an equal among the second. -/
def allFoundIn : List Value → List Value → Bool
  | [], _ => true
  | x :: xs, ys => (ys.any fun y => same x y) && allFoundIn xs ys
termination_by structural vs => vs

/-- Whether one of the values equals the given one. -/
def someSame : List Value → Value → Bool
  | [], _ => false
  | x :: xs, y => same x y || someSame xs y
termination_by structural vs => vs

end

/-- Looking for equals of each is a quantifier over both lists. -/
theorem allFoundIn_eq (xs ys : List Value) :
    allFoundIn xs ys = xs.all fun x => ys.any fun y => same x y := by
  induction xs with
  | nil => rfl
  | cons x xs ih => simp [allFoundIn, ih]

/-- Looking for an equal is a quantifier over the list. -/
theorem someSame_eq (xs : List Value) (y : Value) : someSame xs y = xs.any (same · y) := by
  induction xs with
  | nil => rfl
  | cons x xs ih => simp [someSame, ih]

end Value

/-! ### Fingerprints -/

/-- A text as its length and its code points. -/
def Text.code (text : String) : List Nat := text.length :: text.toList.map Char.toNat

namespace Ty

mutual

/-- A flat code of a type, different for different types. -/
def code : Ty → List Nat
  | .primitive .string => [0]
  | .primitive .number => [1]
  | .primitive .bool => [2]
  | .sequence .list element => 3 :: code element
  | .sequence .set element => 4 :: code element
  | .map element => 5 :: code element
  | .tuple elements => 6 :: elements.length :: codeAll elements
  | .object attributes => 7 :: attributes.length :: codeAttributes attributes
  | .capsule name => 8 :: Text.code name
  | .dynamic => [9]

/-- The codes of types, one after the other. -/
def codeAll : List Ty → List Nat
  | [] => []
  | t :: ts => code t ++ codeAll ts

/-- The codes of attributes, one after the other. -/
def codeAttributes : List (Attribute Ty) → List Nat
  | [] => []
  | ⟨name, optional, t⟩ :: as => Text.code name ++ optional.toNat :: code t ++ codeAttributes as

end

end Ty

/-- The sign and the digits of the plain text of a number, its point left out: the digits of the
normal form and the number of zeros behind them. -/
def Decimal.code (d : Decimal) : List Nat :=
  let n := d.normalize
  [if n.digits < 0 then 1 else 0, n.digits.natAbs, (-n.scale).toNat]

namespace Value

mutual

/-- A flat code of a value; `combine` puts together the codes of the items of a set. -/
def feed (combine : List (List Nat) → List Nat) : Value → List Nat
  | .null type => 0 :: type.code
  | .unknown type => 1 :: type.code
  | .string text => 2 :: Text.code text
  | .number value => 3 :: value.code
  | .bool value => [4, value.toNat]
  | .sequence .list element items =>
    5 :: element.code ++ items.length :: (feeds combine items).flatten
  | .sequence .set element items =>
    6 :: element.code ++ items.length :: combine (feeds combine items)
  | .map element entries =>
    7 :: element.code ++ entries.length :: (feedEntries combine entries).flatten
  | .tuple items => 8 :: items.length :: (feeds combine items).flatten
  | .object attributes => 9 :: attributes.length :: (feedEntries combine attributes).flatten
  | .capsule name content => 10 :: Text.code name ++ [content]

/-- The code of each value. -/
def feeds (combine : List (List Nat) → List Nat) : List Value → List (List Nat)
  | [] => []
  | v :: vs => feed combine v :: feeds combine vs

/-- The code of each entry. -/
def feedEntries (combine : List (List Nat) → List Nat) :
    List (String × Value) → List (List Nat)
  | [] => []
  | (name, v) :: es => (Text.code name ++ feed combine v) :: feedEntries combine es

end

/-- The codes of values are taken one by one. -/
theorem feeds_eq_map {combine : List (List Nat) → List Nat} (vs : List Value) :
    feeds combine vs = vs.map (feed combine) := by
  induction vs with
  | nil => rfl
  | cons v vs ih => rw [feeds, ih, List.map_cons]

/-- The codes of entries are taken one by one. -/
theorem feedEntries_eq_map {combine : List (List Nat) → List Nat} (es : List (String × Value)) :
    feedEntries combine es = es.map fun e => Text.code e.1 ++ feed combine e.2 := by
  induction es with
  | nil => rfl
  | cons e es ih => rw [feedEntries, ih, List.map_cons]

/-- What a hasher is fed with: in place of the items of a set, the sum of the digests of what it
would be fed with for each of them. -/
def hashed (digest : List Nat → UInt64) (v : Value) : List Nat :=
  v.feed fun codes => [(codes.foldl (fun total code => total + digest code) 0).toNat]

/-- The codes in ascending order, one after the other. -/
def ascending (codes : List (List Nat)) : List Nat :=
  (codes.mergeSort fun a b => !b.lex a).flatten

/-- The code that takes the items of a set in ascending order of their codes. -/
def fingerprint (v : Value) : List Nat := v.feed ascending

end Value

end Retype
