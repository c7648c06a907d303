/-!
# Records kept by name

Attributes of an object type, attributes of an object value and entries of a map are all lists
of records that carry a name. They are kept in ascending order of their names (code point by
code point), each name once. `Named.insert` puts a record into its place and `Named.ofList`
builds such a list from records in any order, a later record of a name taking the place of an
earlier one.
-/

namespace Retype

/-- Records that carry a name. -/
class Named (α : Type) where
  /-- The name of a record. -/
  name : α → String

instance {β : Type} : Named (String × β) := ⟨Prod.fst⟩

namespace Named

variable {α : Type} [Named α]

/-- The names of a list of records, in the order of the list. -/
def names (records : List α) : List String := records.map name

/-- The first record of the given name. -/
def find? (key : String) (records : List α) : Option α := records.find? fun a => name a == key

/-- Whether some record has the given name. -/
def contains (key : String) (records : List α) : Bool := records.any fun a => name a == key

/-- Puts a record in front of the first later name; a record of the same name gives way. -/
def insert (a : α) : List α → List α
  | [] => [a]
  | b :: rest =>
    if name a < name b then a :: b :: rest
    else if name a = name b then a :: rest
    else b :: insert a rest

/-- The records in ascending order of their names, the last record of each name. -/
def ofList (records : List α) : List α := records.foldl (fun kept a => insert a kept) []

/-- Names are strictly ascending, so no name occurs twice. -/
def Ascending (records : List α) : Prop := (names records).Pairwise (· < ·)

@[simp] theorem names_nil : names ([] : List α) = [] := rfl

@[simp] theorem names_cons (a : α) (records : List α) :
    names (a :: records) = name a :: names records := rfl

@[simp] theorem name_pair {β : Type} (key : String) (b : β) : name (key, b) = key := rfl

/-- Asking for a name finds a record exactly when the name occurs. -/
theorem isSome_find? (key : String) (records : List α) :
    (find? key records).isSome = contains key records := by
  rw [Bool.eq_iff_iff]
  simp [find?, contains]

/-- A record that is found is a member and has the name asked for. -/
theorem mem_of_find? {key : String} {records : List α} {a : α} (h : find? key records = some a) :
    a ∈ records ∧ name a = key :=
  ⟨List.mem_of_find?_eq_some h, by simpa using List.find?_some h⟩

/-- Inserting a record adds its name and keeps the others. -/
theorem mem_names_insert {a : α} {records : List α} {key : String} :
    key ∈ names (insert a records) ↔ key = name a ∨ key ∈ names records := by
  induction records with
  | nil => simp [insert]
  | cons b rest ih =>
    unfold insert
    split
    · simp
    · split
      · simp_all
      · simp only [names_cons, List.mem_cons, ih]
        exact or_left_comm

/-- Inserting a record keeps the names in ascending order. -/
theorem ascending_insert {a : α} {records : List α} (h : Ascending records) :
    Ascending (insert a records) := by
  induction records with
  | nil => simp [insert, Ascending]
  | cons b rest ih =>
    obtain ⟨least, tail⟩ := List.pairwise_cons.1 h
    unfold insert
    split
    · rename_i lt
      refine List.pairwise_cons.2 ⟨fun key hk => ?_, h⟩
      rcases List.mem_cons.1 hk with rfl | hk
      · exact lt
      · exact String.lt_trans lt (least key hk)
    · split
      · rename_i eq
        exact List.pairwise_cons.2 ⟨fun key hk => eq ▸ least key hk, tail⟩
      · rename_i nlt ne
        refine List.pairwise_cons.2 ⟨fun key hk => ?_, ih tail⟩
        rcases mem_names_insert.1 hk with rfl | hk
        · exact String.not_le.1 fun le => ne (String.le_antisymm le (String.not_lt.1 nlt))
        · exact least key hk

/-- A list built from records in any order is in ascending order. -/
theorem ascending_ofList (records : List α) : Ascending (ofList records) := by
  suffices h : ∀ kept : List α, Ascending kept →
      Ascending (records.foldl (fun kept a => insert a kept) kept) from h [] List.Pairwise.nil
  induction records with
  | nil => exact fun kept h => h
  | cons a rest ih => exact fun kept h => ih (insert a kept) (ascending_insert h)

end Named

end Retype
