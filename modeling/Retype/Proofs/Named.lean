import Mathlib.Data.List.Nodup
import Mathlib.Data.List.Sort
import Retype.Named

/-!
# Looking up names

In a list of records with ascending names each name occurs once, so a record is found under its
own name (`find?_of_mem`), and in two lists of the same names the records of one name stand
at the same position (`getElem?_of_find?`). Lists that have each other's names have the same names
(`names_eq_of_contains`), and what is collected from one list is collected from another with all
its names (`flatMap_eq_of_names`).

`Named.ofList` keeps only records that it was given (`mem_of_mem_ofList`), and a list that is in
order already as it is (`ofList_eq_self`).
-/

namespace Retype.Named

variable {α β : Type} [Named α] [Named β]

theorem Ascending.nodup {l : List α} (h : Ascending l) : (names l).Nodup :=
  List.Pairwise.imp (fun hlt heq => by subst heq; exact String.lt_irrefl _ hlt) h

/-- A record is found under its name. -/
theorem find?_of_mem {l : List α} {a : α} (hl : Ascending l) (ha : a ∈ l) :
    find? (name a) l = some a := by
  have hsome : (find? (name a) l).isSome = true := by
    rw [isSome_find?]
    simpa [contains] using ⟨a, ha, rfl⟩
  obtain ⟨b, hb⟩ := Option.isSome_iff_exists.mp hsome
  obtain ⟨hbl, hname⟩ := mem_of_find? hb
  rw [hb, List.inj_on_of_nodup_map hl.nodup hbl ha hname]

theorem find?_of_getElem? {l : List α} {i : Nat} {a : α} (hl : Ascending l)
    (ha : l[i]? = some a) : find? (name a) l = some a :=
  find?_of_mem hl (List.mem_of_getElem? ha)

/-- Nothing in an ordered list that passes a test comes before what the search finds. -/
theorem not_rel_of_find? {γ : Type} {R : γ → γ → Prop} {l : List γ} {p : γ → Bool} {a b : γ}
    (asymm : ∀ {x y}, R x y → ¬R y x) (hl : l.Pairwise R) (ha : l.find? p = some a) (hb : b ∈ l)
    (hp : p b = true) : ¬R b a := by
  obtain ⟨-, front, back, rfl, hfront⟩ := List.find?_eq_some_iff_append.mp ha
  rcases List.mem_append.mp hb with hb | hb
  · exact absurd hp (by simpa using hfront b hb)
  · rcases List.mem_cons.mp hb with rfl | hb
    · exact fun h => asymm h h
    · exact asymm ((List.pairwise_cons.mp (List.pairwise_append.mp hl).2.1).1 b hb)

/-- Of the records that pass a test, the one that is found has the smallest name. -/
theorem not_lt_of_find? {l : List α} {p : α → Bool} {a b : α} (hl : Ascending l)
    (ha : l.find? p = some a) (hb : b ∈ l) (hp : p b = true) : ¬name b < name a :=
  not_rel_of_find? (R := fun a b => name a < name b) String.lt_asymm (List.pairwise_map.mp hl) ha hb
    hp

/-- Lists of the same names have records of the same name at each position. -/
theorem exists_getElem? {l : List α} {m : List β} {i : Nat} {b : β} (hnames : names l = names m)
    (hb : m[i]? = some b) : ∃ a, l[i]? = some a ∧ name a = name b := by
  have hi : (names l)[i]? = some (name b) := by
    rw [hnames, names, List.getElem?_map, hb]
    rfl
  rw [names, List.getElem?_map] at hi
  exact Option.map_eq_some_iff.mp hi

theorem name_eq_of_names {l : List α} {m : List β} {i : Nat} {a : α} {b : β}
    (hnames : names l = names m) (ha : l[i]? = some a) (hb : m[i]? = some b) : name a = name b := by
  obtain ⟨a', ha', hname⟩ := exists_getElem? hnames hb
  rwa [Option.some.inj (ha.symm.trans ha')]

theorem length_eq_of_names {l : List α} {m : List β} (hnames : names l = names m) :
    l.length = m.length := by
  simpa [names] using congrArg List.length hnames

/-- Entries with new values keep their names. -/
theorem names_zip {γ δ : Type} {entries : List (String × γ)} {ys : List δ}
    (hlen : entries.length = ys.length) :
    names ((entries.map Prod.fst).zip ys) = names entries :=
  List.map_fst_zip (by simp [hlen])

theorem exists_find?_getElem? {l : List α} {m : List β} {i : Nat} {b : β} (hl : Ascending l)
    (hnames : names l = names m) (hb : m[i]? = some b) :
    ∃ a, l[i]? = some a ∧ find? (name b) l = some a := by
  obtain ⟨a, ha, hname⟩ := exists_getElem? hnames hb
  exact ⟨a, ha, hname ▸ find?_of_getElem? hl ha⟩

/-- The name at a position of one list leads to the record at that position of the other. -/
theorem find?_of_names {l : List α} {m : List β} {i : Nat} {a : α} {b : β} (hl : Ascending l)
    (hnames : names l = names m) (ha : l[i]? = some a) (hb : m[i]? = some b) :
    find? (name a) m = some b := by
  have hm : Ascending m := by rwa [Ascending, ← hnames]
  rw [name_eq_of_names hnames ha hb]
  exact find?_of_getElem? hm hb

/-- What is found under the name at a position of one list stands there in the other. -/
theorem getElem?_of_find? {l : List α} {m : List β} {i : Nat} {a : α} {b : β} (hl : Ascending l)
    (hnames : names l = names m) (hb : m[i]? = some b) (hf : find? (name b) l = some a) :
    l[i]? = some a := by
  obtain ⟨a', ha', hfind⟩ := exists_find?_getElem? hl hnames hb
  rw [ha', ← hfind, hf]

/-- What holds of the records at each position of two lists of the same names holds of the records
of each name. -/
theorem rel_of_find? {R : α → β → Prop} {l : List α} {m : List β} (hm : Ascending m)
    (hnames : names l = names m) (each : ∀ (i : Nat) a b, l[i]? = some a → m[i]? = some b → R a b)
    {key : String} {a : α} {b : β} (ha : find? key l = some a) (hb : find? key m = some b) :
    R a b := by
  obtain ⟨hmem, rfl⟩ := mem_of_find? ha
  obtain ⟨i, hi⟩ := List.getElem?_of_mem hmem
  exact each i a b hi (getElem?_of_find? hm hnames.symm hi hb)

/-- What holds of the records at each position of two lists of the same names holds of each. -/
theorem forall_mem_of_names {l : List α} {m : List β} {Q : α → Prop} (hnames : names l = names m)
    (heach : ∀ (i : Nat) b a, m[i]? = some b → l[i]? = some a → Q a) : ∀ a ∈ l, Q a := by
  intro a ha
  obtain ⟨i, ha⟩ := List.getElem?_of_mem ha
  obtain ⟨b, hb, -⟩ := exists_getElem? hnames.symm ha
  exact heach i b a hb ha

/-- A name is found in a list exactly when it is found in another of the same names. -/
theorem exists_find? {l : List α} {m : List β} {key : String} {b : β} (hnames : names l = names m)
    (hb : find? key m = some b) : ∃ a, find? key l = some a := by
  obtain ⟨hmem, hkey⟩ := mem_of_find? hb
  obtain ⟨i, hi⟩ := List.getElem?_of_mem hmem
  obtain ⟨a, ha, hname⟩ := exists_getElem? hnames hi
  rw [← Option.isSome_iff_exists, isSome_find?, contains, List.any_eq_true]
  exact ⟨a, List.mem_of_getElem? ha, by simp [hname, hkey]⟩

theorem contains_iff {key : String} {l : List α} : contains key l = true ↔ key ∈ names l := by
  simp [contains, names]

/-- A name that one of two lists of the same names does not have, the other does not have. -/
theorem find?_eq_none_of_names {l : List α} {m : List β} {key : String} (hnames : names l = names m)
    (h : find? key m = none) : find? key l = none := by
  by_contra hsome
  obtain ⟨a, ha⟩ := Option.ne_none_iff_exists'.mp hsome
  obtain ⟨b, hb⟩ := exists_find? hnames.symm ha
  rw [h] at hb
  cases hb

/-- What is a name of everything in a list is one of everything in a list of the same names. -/
theorem contains_of_names {γ : Type} [Named γ] {l : List α} {m : List β} {known : List γ}
    (hnames : names l = names m) (h : ∀ a ∈ l, contains (name a) known = true) :
    ∀ b ∈ m, contains (name b) known = true := by
  intro b hb
  have hmem : name b ∈ names l := hnames ▸ List.mem_map_of_mem hb
  obtain ⟨a, ha, hname⟩ := List.mem_map.mp hmem
  exact hname ▸ h a ha

theorem flatMap_filter_of_nil {γ δ : Type} {l : List γ} {p : γ → Bool} {f : γ → List δ}
    (h : ∀ a ∈ l, p a = false → f a = []) : (l.filter p).flatMap f = l.flatMap f := by
  induction l with
  | nil => rfl
  | cons a l ih =>
    have hrest := ih fun b hb => h b (List.mem_cons_of_mem a hb)
    cases hp : p a with
    | true => rw [List.filter_cons_of_pos hp, List.flatMap_cons, List.flatMap_cons, hrest]
    | false =>
      rw [List.filter_cons_of_neg (by simp [hp]), List.flatMap_cons, h a List.mem_cons_self hp,
        hrest, List.nil_append]

/-- Ascending lists that have each other's names have the same names. -/
theorem names_eq_of_contains {l : List α} {m : List β} (hl : Ascending l) (hm : Ascending m)
    (hlm : ∀ a ∈ l, contains (name a) m = true) (hml : ∀ b ∈ m, contains (name b) l = true) :
    names l = names m := by
  refine List.Subset.antisymm_of_pairwise hl hm (fun key hkey => ?_) fun key hkey => ?_
  · obtain ⟨a, ha, rfl⟩ := List.mem_map.mp hkey
    exact contains_iff.mp (hlm a ha)
  · obtain ⟨b, hb, rfl⟩ := List.mem_map.mp hkey
    exact contains_iff.mp (hml b hb)

/-- What is collected from the records of one list is collected from those of another that has all
its names and gives nothing for any other name. -/
theorem flatMap_eq_of_names {γ : Type} {l : List α} {m : List β} {f : α → List γ} {g : β → List γ}
    (hl : Ascending l) (hm : Ascending m) (known : ∀ a ∈ l, contains (name a) m = true)
    (found : ∀ b ∈ m, ∀ a, find? (name b) l = some a → g b = f a)
    (missing : ∀ b ∈ m, find? (name b) l = none → g b = []) : m.flatMap g = l.flatMap f := by
  let gather (key : String) : List γ := (find? key l).elim [] f
  have hnames : (names m).filter (contains · l) = names l := by
    refine List.Subset.antisymm_of_pairwise (hm.filter _) hl (fun key hkey => ?_) fun key hkey => ?_
    · exact contains_iff.mp (List.mem_filter.mp hkey).2
    · obtain ⟨a, ha, rfl⟩ := List.mem_map.mp hkey
      exact List.mem_filter.mpr ⟨contains_iff.mp (known a ha), contains_iff.mpr hkey⟩
  calc m.flatMap g = (names m).flatMap gather := by
        rw [names, List.flatMap_map]
        refine List.flatMap_congr fun b hb => ?_
        cases ha : find? (name b) l with
        | none => simp only [gather, ha, Option.elim, missing b hb ha]
        | some a => simp only [gather, ha, Option.elim, found b hb a ha]
    _ = ((names m).filter (contains · l)).flatMap gather := by
        rw [← flatMap_filter_of_nil fun key _ hkey => ?_]
        rw [← isSome_find?, Option.isSome_eq_false_iff, Option.isNone_iff_eq_none] at hkey
        simp only [gather, hkey, Option.elim]
    _ = (names l).flatMap gather := by rw [hnames]
    _ = l.flatMap f := by
        rw [names, List.flatMap_map]
        exact List.flatMap_congr fun a ha => by simp only [gather, find?_of_mem hl ha, Option.elim]

/-! ### Putting records in order -/

theorem mem_of_mem_insert {a b : α} {l : List α} (h : b ∈ insert a l) : b = a ∨ b ∈ l := by
  induction l with
  | nil => exact .inl (List.mem_singleton.mp h)
  | cons c rest ih =>
    unfold insert at h
    split at h
    · exact List.mem_cons.mp h
    · split at h
      · exact (List.mem_cons.mp h).imp_right (List.mem_cons_of_mem c)
      · rcases List.mem_cons.mp h with rfl | h
        · exact .inr List.mem_cons_self
        · exact (ih h).imp_right (List.mem_cons_of_mem c)

theorem mem_of_mem_ofList {a : α} {l : List α} (h : a ∈ ofList l) : a ∈ l := by
  suffices hall : ∀ kept : List α, a ∈ l.foldl (fun kept a => insert a kept) kept →
      a ∈ kept ∨ a ∈ l from (hall [] h).resolve_left List.not_mem_nil
  clear h
  induction l with
  | nil => exact fun kept h => .inl h
  | cons b rest ih =>
    intro kept h
    rcases ih (insert b kept) h with h | h
    · rcases mem_of_mem_insert h with rfl | h
      · exact .inr List.mem_cons_self
      · exact .inl h
    · exact .inr (List.mem_cons_of_mem b h)

/-- A record whose name comes after all others goes to the end. -/
theorem insert_eq_append {a : α} {l : List α} (h : ∀ b ∈ l, name b < name a) :
    insert a l = l ++ [a] := by
  induction l with
  | nil => rfl
  | cons b rest ih =>
    have hb := h b List.mem_cons_self
    have hne : name a ≠ name b := fun heq => String.lt_irrefl _ (heq ▸ hb)
    rw [insert, if_neg (String.lt_asymm hb), if_neg hne,
      ih fun c hc => h c (List.mem_cons_of_mem b hc), List.cons_append]

/-- Records in ascending order stay as they are. -/
theorem ofList_eq_self {l : List α} (h : Ascending l) : ofList l = l := by
  suffices hall : ∀ kept : List α, Ascending (kept ++ l) →
      l.foldl (fun kept a => insert a kept) kept = kept ++ l from hall [] h
  clear h
  induction l with
  | nil => simp
  | cons a rest ih =>
    intro kept h
    have hlast : ∀ b ∈ kept, name b < name a := by
      rw [Ascending, names, List.map_append, List.pairwise_append] at h
      exact fun b hb => h.2.2 _ (List.mem_map_of_mem hb) _ List.mem_cons_self
    rw [List.foldl_cons, insert_eq_append hlast, ih (kept ++ [a]) (by simpa using h),
      List.append_assoc, List.singleton_append]

end Retype.Named
