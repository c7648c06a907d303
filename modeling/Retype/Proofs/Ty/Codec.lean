import Retype.Proofs.Named
import Retype.Proofs.Results
import Retype.Proofs.Ty.Layout
import Retype.Ty.Codec

/-!
# Types written and read

Writing a type gives one document; reading accepts others for the same type. `Ty.Spells d t` lists
them, and says of an object that the names its layout lists as optional are names of attributes,
and that just these attributes are marked. Reading finds exactly the type that is spelled
(`decode_eq_ok_iff`).

* A type with its names in order is spelled by what it is written as (`spells_encode`), so that it
  is read back.
* Whatever is read has its names in order (`Spells.lawful`), so that it can be written and read
  again.
* A document may list a name as optional that is no attribute, in any layout that belongs to the
  type (`Document.Strays`). It spells nothing (`not_spells_of_strays`).
-/

namespace Retype

namespace Document

/-! ### The layout of an object -/

/-- The fields of the attributes that a layout declares, none if it does not declare any. -/
def attributes : Document → List (String × Document)
  | .object fields =>
    match field? "attributes" fields with
    | some (.object attributes) => attributes
    | _ => []
  | .array (.object attributes :: _) => attributes
  | _ => []

/-- What a layout lists as optional. -/
def optional : Document → List Document
  | .object fields =>
    match field? "optional" fields with
    | some (.array items) => items
    | _ => []
  | .array (_ :: .array items :: _) => items
  | _ => []

/-- The forms of a layout, with the fields of its attributes and what stands for the optional
names. -/
inductive Lays : Document → List (String × Document) → Option Document → Prop
  | fields {fields attributes : List (String × Document)}
      (declared : field? "attributes" fields = some (.object attributes)) :
      Lays (.object fields) attributes (field? "optional" fields)
  | required {attributes : List (String × Document)} :
      Lays (.array [.object attributes]) attributes none
  | pair {attributes : List (String × Document)} {optional : Document} :
      Lays (.array [.object attributes, optional]) attributes (some optional)

/-- The optional names: nothing, or an array of texts. -/
inductive Lists : Option Document → List String → Prop
  | nothing : Lists none []
  | array {names : List String} : Lists (some (.array (names.map .string))) names

/-! ### Parts -/

/-- The first document stands, in the second one, for a part of the type. -/
inductive Part : Document → Document → Prop
  | element {tag : String} {d : Document} (collection : tag = "list" ∨ tag = "set" ∨ tag = "map") :
      Part d (.object [(tag, d)])
  | item {items : List Document} {d : Document} (mem : d ∈ items) :
      Part d (.object [("tuple", .array items)])
  | field {layout : Document} {field : String × Document} (mem : field ∈ layout.attributes) :
      Part field.2 (.object [("object", layout)])

/-- Some layout that belongs to the type lists a name as optional that is no attribute. -/
inductive Strays : Document → Prop
  | here {layout : Document} {name : String} (listed : .string name ∈ layout.optional)
      (stray : name ∉ Named.names layout.attributes) : Strays (.object [("object", layout)])
  | part {p d : Document} (part : Part p d) (strays : Strays p) : Strays d

theorem sizeOf_lt_of_mem_fields {fields : List (String × Document)} {name : String} {d : Document}
    (h : (name, d) ∈ fields) : sizeOf d < sizeOf (Document.object fields) := by
  have hmem := List.sizeOf_lt_of_mem h
  simp only [Prod.mk.sizeOf_spec, Document.object.sizeOf_spec] at hmem ⊢
  omega

theorem sizeOf_lt_of_mem_array {items : List Document} {d : Document} (h : d ∈ items) :
    sizeOf d < sizeOf (Document.array items) := by
  have hmem := List.sizeOf_lt_of_mem h
  simp only [Document.array.sizeOf_spec]
  omega

theorem sizeOf_lt_of_mem_attributes {layout : Document} {field : String × Document}
    (h : field ∈ layout.attributes) : sizeOf field.2 < sizeOf layout := by
  unfold attributes at h
  split at h
  · split at h
    · rename_i fields _ attributes hfield
      obtain ⟨f, hf, hobject⟩ := Option.map_eq_some_iff.mp hfield
      have hattributes : sizeOf f.2 < sizeOf (Document.object fields) :=
        sizeOf_lt_of_mem_fields (Named.mem_of_find? hf).1
      rw [hobject] at hattributes
      exact (sizeOf_lt_of_mem_fields h).trans hattributes
    · cases h
  · exact (sizeOf_lt_of_mem_fields h).trans (sizeOf_lt_of_mem_array List.mem_cons_self)
  · cases h

/-- What stands for a part is smaller. -/
theorem sizeOf_lt_of_part {p d : Document} (h : Part p d) : sizeOf p < sizeOf d := by
  cases h with
  | element => exact sizeOf_lt_of_mem_fields List.mem_cons_self
  | item mem =>
    exact (sizeOf_lt_of_mem_array mem).trans (sizeOf_lt_of_mem_fields List.mem_cons_self)
  | field mem =>
    exact (sizeOf_lt_of_mem_attributes mem).trans (sizeOf_lt_of_mem_fields List.mem_cons_self)

end Document

namespace Ty

open Document (Lays Lists Part Strays field?)

/-! ### Spellings -/

/-- The documents that stand for a type. -/
inductive Spells : Document → Ty → Prop
  | leaf {tag : String} {t : Ty} (known : ofLeafTag? tag = some t) : Spells (.string tag) t
  | unit {tag : String} {t : Ty} (known : ofLeafTag? tag = some t) :
      Spells (.object [(tag, .null)]) t
  | sequence {kind : SequenceKind} {d : Document} {t : Ty} (element : Spells d t) :
      Spells (.object [(kind.text, d)]) (.sequence kind t)
  | map {d : Document} {t : Ty} (element : Spells d t) : Spells (.object [("map", d)]) (.map t)
  | tuple {ds : List Document} {ts : List Ty} (length : ds.length = ts.length)
      (each : ∀ (i : Nat) d t, ds[i]? = some d → ts[i]? = some t → Spells d t) :
      Spells (.object [("tuple", .array ds)]) (.tuple ts)
  | capsule {name : String} : Spells (.object [("capsule", .string name)]) (.capsule name)
  /-- Every name that is listed as optional has an attribute, and just these are marked. -/
  | object {layout : Document} {attributes : List (String × Document)} {optional : Option Document}
      {types : List (String × Ty)} {names : List String} (lays : Lays layout attributes optional)
      (lists : Lists optional names) (declared : Named.names attributes = Named.names types)
      (each : ∀ (i : Nat) (a : String × Document) (b : String × Ty), attributes[i]? = some a →
        types[i]? = some b → Spells a.2 b.2)
      (subset : names ⊆ Named.names types) :
      Spells (.object [("object", layout)]) (.ofAttributes types names)

/-! ### The parts of the reader -/

theorem ofLeafTag?_of_elim {tag : String} {t : Ty}
    (h : (ofLeafTag? tag).elim (Except.error Undecodable.malformed) .ok = .ok t) :
    ofLeafTag? tag = some t := by
  cases htag : ofLeafTag? tag with
  | none =>
    rw [htag] at h
    cases h
  | some found =>
    rw [htag] at h
    cases h
    rfl

theorem decodeAll_eq_mapM (ds : List Document) : decodeAll ds = ds.mapM decode := by
  induction ds with
  | nil => rfl
  | cons d ds ih =>
    rw [decodeAll, List.mapM_cons, ih]
    cases decode d <;> rfl

theorem decodeEach_eq_mapM (fields : List (String × Document)) :
    decodeEach fields = fields.mapM fun f => (decode f.2).map fun t => (f.1, t) := by
  induction fields with
  | nil => rfl
  | cons f fields ih =>
    rw [decodeEach, List.mapM_cons, ih]
    cases decode f.2 <;> rfl

theorem decodeEach_eq_ok_iff {fields : List (String × Document)} {types : List (String × Ty)} :
    decodeEach fields = .ok types ↔ Named.names fields = Named.names types ∧
      ∀ (i : Nat) (a : String × Document) (b : String × Ty), fields[i]? = some a →
        types[i]? = some b → decode a.2 = .ok b.2 := by
  rw [decodeEach_eq_mapM, mapM_eq_ok_iff, forall₂_iff_getElem?]
  constructor
  · rintro ⟨length, each⟩
    refine ⟨map_eq_map_of_getElem? length fun i a b ha hb => ?_, fun i a b ha hb => ?_⟩
    · obtain ⟨t, -, rfl⟩ := map_eq_ok_iff.mp (each i a b ha hb)
      rfl
    · obtain ⟨t, ht, rfl⟩ := map_eq_ok_iff.mp (each i a b ha hb)
      exact ht
  · rintro ⟨names, each⟩
    refine ⟨Named.length_eq_of_names names, fun i a b ha hb => ?_⟩
    have hname : a.1 = b.1 := Named.name_eq_of_names names ha hb
    exact map_eq_ok_iff.mpr ⟨b.2, each i a b ha hb, Prod.ext hname rfl⟩

theorem strings?_eq_some_iff {d : Document} {names : List String} :
    d.strings? = some names ↔ d = .array (names.map .string) := by
  cases d with
  | array items =>
    have text : ∀ (d : Document) name, d.string? = some name ↔ d = .string name := by
      intro d name
      cases d <;> simp [Document.string?]
    simp only [Document.strings?, mapM_eq_some_iff, text, Document.array.injEq]
    rw [← List.forall₂_map_right_iff (R := Eq), List.forall₂_eq_eq_eq]
  | _ => simp [Document.strings?]

theorem decodeOptional_eq_ok_iff {optional : Option Document} {names : List String} :
    decodeOptional optional = .ok names ↔ Lists optional names := by
  constructor
  · intro h
    cases optional with
    | none =>
      cases h
      exact .nothing
    | some d =>
      rw [decodeOptional] at h
      cases hstrings : d.strings? with
      | none =>
        rw [hstrings] at h
        cases h
      | some found =>
        rw [hstrings] at h
        cases h
        rw [strings?_eq_some_iff.mp hstrings]
        exact .array
  · rintro (_ | _)
    · rfl
    · rw [decodeOptional, strings?_eq_some_iff.mpr rfl]
      rfl

/-- Attributes and optional names make a type exactly if each name is one of an attribute. -/
theorem ofLayout_eq_ok_iff {types : List (String × Ty)} {names : List String} {t : Ty} :
    ofLayout types names = .ok t ↔ names ⊆ Named.names types ∧ t = .ofAttributes types names := by
  have hsubset : (names.filter fun name => !Named.contains name types) = [] ↔
      names ⊆ Named.names types := by
    simp [List.filter_eq_nil_iff, Named.contains_iff, List.subset_def]
  rw [← hsubset, ofLayout]
  cases names.filter fun name => !Named.contains name types with
  | nil => simp [eq_comm]
  | cons stray strays => simp

theorem decodeField_eq (fields : List (String × Document)) :
    decodeField fields = (field? "attributes" fields).elim (.error .malformed) decodeFields := by
  induction fields with
  | nil => rfl
  | cons f fields ih =>
    rw [decodeField, ih]
    by_cases hname : f.1 = "attributes"
    · simp [field?, Named.find?, Named.name, hname]
    · simp [field?, Named.find?, Named.name, hname]

/-- The attributes are read first, then the optional names, and last the two are compared. -/
theorem decodeLayout_of_lays {layout : Document} {attributes : List (String × Document)}
    {optional : Option Document} (h : Lays layout attributes optional) :
    decodeLayout layout = (decodeEach attributes).bind fun types =>
      (decodeOptional optional).bind fun names => ofLayout types names := by
  cases h with
  | fields declared =>
    rw [decodeLayout, decodeField_eq, declared]
    rfl
  | required | pair => rfl

theorem lays_of_decodeLayout {layout : Document} {t : Ty} (h : decodeLayout layout = .ok t) :
    ∃ attributes optional, Lays layout attributes optional := by
  cases layout with
  | object fields =>
    rw [decodeLayout, decodeField_eq] at h
    obtain ⟨types, htypes, -⟩ := bind_eq_ok_iff.mp h
    cases hfield : field? "attributes" fields with
    | none =>
      rw [hfield] at htypes
      cases htypes
    | some d =>
      rw [hfield] at htypes
      cases d with
      | object attributes => exact ⟨attributes, _, .fields hfield⟩
      | _ => cases htypes
  | array items =>
    cases items with
    | nil => cases h
    | cons d rest =>
      rw [decodeLayout] at h
      obtain ⟨types, htypes, hrest⟩ := bind_eq_ok_iff.mp h
      cases d with
      | object attributes =>
        rcases rest with _ | ⟨optional, _ | _⟩
        · exact ⟨attributes, none, .required⟩
        · exact ⟨attributes, some optional, .pair⟩
        · cases hrest
      | _ => cases htypes
  | _ => cases h

theorem decodeLayout_eq_ok_iff {layout : Document} {t : Ty} :
    decodeLayout layout = .ok t ↔
      ∃ attributes optional types names, Lays layout attributes optional ∧
        decodeEach attributes = .ok types ∧ Lists optional names ∧ names ⊆ Named.names types ∧
        t = .ofAttributes types names := by
  constructor
  · intro h
    obtain ⟨attributes, optional, lays⟩ := lays_of_decodeLayout h
    rw [decodeLayout_of_lays lays] at h
    obtain ⟨types, htypes, h⟩ := bind_eq_ok_iff.mp h
    obtain ⟨names, hnames, h⟩ := bind_eq_ok_iff.mp h
    exact ⟨attributes, optional, types, names, lays, htypes, decodeOptional_eq_ok_iff.mp hnames,
      ofLayout_eq_ok_iff.mp h⟩
  · rintro ⟨attributes, optional, types, names, lays, htypes, lists, fits⟩
    rw [decodeLayout_of_lays lays]
    refine bind_eq_ok_iff.mpr ⟨types, htypes, bind_eq_ok_iff.mpr ⟨names, ?_, ?_⟩⟩
    · exact decodeOptional_eq_ok_iff.mpr lists
    · exact ofLayout_eq_ok_iff.mpr fits

/-! ### Reading finds what is spelled -/

theorem attributes_of_lays {layout : Document} {attributes : List (String × Document)}
    {optional : Option Document} (h : Lays layout attributes optional) :
    layout.attributes = attributes := by
  cases h with
  | fields declared => rw [Document.attributes, declared]
  | required | pair => rfl

theorem optional_of_lists {layout : Document} {attributes : List (String × Document)}
    {optional : Option Document} {names : List String} (lays : Lays layout attributes optional)
    (lists : Lists optional names) : layout.optional = names.map .string := by
  cases lays with
  | @fields fields =>
    rw [Document.optional]
    generalize field? "optional" fields = optional at lists
    cases lists <;> rfl
  | required | pair =>
    cases lists
    rfl

/-- **Reading.** What is read is spelled. -/
theorem spells_of_decode {d : Document} {t : Ty} (h : decode d = .ok t) : Spells d t := by
  induction hn : sizeOf d using Nat.strongRecOn generalizing d t with
  | ind n ih =>
    subst hn
    have ih : ∀ {p : Document}, Part p d → ∀ {t : Ty}, decode p = .ok t → Spells p t :=
      fun hp _ h => ih _ (Document.sizeOf_lt_of_part hp) h rfl
    unfold decode at h
    split at h
    · exact .leaf (ofLeafTag?_of_elim h)
    · -- one case for each tag, in the order in which they are tried
      rename_i tag payload
      split at h
      · rename_i htag
        subst htag
        obtain ⟨e, he, rfl⟩ := map_eq_ok_iff.mp h
        exact @Spells.sequence .list _ _ (ih (.element (.inl rfl)) he)
      split at h
      · rename_i htag
        subst htag
        obtain ⟨e, he, rfl⟩ := map_eq_ok_iff.mp h
        exact @Spells.sequence .set _ _ (ih (.element (.inr (.inl rfl))) he)
      split at h
      · rename_i htag
        subst htag
        obtain ⟨e, he, rfl⟩ := map_eq_ok_iff.mp h
        exact .map (ih (.element (.inr (.inr rfl))) he)
      split at h
      · rename_i htag
        subst htag
        split at h
        · obtain ⟨ts, hts, rfl⟩ := map_eq_ok_iff.mp h
          rw [decodeAll_eq_mapM, mapM_eq_ok_iff, forall₂_iff_getElem?] at hts
          exact .tuple hts.1 fun i d t hd ht =>
            ih (.item (List.mem_of_getElem? hd)) (hts.2 i d t hd ht)
        · cases h
      split at h
      · rename_i htag
        subst htag
        obtain ⟨attributes, optional, types, names, lays, htypes, lists, subset, rfl⟩ :=
          decodeLayout_eq_ok_iff.mp h
        obtain ⟨declared, each⟩ := decodeEach_eq_ok_iff.mp htypes
        -- attributes lie two levels below the tag, so the induction goes by size and not by members
        refine .object lays lists declared (fun i a b ha hb => ?_) subset
        refine ih (.field ?_) (each i a b ha hb)
        rw [attributes_of_lays lays]
        exact List.mem_of_getElem? ha
      split at h
      · rename_i htag
        subst htag
        split at h
        · cases h
          exact .capsule
        · cases h
      · split at h
        · exact .unit (ofLeafTag?_of_elim h)
        · cases h
    · cases h

theorem decode_of_spells {d : Document} {t : Ty} (h : Spells d t) : decode d = .ok t := by
  induction h with
  | leaf known => rw [decode, known]; rfl
  | unit known =>
    unfold ofLeafTag? at known
    split at known <;> cases known <;> rfl
  | @sequence kind d t _ ih =>
    cases kind with
    | list | set => exact map_eq_ok_iff.mpr ⟨t, ih, rfl⟩
  | @map d t _ ih => exact map_eq_ok_iff.mpr ⟨t, ih, rfl⟩
  | @tuple ds ts length _ ih =>
    refine map_eq_ok_iff.mpr ⟨ts, ?_, rfl⟩
    rw [decodeAll_eq_mapM, mapM_eq_ok_iff, forall₂_iff_getElem?]
    exact ⟨length, ih⟩
  | capsule => rfl
  | @object layout _ _ _ _ lays lists declared _ subset ih =>
    have hlayout : decode (.object [("object", layout)]) = decodeLayout layout := rfl
    rw [hlayout]
    exact decodeLayout_eq_ok_iff.mpr ⟨_, _, _, _, lays, decodeEach_eq_ok_iff.mpr ⟨declared, ih⟩,
      lists, subset, rfl⟩

theorem decode_eq_ok_iff {d : Document} {t : Ty} : decode d = .ok t ↔ Spells d t :=
  ⟨spells_of_decode, decode_of_spells⟩

/-! ### What is read can be written -/

theorem lawful_ofAttributes {types : List (String × Ty)} {names : List String}
    (h : ∀ b ∈ types, b.2.Lawful) : (ofAttributes types names).Lawful := by
  refine throughout_object.mpr ⟨?_, fun a ha => ?_⟩
  · rw [List.map_map]
    exact Named.ascending_ofList _
  · obtain ⟨b, hb, rfl⟩ := List.mem_map.mp (Named.mem_of_mem_ofList ha)
    exact h b hb

/-- The types that are spelled have their names in order. -/
theorem Spells.lawful {d : Document} {t : Ty} (h : Spells d t) : t.Lawful := by
  induction h with
  | leaf known | unit known =>
    unfold ofLeafTag? at known
    split at known <;> cases known <;> decide
  | sequence _ ih => exact throughout_sequence.mpr ⟨.nil, ih⟩
  | map _ ih => exact throughout_map.mpr ⟨.nil, ih⟩
  | tuple length _ ih =>
    exact throughout_tuple.mpr ⟨.nil, forall_mem_of_getElem? length ih⟩
  | capsule => exact throughout_capsule.mpr .nil
  | object _ _ declared _ _ ih =>
    exact lawful_ofAttributes (Named.forall_mem_of_names declared.symm ih)

/-! ### What is written is read back -/

theorem encodeAll_eq_map (ts : List Ty) : encodeAll ts = ts.map encode := by
  induction ts with
  | nil => rfl
  | cons t ts ih => rw [encodeAll, ih, List.map_cons]

theorem encodeAttributes_eq_map (as : List (Attribute Ty)) :
    encodeAttributes as = as.map fun a => (a.name, encode a.type) := by
  induction as with
  | nil => rfl
  | cons a as ih => rw [encodeAttributes, ih, List.map_cons]

/-- An object is made of the types of its attributes and the names of the optional ones. -/
theorem ofAttributes_optionalNames {as : List (Attribute Ty)} (ascending : Named.Ascending as) :
    ofAttributes (as.map fun a => (a.name, a.type)) (optionalNames as) = .object as := by
  have marked : ∀ a ∈ as, (optionalNames as).contains a.name = a.optional := by
    intro a ha
    rw [Bool.eq_iff_iff, List.contains_iff_mem, optionalNames, List.mem_map]
    constructor
    · rintro ⟨b, hb, hname⟩
      obtain ⟨hb, optional⟩ := List.mem_filter.mp hb
      obtain rfl := List.inj_on_of_nodup_map ascending.nodup hb ha hname
      exact optional
    · exact fun optional => ⟨a, List.mem_filter.mpr ⟨ha, optional⟩, rfl⟩
  have same : (as.map fun a : Attribute Ty =>
      (⟨a.name, (optionalNames as).contains a.name, a.type⟩ : Attribute Ty)) = as.map id :=
    List.map_congr_left fun a ha => by rw [marked a ha]; rfl
  rw [ofAttributes, List.map_map, Function.comp_def, same, List.map_id,
    Named.ofList_eq_self ascending]

/-- The names of the optional attributes are left out if there are none. -/
theorem lists_encoded (d : Document) (names : List String) :
    Lists (field? "optional" (("attributes", d) ::
      if names.isEmpty then [] else [("optional", .array (names.map .string))])) names := by
  cases names with
  | nil => exact .nothing
  | cons => exact .array

/-- **Writing.** A type with its names in order is spelled by what it is written as. -/
theorem spells_encode {t : Ty} (h : t.Lawful) : Spells t.encode t := by
  induction t with
  | primitive kind => cases kind <;> exact .leaf rfl
  | dynamic => exact .leaf rfl
  | sequence kind e ih => exact .sequence (ih (throughout_sequence.mp h).2)
  | map e ih => exact .map (ih (throughout_map.mp h).2)
  | tuple ts ih =>
    rw [encode, encodeAll_eq_map]
    refine .tuple (List.length_map _) fun i d t hd ht => ?_
    rw [List.getElem?_map, ht, Option.map_some, Option.some.injEq] at hd
    have hmem := List.mem_of_getElem? ht
    exact hd ▸ ih t hmem ((throughout_tuple.mp h).2 t hmem)
  | capsule name => exact .capsule
  | object as ih =>
    have spelled : Spells (Ty.object as).encode
        (.ofAttributes (as.map fun a => (a.name, a.type)) (optionalNames as)) := by
      rw [encode, encodeAttributes_eq_map]
      refine .object (.fields rfl) (lists_encoded _ _) ?_ (fun i d b hd hb => ?_) ?_
      · simp [Named.names, Named.name, Function.comp_def]
      · obtain ⟨a, ha, rfl⟩ := Option.map_eq_some_iff.mp ((List.getElem?_map ..).symm.trans hb)
        rw [List.getElem?_map, ha, Option.map_some, Option.some.injEq] at hd
        have hmem := List.mem_of_getElem? ha
        exact hd ▸ ih a hmem ((throughout_object.mp h).2 a hmem)
      · intro name hname
        obtain ⟨a, ha, rfl⟩ := List.mem_map.mp hname
        exact List.mem_map_of_mem (List.mem_map_of_mem (List.mem_filter.mp ha).1)
    rwa [ofAttributes_optionalNames h.ascending] at spelled

/-! ### Stray names -/

/-- What stands for a part is read if the whole is. -/
theorem exists_decode_of_part {p d : Document} {t : Ty} (part : Part p d) (h : decode d = .ok t) :
    ∃ u, decode p = .ok u := by
  cases part with
  | element collection =>
    rcases collection with rfl | rfl | rfl <;>
    · obtain ⟨u, hu, -⟩ := map_eq_ok_iff.mp h
      exact ⟨u, hu⟩
  | item mem =>
    obtain ⟨ts, hts, -⟩ := map_eq_ok_iff.mp h
    rw [decodeAll_eq_mapM, mapM_eq_ok_iff, forall₂_iff_getElem?] at hts
    obtain ⟨i, hi⟩ := List.getElem?_of_mem mem
    obtain ⟨u, hu⟩ := exists_getElem?_of_length hts.1.symm hi
    exact ⟨u, hts.2 i p u hi hu⟩
  | field mem =>
    obtain ⟨attributes, optional, types, names, lays, htypes, -⟩ := decodeLayout_eq_ok_iff.mp h
    rw [attributes_of_lays lays] at mem
    obtain ⟨declared, each⟩ := decodeEach_eq_ok_iff.mp htypes
    obtain ⟨i, hi⟩ := List.getElem?_of_mem mem
    obtain ⟨b, hb, -⟩ := Named.exists_getElem? declared.symm hi
    exact ⟨b.2, each i _ b hi hb⟩

/-- **Rejection.** A document with a stray name stands for no type. -/
theorem decode_ne_ok_of_strays {d : Document} (h : d.Strays) (t : Ty) : decode d ≠ .ok t := by
  induction h generalizing t with
  | here listed stray =>
    intro h
    obtain ⟨attributes, optional, types, names, lays, htypes, lists, subset, -⟩ :=
      decodeLayout_eq_ok_iff.mp h
    rw [optional_of_lists lays lists] at listed
    obtain ⟨name, hname, hsame⟩ := List.mem_map.mp listed
    cases hsame
    rw [attributes_of_lays lays, (decodeEach_eq_ok_iff.mp htypes).1] at stray
    exact stray (subset hname)
  | part part _ ih =>
    intro h
    obtain ⟨u, hu⟩ := exists_decode_of_part part h
    exact ih u hu

/-- An optional mark stands at an attribute, in every object of a type. -/
theorem optional_subset (t : Ty) :
    t.Throughout fun layout => (layout.filter Prod.snd).map Prod.fst ⊆ layout.map Prod.fst := by
  have here : ∀ layout : List (String × Bool),
      (layout.filter Prod.snd).map Prod.fst ⊆ layout.map Prod.fst := fun layout =>
    List.map_subset Prod.fst (List.filter_subset_self layout)
  induction t with
  | primitive | capsule | dynamic => exact .intro (here _) (by simp [parts])
  | sequence kind e ih => exact throughout_sequence.mpr ⟨here [], ih⟩
  | map e ih => exact throughout_map.mpr ⟨here [], ih⟩
  | tuple ts ih => exact throughout_tuple.mpr ⟨here [], ih⟩
  | object as ih => exact throughout_object.mpr ⟨here _, ih⟩

end Ty

/-- **Types as documents.** A type with its names in order is read back from what it is written as,
with its optional marks. What is read from any document is the type that the document spells: the
names that a layout lists as optional are attributes, and just these are marked; and it can be
written and read again. A document that lists a name as optional that is no attribute, in any
layout that belongs to the type, is refused. -/
theorem decode_reads_back :
    (∀ t : Ty, t.Lawful → Ty.decode t.encode = .ok t) ∧
    (∀ (d : Document) (t : Ty), Ty.decode d = .ok t →
      Ty.Spells d t ∧
        (t.Throughout fun layout =>
          (layout.filter Prod.snd).map Prod.fst ⊆ layout.map Prod.fst) ∧
        Ty.decode t.encode = .ok t) ∧
    ∀ d : Document, d.Strays → ∃ fault, Ty.decode d = .error fault := by
  have readBack : ∀ t : Ty, t.Lawful → Ty.decode t.encode = .ok t := fun t lawful =>
    Ty.decode_eq_ok_iff.mpr (Ty.spells_encode lawful)
  refine ⟨readBack, fun d t h => ?_, fun d strays => ?_⟩
  · have spells := Ty.decode_eq_ok_iff.mp h
    exact ⟨spells, t.optional_subset, readBack t spells.lawful⟩
  · cases h : Ty.decode d with
    | error fault => exact ⟨fault, rfl⟩
    | ok t => exact absurd h (Ty.decode_ne_ok_of_strays strays t)

/-- A layout as an array whose optional names are out of order and repeated, and one with a stray
name deep inside. -/
theorem decode_reads_back_array_layout :
    let t : Ty := .list (.object [⟨"a", true, .set .number⟩,
      ⟨"b", false, .object [⟨"c", true, .dynamic⟩]⟩])
    let d : Document := .object [("object", .array [.object [("a", .string "number"),
      ("b", .object [("bool", .null)]), ("c", .string "string")],
      .array [.string "b", .string "a", .string "b"]])]
    let u : Ty := .object [⟨"a", true, .number⟩, ⟨"b", true, .bool⟩, ⟨"c", false, .string⟩]
    let stray : Document := .object [("map", .object [("object", .object [("attributes", .object
      [("a", .object [("object", .object [("attributes", .object []),
        ("optional", .array [.string "ghost"])])])]), ("note", .null)])])]
    (t.Lawful ∧ Ty.decode t.encode = .ok t) ∧
      (Ty.decode d = .ok u ∧ Ty.Spells d u ∧ Ty.decode u.encode = .ok u) ∧
      stray.Strays ∧ ∃ fault, Ty.decode stray = .error fault := by
  intro t d u stray
  have lawful : t.Lawful := by decide
  have read : Ty.decode d = .ok u := by cbv
  have strays : stray.Strays := by
    refine .part (.element (.inr (.inr rfl))) (.part (.field List.mem_cons_self) ?_)
    exact @Document.Strays.here _ "ghost" List.mem_cons_self List.not_mem_nil
  obtain ⟨readBack, reads, refuses⟩ := decode_reads_back
  obtain ⟨spells, -, again⟩ := reads d u read
  exact ⟨⟨lawful, readBack t lawful⟩, ⟨read, spells, again⟩, strays, refuses stray strays⟩

end Retype
