import Retype.Proofs.Conversion.Questions
import Retype.Proofs.Depth
import Retype.Proofs.Location

/-!
# Every conversion comes to an end

Converting a value converts other values in turn: parts whose conversion was left open until there
is data, and parts of a collection that came out with different types and go on to their common
type. The latter are not parts of the value any more, and may be larger than these, since absent
attributes are filled in. `Conversion.Calls` lists both.

* What is converted in turn is a smaller task: it is less deep than the value or the target, and so
  is the type it goes to (`Task.Calls.size_lt`). For parts that were converted already this holds
  because nothing gets deeper when it is converted (`Conversion.Within.height_le`).
* Nothing else counts: a way of converting that does the same in these tasks does the same in the
  whole (`Conversion.Within.alike`). That a conversion does not run out of levels by itself takes
  the same induction over the interpreter, so both are shown at once: `Alike P x y` says that two
  results are the same and that the cause of a fault has the property `P`.

So the equation that a value is converted by the conversion from its type defines `Value.convert`,
and the levels that `Value.convertWithin` counts are there for the definition only. Values need not
be well formed for this. The search for a conversion comes to an end as well
(`Question.terminates`).
-/

namespace Retype

/-! ### Results that are alike -/

section Alike

variable {α β : Type}

/-- Two results are the same, and the cause of a fault has the property. -/
def Alike (P : Cause → Prop) (x y : Except Fault α) : Prop :=
  x = y ∧ ∀ fault, x = .error fault → P fault.cause

variable {P : Cause → Prop}

theorem Alike.ok {a : α} : Alike P (.ok a : Except Fault α) (.ok a) := ⟨rfl, nofun⟩

theorem Alike.error {fault : Fault} (h : P fault.cause) :
    Alike P (.error fault : Except Fault α) (.error fault) :=
  ⟨rfl, by rintro _ ⟨⟩; exact h⟩

theorem Alike.of_eq {x : Except Fault α} (h : ∀ fault, x = .error fault → P fault.cause) :
    Alike P x x :=
  ⟨rfl, h⟩

theorem Alike.bind {x y : Except Fault α} {f g : α → Except Fault β} (h : Alike P x y)
    (next : ∀ a, x = .ok a → Alike P (f a) (g a)) : Alike P (x.bind f) (y.bind g) := by
  obtain ⟨rfl, hx⟩ := h
  cases x with
  | error fault => exact .error (hx fault rfl)
  | ok a => exact next a rfl

theorem Alike.map {x y : Except Fault α} {f : α → β} (h : Alike P x y) :
    Alike P (x.map f) (y.map f) := by
  obtain ⟨rfl, hx⟩ := h
  exact .of_eq fun fault hfault => hx fault (map_eq_error_iff.mp hfault)

theorem Alike.locate {step : Step} {x y : Except Fault α} (h : Alike P x y) :
    Alike P (Conversion.locate step x) (Conversion.locate step y) := by
  obtain ⟨rfl, hx⟩ := h
  refine .of_eq fun fault hfault => ?_
  obtain ⟨inner, hinner, rfl⟩ := Conversion.locate_eq_error hfault
  exact hx inner hinner

theorem Alike.mapM {f g : α → Except Fault β} {as : List α}
    (h : ∀ a ∈ as, Alike P (f a) (g a)) : Alike P (as.mapM f) (as.mapM g) := by
  induction as with
  | nil => exact .ok
  | cons a as ih =>
    rw [List.mapM_cons, List.mapM_cons]
    refine (h a List.mem_cons_self).bind fun b _ => ?_
    exact (ih fun a ha => h a (List.mem_cons_of_mem _ ha)).bind fun bs _ => .ok

end Alike

theorem Cause.ne_exhausted {cause : Cause} (h : cause.concernsTypes = true) :
    cause ≠ .inconsistent .exhausted := by
  rintro rfl
  cases h

namespace Conversion

/-! ### What is converted in turn -/

/-- The attributes of an object, converted for a map by the conversions of their names. -/
def applyFields (convert : Value → Ty → Except Fault Value) (cs : List (String × Conversion))
    (attributes : List (String × Value)) : Except Fault (List (Step × Value)) :=
  attributes.mapM fun a =>
    match applyNamed convert cs a.1 a.2 with
    | some result => (locate (.attr a.1) result).map fun v => (.attr a.1, v)
    | none => wrongShape .object (.object attributes)

/-- To carry out a conversion on a value, with the given way to convert what the plan leaves open,
another value is converted to another type. Some of these tasks are not reached if an earlier one
fails. -/
inductive Calls (convert : Value → Ty → Except Fault Value) :
    Conversion → Value → Value → Ty → Prop
  /-- What was left open is converted once it is there. -/
  | deferred {t : Ty} {v : Value} (known : v.ty ≠ .dynamic) : Calls convert (.deferred t) v v t
  | covering {t u : Ty} {c : Conversion} {v w : Value} (data : v.isConcrete = true)
      (inner : Calls convert c v w u) : Calls convert (.covering t c) v w u
  | item {k l : SequenceKind} {c : Conversion} {e own u : Ty} {items : List Value} {x w : Value}
      (item : x ∈ items) (inside : Calls convert c x w u) :
      Calls convert (.eachItem k c e) (.sequence l own items) w u
  | items {k l : SequenceKind} {c : Conversion} {e own u : Ty} {items : List Value} {w : Value}
      {parts : List (Step × Value)}
      (converted : eachPart (applyWith convert c) (Value.indexed items) = .ok parts)
      (again : Again e parts w u) : Calls convert (.eachItem k c e) (.sequence l own items) w u
  | entry {c : Conversion} {e own u : Ty} {entries : List (String × Value)} {x : String × Value}
      {w : Value} (entry : x ∈ entries) (inside : Calls convert c x.2 w u) :
      Calls convert (.eachEntry c e) (.map own entries) w u
  | entries {c : Conversion} {e own u : Ty} {entries : List (String × Value)} {w : Value}
      {parts : List (Step × Value)}
      (converted : eachPart (applyWith convert c) (Value.keyed entries) = .ok parts)
      (again : Again e parts w u) : Calls convert (.eachEntry c e) (.map own entries) w u
  | position {k : SequenceKind} {cs : List Conversion} {c : Conversion} {e u : Ty}
      {items : List Value} {x w : Value} {i : Nat} (part : cs[i]? = some c)
      (item : items[i]? = some x) (inside : Calls convert c x w u) :
      Calls convert (.positions k cs e) (.tuple items) w u
  | positions {k : SequenceKind} {cs : List Conversion} {e u : Ty} {items : List Value} {w : Value}
      {parts : List (Step × Value)}
      (converted : applyAll convert cs (Value.indexed items) = .ok parts)
      (again : Again e parts w u) : Calls convert (.positions k cs e) (.tuple items) w u
  | field {cs : List (String × Conversion)} {c : String × Conversion} {e u : Ty}
      {attributes : List (String × Value)} {x : String × Value} {w : Value}
      (part : Named.find? x.1 cs = some c) (field : x ∈ attributes)
      (inside : Calls convert c.2 x.2 w u) :
      Calls convert (.gather cs e) (.object attributes) w u
  | fields {cs : List (String × Conversion)} {e u : Ty} {attributes : List (String × Value)}
      {w : Value} {parts : List (Step × Value)}
      (converted : applyFields convert cs attributes = .ok parts) (again : Again e parts w u) :
      Calls convert (.gather cs e) (.object attributes) w u
  | component {cs : List Conversion} {c : Conversion} {u : Ty} {items : List Value} {x w : Value}
      {i : Nat} (part : cs[i]? = some c) (item : items[i]? = some x)
      (inside : Calls convert c x w u) : Calls convert (.tuple cs) (.tuple items) w u
  | filled {slots : List (Slot Conversion)} {slot : Slot Conversion} {u : Ty}
      {attributes : List (String × Value)} {x : String × Value} {w : Value} (part : slot ∈ slots)
      (field : Named.find? slot.target.name attributes = some x)
      (inside : Calls convert slot.conversion x.2 w u) :
      Calls convert (.object slots) (.object attributes) w u
  | selected {slots : List (Slot Conversion)} {slot : Slot Conversion} {own u : Ty}
      {entries : List (String × Value)} {x : String × Value} {w : Value} (part : slot ∈ slots)
      (entry : Named.find? slot.target.name entries = some x)
      (inside : Calls convert slot.conversion x.2 w u) :
      Calls convert (.select slots) (.map own entries) w u

/-! ### Every task is smaller -/

open Value

/-- What a conversion within a depth makes of a value of that depth stays within it. -/
theorem Within.coincide_self {n : Nat} {c : Conversion} {v : Value} (within : Within n c)
    (hv : v.height ≤ n) :
    Coincide (fun w => w.height ≤ n) (applyWith Value.convert c v) (applyWith Value.convert c v) :=
  .of_eq fun _ hw => within.height_le hv hw

/-- Converted parts of a depth have types, and a common type, of that depth. -/
theorem Again.rank_le {declared u : Ty} {parts : List (Step × Value)} {v : Value} {n : Nat}
    (h : Again declared parts v u) (hparts : ∀ part ∈ parts, part.2.height ≤ n) :
    rank v u ≤ n := by
  obtain ⟨part, hpart, rfl⟩ := List.mem_map.mp h.mem
  refine Nat.max_le.mpr ⟨hparts part hpart, Ty.depth_unify_le h.unified ?_⟩
  exact List.forall_mem_map.mpr fun part hpart => depth_ty_le (hparts part hpart)

/-- **Step.** A conversion within a depth leads to tasks within it, and to smaller ones unless it is
left open itself. -/
theorem Calls.rank_lt {n : Nat} {c : Conversion} {v w : Value} {u : Ty}
    (h : Calls Value.convert c v w u) (within : Within n c) (hv : v.height ≤ n) :
    rank w u ≤ n ∧ (rank w u < n ∨ ∃ t, c = .deferred t) := by
  have smaller : ∀ {m n : Nat} {c : Conversion}, m ≤ n →
      m ≤ n + 1 ∧ (m < n + 1 ∨ ∃ t, c = .deferred t) :=
    fun h => ⟨Nat.le_succ_of_le h, .inl (Nat.lt_succ_of_le h)⟩
  induction h generalizing n with
  | @deferred t v known =>
    cases within with
    | deferred target => exact ⟨Nat.max_le.mpr ⟨hv, target⟩, .inr ⟨t, rfl⟩⟩
  | covering _ _ ih =>
    cases within with
    | covering _ shut inner =>
      obtain ⟨-, hlt | ⟨t, ht⟩⟩ := ih inner hv
      · exact ⟨Nat.le_of_lt hlt, .inl hlt⟩
      · exact absurd ht (shut t)
  | item mem _ ih =>
    cases within with
    | eachItem inner _ =>
      exact smaller (ih inner ((height_sequence_le_iff.mp hv).2 _ mem)).1
  | items converted again =>
    cases within with
    | eachItem inner _ =>
      have hitems := (height_sequence_le_iff.mp hv).2
      have hparts := (coincide_eachPart fun part hpart =>
        inner.coincide_self (hitems _ (mem_of_mem_indexed hpart))).2 _ converted
      exact smaller (again.rank_le hparts)
  | entry mem _ ih =>
    cases within with
    | eachEntry inner _ => exact smaller (ih inner ((height_map_le_iff.mp hv).2 _ mem)).1
  | entries converted again =>
    cases within with
    | eachEntry inner _ =>
      have hentries : ∀ part ∈ keyed _, part.2.height ≤ _ :=
        List.forall_mem_map.mpr (height_map_le_iff.mp hv).2
      have hparts := (coincide_eachPart fun part hpart =>
        inner.coincide_self (hentries part hpart)).2 _ converted
      exact smaller (again.rank_le hparts)
  | position part item _ ih =>
    cases within with
    | positions each _ =>
      have hitems := height_tuple_le_iff.mp hv
      exact smaller (ih (each _ (List.mem_of_getElem? part))
        (hitems _ (List.mem_of_getElem? item))).1
  | positions converted again =>
    cases within with
    | positions each _ =>
      have hitems := height_tuple_le_iff.mp hv
      have hparts := (coincide_applyAll fun c hc x hx =>
        (each c hc).coincide_self (hitems x hx)).2 _ converted
      exact smaller (again.rank_le hparts)
  | field part mem _ ih =>
    cases within with
    | gather each _ =>
      exact smaller (ih (each _ (Named.mem_of_find? part).1)
        (height_object_le_iff.mp hv _ mem)).1
  | fields converted again =>
    cases within with
    | gather each _ =>
      have hfields := height_object_le_iff.mp hv
      have hparts := (coincide_gather fun c hc x hx =>
        (each c hc).coincide_self (hfields x hx)).2 _ converted
      exact smaller (again.rank_le hparts)
  | component part item _ ih =>
    cases within with
    | tuple each =>
      have hitems := height_tuple_le_iff.mp hv
      exact smaller (ih (each _ (List.mem_of_getElem? part))
        (hitems _ (List.mem_of_getElem? item))).1
  | filled part field _ ih =>
    cases within with
    | object _ each =>
      exact smaller (ih (each _ part)
        (height_object_le_iff.mp hv _ (Named.mem_of_find? field).1)).1
  | selected part entry _ ih =>
    cases within with
    | select _ each =>
      exact smaller (ih (each _ part)
        ((height_map_le_iff.mp hv).2 _ (Named.mem_of_find? entry).1)).1

/-! ### Nothing else counts -/

section Alike

variable {P : Cause → Prop} {f g : Value → Ty → Except Fault Value}

theorem alike_eachPart {h k : Value → Except Fault Value} {parts : List (Step × Value)}
    (each : ∀ part ∈ parts, Alike P (h part.2) (k part.2)) :
    Alike P (eachPart h parts) (eachPart k parts) :=
  .mapM fun part hpart => (each part hpart).locate.map

theorem alike_applyAll {cs : List Conversion} {items : List Value}
    (each : ∀ (i : Nat) c x, cs[i]? = some c → items[i]? = some x →
      Alike P (applyWith f c x) (applyWith g c x)) :
    Alike P (applyAll f cs (Value.indexed items)) (applyAll g cs (Value.indexed items)) := by
  rw [applyAll_eq_mapM, applyAll_eq_mapM]
  refine .mapM fun p hp => .map (.locate ?_)
  obtain ⟨i, hc, hx, -⟩ := exists_of_mem_zip_indexed hp
  exact each i p.1 p.2.2 hc hx

-- the interpreter itself is never at fault for want of levels
variable (proper : ∀ cause, cause ≠ .inconsistent .exhausted → P cause)

include proper

/-- Parts settle alike if those that are converted once more are converted alike. -/
theorem alike_settle {declared : Ty} {parts : List (Step × Value)}
    (calls : ∀ v u, Again declared parts v u → Alike P (f v u) (g v u)) :
    Alike P (settle f declared parts) (settle g declared parts) := by
  unfold settle
  split
  · rename_i unsettled
    cases parts with
    | nil => exact .ok
    | cons first rest =>
      dsimp only
      split
      · exact .ok
      · rename_i different
        have apart : ∃ p ∈ first :: rest, ∃ p' ∈ first :: rest, p.2.ty ≠ p'.2.ty := by
          simp only [List.all_eq_true, beq_iff_eq, not_forall] at different
          obtain ⟨p, hp, hne⟩ := different
          exact ⟨p, List.mem_cons_of_mem _ hp, first, List.mem_cons_self, hne⟩
        refine Alike.bind (.of_eq fun fault hfault => ?_) fun u hu => ?_
        · exact proper _ (Cause.ne_exhausted (Ty.concernsTypes_unify hfault))
        · refine (alike_eachPart fun part hpart => ?_).map
          exact calls part.2 u ⟨unsettled, apart, hu, List.mem_map_of_mem hpart⟩
  · exact .ok

theorem alike_wrongShape {α : Type} (expected : Shape) (v : Value) :
    Alike P (wrongShape expected v : Except Fault α) (wrongShape expected v) :=
  .error (proper _ nofun)

theorem alike_refine (d i : Ty) : Alike P (d.refine i) (d.refine i) := by
  refine .of_eq fun fault hfault => ?_
  obtain ⟨d', i', rfl⟩ := Ty.notRefinable_of_refine hfault
  exact proper _ nofun

theorem alike_toPrimitive (q : Primitive) (v : Value) :
    Alike P (v.toPrimitive q) (v.toPrimitive q) := by
  have read : ∀ {α : Type} (reading : Option α) {cause : Cause} {value : α → Value},
      cause ≠ .inconsistent .exhausted →
      Alike P (reading.elim (.error (.of cause)) fun a => .ok (value a))
        (reading.elim (.error (.of cause)) fun a => .ok (value a)) := by
    intro α reading cause value hcause
    cases reading with
    | none => exact .error (proper _ hcause)
    | some a => exact .ok
  cases v with
  | null i | unknown i => exact .ok
  | string text =>
    cases q with
    | string => exact .ok
    | number => exact read (Decimal.parse? text) nofun
    | bool => exact read (boolOfText? text) nofun
  | number d =>
    cases q with
    | bool => exact .error (proper _ nofun)
    | _ => exact .ok
  | bool b =>
    cases q with
    | number => exact .error (proper _ nofun)
    | _ => exact .ok
  | _ => exact .error (proper _ nofun)

theorem alike_applyFields {cs : List (String × Conversion)} {attributes : List (String × Value)}
    (each : ∀ x ∈ attributes, ∀ c, Named.find? x.1 cs = some c →
      Alike P (applyWith f c.2 x.2) (applyWith g c.2 x.2)) :
    Alike P (applyFields f cs attributes) (applyFields g cs attributes) := by
  refine .mapM fun x hx => ?_
  rw [applyNamed_eq_map, applyNamed_eq_map]
  cases hfind : Named.find? x.1 cs with
  | none => exact alike_wrongShape proper _ _
  | some c => exact (each x hx c hfind).locate.map

theorem alike_fill {step : String → Step} {slots : List (Slot Conversion)}
    {entries : List (String × Value)}
    (each : ∀ slot ∈ slots, ∀ x, Named.find? slot.target.name entries = some x →
      Alike P (applyWith f slot.conversion x.2) (applyWith g slot.conversion x.2)) :
    Alike P (fill f step slots entries) (fill g step slots entries) := by
  rw [fill_eq_mapM, fill_eq_mapM]
  refine .mapM fun slot hslot => .map ?_
  cases hfind : Named.find? slot.target.name entries with
  | some x => exact (each slot hslot x hfind).locate
  | none =>
    dsimp only [absent]
    split
    · exact .ok
    · exact .error (proper _ nofun)

theorem alike_checkNames (slots : List (Slot Conversion)) (entries : List (String × Value)) :
    Alike P (checkNames slots entries) (checkNames slots entries) := by
  refine .of_eq fun fault hfault => ?_
  obtain ⟨x, -, -, hcause⟩ := exists_of_checkNames_error hfault
  exact proper _ (by rw [hcause]; nofun)

/-- **Step.** A conversion is carried out alike if what it converts in turn is converted alike. -/
theorem Within.alike {n : Nat} {c : Conversion} {v : Value} (h : Within n c)
    (calls : ∀ w u, Calls f c v w u → Alike P (f w u) (g w u)) :
    Alike P (applyWith f c v) (applyWith g c v) := by
  induction h generalizing v with
  | identity => exact .ok
  | @deferred n t ht =>
    unfold applyWith
    split
    · exact .ok
    · exact .ok
    · rename_i hnull hunknown
      refine calls v t (.deferred fun blank => ?_)
      cases v with
      | null i => exact hnull (congrArg _ blank)
      | unknown i => exact hunknown (congrArg _ blank)
      | _ => cases blank
  | @covering n t c ht shut _ ih =>
    cases v with
    | null i | unknown i => exact (alike_refine proper t i).map
    | _ => exact ih fun w u hcall => calls w u (.covering rfl hcall)
  | @primitive n q => exact alike_toPrimitive proper q v
  | eachItem _ _ ih =>
    cases v with
    | sequence k own items =>
      rw [applyWith, applyWith]
      split
      · exact (alike_refine proper _ own).map
      · refine (alike_eachPart fun part hpart => ih fun w u hcall => ?_).bind
          fun parts hparts => (alike_settle proper fun w u again => ?_).map
        · exact calls w u (.item (mem_of_mem_indexed hpart) hcall)
        · exact calls w u (.items hparts again)
    | _ => exact alike_wrongShape proper _ _
  | eachEntry _ _ ih =>
    cases v with
    | map own entries =>
      rw [applyWith, applyWith]
      split
      · exact (alike_refine proper _ own).map
      · refine (alike_eachPart fun part hpart => ih fun w u hcall => ?_).bind
          fun parts hparts => (alike_settle proper fun w u again => ?_).map
        · obtain ⟨x, hx, rfl⟩ := List.mem_map.mp hpart
          exact calls w u (.entry hx hcall)
        · exact calls w u (.entries hparts again)
    | _ => exact alike_wrongShape proper _ _
  | positions _ _ ih =>
    cases v with
    | tuple items =>
      rw [applyWith, applyWith]
      split
      · split
        · exact .ok
        · refine (alike_applyAll fun i c x hc hx => ?_).bind
            fun parts hparts => (alike_settle proper fun w u again => ?_).map
          · exact ih c (List.mem_of_getElem? hc) fun w u hcall =>
              calls w u (.position hc hx hcall)
          · exact calls w u (.positions hparts again)
      · exact .error (proper _ (Cause.ne_exhausted rfl))
    | _ => exact alike_wrongShape proper _ _
  | gather _ _ ih =>
    cases v with
    | object attributes =>
      rw [applyWith, applyWith]
      split
      · exact .ok
      · refine (alike_applyFields proper fun x hx c hc => ?_).bind
          fun parts hparts => (alike_settle proper fun w u again => ?_).map
        · exact ih c (Named.mem_of_find? hc).1 fun w u hcall => calls w u (.field hc hx hcall)
        · exact calls w u (.fields hparts again)
    | _ => exact alike_wrongShape proper _ _
  | tuple _ ih =>
    cases v with
    | tuple items =>
      rw [applyWith, applyWith]
      split
      · refine (alike_applyAll fun i c x hc hx => ?_).map
        exact ih c (List.mem_of_getElem? hc) fun w u hcall => calls w u (.component hc hx hcall)
      · exact .error (proper _ (Cause.ne_exhausted rfl))
    | _ => exact alike_wrongShape proper _ _
  | object _ _ ih =>
    cases v with
    | object attributes =>
      rw [applyWith, applyWith]
      refine (alike_checkNames proper _ _).bind fun _ _ =>
        (alike_fill proper fun slot hslot x hx => ?_).map
      exact ih slot hslot fun w u hcall => calls w u (.filled hslot hx hcall)
    | _ => exact alike_wrongShape proper _ _
  | select _ _ ih =>
    cases v with
    | map own entries =>
      rw [applyWith, applyWith]
      refine (alike_checkNames proper _ _).bind fun _ _ =>
        (alike_fill proper fun slot hslot x hx => ?_).map
      exact ih slot hslot fun w u hcall => calls w u (.selected hslot hx hcall)
    | _ => exact alike_wrongShape proper _ _

end Alike

end Conversion

/-! ### Tasks -/

/-- A value and the type that it is to be converted to. -/
structure Task where
  value : Value
  want : Ty

namespace Task

open Conversion Value

/-- What comes of a task. -/
def outcome (task : Task) : Except Fault Value := task.value.convert task.want

/-- How large a task is. -/
def size (task : Task) : Nat := rank task.value task.want

/-- One step of converting: a value that is not of the wanted type is converted by the conversion
from its type, with a way to carry out the tasks that this leads to. -/
def step (carryOut : Task → Except Fault Value) (task : Task) : Except Fault Value :=
  if task.value.ty = task.want then .ok task.value
  else
    match between? task.value.ty task.want .risky with
    | some c => c.applyWith (fun v t => carryOut ⟨v, t⟩) task.value
    | none => .error (explain task.value.ty task.want)

/-- The tasks that a task leads to. -/
def Calls (task nested : Task) : Prop :=
  task.value.ty ≠ task.want ∧ ∃ c, between? task.value.ty task.want .risky = some c ∧
    Conversion.Calls Value.convert c task.value nested.value nested.want

theorem within_size {task : Task} {c : Conversion}
    (h : between? task.value.ty task.want .risky = some c) : Within task.size c :=
  within_of_between? h (depth_ty_le (Nat.le_max_left _ _)) (Nat.le_max_right _ _)

/-- **Every nested task is smaller.** -/
theorem Calls.size_lt {task nested : Task} (h : task.Calls nested) : nested.size < task.size := by
  obtain ⟨v, want⟩ := task
  obtain ⟨w, u⟩ := nested
  obtain ⟨-, c, hbetween, hcalls⟩ := h
  rcases (hcalls.rank_lt (within_size hbetween) (Nat.le_max_left _ _)).2 with hlt | ⟨t, rfl⟩
  · exact hlt
  · -- only the null and the unknown have the placeholder as their type, and they are not converted
    cases hcalls with
    | deferred known => exact absurd (plan_of_between? hbetween).source_eq_dynamic known

/-- A task is carried out alike if those that it leads to are. -/
theorem alike_step {P : Cause → Prop} {carryOut : Task → Except Fault Value} {task : Task}
    (proper : ∀ cause, cause ≠ .inconsistent .exhausted → P cause)
    (h : ∀ nested, task.Calls nested → Alike P nested.outcome (carryOut nested)) :
    Alike P task.outcome (step carryOut task) := by
  rw [outcome, convert_eq, step]
  split
  · exact .ok
  · rename_i hne
    cases hbetween : between? task.value.ty task.want .risky with
    | some c =>
      exact (within_size hbetween).alike proper fun w u hcalls =>
        h ⟨w, u⟩ ⟨hne, c, hbetween, hcalls⟩
    | none => exact .error (proper _ (Cause.ne_exhausted (concernsTypes_explain _ _)))

/-- **Converting comes to an end.** -/
theorem terminates : Terminates step Calls outcome where
  wellFounded := Subrelation.wf Calls.size_lt (measure size).wf
  determined carryOut task h := by
    have alike : Alike (fun _ => True) task.outcome (step carryOut task) :=
      alike_step (fun _ _ => trivial) fun nested hcalls =>
        ⟨(h nested hcalls).symm, fun _ _ => trivial⟩
    exact alike.1.symm

/-- **The levels are enough.** No fault comes from having run out of them. -/
theorem cause_ne_exhausted (task : Task) : ∀ fault, task.outcome = .error fault →
    fault.cause ≠ .inconsistent .exhausted := by
  induction task using terminates.wellFounded.induction with
  | _ task ih =>
    have alike : Alike (· ≠ .inconsistent .exhausted) task.outcome (step outcome task) :=
      alike_step (fun _ h => h) fun nested hcalls => .of_eq (ih nested hcalls)
    exact alike.2

end Task

/-- **Every conversion comes to an end.** The search for conversions and common types and the
conversion of values are recursions without endless chains of calls, in which the calls are all
that counts; so each of them is the only solution of its own equation, without levels or any other
bound. Whatever is converted while a value is converted, directly or in turn, is a smaller task:
this needs no assumption on the value. And the levels that are counted are never used up. -/
theorem conversion_terminates :
    (∀ safety : Safety,
      Terminates (Question.step safety) (Question.Calls safety) (Question.answer safety) ∧
      (∀ ask, (∀ q, ask q = Question.step safety ask q) ↔ ask = Question.answer safety) ∧
      ∀ q q', Relation.TransGen (Question.Calls safety) q q' → q'.size < q.size) ∧
    (Terminates Task.step Task.Calls Task.outcome ∧
      (∀ carryOut, (∀ task, carryOut task = Task.step carryOut task) ↔ carryOut = Task.outcome) ∧
      ∀ task nested, Relation.TransGen Task.Calls task nested → nested.size < task.size) ∧
    ∀ (v : Value) (want : Ty),
      (∀ levels, Value.rank v want ≤ levels →
        Value.convertWithin levels v want = v.convert want) ∧
      ∀ fault, v.convert want = .error fault → fault.cause ≠ .inconsistent .exhausted := by
  refine ⟨fun safety => ⟨Question.terminates safety, fun ask => ?_, fun q q' => ?_⟩,
    ⟨Task.terminates, fun carryOut => Task.terminates.solution_iff, fun task nested => ?_⟩,
    fun v want => ⟨fun levels h => Value.convertWithin_eq_convert h, ?_⟩⟩
  · exact (Question.terminates safety).solution_iff
  · exact lt_of_transGen fun _ _ h => h.size_lt
  · exact lt_of_transGen fun _ _ h => h.size_lt
  · exact Task.cause_ne_exhausted ⟨v, want⟩

/-- A list that was built without an element type has its items converted, each by its own type;
two lists that came out with different types are converted once more. -/
theorem conversion_terminates_items_and_lists :
    let items : Value := .list .dynamic [.string "true", .tuple []]
    let lists : Value := .tuple [.list .bool [.bool true], .list .string [.string "x"]]
    let ofItems : Task := ⟨items, .list .bool⟩
    let ofLists : Task := ⟨lists, .list (.list .dynamic)⟩
    let item : Task := ⟨.string "true", .bool⟩
    let list : Task := ⟨.list .bool [.bool true], .list .string⟩
    let fault : Fault := ⟨.incompatible (.tuple []) .bool, [.index 1]⟩
    ¬items.WellFormed ∧ (Relation.TransGen Task.Calls ofItems item ∧ item.size < ofItems.size) ∧
      (Relation.TransGen Task.Calls ofLists list ∧ list.size < ofLists.size) ∧
      (Value.rank items (.list .bool) ≤ 4 ∧
        Value.convertWithin 4 items (.list .bool) = items.convert (.list .bool)) ∧
      items.convert (.list .bool) = .error fault ∧ fault.cause ≠ .inconsistent .exhausted := by
  intro items lists ofItems ofLists item list fault
  have opened : Conversion.between? items.ty (.list .bool) .risky =
      some (.covering (.list .bool) (.eachItem .list (.deferred .bool) .bool)) := by cbv
  have callsItem : ofItems.Calls item :=
    ⟨by decide, _, opened, .covering rfl (.item List.mem_cons_self (.deferred (by decide)))⟩
  have gathered : Conversion.between? lists.ty (.list (.list .dynamic)) .risky =
      some (.covering (.list (.list .dynamic)) (.positions .list
        [.covering (.list .dynamic) (.eachItem .list .identity .dynamic),
          .covering (.list .dynamic) (.eachItem .list .identity .dynamic)] (.list .dynamic))) := by
    cbv
  have again : Conversion.Again (.list .dynamic) [(.index 0, .list .bool [.bool true]),
      (.index 1, .list .string [.string "x"])] list.value list.want :=
    ⟨rfl, ⟨_, List.mem_cons_self, _, List.mem_cons_of_mem _ List.mem_cons_self, by decide⟩, by cbv,
      List.mem_cons_self⟩
  have callsList : ofLists.Calls list :=
    ⟨by decide, _, gathered, .covering rfl (.positions (by cbv) again)⟩
  have rank : Value.rank items (.list .bool) ≤ 4 := by decide
  have fails : items.convert (.list .bool) = .error fault := by cbv
  obtain ⟨-, ⟨-, -, smaller⟩, levels⟩ := conversion_terminates
  exact ⟨by decide, ⟨.single callsItem, smaller _ _ (.single callsItem)⟩,
    ⟨.single callsList, smaller _ _ (.single callsList)⟩, ⟨rank, (levels _ _).1 4 rank⟩, fails,
    (levels _ _).2 fault fails⟩

end Retype
