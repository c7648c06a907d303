import Retype.Proofs.Conversion.Yields

/-!
# When the steps of a conversion succeed

The interpreter of plans converts parts in order and stops at the first fault. Each lemma here
says of one of its loops that it succeeds if every part does, and carries over what is known of
the results. A result stands beside something else, position by position: the type that it is to
have, or the value that it is to be equal to.
-/

namespace Retype

namespace Conversion

variable {convert : Value → Ty → Except Fault Value} {α : Type} {R : Value → α → Prop}

theorem locate_map_eq_ok {step : Step} {x : Except Fault Value} {w : Value} (h : x = .ok w) :
    ((locate step x).map fun v => (step, v)) = .ok (step, w) := by
  rw [locate_eq_ok_iff.mpr h]
  rfl

theorem exists_eachPart {f : Value → Except Fault Value} {parts : List (Step × Value)}
    {as : List α} (hlen : parts.length = as.length)
    (h : ∀ (i : Nat) v a, (parts.map Prod.snd)[i]? = some v → as[i]? = some a →
      ∃ w, f v = .ok w ∧ R w a) :
    ∃ done, eachPart f parts = .ok done ∧ List.Forall₂ R (done.map Prod.snd) as := by
  simp only [List.forall₂_map_left_iff]
  refine exists_mapM_beside hlen fun i part a hpart ha => ?_
  obtain ⟨w, hw, hR⟩ := h i part.2 a (by rw [List.getElem?_map, hpart]; rfl) ha
  exact ⟨(part.1, w), locate_map_eq_ok hw, hR⟩

theorem exists_eachPart_of_forall {f : Value → Except Fault Value} {parts : List (Step × Value)}
    {a : α} (h : ∀ v ∈ parts.map Prod.snd, ∃ w, f v = .ok w ∧ R w a) :
    ∃ done, eachPart f parts = .ok done ∧
      List.Forall₂ R (done.map Prod.snd) (List.replicate parts.length a) := by
  refine exists_eachPart (by simp) fun i v b hv hb => ?_
  rw [List.eq_of_mem_replicate (List.mem_of_getElem? hb)]
  exact h v (List.mem_of_getElem? hv)

theorem exists_applyAll {cs : List Conversion} {items : List Value} {as : List α}
    (hlen : items.length = cs.length) (hlen' : items.length = as.length)
    (h : ∀ (i : Nat) c v a, cs[i]? = some c → items[i]? = some v → as[i]? = some a →
      ∃ w, applyWith convert c v = .ok w ∧ R w a) :
    ∃ done, applyAll convert cs (Value.indexed items) = .ok done ∧
      List.Forall₂ R (done.map Prod.snd) as := by
  simp only [List.forall₂_map_left_iff, applyAll_eq_mapM]
  refine exists_mapM_beside (by simp [Value.indexed, ← hlen, hlen']) fun i p a hp ha => ?_
  obtain ⟨hc, hpart⟩ := List.getElem?_zip_eq_some.mp hp
  have hv : items[i]? = some p.2.2 := by
    rw [← map_snd_indexed items, List.getElem?_map, hpart, Option.map_some]
  obtain ⟨w, hw, hR⟩ := h i p.1 p.2.2 a hc hv ha
  exact ⟨(p.2.1, w), locate_map_eq_ok hw, hR⟩

theorem exists_gather {cs : List (String × Conversion)} {attributes : List (String × Value)}
    {v : Value} {as : List α} (hnames : Named.names attributes = Named.names cs)
    (hasc : Named.Ascending attributes) (hlen : attributes.length = as.length)
    (h : ∀ (i : Nat) (c : String × Conversion) (x : String × Value) a, cs[i]? = some c →
      attributes[i]? = some x → as[i]? = some a → ∃ w, applyWith convert c.2 x.2 = .ok w ∧ R w a) :
    ∃ done, (attributes.mapM fun a =>
      match applyNamed convert cs a.1 a.2 with
      | some result => (locate (.attr a.1) result).map fun v => (Step.attr a.1, v)
      | none => wrongShape .object v) = .ok done ∧ List.Forall₂ R (done.map Prod.snd) as := by
  simp only [List.forall₂_map_left_iff]
  refine exists_mapM_beside hlen fun i x a hx ha => ?_
  have hasc' : Named.Ascending cs := by rwa [Named.Ascending, ← hnames]
  obtain ⟨c, hc, hfind⟩ := Named.exists_find?_getElem? hasc' hnames.symm hx
  obtain ⟨w, hw, hR⟩ := h i c x a hc hx ha
  rw [applyNamed_eq_map, show Named.find? x.1 cs = some c from hfind]
  exact ⟨(.attr x.1, w), locate_map_eq_ok hw, hR⟩

/-- A slot is filled from the entry of its name, or with a null if it is optional. -/
theorem exists_fill (step : String → Step) {slots : List (Slot Conversion)}
    {entries : List (String × Value)} {as : List α} (hlen : slots.length = as.length)
    (h : ∀ (i : Nat) slot a, slots[i]? = some slot → as[i]? = some a →
      (∃ x w, Named.find? slot.target.name entries = some x ∧
        applyWith convert slot.conversion x.2 = .ok w ∧ R w a) ∨
      Named.find? slot.target.name entries = none ∧ slot.target.optional = true ∧
        R (.null slot.target.type.stripped) a) :
    ∃ filled, fill convert step slots entries = .ok filled ∧
      Named.names filled = Named.names (slots.map (·.target)) ∧
      List.Forall₂ (fun x a => R x.2 a) filled as := by
  obtain ⟨filled, hfilled, hR⟩ :
      ∃ filled, fill convert step slots entries = .ok filled ∧
        List.Forall₂ (fun x a => R x.2 a) filled as := by
    rw [fill_eq_mapM]
    refine exists_mapM_beside hlen fun i slot a hslot ha => ?_
    rcases h i slot a hslot ha with ⟨x, w, hx, hw, hR⟩ | ⟨hnone, hoptional, hR⟩
    · refine ⟨(slot.target.name, w), ?_, hR⟩
      simp only [hx, locate_eq_ok_iff.mpr hw]
      rfl
    · refine ⟨(slot.target.name, .null slot.target.type.stripped), ?_, hR⟩
      simp only [hnone, absent, hoptional, if_true]
      rfl
  exact ⟨filled, hfilled, (getElem?_of_fill hfilled).1, hR⟩

theorem checkNames_eq_ok {slots : List (Slot Conversion)} {entries : List (String × Value)}
    (h : ∀ x ∈ entries, Named.contains x.1 (slots.map (·.target)) = true) :
    checkNames slots entries = .ok () := by
  have hnone : (entries.find? fun e => !Named.contains e.1 slots) = none := by
    refine List.find?_eq_none.mpr fun x hx => ?_
    simpa [Named.contains, Named.name, Function.comp_def] using h x hx
  rw [checkNames, hnone]

end Conversion

end Retype
