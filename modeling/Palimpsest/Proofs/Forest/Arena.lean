import Mathlib.Data.List.Nodup
import Palimpsest.Forest.Collect

/-!
The slots of a forest. A tidy forest has its empty slots on the free list, each once, and counts the
others; storing a node and sweeping keep it tidy, and change nothing that other handles refer to.
-/

namespace Palimpsest
namespace Forest

theorem get?_eq_some {f : Forest} {id : NodeId} {node : Node} :
    f.get? id = some node ↔ f.slots[id.index]? = some ⟨id.generation, some node⟩ := by
  rw [get?]
  cases h : f.slots[id.index]? with
  | none => simp
  | some slot =>
      obtain ⟨generation, stored⟩ := slot
      by_cases hg : generation = id.generation <;> simp [hg]

theorem contains_iff {f : Forest} {id : NodeId} : f.contains id = true ↔ ∃ node, f.get? id = some node := by
  rw [contains, Option.isSome_iff_exists]

theorem get_eq_ok {f : Forest} {id : NodeId} {node : Node} :
    f.get id = .ok node ↔ f.get? id = some node := by
  rw [get]
  cases f.get? id with
  | none => simp
  | some stored => simp

section Listing

theorem mem_idsFrom {start : Nat} {slots : List Slot} {id : NodeId} {node : Node} :
    (id, node) ∈ idsFrom start slots ↔
      ∃ k, id.index = start + k ∧ slots[k]? = some ⟨id.generation, some node⟩ := by
  induction slots generalizing start with
  | nil => simp [idsFrom]
  | cons slot rest ih =>
      have hsplit : (∃ k, id.index = start + k ∧ (slot :: rest)[k]? = some ⟨id.generation, some node⟩) ↔
          (id.index = start ∧ slot = ⟨id.generation, some node⟩) ∨
            ∃ k, id.index = start + 1 + k ∧ rest[k]? = some ⟨id.generation, some node⟩ := by
        constructor
        · rintro ⟨_ | k, hk, hslot⟩
          · exact .inl ⟨hk, by simpa using hslot⟩
          · exact .inr ⟨k, by omega, by simpa using hslot⟩
        · rintro (⟨hk, rfl⟩ | ⟨k, hk, hslot⟩)
          · exact ⟨0, hk, rfl⟩
          · exact ⟨k + 1, by omega, by simpa using hslot⟩
      rw [hsplit, ← ih, idsFrom]
      obtain ⟨generation, stored⟩ := slot
      obtain ⟨index, gen⟩ := id
      cases stored with
      | none => simp
      | some other =>
          simp only [List.mem_cons, Prod.mk.injEq, NodeId.mk.injEq, Slot.mk.injEq, Option.some.injEq]
          constructor
          · rintro (⟨⟨rfl, rfl⟩, rfl⟩ | h)
            · exact .inl ⟨rfl, rfl, rfl⟩
            · exact .inr h
          · rintro (⟨rfl, rfl, rfl⟩ | h)
            · exact .inl ⟨⟨rfl, rfl⟩, rfl⟩
            · exact .inr h

theorem mem_toList {f : Forest} {id : NodeId} {node : Node} :
    (id, node) ∈ f.toList ↔ f.get? id = some node := by
  rw [toList, mem_idsFrom, get?_eq_some]
  simp

theorem pairwise_idsFrom (start : Nat) (slots : List Slot) :
    (idsFrom start slots).Pairwise fun e e' => e.1.index < e'.1.index := by
  induction slots generalizing start with
  | nil => exact List.Pairwise.nil
  | cons slot rest ih =>
      cases h : slot.node with
      | none => simpa [idsFrom, h] using ih (start + 1)
      | some node =>
          simp only [idsFrom, h, List.pairwise_cons]
          refine ⟨fun e hmem => ?_, ih (start + 1)⟩
          obtain ⟨k, hk, -⟩ := mem_idsFrom.mp hmem
          omega

/-- The nodes come in the order of their slots, so none comes twice. -/
theorem pairwise_toList (f : Forest) : f.toList.Pairwise fun e e' => e.1.index < e'.1.index :=
  pairwise_idsFrom 0 f.slots.toList

/-- The handles that refer to nodes, each once. -/
def ids (f : Forest) : List NodeId := f.toList.map Prod.fst

theorem pairwise_ids (f : Forest) : f.ids.Pairwise (·.index < ·.index) :=
  List.pairwise_map.mpr f.pairwise_toList

theorem nodup_ids (f : Forest) : f.ids.Nodup :=
  f.pairwise_ids.imp fun hlt heq => Nat.ne_of_lt hlt (congrArg NodeId.index heq)

theorem mem_ids {f : Forest} {id : NodeId} : id ∈ f.ids ↔ f.contains id = true := by
  rw [contains_iff, ids, List.mem_map]
  constructor
  · rintro ⟨⟨_, node⟩, hmem, rfl⟩
    exact ⟨node, mem_toList.mp hmem⟩
  · rintro ⟨node, h⟩
    exact ⟨(id, node), mem_toList.mpr h, rfl⟩

theorem length_idsFrom (start : Nat) (slots : List Slot) :
    (idsFrom start slots).length = slots.countP (·.node.isSome) := by
  induction slots generalizing start with
  | nil => rfl
  | cons slot rest ih =>
      cases h : slot.node with
      | none => simp [idsFrom, h, ih]
      | some node => simp [idsFrom, h, ih]

theorem length_ids (f : Forest) : f.ids.length = f.slots.toList.countP (·.node.isSome) := by
  rw [ids, List.length_map, toList, length_idsFrom]

end Listing

structure Tidy (f : Forest) : Prop where
  nodup : f.free.Nodup
  free_iff : ∀ i, i ∈ f.free ↔ ∃ slot, f.slots[i]? = some slot ∧ slot.node = none
  live_eq : f.live = f.ids.length

namespace Tidy

variable {f : Forest}

theorem empty : Tidy .empty where
  nodup := List.nodup_nil
  free_iff := by simp [Forest.empty]
  live_eq := rfl

theorem alloc_reuse (h : f.Tidy) (node : Node) {i : Nat} {rest : List Nat} (hfree : f.free = i :: rest) :
    ∃ generation, f.slots[i]? = some ⟨generation, none⟩ ∧
      f.alloc node = (⟨i, generation⟩,
        { slots := f.slots.setIfInBounds i ⟨generation, some node⟩, free := rest, live := f.live + 1 }) := by
  obtain ⟨⟨generation, stored⟩, hslot, hnone⟩ := (h.free_iff i).mp (by simp [hfree])
  obtain rfl : stored = none := hnone
  refine ⟨generation, hslot, ?_⟩
  simp [Forest.alloc, hfree, hslot]

/-- Nothing answers to the handle of a new node before. -/
theorem get?_alloc_fst (h : f.Tidy) (node : Node) : f.get? (f.alloc node).1 = none := by
  cases hfree : f.free with
  | nil => simp [Forest.alloc, hfree, get?]
  | cons i rest =>
      obtain ⟨generation, hslot, heq⟩ := h.alloc_reuse node hfree
      simp [heq, get?, hslot]

/-- The new node is found by its handle, and all else as before. -/
theorem get?_alloc (h : f.Tidy) (node : Node) (id : NodeId) :
    (f.alloc node).2.get? id = if id = (f.alloc node).1 then some node else f.get? id := by
  cases hfree : f.free with
  | nil =>
      simp only [Forest.alloc, hfree, get?, Array.getElem?_push]
      by_cases hi : id.index = f.slots.size
      · obtain ⟨index, generation⟩ := id
        simp only at hi
        subst hi
        by_cases hg : generation = 0
        · simp [hg]
        · simp [hg, Ne.symm hg]
      · have hne : id ≠ ⟨f.slots.size, 0⟩ := by
          rintro rfl
          exact hi rfl
        simp [hi, hne]
  | cons i rest =>
      obtain ⟨generation, hslot, heq⟩ := h.alloc_reuse node hfree
      obtain ⟨hlt, hget⟩ := Array.getElem?_eq_some_iff.mp hslot
      simp only [heq, get?, Array.getElem?_setIfInBounds]
      by_cases hi : i = id.index
      · obtain ⟨index, gen⟩ := id
        simp only at hi
        subst hi
        by_cases hg : gen = generation
        · simp [hg, hlt]
        · simp [hg, hlt, hget, Ne.symm hg]
      · have hne : id ≠ ⟨i, generation⟩ := by
          rintro rfl
          exact hi rfl
        simp [hi, hne]

theorem alloc (h : f.Tidy) (node : Node) : (f.alloc node).2.Tidy := by
  have hcount := h.live_eq
  rw [length_ids] at hcount
  cases hfree : f.free with
  | nil =>
      have hfull (i : Nat) : ¬ ∃ slot, f.slots[i]? = some slot ∧ slot.node = none := by
        rw [← h.free_iff, hfree]
        exact List.not_mem_nil
      simp only [Forest.alloc, hfree]
      refine ⟨List.nodup_nil, fun i => ?_, ?_⟩
      · simp only [List.not_mem_nil, false_iff, Array.getElem?_push]
        by_cases hi : i = f.slots.size
        · simp [hi]
        · simpa [hi] using hfull i
      · rw [length_ids]
        simp [hcount]
  | cons i rest =>
      obtain ⟨generation, hslot, heq⟩ := h.alloc_reuse node hfree
      obtain ⟨hlt, hget⟩ := Array.getElem?_eq_some_iff.mp hslot
      have hnodup := h.nodup
      rw [hfree, List.nodup_cons] at hnodup
      simp only [heq]
      refine ⟨hnodup.2, fun j => ?_, ?_⟩
      · have hj := h.free_iff j
        simp only [hfree, List.mem_cons] at hj
        simp only [Array.getElem?_setIfInBounds]
        by_cases hij : i = j
        · subst hij
          simp [hlt, hnodup.1]
        · simp only [hij, Ne.symm hij, false_or, ite_false] at hj ⊢
          exact hj
      · rw [length_ids]
        simp [hcount, List.countP_set, hlt, hget]

end Tidy

/-- A node is stored under a handle that nothing answered to before, and all else is as it was. -/
structure Adds (f : Forest) (node : Node) (id : NodeId) (g : Forest) : Prop where
  get?_none : f.get? id = none
  get?_eq : ∀ x, g.get? x = if x = id then some node else f.get? x
  tidy : g.Tidy
  live_eq : g.live = f.live + 1

theorem Tidy.adds {f g : Forest} {node : Node} {id : NodeId} (h : f.Tidy) (halloc : f.alloc node = (id, g)) :
    f.Adds node id g := by
  have hlive : (f.alloc node).2.live = f.live + 1 := by
    rw [Forest.alloc]
    split <;> rfl
  have hnone := h.get?_alloc_fst node
  have hget := h.get?_alloc node
  have htidy := h.alloc node
  rw [halloc] at hlive hnone hget htidy
  exact ⟨hnone, hget, htidy, hlive⟩

section Sweep

variable (f : Forest) (keep : NodeId → Bool)

theorem idsFrom_mapIdx (start : Nat) (slots : List Slot) :
    idsFrom start (slots.mapIdx fun i slot => sweepSlot keep (start + i) slot) =
      (idsFrom start slots).filter fun e => keep e.1 := by
  induction slots generalizing start with
  | nil => rfl
  | cons slot rest ih =>
      have hshift : (fun i slot => sweepSlot keep (start + (i + 1)) slot) =
          fun i slot => sweepSlot keep (start + 1 + i) slot := by
        funext i slot
        rw [Nat.add_assoc, Nat.add_comm 1 i]
      obtain ⟨generation, stored⟩ := slot
      rw [List.mapIdx_cons, hshift, Nat.add_zero]
      cases stored with
      | none =>
          have hslot : sweepSlot keep start ⟨generation, none⟩ = ⟨generation, none⟩ := by simp [sweepSlot]
          simp only [hslot, idsFrom, ih]
      | some node =>
          by_cases hk : keep ⟨start, generation⟩ = true
          · have hslot : sweepSlot keep start ⟨generation, some node⟩ = ⟨generation, some node⟩ := by
              simp [sweepSlot, hk]
            simp only [hslot, idsFrom, ih, List.filter_cons, hk, ite_true]
          · have hslot : sweepSlot keep start ⟨generation, some node⟩ = ⟨generation + 1, none⟩ := by
              simp [sweepSlot, hk]
            simp only [hslot, idsFrom, ih, List.filter_cons, hk, ite_false, Bool.false_eq_true]

theorem toList_sweep : (f.sweep keep).2.toList = f.toList.filter fun e => keep e.1 := by
  have h := idsFrom_mapIdx keep 0 f.slots.toList
  simpa [toList, sweep] using h

theorem ids_sweep : (f.sweep keep).2.ids = f.ids.filter keep := by
  rw [ids, toList_sweep, ids, List.filter_map]
  rfl

theorem get?_sweep (id : NodeId) : (f.sweep keep).2.get? id = if keep id then f.get? id else none := by
  refine Option.ext fun node => ?_
  rw [← mem_toList, toList_sweep, List.mem_filter, mem_toList]
  by_cases hk : keep id = true
  · simp [hk]
  · simp [hk]

theorem mem_sweep_fst {id : NodeId} :
    id ∈ (f.sweep keep).1 ↔ f.contains id = true ∧ keep id = false := by
  rw [← mem_ids]
  simp [sweep, ids]

theorem nodup_sweep_fst : (f.sweep keep).1.Nodup := f.nodup_ids.sublist List.filter_sublist

/-- Freed and kept handles make up those that were there. -/
theorem length_sweep_fst : (f.sweep keep).1.length + (f.sweep keep).2.ids.length = f.ids.length := by
  rw [ids_sweep]
  have h := List.length_eq_length_filter_add (l := f.ids) keep
  have hfreed : (f.sweep keep).1 = f.ids.filter (!keep ·) := rfl
  rw [hfreed]
  omega

variable {f}

theorem index_injOn {id id' : NodeId} (h : f.contains id = true) (h' : f.contains id' = true)
    (hindex : id.index = id'.index) : id = id' := by
  obtain ⟨node, hnode⟩ := contains_iff.mp h
  obtain ⟨node', hnode'⟩ := contains_iff.mp h'
  rw [get?_eq_some] at hnode hnode'
  rw [hindex, hnode'] at hnode
  obtain ⟨index, generation⟩ := id
  obtain ⟨index', generation'⟩ := id'
  simp only [Option.some.injEq, Slot.mk.injEq] at hnode
  simp only at hindex
  rw [hindex, hnode.1]

/-- The slots that are freed: a node stands there whose handle is not kept. -/
theorem mem_map_index_sweep {i : Nat} :
    i ∈ (f.sweep keep).1.map NodeId.index ↔
      ∃ generation node, f.slots[i]? = some ⟨generation, some node⟩ ∧ keep ⟨i, generation⟩ = false := by
  constructor
  · intro h
    obtain ⟨id, hid, rfl⟩ := List.mem_map.mp h
    obtain ⟨hlive, hkeep⟩ := (mem_sweep_fst f keep).mp hid
    obtain ⟨node, hnode⟩ := contains_iff.mp hlive
    exact ⟨id.generation, node, get?_eq_some.mp hnode, hkeep⟩
  · rintro ⟨generation, node, hslot, hkeep⟩
    have hlive : f.contains ⟨i, generation⟩ = true := contains_iff.mpr ⟨node, get?_eq_some.mpr hslot⟩
    exact List.mem_map.mpr ⟨_, (mem_sweep_fst f keep).mpr ⟨hlive, hkeep⟩, rfl⟩

theorem Tidy.sweep (h : f.Tidy) : (f.sweep keep).2.Tidy where
  nodup := by
    refine List.nodup_append.mpr ⟨?_, h.nodup, ?_⟩
    · refine List.nodup_reverse.mpr (List.Nodup.map_on ?_ (nodup_sweep_fst f keep))
      intro id hid id' hid' hindex
      exact index_injOn ((mem_sweep_fst f keep).mp hid).1 ((mem_sweep_fst f keep).mp hid').1 hindex
    · rintro i hi _ hfree rfl
      obtain ⟨generation, node, hnode, -⟩ := (mem_map_index_sweep keep).mp (List.mem_reverse.mp hi)
      obtain ⟨slot, hslot, hnone⟩ := (h.free_iff i).mp hfree
      obtain rfl := Option.some.inj (hnode.symm.trans hslot)
      cases hnone
  free_iff := by
    intro i
    have hslots : (f.sweep keep).2.slots[i]? = (f.slots[i]?).map (sweepSlot keep i) := by
      simp [Forest.sweep, Array.getElem?_mapIdx]
    have hfree : i ∈ (f.sweep keep).2.free ↔ i ∈ (f.sweep keep).1.map NodeId.index ∨ i ∈ f.free :=
      List.mem_append.trans (or_congr_left List.mem_reverse)
    rw [hfree, mem_map_index_sweep, hslots, h.free_iff]
    cases f.slots[i]? with
    | none => simp
    | some slot =>
        obtain ⟨generation, stored⟩ := slot
        cases stored with
        | none => simp [sweepSlot]
        | some node =>
            by_cases hk : keep ⟨i, generation⟩ = true
            · simp [sweepSlot, hk]
            · simp [sweepSlot, hk]
  live_eq := by
    have hlength := length_sweep_fst f keep
    have hlive := h.live_eq
    change f.live - (f.sweep keep).1.length = _
    omega

end Sweep
end Forest
end Palimpsest
