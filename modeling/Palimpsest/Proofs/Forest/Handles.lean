import Mathlib.Algebra.Ring.Nat
import Palimpsest.Proofs.Forest.Arena

/-!
The handles of a forest under all that is done to it, with the numbers of slots in words of 32 bits. The generation
of a slot counts how often it was freed, so until that is 2^32 times, and until there are more than 2^32 slots, no
handle is given out again, and each refers to what was stored under it until a sweep does not keep it.
-/

namespace Palimpsest
namespace Forest

inductive Call where
  | alloc (node : Node)
  | sweep (keep : NodeId → Bool)

/-- A call with its answer. -/
inductive Deed where
  | stored (id : NodeId) (node : Node)
  | swept (keep : NodeId → Bool) (freed : List NodeId)

def call (f : Forest) : Call → Deed × Forest
  | .alloc node => (.stored (f.allocWord node).1 node, (f.allocWord node).2)
  | .sweep keep => (.swept keep (f.sweepWord keep).1, (f.sweepWord keep).2)

def calls (f : Forest) : List Call → List Deed × Forest
  | [] => ([], f)
  | c :: rest => ((f.call c).1 :: ((f.call c).2.calls rest).1, ((f.call c).2.calls rest).2)

namespace Deed

def handle? : Deed → Option NodeId
  | stored id _ => some id
  | swept _ _ => none

def freed : Deed → List NodeId
  | stored _ _ => []
  | swept _ freed => freed

def spares (id : NodeId) : Deed → Bool
  | stored _ _ => true
  | swept keep _ => keep id

/-- What a handle refers to after a deed, if it referred to `held` before. -/
def leaves (id : NodeId) (held : Option Node) : Deed → Option Node
  | stored new node => if id = new then some node else held
  | swept keep _ => if keep id then held else none

end Deed

/-- The handles given out, in order. -/
def handles (deeds : List Deed) : List NodeId := deeds.filterMap Deed.handle?

/-- How often a slot was freed. -/
def freedAt (i : Nat) (deeds : List Deed) : Nat := (deeds.flatMap Deed.freed).countP (·.index = i)

theorem freedAt_concat (i : Nat) (deeds : List Deed) (d : Deed) :
    freedAt i (deeds ++ [d]) = freedAt i deeds + d.freed.countP (·.index = i) := by
  simp [freedAt]

/-- A handle that is not given out again refers to the same until a sweep does not keep it. -/
theorem foldl_leaves {id : NodeId} {deeds : List Deed} (hid : id ∉ handles deeds) (held : Option Node) :
    deeds.foldl (Deed.leaves id) held = if deeds.all (·.spares id) then held else none := by
  induction deeds generalizing held with
  | nil => rfl
  | cons d rest ih =>
      cases d with
      | stored new node =>
          simp only [handles, List.filterMap_cons, Deed.handle?, List.mem_cons, not_or] at hid
          rw [List.foldl_cons, ih hid.2]
          simp [Deed.leaves, Deed.spares, hid.1]
      | swept keep freed =>
          simp only [handles, List.filterMap_cons, Deed.handle?] at hid
          rw [List.foldl_cons, ih hid]
          by_cases hk : keep id = true
          · simp [Deed.leaves, Deed.spares, hk]
          · simp [Deed.leaves, Deed.spares, hk]

section Words

variable {f : Forest} {id : NodeId}

theorem index_lt_of_contains (h : f.contains id = true) : id.index < f.slots.size := by
  obtain ⟨node, hnode⟩ := contains_iff.mp h
  exact (Array.getElem?_eq_some_iff.mp (get?_eq_some.mp hnode)).1

/-- A word holds the number of a slot, if there are no more slots than words. -/
theorem cut_of_contains (hfits : f.slots.size ≤ 2 ^ 32) (h : f.contains id = true) : id.cut = id := by
  have hlt := index_lt_of_contains h
  have hword : (UInt32.ofNat id.index).toNat = id.index := UInt32.toNat_ofNat_of_lt' (Nat.lt_of_lt_of_le hlt hfits)
  rw [NodeId.cut, hword]

theorem toListWord_eq (hfits : f.slots.size ≤ 2 ^ 32) : f.toListWord = f.toList := by
  have hcut : ∀ e ∈ f.toList, (e.1.cut, e.2) = e := by
    intro e he
    rw [cut_of_contains hfits (contains_iff.mpr ⟨e.2, mem_toList.mp he⟩)]
  rw [toListWord, List.map_congr_left hcut, List.map_id']

theorem allocWord_eq {node : Node} (h : f.Tidy) (hfits : (f.alloc node).2.slots.size ≤ 2 ^ 32) :
    f.allocWord node = f.alloc node := by
  have hthere : (f.alloc node).2.contains (f.alloc node).1 = true := by
    rw [contains, h.get?_alloc, if_pos rfl]
    rfl
  rw [allocWord, cut_of_contains hfits hthere]

/-- What a sweep does depends on the handles of the nodes that are there. -/
theorem sweep_congr {keep keep' : NodeId → Bool} (h : ∀ id, f.contains id = true → keep id = keep' id) :
    f.sweep keep = f.sweep keep' := by
  have hfreed : f.ids.filter (!keep ·) = f.ids.filter (!keep' ·) := by
    apply List.filter_congr
    intro id hid
    rw [h id (mem_ids.mp hid)]
  have hslots : (f.slots.mapIdx fun i slot => sweepSlot keep i slot) =
      f.slots.mapIdx fun i slot => sweepSlot keep' i slot := by
    apply Array.ext_getElem?
    intro i
    rw [Array.getElem?_mapIdx, Array.getElem?_mapIdx]
    cases hslot : f.slots[i]? with
    | none => rfl
    | some slot =>
        obtain ⟨generation, stored⟩ := slot
        cases stored with
        | none => rfl
        | some node =>
            have hthere : f.contains ⟨i, generation⟩ = true := contains_iff.mpr ⟨node, get?_eq_some.mpr hslot⟩
            simp only [Option.map_some, sweepSlot, h _ hthere]
  rw [ids] at hfreed
  rw [sweep, hfreed, hslots]
  rfl

theorem sweepWord_eq (hfits : f.slots.size ≤ 2 ^ 32) (keep : NodeId → Bool) : f.sweepWord keep = f.sweep keep := by
  have hsame : (f.sweep fun id => keep id.cut) = f.sweep keep :=
    sweep_congr fun id hid => congrArg keep (cut_of_contains hfits hid)
  have hcut : (f.sweep keep).1.map NodeId.cut = (f.sweep keep).1 := by
    have hfreed : ∀ id ∈ (f.sweep keep).1, id.cut = id :=
      fun id hid => cut_of_contains hfits ((mem_sweep_fst f keep).mp hid).1
    rw [List.map_congr_left hfreed, List.map_id']
  simp only [sweepWord, hsame, hcut]
  rfl

theorem size_le_alloc (f : Forest) (node : Node) : f.slots.size ≤ (f.alloc node).2.slots.size := by
  rw [alloc]
  split
  · simp
  · simp

theorem size_alloc_le (f : Forest) (node : Node) : (f.alloc node).2.slots.size ≤ f.slots.size + 1 := by
  rw [alloc]
  split
  · simp
  · simp

theorem size_sweep (f : Forest) (keep : NodeId → Bool) : (f.sweep keep).2.slots.size = f.slots.size := by
  simp [sweep]

theorem size_le_calls (f : Forest) (cs : List Call) : f.slots.size ≤ (f.calls cs).2.slots.size := by
  induction cs generalizing f with
  | nil => exact Nat.le_refl _
  | cons c rest ih =>
      have hstep : f.slots.size ≤ (f.call c).2.slots.size := by
        cases c with
        | alloc node => exact size_le_alloc f node
        | sweep keep => exact Nat.le_of_eq (size_sweep f _).symm
      exact Nat.le_trans hstep (ih _)

end Words

section Generation

/-- The generation of the next handle to a slot, or of the one that there is. -/
def generationAt (f : Forest) (i : Nat) : UInt32 := ((f.slots[i]?).map Slot.generation).getD 0

variable (f : Forest)

theorem generation_eq {f : Forest} {id : NodeId} (h : f.contains id = true) :
    id.generation = f.generationAt id.index := by
  obtain ⟨node, hnode⟩ := contains_iff.mp h
  simp [generationAt, get?_eq_some.mp hnode]

theorem generation_alloc_fst (node : Node) : (f.alloc node).1.generation = f.generationAt (f.alloc node).1.index := by
  rw [Forest.alloc]
  split
  · rfl
  · simp [generationAt]

theorem generationAt_alloc (node : Node) (i : Nat) : (f.alloc node).2.generationAt i = f.generationAt i := by
  rw [Forest.alloc]
  split
  case h_1 index free hfree =>
      simp only [generationAt, Array.getElem?_setIfInBounds]
      by_cases hi : index = i
      · subst hi
        by_cases hlt : index < f.slots.size
        · simp [hlt]
        · simp [hlt]
      · simp [hi]
  case h_2 hfree =>
      simp only [generationAt, Array.getElem?_push]
      by_cases hi : i = f.slots.size
      · simp [hi]
      · simp [hi]

/-- A sweep frees at most one node of a slot. -/
theorem countP_sweep_fst (keep : NodeId → Bool) (i : Nat) : (f.sweep keep).1.countP (·.index = i) =
    if f.contains ⟨i, f.generationAt i⟩ = true ∧ keep ⟨i, f.generationAt i⟩ = false then 1 else 0 := by
  have hsame : (f.sweep keep).1.countP (·.index = i) = (f.sweep keep).1.count ⟨i, f.generationAt i⟩ := by
    apply List.countP_congr
    intro id hid
    have hgeneration := generation_eq ((mem_sweep_fst f keep).mp hid).1
    obtain ⟨index, generation⟩ := id
    simp only [decide_eq_true_eq, beq_iff_eq, NodeId.mk.injEq] at hgeneration ⊢
    constructor
    · intro hi
      subst hi
      exact ⟨rfl, hgeneration⟩
    · exact And.left
  rw [hsame]
  by_cases hmem : ⟨i, f.generationAt i⟩ ∈ (f.sweep keep).1
  · rw [List.count_eq_one_of_mem (nodup_sweep_fst f keep) hmem, if_pos ((mem_sweep_fst f keep).mp hmem)]
  · rw [List.count_eq_zero_of_not_mem hmem, if_neg (mt (mem_sweep_fst f keep).mpr hmem)]

theorem generationAt_sweep (keep : NodeId → Bool) (i : Nat) : (f.sweep keep).2.generationAt i =
    f.generationAt i + UInt32.ofNat ((f.sweep keep).1.countP (·.index = i)) := by
  have hslots : (f.sweep keep).2.slots[i]? = (f.slots[i]?).map (sweepSlot keep i) := by
    simp [Forest.sweep, Array.getElem?_mapIdx]
  rw [countP_sweep_fst, generationAt, hslots]
  cases hslot : f.slots[i]? with
  | none => simp [contains, get?, generationAt, hslot]
  | some slot =>
      obtain ⟨generation, stored⟩ := slot
      cases stored with
      | none => simp [contains, get?, generationAt, hslot, sweepSlot]
      | some node =>
          by_cases hk : keep ⟨i, generation⟩ = true
          · simp [contains, get?, generationAt, hslot, sweepSlot, hk]
          · simp [contains, get?, generationAt, hslot, sweepSlot, hk]

end Generation

/-- What all that was done to a forest has made of it. A handle that no longer refers to a node was given out when
its slot had been freed less often. -/
structure Standing (deeds : List Deed) (f : Forest) : Prop where
  tidy : f.Tidy
  generationAt_eq : ∀ i, f.generationAt i = UInt32.ofNat (freedAt i deeds)
  get?_eq : ∀ id, f.get? id = deeds.foldl (Deed.leaves id) none
  passed : ∀ id ∈ handles deeds, f.contains id = true ∨ ∃ n < freedAt id.index deeds, id.generation = UInt32.ofNat n
  nodup : (∀ i, freedAt i deeds < 2 ^ 32) → (handles deeds).Nodup

namespace Standing

variable {deeds : List Deed} {f : Forest}

theorem empty : Standing [] .empty where
  tidy := .empty
  generationAt_eq _ := rfl
  get?_eq _ := rfl
  passed _ hmem := absurd hmem List.not_mem_nil
  nodup _ := List.nodup_nil

/-- Of the handles of a slot the next one is none as long as its generations do not come round. -/
theorem alloc_fst_not_mem (h : Standing deeds f) (node : Node) (hfew : ∀ i, freedAt i deeds < 2 ^ 32) :
    (f.alloc node).1 ∉ handles deeds := by
  intro hmem
  cases h.passed _ hmem with
  | inl hlive =>
      rw [contains, h.tidy.get?_alloc_fst node] at hlive
      simp at hlive
  | inr hpassed =>
      obtain ⟨n, hn, hgeneration⟩ := hpassed
      rw [generation_alloc_fst, h.generationAt_eq] at hgeneration
      have hbound := hfew (f.alloc node).1.index
      have heq := congrArg UInt32.toNat hgeneration
      rw [UInt32.toNat_ofNat_of_lt' hbound, UInt32.toNat_ofNat_of_lt' (Nat.lt_trans hn hbound)] at heq
      omega

theorem alloc (h : Standing deeds f) (node : Node) :
    Standing (deeds ++ [.stored (f.alloc node).1 node]) (f.alloc node).2 := by
  have hfreed (i : Nat) : freedAt i (deeds ++ [.stored (f.alloc node).1 node]) = freedAt i deeds := by
    simp [freedAt_concat, Deed.freed]
  have hhandles : handles (deeds ++ [.stored (f.alloc node).1 node]) = handles deeds ++ [(f.alloc node).1] := by
    simp [handles, Deed.handle?]
  constructor
  case tidy => exact h.tidy.alloc node
  case generationAt_eq =>
    intro i
    rw [generationAt_alloc, h.generationAt_eq, hfreed]
  case get?_eq =>
    intro id
    rw [h.tidy.get?_alloc, h.get?_eq, List.foldl_append]
    rfl
  case passed =>
    intro id hmem
    rw [hfreed, contains, h.tidy.get?_alloc]
    by_cases hnew : id = (f.alloc node).1
    · simp [hnew]
    · rw [if_neg hnew]
      rw [hhandles, List.mem_append, List.mem_singleton] at hmem
      exact h.passed id (hmem.resolve_right hnew)
  case nodup =>
    intro hfew
    simp only [hfreed] at hfew
    rw [hhandles, ← List.concat_eq_append, List.nodup_concat]
    exact ⟨h.alloc_fst_not_mem node hfew, h.nodup hfew⟩

theorem sweep (h : Standing deeds f) (keep : NodeId → Bool) :
    Standing (deeds ++ [.swept keep (f.sweep keep).1]) (f.sweep keep).2 := by
  have hfreed (i : Nat) : freedAt i (deeds ++ [.swept keep (f.sweep keep).1]) =
      freedAt i deeds + (f.sweep keep).1.countP (·.index = i) := freedAt_concat i deeds _
  have hhandles : handles (deeds ++ [.swept keep (f.sweep keep).1]) = handles deeds := by
    simp [handles, Deed.handle?]
  constructor
  case tidy => exact h.tidy.sweep keep
  case generationAt_eq =>
    intro i
    rw [generationAt_sweep, h.generationAt_eq, hfreed, UInt32.ofNat_add]
  case get?_eq =>
    intro id
    rw [get?_sweep, h.get?_eq, List.foldl_append]
    rfl
  case passed =>
    intro id hmem
    rw [hhandles] at hmem
    rw [hfreed]
    cases h.passed id hmem with
    | inl hlive =>
        by_cases hk : keep id = true
        · left
          rw [contains, get?_sweep, if_pos hk]
          exact hlive
        · -- What is freed here has the generation that its slot had until now.
          have hgone : id ∈ (f.sweep keep).1 := (mem_sweep_fst f keep).mpr ⟨hlive, by simpa using hk⟩
          have hcount : 0 < (f.sweep keep).1.countP (·.index = id.index) :=
            List.countP_pos_iff.mpr ⟨id, hgone, by simp⟩
          exact .inr ⟨freedAt id.index deeds, by omega, (generation_eq hlive).trans (h.generationAt_eq _)⟩
    | inr hpassed =>
        obtain ⟨n, hn, hgeneration⟩ := hpassed
        exact .inr ⟨n, by omega, hgeneration⟩
  case nodup =>
    intro hfew
    rw [hhandles]
    apply h.nodup
    intro i
    exact Nat.lt_of_le_of_lt (by rw [hfreed]; exact Nat.le_add_right _ _) (hfew i)

theorem call {c : Call} (h : Standing deeds f) (hfits : (f.call c).2.slots.size ≤ 2 ^ 32) :
    Standing (deeds ++ [(f.call c).1]) (f.call c).2 := by
  cases c with
  | alloc node =>
      have heq : f.allocWord node = f.alloc node := allocWord_eq h.tidy hfits
      rw [Forest.call, heq]
      exact h.alloc node
  | sweep keep =>
      have hsize : f.slots.size ≤ 2 ^ 32 := Nat.le_trans (Nat.le_of_eq (size_sweep f _).symm) hfits
      have heq : f.sweepWord keep = f.sweep keep := sweepWord_eq hsize keep
      rw [Forest.call, heq]
      exact h.sweep keep

theorem calls (h : Standing deeds f) (cs : List Call) (hfits : (f.calls cs).2.slots.size ≤ 2 ^ 32) :
    Standing (deeds ++ (f.calls cs).1) (f.calls cs).2 := by
  induction cs generalizing deeds f with
  | nil => simpa [Forest.calls] using h
  | cons c rest ih =>
      have hrest := ih (h.call (Nat.le_trans (size_le_calls _ rest) hfits)) hfits
      rw [List.append_assoc] at hrest
      exact hrest

end Standing

/-- What a forest is to those who hold its handles and know what was done to it. -/
structure Told (deeds : List Deed) (f : Forest) : Prop where
  handles_nodup : (handles deeds).Nodup
  get?_stored : ∀ before id node after, deeds = before ++ .stored id node :: after →
    f.get? id = if after.all (·.spares id) then some node else none
  get?_unknown : ∀ id, id ∉ handles deeds → f.get? id = none
  mem_sweep : ∀ keep id, id ∈ (f.sweepWord keep).1 ↔ f.contains id = true ∧ keep id = false
  sweep_ordered : ∀ keep, (f.sweepWord keep).1.Pairwise (·.index < ·.index)
  mem_toList : ∀ id node, (id, node) ∈ f.toListWord ↔ f.get? id = some node
  toList_ordered : f.toListWord.Pairwise fun e e' => e.1.index < e'.1.index
  live_eq : f.live = f.toListWord.length
  /-- The calls with words are those that other statements speak of, if there is a word for the number of a new slot. -/
  alloc_plain : ∀ node, f.slots.size < 2 ^ 32 → f.allocWord node = f.alloc node
  sweep_plain : ∀ keep, f.sweepWord keep = f.sweep keep
  toList_plain : f.toListWord = f.toList

theorem Standing.told {deeds : List Deed} {f : Forest} (h : Standing deeds f) (hfew : ∀ i, freedAt i deeds < 2 ^ 32)
    (hfits : f.slots.size ≤ 2 ^ 32) : Told deeds f := by
  constructor
  case handles_nodup => exact h.nodup hfew
  case get?_stored =>
    intro before id node after heq
    have hnodup := h.nodup hfew
    rw [heq, handles, List.filterMap_append, List.filterMap_cons] at hnodup
    -- The handle is not given out again, so behind it only sweeps matter.
    have hafter : id ∉ handles after := (List.nodup_cons.mp (List.nodup_append.mp hnodup).2.1).1
    rw [h.get?_eq, heq, List.foldl_append, List.foldl_cons, foldl_leaves hafter]
    simp [Deed.leaves]
  case get?_unknown =>
    intro id hid
    rw [h.get?_eq, foldl_leaves hid, ite_self]
  case mem_sweep =>
    intro keep id
    rw [sweepWord_eq hfits]
    exact mem_sweep_fst f keep
  case sweep_ordered =>
    intro keep
    rw [sweepWord_eq hfits]
    exact f.pairwise_ids.sublist List.filter_sublist
  case mem_toList =>
    intro id node
    rw [toListWord_eq hfits]
    exact Forest.mem_toList
  case toList_ordered =>
    rw [toListWord_eq hfits]
    exact f.pairwise_toList
  case live_eq => rw [toListWord_eq hfits, h.tidy.live_eq, ids, List.length_map]
  case alloc_plain =>
    intro node hlt
    exact allocWord_eq h.tidy (Nat.le_trans (size_alloc_le f node) hlt)
  case sweep_plain => exact sweepWord_eq hfits
  case toList_plain => exact toListWord_eq hfits

/-- Handles are never confused, whatever is stored and swept, while no slot is freed 2^32 times and there are no more
than 2^32 slots. -/
theorem calls_told (cs : List Call) (hfew : ∀ i, freedAt i (empty.calls cs).1 < 2 ^ 32)
    (hfits : (empty.calls cs).2.slots.size ≤ 2 ^ 32) : Told (empty.calls cs).1 (empty.calls cs).2 :=
  (Standing.empty.calls cs hfits).told hfew hfits

/-- A slot is filled three times; the second sweep asks to keep a handle that is gone by then. -/
def refills : List Call :=
  [.alloc ⟨.identifier "a", default, 1⟩, .alloc ⟨.identifier "b", default, 1⟩, .sweep (· = ⟨1, 0⟩),
    .alloc ⟨.identifier "c", default, 1⟩, .sweep fun id => id = ⟨0, 0⟩ ∨ id = ⟨1, 0⟩, .alloc ⟨.identifier "d", default, 1⟩]

theorem calls_told_refills :
    (∀ i, freedAt i (empty.calls refills).1 < 2 ^ 32) ∧ (empty.calls refills).2.slots.size ≤ 2 ^ 32 ∧
      Told (empty.calls refills).1 (empty.calls refills).2 ∧
      handles (empty.calls refills).1 = [⟨0, 0⟩, ⟨1, 0⟩, ⟨0, 1⟩, ⟨0, 2⟩] ∧
      (empty.calls refills).2.ids = [⟨0, 2⟩, ⟨1, 0⟩] := by
  have hfreed : ((empty.calls refills).1.flatMap Deed.freed).length = 2 := by decide
  have hfew (i : Nat) : freedAt i (empty.calls refills).1 < 2 ^ 32 := by
    have hle : freedAt i (empty.calls refills).1 ≤ _ := List.countP_le_length
    omega
  have hfits : (empty.calls refills).2.slots.size ≤ 2 ^ 32 := by decide
  exact ⟨hfew, hfits, calls_told refills hfew hfits, by decide, by decide⟩

/-- A number of nodes, of which none is freed. -/
def crowd (n : Nat) : List Call := List.replicate n (.alloc ⟨.erroneous, default, 1⟩)

theorem deeds_crowd {f : Forest} (hfree : f.free = []) (n : Nat) : (f.calls (crowd n)).1 =
    (List.range' f.slots.size n).map fun i => .stored (NodeId.cut ⟨i, 0⟩) ⟨.erroneous, default, 1⟩ := by
  induction n generalizing f with
  | zero => rfl
  | succ n ih =>
      have halloc (node : Node) : f.alloc node =
          (⟨f.slots.size, 0⟩, { f with slots := f.slots.push ⟨0, some node⟩, live := f.live + 1 }) := by
        rw [alloc, hfree]
      have hrest := ih (f := (f.alloc ⟨.erroneous, default, 1⟩).2) (by rw [halloc]; exact hfree)
      rw [List.range'_succ, List.map_cons, crowd, List.replicate_succ, calls, call, allocWord]
      dsimp only
      rw [← crowd, hrest, halloc, Array.size_push]

theorem handles_crowd (n : Nat) :
    handles (empty.calls (crowd n)).1 = (List.range' 0 n).map fun i => NodeId.cut ⟨i, 0⟩ := by
  rw [deeds_crowd rfl, handles, List.filterMap_map]
  exact congrFun List.filterMap_eq_map _

/-- With one node more than there are words the first handle is given out again. -/
theorem handles_come_round : (∀ i, freedAt i (empty.calls (crowd (2 ^ 32 + 1))).1 < 2 ^ 32) ∧
    ¬ (handles (empty.calls (crowd (2 ^ 32 + 1))).1).Nodup := by
  constructor
  · intro i
    have hfreed : (empty.calls (crowd (2 ^ 32 + 1))).1.flatMap Deed.freed = [] := by
      rw [deeds_crowd rfl, List.flatMap_map]
      exact List.flatMap_eq_nil_iff.mpr fun _ _ => rfl
    rw [freedAt, hfreed, List.countP_nil]
    omega
  · rw [handles_crowd]
    intro hnodup
    have hfirst : 0 ∈ List.range' 0 (2 ^ 32 + 1) := by simp [List.mem_range'_1]
    have hlast : 2 ^ 32 ∈ List.range' 0 (2 ^ 32 + 1) := by simp [List.mem_range'_1]
    have hsame : NodeId.cut ⟨0, 0⟩ = NodeId.cut ⟨2 ^ 32, 0⟩ := by decide
    have heq := List.inj_on_of_nodup_map hnodup hfirst hlast hsame
    omega

end Forest
end Palimpsest
