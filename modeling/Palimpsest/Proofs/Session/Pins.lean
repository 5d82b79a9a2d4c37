import Mathlib.Data.List.Nodup
import Palimpsest.Session.Context

/-!
The counts of pins. Pinning adds one to the count of a node and unpinning takes one away; a node is among
the pins as long as its count is not zero.
-/

namespace Palimpsest
namespace Context

/-- How often a node is pinned. -/
def pinCount (pins : List (NodeId × Nat)) (id : NodeId) : Nat := (pins.lookup id).getD 0

theorem pinCount_cons (e : NodeId × Nat) (pins : List (NodeId × Nat)) (x : NodeId) :
    pinCount (e :: pins) x = if x = e.1 then e.2 else pinCount pins x := by
  obtain ⟨key, count⟩ := e
  by_cases h : x = key
  · simp [pinCount, h]
  · simp [pinCount, List.lookup_cons, beq_false_of_ne h, h]

/-- Pins are counted once for each node, and from one. -/
structure Pinned (pins : List (NodeId × Nat)) : Prop where
  nodup : (pins.map Prod.fst).Nodup
  pos : ∀ e ∈ pins, 0 < e.2

namespace Pinned

variable {pins : List (NodeId × Nat)} {id : NodeId}

theorem cons_iff {e : NodeId × Nat} :
    Pinned (e :: pins) ↔ e.1 ∉ pins.map Prod.fst ∧ 0 < e.2 ∧ Pinned pins := by
  constructor
  · intro h
    obtain ⟨hfirst, hrest⟩ := List.nodup_cons.mp h.nodup
    exact ⟨hfirst, h.pos e List.mem_cons_self, hrest, fun x hx => h.pos x (List.mem_cons_of_mem e hx)⟩
  · intro h
    refine ⟨List.nodup_cons.mpr ⟨h.1, h.2.2.nodup⟩, fun x hx => ?_⟩
    cases List.mem_cons.mp hx with
    | inl heq => exact heq ▸ h.2.1
    | inr hin => exact h.2.2.pos x hin

theorem mem_iff (h : Pinned pins) : id ∈ pins.map Prod.fst ↔ 0 < pinCount pins id := by
  induction pins with
  | nil => simp [pinCount]
  | cons e rest ih =>
      obtain ⟨-, hpos, hrest⟩ := cons_iff.mp h
      rw [List.map_cons, List.mem_cons, pinCount_cons, ih hrest]
      by_cases heq : id = e.1 <;> simp [heq, hpos]

theorem mem_addPin (id x : NodeId) (pins : List (NodeId × Nat)) :
    x ∈ (addPin id pins).map Prod.fst ↔ x = id ∨ x ∈ pins.map Prod.fst := by
  induction pins with
  | nil => simp [addPin]
  | cons e rest ih =>
      rw [addPin]
      by_cases heq : e.1 = id
      · subst heq
        simp
      · rw [if_neg heq, List.map_cons, List.mem_cons, ih, List.map_cons, List.mem_cons]
        exact or_left_comm

theorem addPin (h : Pinned pins) (id : NodeId) : Pinned (addPin id pins) := by
  induction pins with
  | nil => exact ⟨by simp [Context.addPin], by simp [Context.addPin]⟩
  | cons e rest ih =>
      obtain ⟨hfirst, hpos, hrest⟩ := cons_iff.mp h
      rw [Context.addPin]
      by_cases heq : e.1 = id
      · rw [if_pos heq]
        exact cons_iff.mpr ⟨hfirst, by omega, hrest⟩
      · rw [if_neg heq]
        refine cons_iff.mpr ⟨fun hmem => ?_, hpos, ih hrest⟩
        cases (mem_addPin id e.1 rest).mp hmem with
        | inl h => exact heq h
        | inr h => exact hfirst h

theorem pinCount_addPin (id x : NodeId) (pins : List (NodeId × Nat)) :
    pinCount (Context.addPin id pins) x = pinCount pins x + if x = id then 1 else 0 := by
  induction pins with
  | nil =>
      rw [Context.addPin, pinCount_cons]
      simp [pinCount]
  | cons e rest ih =>
      rw [Context.addPin]
      by_cases heq : e.1 = id
      · subst heq
        rw [if_pos rfl, pinCount_cons, pinCount_cons]
        by_cases h : x = e.1 <;> simp [h]
      · rw [if_neg heq, pinCount_cons, pinCount_cons, ih]
        by_cases h : x = e.1
        · have hne : x ≠ id := h ▸ heq
          simp [h, heq]
        · simp [h]

theorem mem_dropPin {x : NodeId} (h : x ∈ (dropPin id pins).map Prod.fst) : x ∈ pins.map Prod.fst := by
  induction pins with
  | nil => exact h
  | cons e rest ih =>
      rw [dropPin] at h
      by_cases heq : e.1 = id
      · by_cases hmany : e.2 > 1
        · simpa [heq, hmany] using h
        · simp only [heq, hmany, ite_true, ite_false] at h
          exact List.mem_cons_of_mem _ h
      · rw [if_neg heq, List.map_cons, List.mem_cons] at h
        exact List.mem_cons.mpr (h.imp_right ih)

theorem dropPin (h : Pinned pins) (id : NodeId) : Pinned (dropPin id pins) := by
  induction pins with
  | nil => exact h
  | cons e rest ih =>
      obtain ⟨hfirst, hpos, hrest⟩ := cons_iff.mp h
      rw [Context.dropPin]
      by_cases heq : e.1 = id
      · by_cases hmany : e.2 > 1
        · simp only [heq, hmany, ite_true]
          exact cons_iff.mpr ⟨heq ▸ hfirst, by omega, hrest⟩
        · simp only [heq, hmany, ite_true, ite_false]
          exact hrest
      · rw [if_neg heq]
        exact cons_iff.mpr ⟨fun hmem => hfirst (mem_dropPin hmem), hpos, ih hrest⟩

theorem pinCount_dropPin (h : Pinned pins) (id x : NodeId) :
    pinCount (Context.dropPin id pins) x = pinCount pins x - if x = id then 1 else 0 := by
  induction pins with
  | nil => by_cases hx : x = id <;> simp [Context.dropPin, pinCount]
  | cons e rest ih =>
      obtain ⟨hfirst, hpos, hrest⟩ := cons_iff.mp h
      rw [Context.dropPin]
      by_cases heq : e.1 = id
      · subst heq
        have hgone : pinCount rest e.1 = 0 := by
          have hnone : ¬ 0 < pinCount rest e.1 := fun hpos => hfirst ((mem_iff hrest).mpr hpos)
          omega
        by_cases hmany : e.2 > 1
        · rw [if_pos rfl, if_pos hmany, pinCount_cons, pinCount_cons]
          by_cases hx : x = e.1 <;> simp [hx]
        · rw [if_pos rfl, if_neg hmany, pinCount_cons]
          by_cases hx : x = e.1
          · subst hx
            simp only [ite_true, hgone]
            omega
          · simp [hx]
      · rw [if_neg heq, pinCount_cons, pinCount_cons, ih hrest]
        by_cases hx : x = e.1
        · simp [hx, heq]
        · simp [hx]

end Pinned
end Context
end Palimpsest
