import Palimpsest.Forest.Collect
import Palimpsest.Proofs.Forest.Coherent
import Palimpsest.Proofs.Lookup

/-!
Places of nodes, and the collection of nodes that no root leads to. Places are kept for exactly the nodes
that are there; a collection keeps what the roots lead to, as it is and where it is, and frees the rest.
-/

namespace Palimpsest

namespace Locations

variable {t : Locations}

theorem get?_eraseAll (t : Locations) (ids : List NodeId) (x : NodeId) :
    (t.eraseAll ids).get? x = if x ∈ ids then none else t.get? x := by
  have hfilter := lookup_filter_key (fun k => !ids.contains k) t.entries x
  rw [get?, eraseAll, hfilter, get?]
  by_cases h : x ∈ ids <;> simp [h]

/-- Only nodes that are there have a place. -/
def Within (t : Locations) (f : Forest) : Prop := ∀ e ∈ t.entries, f.contains e.1 = true

/-- Each node of a forest has one place, and nothing else has one. -/
structure Placed (t : Locations) (f : Forest) : Prop where
  nodup : (t.entries.map Prod.fst).Nodup
  isSome_eq : ∀ id, (t.get? id).isSome = f.contains id

namespace Placed

variable {f : Forest}

theorem empty : Placed .empty .empty where
  nodup := List.nodup_nil
  isSome_eq _ := rfl

theorem within (h : t.Placed f) : t.Within f := by
  intro e he
  rw [← h.isSome_eq, get?, lookup_isSome_iff]
  exact List.mem_map_of_mem he

theorem sweep (h : t.Placed f) (keep : NodeId → Bool) :
    (t.eraseAll (f.sweep keep).1).Placed (f.sweep keep).2 where
  nodup := h.nodup.sublist (List.filter_sublist.map Prod.fst)
  isSome_eq id := by
    have hid := h.isSome_eq id
    rw [get?_eraseAll, Forest.contains, Forest.get?_sweep]
    by_cases hk : keep id = true
    · simpa [Forest.mem_sweep_fst, hk, Forest.contains] using hid
    · by_cases hc : f.contains id = true
      · simp [Forest.mem_sweep_fst, hk, hc]
      · simpa [Forest.mem_sweep_fst, hk, hc] using hid

end Placed
end Locations

namespace Forest

variable {f : Forest} {roots : List NodeId}

/-- What roots that are there lead to is there. -/
theorem Built.contains_of_reachable (h : f.Built) (hroots : ∀ r ∈ roots, f.contains r = true) {id : NodeId}
    (hid : Reach.Reachable f.childrenOf roots id) : f.contains id = true :=
  hid.of_closed hroots h.sized.closed

/-- The tracer finds everything that the roots lead to. -/
theorem reachable_eq (h : f.Built) (ht : f.Tidy) (hroots : ∀ r ∈ roots, f.contains r = true) :
    ∃ kept, f.reachable roots = .ok kept ∧
      ∀ id, id ∈ kept ↔ Reach.Reachable f.childrenOf roots id := by
  have hnext (id : NodeId) (hid : Reach.Reachable f.childrenOf roots id) :
      (do return (← f.get id).kind.children : Except FreedNode (List NodeId)) = pure (f.childrenOf id) := by
    obtain ⟨node, hnode⟩ := contains_iff.mp (h.contains_of_reachable hroots hid)
    rw [get_eq_ok.mpr hnode, childrenOf, kindOf_eq hnode]
    rfl
  have hdomain (id : NodeId) (hid : Reach.Reachable f.childrenOf roots id) : id ∈ f.ids :=
    mem_ids.mpr (h.contains_of_reachable hroots hid)
  have hlimit : f.ids.length ≤ f.live + 1 := by
    have hlive := ht.live_eq
    omega
  obtain ⟨trace, htrace, -, -, hmem⟩ := Reach.trace_eq hnext hdomain hlimit
  refine ⟨trace.marked, ?_, hmem⟩
  rw [reachable, htrace]
  rfl

/-- A collection sweeps what the roots do not lead to, and forgets where it was. -/
theorem collect_eq (h : f.Built) (ht : f.Tidy) (t : Locations) (hroots : ∀ r ∈ roots, f.contains r = true) :
    ∃ keep : NodeId → Bool, (∀ id, keep id = true ↔ Reach.Reachable f.childrenOf roots id) ∧
      f.collect t roots = .ok ((f.sweep keep).1, (f.sweep keep).2, t.eraseAll (f.sweep keep).1) := by
  obtain ⟨kept, hkept, hmem⟩ := reachable_eq h ht hroots
  refine ⟨kept.contains, fun id => by rw [List.contains_iff_mem, hmem], ?_⟩
  rw [collect, hkept]
  rfl

/-- What roots lead to goes down to children, so that a collection leaves no node without its own. -/
theorem Coherent.sweep (h : f.Coherent) {keep : NodeId → Bool}
    (hkeep : ∀ id, keep id = true ↔ Reach.Reachable f.childrenOf roots id) :
    (f.sweep keep).2.Coherent := by
  refine h.restrict (get?_sweep f keep) fun id _ hid c hc => ?_
  exact (hkeep c).mpr (((hkeep id).mp hid).step hc)

end Forest
end Palimpsest
