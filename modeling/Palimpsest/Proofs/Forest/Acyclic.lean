import Mathlib.Data.Fintype.EquivFin
import Mathlib.Data.Fintype.Sets
import Palimpsest.Proofs.Forest.Coherent

/-!
Sizes and cycles. Where sizes follow from those of the children, edges lead into no cycle; and where they
lead into none, there are sizes that follow, so that only the sizes stored with the nodes of an acyclic forest
can keep it from being built.
-/

namespace Palimpsest
namespace Forest

variable {f : Forest}

/-- An edge to a child. -/
def Edge (f : Forest) (parent child : NodeId) : Prop := child ∈ f.childrenOf parent

theorem contains_of_edge {parent child : NodeId} (h : f.Edge parent child) : f.contains parent = true := by
  apply contains_of_kindOf
  intro hleaf
  simp [Edge, childrenOf, hleaf, NodeKind.children] at h

theorem Built.sizeOf_lt (h : f.Built) {x y : NodeId} (path : Relation.TransGen f.Edge x y) :
    f.contains y = true ∧ f.sizeOf y < f.sizeOf x := by
  induction path with
  | single edge =>
      have hthere := contains_of_edge edge
      exact ⟨h.sized.closed _ hthere _ edge, h.sized.size_lt hthere edge⟩
  | tail _ edge ih =>
      exact ⟨h.sized.closed _ ih.1 _ edge, Nat.lt_trans (h.sized.size_lt ih.1 edge) ih.2⟩

theorem Built.acyclic (h : f.Built) (id : NodeId) : ¬ Relation.TransGen f.Edge id id :=
  fun path => Nat.lt_irrefl _ (h.sizeOf_lt path).2

/-- The same nodes with other sizes. -/
def resize (f : Forest) (size : NodeId → Nat) : Forest :=
  { f with slots := f.slots.mapIdx fun i slot =>
      { slot with node := slot.node.map fun node => { node with size := size ⟨i, slot.generation⟩ } } }

theorem get?_resize (f : Forest) (size : NodeId → Nat) (id : NodeId) :
    (f.resize size).get? id = (f.get? id).map fun node => { node with size := size id } := by
  simp only [get?, resize, Array.getElem?_mapIdx]
  cases h : f.slots[id.index]? with
  | none => rfl
  | some slot =>
      simp only [Option.map_some]
      split
      · rename_i hgeneration
        rw [hgeneration]
      · rfl

theorem wellFounded_of_acyclic (hclosed : ∀ x y, f.Edge x y → f.contains y = true)
    (hacyclic : ∀ id, ¬ Relation.TransGen f.Edge id id) : WellFounded fun child parent => f.Edge parent child := by
  -- Edges run between the finitely many nodes that are there, where being acyclic is being well-founded.
  let inner (a b : { id // id ∈ f.ids }) : Prop := Relation.TransGen f.Edge b a
  have hinner : WellFounded inner := by
    have htrans : IsTrans _ inner := ⟨fun _ _ _ hab hbc => hbc.trans hab⟩
    have hirrefl : Std.Irrefl inner := ⟨fun a => hacyclic a⟩
    have hfinite : Finite { id // id ∈ f.ids } := Finite.of_fintype _
    exact Finite.wellFounded_of_trans_of_irrefl inner
  have hacc (a : { id // id ∈ f.ids }) : Acc (fun child parent => f.Edge parent child) a.1 := by
    induction a using hinner.induction with
    | h a ih =>
        refine .intro _ fun y hy => ?_
        exact ih ⟨y, mem_ids.mpr (hclosed _ y hy)⟩ (.single hy)
  refine ⟨fun x => .intro x fun y hy => ?_⟩
  exact hacc ⟨y, mem_ids.mpr (hclosed x y hy)⟩

/-- A forest along whose edges there is no cycle, with children that are there and fingerprints that follow
from theirs, is built once its nodes are given their sizes. -/
theorem exists_built_resize (hclosed : ∀ x y, f.Edge x y → f.contains y = true)
    (hacyclic : ∀ id, ¬ Relation.TransGen f.Edge id id)
    (hprint : ∀ id, f.contains id = true → f.printOf id = ((f.kindOf id).map f.printOf).fingerprint) :
    ∃ size, (f.resize size).Built := by
  have hwf := wellFounded_of_acyclic hclosed hacyclic
  -- By recursion along the edges, for the sizes that are stored may be wrong.
  let size : NodeId → Nat := hwf.fix fun id sizes => 1 + ((f.childrenOf id).attach.map fun c => sizes c.1 c.2).sum
  have hsize (id : NodeId) : size id = 1 + ((f.childrenOf id).map size).sum := by
    change hwf.fix _ id = _
    rw [hwf.fix_eq]
    simp [size]
  refine ⟨size, ⟨fun id node hid => ?_⟩⟩
  rw [get?_resize] at hid
  obtain ⟨stored, hstored, rfl⟩ := Option.map_eq_some_iff.mp hid
  have hchildren : ∀ c ∈ stored.kind.children, f.contains c = true := by
    intro c hc
    exact hclosed id c (by rwa [Edge, childrenOf, kindOf_eq hstored])
  have hthere (c : NodeId) (hc : f.contains c = true) :
      (f.resize size).contains c = true ∧ (f.resize size).printOf c = f.printOf c ∧ (f.resize size).sizeOf c = size c := by
    obtain ⟨child, hchild⟩ := contains_iff.mp hc
    simp [contains, printOf, sizeOf, get?_resize, hchild]
  have hprints : stored.kind.map (f.resize size).printOf = stored.kind.map f.printOf :=
    NodeKind.map_congr fun c hc => (hthere c (hchildren c hc)).2.1
  have hsizes : stored.kind.children.map (f.resize size).sizeOf = stored.kind.children.map size :=
    List.map_congr_left fun c hc => (hthere c (hchildren c hc)).2.2
  have hown := hprint id (contains_iff.mpr ⟨stored, hstored⟩)
  rw [printOf_eq hstored, kindOf_eq hstored] at hown
  refine build_eq_ok.mpr ⟨fun c hc => (hthere c (hchildren c hc)).1, ?_⟩
  rw [node, hprints, hsizes, ← hown, hsize id, childrenOf, kindOf_eq hstored]
  rfl

end Forest
end Palimpsest
