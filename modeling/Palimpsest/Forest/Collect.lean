import Palimpsest.Forest.Basic
import Palimpsest.Reach

/-!
Sweeps, which free nodes, and collections: sweeps of what cannot be reached from given nodes, together with
its places.
-/

namespace Palimpsest
namespace Forest

/-- The slot after a sweep that keeps what `keep` accepts. -/
def sweepSlot (keep : NodeId → Bool) (index : Nat) (slot : Slot) : Slot :=
  if slot.node.isSome && !keep ⟨index, slot.generation⟩ then ⟨slot.generation + 1, none⟩ else slot

/-- Frees every node that `keep` does not accept; the freed handles come in order of their slots. -/
def sweep (f : Forest) (keep : NodeId → Bool) : List NodeId × Forest :=
  let freed := (f.toList.map Prod.fst).filter (!keep ·)
  (freed, { slots := f.slots.mapIdx fun index slot => sweepSlot keep index slot
            free := (freed.map NodeId.index).reverse ++ f.free
            live := f.live - freed.length })

/-- The same with the numbers of slots in words, on the free list too. -/
def sweepWord (f : Forest) (keep : NodeId → Bool) : List NodeId × Forest :=
  let swept := f.sweep fun id => keep id.cut
  let freed := swept.1.map NodeId.cut
  (freed, { swept.2 with free := (freed.map NodeId.index).reverse ++ f.free })

/-- The nodes of the subtrees of `roots`. -/
def reachable (f : Forest) (roots : List NodeId) : Except FreedNode (List NodeId) := do
  let successors (id : NodeId) : Except FreedNode (List NodeId) := return (← f.get id).kind.children
  return (← Reach.trace successors (f.live + 1) roots).marked

/-- The freed handles, and what is left of the nodes and of their places. -/
def collect (f : Forest) (locations : Locations) (roots : List NodeId) :
    Except FreedNode (List NodeId × Forest × Locations) := do
  let kept ← f.reachable roots
  let (freed, forest) := f.sweep kept.contains
  return (freed, forest, locations.eraseAll freed)

end Forest
end Palimpsest
