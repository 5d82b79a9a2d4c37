import Palimpsest.Node.Fingerprint
import Palimpsest.Node.SymbolKey
import Palimpsest.Text.Location

/-!
The store of all program trees, and where its nodes were read from. A handle names a slot and the generation
in which the slot was filled; freeing a node starts the slot's next generation, so that no later node answers
to the handle. Slots are numbered without end; cut to words of 32 bits, their numbers are told apart in a
forest of at most 2^32 slots.
-/

namespace Palimpsest

structure NodeId where
  index : Nat
  generation : UInt32
deriving DecidableEq, Repr, Inhabited

/-- The handle with the number of its slot in a word of 32 bits. -/
def NodeId.cut (n : NodeId) : NodeId := { n with index := (UInt32.ofNat n.index).toNat }

def NodeId.display (n : NodeId) : String :=
  "#" ++ toString n.index ++ "." ++ toString n.generation.toNat

/-- By slot, and within a slot by generation. -/
def NodeId.before (a b : NodeId) : Bool :=
  a.index < b.index || (a.index == b.index && a.generation ≤ b.generation)

/-- A node as it is stored. -/
structure Node where
  kind : NodeKind NodeId
  fingerprint : ContentHash
  /-- The number of nodes that a walk of the subtree meets. -/
  size : Nat
deriving DecidableEq, Repr, Inhabited

/-- The same kind over the same children, and the same content. -/
def Node.same (a b : Node) : Bool := a.kind == b.kind && a.fingerprint == b.fingerprint

namespace Node

def stmtCount (n : Node) : Nat := (n.kind.stmts?.getD []).length

def stmt? (n : Node) (i : Nat) : Option NodeId := (n.kind.stmts?.getD [])[i]?

end Node

/-- A place for a node. -/
structure Slot where
  generation : UInt32
  node : Option Node
deriving DecidableEq, Repr, Inhabited

/-- The slots, the free ones in the order in which they are filled again, and the number of nodes. -/
structure Forest where
  slots : Array Slot
  free : List Nat
  live : Nat
deriving DecidableEq, Repr, Inhabited

/-- The use of a handle whose node is gone. -/
structure FreedNode where
  node : NodeId
deriving DecidableEq, Repr, Inhabited

def FreedNode.message (e : FreedNode) : String :=
  "contract violation: node " ++ e.node.display ++ " has been freed"

namespace Forest

def empty : Forest := ⟨#[], [], 0⟩

def get? (f : Forest) (id : NodeId) : Option Node :=
  match f.slots[id.index]? with
  | some slot => if slot.generation = id.generation then slot.node else none
  | none => none

def get (f : Forest) (id : NodeId) : Except FreedNode Node :=
  match f.get? id with
  | some node => .ok node
  | none => .error ⟨id⟩

def contains (f : Forest) (id : NodeId) : Bool := (f.get? id).isSome

/-- Stores a node: in the slot freed last, or else in a new one. -/
def alloc (f : Forest) (node : Node) : NodeId × Forest :=
  match f.free with
  | index :: free =>
    let generation := ((f.slots[index]?).map Slot.generation).getD 0
    (⟨index, generation⟩,
      { slots := f.slots.setIfInBounds index ⟨generation, some node⟩, free, live := f.live + 1 })
  | [] =>
    (⟨f.slots.size, 0⟩, { f with slots := f.slots.push ⟨0, some node⟩, live := f.live + 1 })

/-- The same with the number of the slot in a word. -/
def allocWord (f : Forest) (node : Node) : NodeId × Forest := ((f.alloc node).1.cut, (f.alloc node).2)

/-- The size of a subtree; one that is gone counts as a node. -/
def sizeOf (f : Forest) (id : NodeId) : Nat := ((f.get? id).map Node.size).getD 1

/-- A node of the given content over children that are there. -/
def node (f : Forest) (kind : NodeKind NodeId) (fingerprint : ContentHash) : Node :=
  { kind, fingerprint, size := 1 + (kind.children.map f.sizeOf).foldr (· + ·) 0 }

/-- The node over children that are there, with the fingerprint that follows from theirs. -/
def build (f : Forest) (kind : NodeKind NodeId) : Except FreedNode Node := do
  let children ← kind.traverse f.get
  return f.node kind (children.map Node.fingerprint).fingerprint

def idsFrom (start : Nat) : List Slot → List (NodeId × Node)
  | [] => []
  | slot :: rest =>
    match slot.node with
    | some node => (⟨start, slot.generation⟩, node) :: idsFrom (start + 1) rest
    | none => idsFrom (start + 1) rest

/-- The nodes in order of their slots. -/
def toList (f : Forest) : List (NodeId × Node) := idsFrom 0 f.slots.toList

def toListWord (f : Forest) : List (NodeId × Node) := f.toList.map fun e => (e.1.cut, e.2)

def view (f : Forest) : TreeView (Except FreedNode) NodeId :=
  ⟨fun id => return (← f.get id).kind, fun id => return f.sizeOf id⟩

end Forest

/-- Where nodes were read from. A node is placed once, when it is made, and its place is forgotten when it is
freed. -/
structure Locations where
  entries : List (NodeId × Location)
deriving DecidableEq, Repr, Inhabited

namespace Locations

def empty : Locations := ⟨[]⟩

def get? (t : Locations) (id : NodeId) : Option Location := t.entries.lookup id

def erase (t : Locations) (id : NodeId) : Locations := ⟨t.entries.filter (·.1 != id)⟩

/-- Places a node; a place it had before is lost. -/
def insert (t : Locations) (id : NodeId) (l : Location) : Locations := ⟨(id, l) :: (t.erase id).entries⟩

def eraseAll (t : Locations) (ids : List NodeId) : Locations :=
  ⟨t.entries.filter fun e => !ids.contains e.1⟩

def size (t : Locations) : Nat := t.entries.length

end Locations

end Palimpsest
