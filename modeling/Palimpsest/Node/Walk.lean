import Palimpsest.Node.Kind

/-!
Walks over trees that are given by a look-up from handles to nodes. Each walk keeps its own stack of
pending work; the number of steps is bounded by the size of the subtree, which the tree knows.
-/

namespace Palimpsest

/-- A tree: what a handle refers to, and how many nodes its subtree has. -/
structure TreeView (m : Type → Type) (H : Type) where
  kind : H → m (NodeKind H)
  size : H → m Nat

namespace TreeView

variable {m : Type → Type} [Monad m] {H : Type}

/-- Nodes before their children, from a stack of pending subtrees. -/
def preorderLoop (t : TreeView m H) : (steps : Nat) → List H → m (List H)
  | 0, _ | _, [] => return []
  | n + 1, h :: stack => do
    let k ← t.kind h
    return h :: (← preorderLoop t n (k.children ++ stack))

/-- Nodes after their children. A pending entry is marked once its children are on the stack above it. -/
def postorderLoop (t : TreeView m H) : (steps : Nat) → List (H × Bool) → m (List H)
  | 0, _ | _, [] => return []
  | n + 1, (h, expanded) :: stack => do
    if expanded then return h :: (← postorderLoop t n stack)
    else
      let k ← t.kind h
      postorderLoop t n (k.children.map (·, false) ++ (h, true) :: stack)

/-- Nodes before their children, each with its depth. -/
def depthLoop (t : TreeView m H) : (steps : Nat) → List (H × Nat) → m (List (H × Nat))
  | 0, _ | _, [] => return []
  | n + 1, (h, depth) :: stack => do
    let k ← t.kind h
    return (h, depth) :: (← depthLoop t n (k.children.map (·, depth + 1) ++ stack))

/-- Counts nodes. The children of a node are pushed one after another, so that the last is on top. -/
def countLoop (t : TreeView m H) : (steps : Nat) → List H → (count : Nat) → m Nat
  | 0, _, count | _, [], count => return count
  | n + 1, h :: stack, count => do
    let k ← t.kind h
    let (_, stack) := (k.forM fun c => (modify (c :: ·) : StateM (List H) Unit)).run stack
    countLoop t n stack (count + 1)

def preorder (t : TreeView m H) (root : H) : m (List H) := do
  preorderLoop t (← t.size root) [root]

def postorder (t : TreeView m H) (root : H) : m (List H) := do
  postorderLoop t (2 * (← t.size root)) [(root, false)]

def withDepths (t : TreeView m H) (root : H) : m (List (H × Nat)) := do
  depthLoop t (← t.size root) [(root, 0)]

def subtreeSize (t : TreeView m H) (root : H) : m Nat := do
  countLoop t (← t.size root) [root] 0

def symbols (t : TreeView m H) (root : H) : m (List H) := do
  (← t.preorder root).filterM fun h => return (← t.kind h).tag.isSymbol

/-- The uses of a name. -/
def uses [DecidableEq H] (t : TreeView m H) (root : H) (name : String) : m (List H) := do
  (← t.preorder root).filterM fun h => return (← t.kind h) = .identifier name

/-- The declarations among the statements of a module or a block. -/
def declarations (t : TreeView m H) (container : H) : m (List H) := do
  (((← t.kind container).stmts?).getD []).filterM fun h => return (← t.kind h).declared?.isSome

end TreeView
end Palimpsest
