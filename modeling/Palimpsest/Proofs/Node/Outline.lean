import Palimpsest.Proofs.Node.Postorder

/-!
Walks of finite trees list what recursion lists: a node before what is below it, or after it, with the number of levels
above it or without. The walk that tells levels is the walk in preorder of the tree whose handles carry their levels.
-/

namespace Palimpsest

variable {H : Type}

/-- Children with their levels. -/
def deeperKids (kids : H → List H) (e : H × Nat) : List (H × Nat) := (kids e.1).map (·, e.2 + 1)

/-- A handle and what is below it, each with the number of levels above it. -/
def outline (kids : H → List H) (size : H → Nat) (level : Nat) (h : H) : List (H × Nat) :=
  subtree (deeperKids kids) (fun e => size e.1) (h, level)

theorem map_fst_deeperKids (kids : H → List H) (e : H × Nat) : (deeperKids kids e).map Prod.fst = kids e.1 := by
  rw [deeperKids, List.map_map]
  exact List.map_id (kids e.1)

namespace Sized

variable {kids : H → List H} {size : H → Nat} {P : H → Prop} (hs : Sized kids size P) {h : H} (hp : P h)
include hs hp

theorem outline_eq (level : Nat) :
    outline kids size level h = (h, level) :: (kids h).flatMap (outline kids size (level + 1)) := by
  rw [outline, (hs.comap (map_fst_deeperKids kids)).subtree_eq (h := (h, level)) hp, deeperKids, List.flatMap_map]
  rfl

theorem map_fst_outline (level : Nat) : (outline kids size level h).map Prod.fst = subtree kids size h :=
  hs.map_subtree_comap (map_fst_deeperKids kids) (e := (h, level)) hp

end Sized

namespace TreeView

variable {m : Type → Type} [Monad m] {t : TreeView m H} {kind : H → NodeKind H} {size : H → Nat} {P : H → Prop}

/-- The tree whose handles carry their levels. -/
def deepened (t : TreeView m H) : TreeView m (H × Nat) :=
  ⟨fun e => do return (← t.kind e.1).map (·, e.2 + 1), fun e => t.size e.1⟩

section Depths

variable [LawfulMonad m]

theorem depthLoop_eq_preorderLoop (t : TreeView m H) :
    ∀ n stack, t.depthLoop n stack = t.deepened.preorderLoop n stack := by
  intro n
  induction n with
  | zero => exact fun _ => rfl
  | succ n ih =>
      intro stack
      cases stack with
      | nil => rfl
      | cons e rest => simp [depthLoop, preorderLoop, deepened, ih]

theorem depthLoop_root (hs : Sized (fun h => (kind h).children) size P)
    (hkind : ∀ h, P h → t.kind h = pure (kind h)) {h : H} (hp : P h) {n : Nat} (hn : size h ≤ n) :
    t.depthLoop n [(h, 0)] = pure (outline (fun h => (kind h).children) size 0 h) := by
  have hkids (e : H × Nat) : ((kind e.1).map (·, e.2 + 1)).children = deeperKids (fun h => (kind h).children) e :=
    NodeKind.children_map _ _
  have hdeeper : Sized (fun e : H × Nat => ((kind e.1).map (·, e.2 + 1)).children) (fun e => size e.1) fun e => P e.1 :=
    hs.comap fun e => by rw [hkids, map_fst_deeperKids]
  have hdeepened : ∀ e : H × Nat, P e.1 → t.deepened.kind e = pure ((kind e.1).map (·, e.2 + 1)) := by
    intro e he
    simp [deepened, hkind e.1 he]
  rw [depthLoop_eq_preorderLoop, preorderLoop_root hdeeper hdeepened (h := (h, 0)) hp hn]
  simp only [hkids]
  rfl

/-- The walk with levels is never refused where every handle refers to a node. -/
theorem withDepths_eq (hs : Sized (fun h => (kind h).children) size P)
    (hkind : ∀ h, P h → t.kind h = pure (kind h)) {h : H} (hp : P h) (hsize : t.size h = pure (size h)) :
    t.withDepths h = pure (outline (fun h => (kind h).children) size 0 h) := by
  rw [withDepths, hsize, pure_bind, depthLoop_root hs hkind hp (Nat.le_refl _)]

end Depths

/-- A view shows finite trees and knows their sizes. -/
structure Shows (t : TreeView m H) (kind : H → NodeKind H) (size : H → Nat) (P : H → Prop) : Prop where
  sized : Sized (fun h => (kind h).children) size P
  kind_eq : ∀ h, P h → t.kind h = pure (kind h)
  size_eq : ∀ h, P h → t.size h = pure (size h)

/-- The lists of a tree are made of the lists of the trees below it. -/
structure Recursive (kids : H → List H) (size : H → Nat) (P : H → Prop) : Prop where
  subtree : ∀ h, P h → subtree kids size h = h :: (kids h).flatMap (subtree kids size)
  subtreeUp : ∀ h, P h → subtreeUp kids size h = (kids h).flatMap (subtreeUp kids size) ++ [h]
  outline : ∀ h, P h → ∀ level,
    outline kids size level h = (h, level) :: (kids h).flatMap (outline kids size (level + 1))

/-- What the loops over a stack give is what recursion gives, in however many steps, once there are as many as nodes.
A walk in postorder takes every node from its stack twice. -/
structure Looped (t : TreeView m H) (kids : H → List H) (size : H → Nat) (root : H) : Prop where
  preorder : ∀ n, (subtree kids size root).length ≤ n → t.preorderLoop n [root] = pure (subtree kids size root)
  postorder : ∀ n, 2 * (subtree kids size root).length ≤ n →
    t.postorderLoop n [(root, false)] = pure (subtreeUp kids size root)
  depth : ∀ n, (subtree kids size root).length ≤ n → t.depthLoop n [(root, 0)] = pure (outline kids size 0 root)
  count : ∀ n, (subtree kids size root).length ≤ n → t.countLoop n [root] 0 = pure (subtree kids size root).length

/-- What the walks of a tree give is what recursion gives. -/
structure Walked [DecidableEq H] (t : TreeView m H) (kind : H → NodeKind H) (size : H → Nat) (root : H) : Prop where
  looped : t.Looped (fun h => (kind h).children) size root
  preorder : t.preorder root = pure (subtree (fun h => (kind h).children) size root)
  postorder : t.postorder root = pure (subtreeUp (fun h => (kind h).children) size root)
  perm : (subtreeUp (fun h => (kind h).children) size root).Perm (subtree (fun h => (kind h).children) size root)
  subtreeSize : t.subtreeSize root = pure (subtree (fun h => (kind h).children) size root).length
  symbols : t.symbols root =
    pure ((subtree (fun h => (kind h).children) size root).filter fun h => (kind h).tag.isSymbol)
  uses : ∀ name, t.uses root name =
    pure ((subtree (fun h => (kind h).children) size root).filter fun h => kind h = .identifier name)
  withDepths : t.withDepths root = pure (outline (fun h => (kind h).children) size 0 root)
  /-- The levels are told of the nodes in preorder. -/
  leveled : (outline (fun h => (kind h).children) size 0 root).map Prod.fst =
    subtree (fun h => (kind h).children) size root

namespace Shows

variable (ht : t.Shows kind size P)
include ht

theorem recursive : Recursive (fun h => (kind h).children) size P where
  subtree _ hp := ht.sized.subtree_eq hp
  subtreeUp _ hp := ht.sized.subtreeUp_eq hp
  outline _ hp := ht.sized.outline_eq hp

theorem of_mem_outline {root : H} (hp : P root) : ∀ e ∈ outline (fun h => (kind h).children) size 0 root,
    e.1 ∈ subtree (fun h => (kind h).children) size root ∧ P e.1 := by
  intro e he
  have hlisted : e.1 ∈ subtree (fun h => (kind h).children) size root := by
    rw [← ht.sized.map_fst_outline hp 0]
    exact List.mem_map_of_mem he
  exact ⟨hlisted, ht.sized.subtree_forall hp hp ht.sized.closed e.1 hlisted⟩

theorem looped [LawfulMonad m] {root : H} (hp : P root) : t.Looped (fun h => (kind h).children) size root := by
  have hlength := ht.sized.length_subtree hp
  constructor
  case preorder =>
    intro n hn
    exact preorderLoop_root ht.sized ht.kind_eq hp (by omega)
  case postorder =>
    intro n hn
    exact postorderLoop_root ht.sized ht.kind_eq hp (by omega)
  case depth =>
    intro n hn
    exact depthLoop_root ht.sized ht.kind_eq hp (by omega)
  case count =>
    intro n hn
    rw [hlength]
    exact countLoop_root ht.sized ht.kind_eq hp (by omega)

theorem walked [LawfulMonad m] [DecidableEq H] {root : H} (hp : P root) : t.Walked kind size root where
  looped := ht.looped hp
  preorder := preorder_eq ht.sized ht.kind_eq hp (ht.size_eq root hp)
  postorder := postorder_eq ht.sized ht.kind_eq hp (ht.size_eq root hp)
  perm := ht.sized.subtreeUp_perm hp
  subtreeSize := by
    rw [ht.sized.length_subtree hp]
    exact subtreeSize_eq ht.sized ht.kind_eq hp (ht.size_eq root hp)
  symbols := symbols_eq ht.sized ht.kind_eq hp (ht.size_eq root hp)
  uses := uses_eq ht.sized ht.kind_eq hp (ht.size_eq root hp)
  withDepths := withDepths_eq ht.sized ht.kind_eq hp (ht.size_eq root hp)
  leveled := ht.sized.map_fst_outline hp 0

end Shows
end TreeView
end Palimpsest
