import Palimpsest.Proofs.Node.Walk

/-!
Trees unfolded from their handles. What is left of a node is its kind over the unfolded children, so that
trees with other handles compare. Two handles unfold alike if their kinds agree but for the children and
if the children, one by one, stand to each other as the handles do.
-/

namespace Palimpsest

/-- A tree without handles. -/
inductive Tree where
  | node (kind : NodeKind Tree)

instance : Inhabited Tree := ⟨.node .erroneous⟩

namespace NodeKind

variable {A B C D : Type}

theorem forall₂_of_map_eq {R : A → B → Prop} {p : A → C} {q : B → C} {as : List A} {bs : List B}
    (h : as.map p = bs.map q) (hsame : ∀ a ∈ as, ∀ b ∈ bs, p a = q b → R a b) : List.Forall₂ R as bs := by
  induction as generalizing bs with
  | nil =>
      cases bs with
      | nil => exact .nil
      | cons b rest => simp at h
  | cons a rest ih =>
      cases bs with
      | nil => simp at h
      | cons b rest' =>
          obtain ⟨hfirst, hrest⟩ := List.cons.inj h
          refine .cons (hsame a List.mem_cons_self b List.mem_cons_self hfirst) (ih hrest fun x hx y hy => ?_)
          exact hsame x (List.mem_cons_of_mem a hx) y (List.mem_cons_of_mem b hy)

theorem list_map_eq_map {p : A → C} {q : B → C} {f : A → D} {g : B → D} {as : List A} {bs : List B}
    (h : as.map p = bs.map q) (hsame : ∀ a ∈ as, ∀ b ∈ bs, p a = q b → f a = g b) :
    as.map f = bs.map g := by
  rw [← List.forall₂_eq_eq_eq, List.forall₂_map_left_iff, List.forall₂_map_right_iff]
  exact forall₂_of_map_eq h hsame

theorem forall₂_children {p : A → C} {q : B → C} {k : NodeKind A} {k' : NodeKind B} (h : k.map p = k'.map q) :
    List.Forall₂ (fun a b => p a = q b) k.children k'.children :=
  forall₂_of_map_eq (by simpa using congrArg children h) fun _ _ _ _ hsame => hsame

/-- Kinds that agree under one reading of their children agree under any other that follows from it. -/
theorem map_eq_map {p : A → C} {q : B → C} {f : A → D} {g : B → D} {k : NodeKind A} {k' : NodeKind B}
    (h : k.map p = k'.map q) (hsame : ∀ a ∈ k.children, ∀ b ∈ k'.children, p a = q b → f a = g b) :
    k.map f = k'.map g := by
  have hshape : k.shape = k'.shape := by simpa using congrArg shape h
  have hchildren : k.children.map p = k'.children.map q := by simpa using congrArg children h
  refine ext_shape (by simpa using hshape) ?_
  rw [children_map, children_map]
  exact list_map_eq_map hchildren hsame

end NodeKind

namespace TreeView

section Unfold

variable {m : Type → Type} [Monad m] {H : Type}

def unfoldLoop (t : TreeView m H) : (steps : Nat) → H → m Tree
  | 0, _ => return .node .erroneous
  | n + 1, h => do return .node (← (← t.kind h).traverse (unfoldLoop t n))

/-- The tree below a handle. -/
def unfold (t : TreeView m H) (root : H) : m Tree := do unfoldLoop t (← t.size root) root

end Unfold
end TreeView

section Sized

variable {H : Type}

/-- The unfolded tree, down to a depth. -/
def unfolded (kind : H → NodeKind H) : Nat → H → Tree
  | 0, _ => .node .erroneous
  | n + 1, h => .node ((kind h).map (unfolded kind n))

theorem TreeView.unfoldLoop_eq {m : Type → Type} [Monad m] [LawfulMonad m] {t : TreeView m H}
    {kind : H → NodeKind H} {P : H → Prop} (hclosed : ∀ h, P h → ∀ c ∈ (kind h).children, P c)
    (hkind : ∀ h, P h → t.kind h = pure (kind h)) :
    ∀ n h, P h → t.unfoldLoop n h = pure (unfolded kind n h) := by
  intro n
  induction n with
  | zero => exact fun _ _ => rfl
  | succ n ih =>
      intro h hp
      have hchildren := NodeKind.traverse_eq_pure fun c hc => ih c (hclosed h hp c hc)
      rw [unfoldLoop, hkind h hp, pure_bind, hchildren, pure_bind]
      rfl

/-- Nothing is cut off: a tree is no deeper than it has nodes. -/
theorem unfolded_of_size_le {kind : H → NodeKind H} {size : H → Nat} {P : H → Prop}
    (hs : Sized (fun h => (kind h).children) size P) {h : H} (hp : P h) :
    ∀ n, size h ≤ n → unfolded kind n h = unfolded kind (size h) h := by
  refine hs.induction (motive := fun h => ∀ n, size h ≤ n → unfolded kind n h = unfolded kind (size h) h) ?_ h hp
  intro h hp ih n hn
  rw [hs.size_eq h hp] at hn ⊢
  obtain ⟨n, rfl⟩ : ∃ m, n = m + 1 := ⟨n - 1, by omega⟩
  rw [Nat.add_comm 1, unfolded, unfolded]
  congr 1
  refine NodeKind.map_congr fun c hc => ?_
  have hle := size_le_sum size hc
  rw [ih c hc n (by omega), ih c hc _ hle]

/-- Handles of two trees match: their kinds have the same shape over children that match. -/
theorem unfolded_eq {H' L : Type} {kind : H → NodeKind H} {kind' : H' → NodeKind H'} {size : H → Nat}
    {size' : H' → Nat} {P : H → Prop} {P' : H' → Prop} {label : H → L} {label' : H' → L}
    (hs : Sized (fun h => (kind h).children) size P) (hs' : Sized (fun h => (kind' h).children) size' P')
    (hmatch : ∀ h h', P h → P' h' → label h = label' h' → (kind h).map label = (kind' h').map label')
    {h : H} (hp : P h) : ∀ h', P' h' → label h = label' h' →
      size h = size' h' ∧ ∀ n, unfolded kind n h = unfolded kind' n h' := by
  refine hs.induction (motive := fun h => ∀ h', P' h' → label h = label' h' →
    size h = size' h' ∧ ∀ n, unfolded kind n h = unfolded kind' n h') ?_ h hp
  intro h hp ih h' hp' hlabel
  have hsame := hmatch h h' hp hp' hlabel
  have hchildren : (kind h).children.map label = (kind' h').children.map label' := by
    simpa using congrArg NodeKind.children hsame
  constructor
  · have hsizes : (kind h).children.map size = (kind' h').children.map size' :=
      NodeKind.list_map_eq_map hchildren fun c hc d hd hcd => (ih c hc d (hs'.closed h' hp' d hd) hcd).1
    rw [hs.size_eq h hp, hs'.size_eq h' hp', hsizes]
  · intro n
    cases n with
    | zero => rfl
    | succ n =>
        rw [unfolded, unfolded]
        congr 1
        exact NodeKind.map_eq_map hsame fun c hc d hd hcd => (ih c hc d (hs'.closed h' hp' d hd) hcd).2 n

/-- What is computed of a kind over its children is the same for handles that unfold alike. -/
theorem label_eq_of_unfolded {H' L : Type} {kind : H → NodeKind H} {kind' : H' → NodeKind H'} {size : H → Nat}
    {size' : H' → Nat} {P : H → Prop} {P' : H' → Prop} {label : H → L} {label' : H' → L} {of : NodeKind L → L}
    (hs : Sized (fun h => (kind h).children) size P) (hs' : Sized (fun h => (kind' h).children) size' P')
    (hlabel : ∀ h, P h → label h = of ((kind h).map label))
    (hlabel' : ∀ h, P' h → label' h = of ((kind' h).map label')) {h : H} (hp : P h) :
    ∀ h', P' h' → unfolded kind (size h) h = unfolded kind' (size' h') h' → label h = label' h' := by
  refine hs.induction (motive := fun h => ∀ h', P' h' →
    unfolded kind (size h) h = unfolded kind' (size' h') h' → label h = label' h') ?_ h hp
  intro h hp ih h' hp' hsame
  rw [hs.size_eq h hp, hs'.size_eq h' hp', Nat.add_comm 1, Nat.add_comm 1, unfolded, unfolded] at hsame
  rw [hlabel h hp, hlabel' h' hp']
  refine congrArg of (NodeKind.map_eq_map (Tree.node.inj hsame) fun c hc d hd hcd => ?_)
  have hd' := hs'.closed h' hp' d hd
  -- How deep the trees are unfolded does not matter as long as nothing is cut off.
  rw [unfolded_of_size_le hs (hs.closed h hp c hc) _ (size_le_sum size hc),
    unfolded_of_size_le hs' hd' _ (size_le_sum size' hd)] at hcd
  exact ih c hc d hd' hcd

end Sized
end Palimpsest
