import Mathlib.Data.List.Pairwise
import Palimpsest.Proofs.Forest.Arena
import Palimpsest.Proofs.Node.Walk

/-!
A forest whose nodes are as they were built: over children that are there, with the fingerprint and the
size that follow from theirs, and with no node twice in a tree. New nodes over disjoint trees keep it so,
and so does forgetting whatever the nodes that stay do not lead to.
-/

namespace Palimpsest
namespace Forest

/-- A handle without a node reads as a leaf. -/
def kindOf (f : Forest) (id : NodeId) : NodeKind NodeId := ((f.get? id).map Node.kind).getD .erroneous

def printOf (f : Forest) (id : NodeId) : ContentHash := ((f.get? id).map Node.fingerprint).getD default

def childrenOf (f : Forest) (id : NodeId) : List NodeId := (f.kindOf id).children

/-- The handles of the tree below a handle. -/
def subtree (f : Forest) (id : NodeId) : List NodeId := Palimpsest.subtree f.childrenOf f.sizeOf id

section Lookup

variable {f : Forest} {id : NodeId} {node : Node}

theorem kindOf_eq (h : f.get? id = some node) : f.kindOf id = node.kind := by
  simp [kindOf, h]

theorem printOf_eq (h : f.get? id = some node) : f.printOf id = node.fingerprint := by
  simp [printOf, h]

theorem sizeOf_eq (h : f.get? id = some node) : f.sizeOf id = node.size := by
  simp [sizeOf, h]

theorem contains_of_kindOf (h : f.kindOf id ≠ .erroneous) : f.contains id = true := by
  cases hnode : f.get? id with
  | none => simp [kindOf, hnode] at h
  | some node => exact contains_iff.mpr ⟨node, hnode⟩

theorem view_kind (h : f.contains id = true) : f.view.kind id = pure (f.kindOf id) := by
  obtain ⟨node, hnode⟩ := contains_iff.mp h
  simp [view, get_eq_ok.mpr hnode, kindOf_eq hnode, Bind.bind, Except.bind]

theorem view_size (f : Forest) (id : NodeId) : f.view.size id = pure (f.sizeOf id) := rfl

end Lookup

theorem mapM_ok {C D ε : Type} {f : C → Except ε D} {l : List C} {ds : List D} (h : l.mapM f = .ok ds) :
    ∀ c ∈ l, ∃ d, f c = .ok d := by
  induction l generalizing ds with
  | nil => simp
  | cons c l ih =>
      rw [List.mapM_cons] at h
      cases hc : f c with
      | error e => simp [hc, Bind.bind, Except.bind] at h
      | ok d =>
          cases hl : l.mapM f with
          | error e => simp [hc, hl, Bind.bind, Except.bind] at h
          | ok ds' =>
              intro x hx
              cases List.mem_cons.mp hx with
              | inl heq => exact ⟨d, heq ▸ hc⟩
              | inr hin => exact ih hl x hin

/-- A node is built exactly over children that are there. -/
theorem build_eq_ok {f : Forest} {kind : NodeKind NodeId} {node : Node} :
    f.build kind = .ok node ↔ (∀ c ∈ kind.children, f.contains c = true) ∧
      node = f.node kind (kind.map f.printOf).fingerprint := by
  have hbuild (h : ∀ c ∈ kind.children, f.contains c = true) :
      f.build kind = .ok (f.node kind (kind.map f.printOf).fingerprint) := by
    have hget : ∀ c ∈ kind.children, f.get c = pure ((f.get? c).getD default) := by
      intro c hc
      obtain ⟨node, hnode⟩ := contains_iff.mp (h c hc)
      rw [get_eq_ok.mpr hnode, hnode]
      rfl
    have hprint : ((kind.map fun c => (f.get? c).getD default).map Node.fingerprint) =
        kind.map f.printOf := by
      rw [NodeKind.map_map]
      refine NodeKind.map_congr fun c hc => ?_
      obtain ⟨node, hnode⟩ := contains_iff.mp (h c hc)
      rw [printOf_eq hnode, hnode]
      rfl
    rw [build, NodeKind.traverse_eq_pure hget, pure_bind, hprint]
    rfl
  constructor
  · intro h
    have hthere : ∀ c ∈ kind.children, f.contains c = true := by
      rw [build, NodeKind.traverse_eq_refill] at h
      cases hmap : kind.children.mapM f.get with
      | error e => simp [hmap, Bind.bind, Except.bind] at h
      | ok nodes =>
          intro c hc
          obtain ⟨node, hnode⟩ := mapM_ok hmap c hc
          exact contains_iff.mpr ⟨node, get_eq_ok.mp hnode⟩
    refine ⟨hthere, ?_⟩
    rw [hbuild hthere] at h
    exact (Except.ok.inj h).symm
  · rintro ⟨h, rfl⟩
    exact hbuild h

theorem build_congr {f g : Forest} {kind : NodeKind NodeId} (h : ∀ c ∈ kind.children, g.get? c = f.get? c) :
    g.build kind = f.build kind := by
  have hget : ∀ c ∈ kind.children, g.get c = f.get c := by
    intro c hc
    rw [get, h c hc, get]
  have hsize : kind.children.map g.sizeOf = kind.children.map f.sizeOf := by
    refine List.map_congr_left fun c hc => ?_
    rw [sizeOf, h c hc, sizeOf]
  rw [build, build, NodeKind.traverse_congr hget]
  simp only [node, hsize]

/-- Every node is what building it again would give. -/
structure Built (f : Forest) : Prop where
  built : ∀ id node, f.get? id = some node → f.build node.kind = .ok node

structure Coherent (f : Forest) : Prop extends Built f where
  nodup : ∀ id, f.contains id = true → (f.subtree id).Nodup

/-- Every node of one forest is in the other, as it is. -/
def Grows (f g : Forest) : Prop := ∀ id node, f.get? id = some node → g.get? id = some node

namespace Grows

theorem refl (f : Forest) : Grows f f := fun _ _ h => h

theorem trans {f g h : Forest} (hfg : Grows f g) (hgh : Grows g h) : Grows f h :=
  fun id node hid => hgh id node (hfg id node hid)

variable {f g : Forest}

theorem contains (h : Grows f g) {id : NodeId} (hid : f.contains id = true) : g.contains id = true := by
  obtain ⟨node, hnode⟩ := contains_iff.mp hid
  exact contains_iff.mpr ⟨node, h id node hnode⟩

theorem get? (h : Grows f g) {id : NodeId} (hid : f.contains id = true) : g.get? id = f.get? id := by
  obtain ⟨node, hnode⟩ := contains_iff.mp hid
  rw [hnode, h id node hnode]

theorem kindOf_eq (h : Grows f g) {id : NodeId} (hid : f.contains id = true) : g.kindOf id = f.kindOf id := by
  rw [kindOf, h.get? hid, kindOf]

end Grows

namespace Adds

variable {f g : Forest} {node : Node} {id : NodeId}

theorem get?_self (h : f.Adds node id g) : g.get? id = some node := by
  rw [h.get?_eq, if_pos rfl]

theorem not_contains (h : f.Adds node id g) : f.contains id = false := by
  rw [Forest.contains, h.get?_none]
  rfl

theorem grows (h : f.Adds node id g) : Grows f g := by
  intro x stored hx
  rw [h.get?_eq, if_neg]
  · exact hx
  · rintro rfl
    simp [h.get?_none] at hx

theorem contains_iff (h : f.Adds node id g) (x : NodeId) : g.contains x = true ↔ f.contains x = true ∨ x = id := by
  rw [Forest.contains, h.get?_eq]
  by_cases hx : x = id
  · simp [hx]
  · simp [hx, Forest.contains]

end Adds

namespace Built

variable {f g : Forest}

theorem contains_child (h : f.Built) {id : NodeId} {node : Node} (hid : f.get? id = some node) :
    ∀ c ∈ node.kind.children, f.contains c = true := (build_eq_ok.mp (h.built id node hid)).1

theorem size_eq (h : f.Built) {id : NodeId} {node : Node} (hid : f.get? id = some node) :
    node.size = 1 + (node.kind.children.map f.sizeOf).sum :=
  congrArg Node.size (build_eq_ok.mp (h.built id node hid)).2

/-- The trees of such a forest are finite, and it knows their sizes. -/
theorem sized (h : f.Built) : Sized f.childrenOf f.sizeOf fun id => f.contains id = true where
  closed id hid c hc := by
    obtain ⟨node, hnode⟩ := contains_iff.mp hid
    rw [childrenOf, kindOf_eq hnode] at hc
    exact h.contains_child hnode c hc
  size_eq id hid := by
    obtain ⟨node, hnode⟩ := contains_iff.mp hid
    rw [sizeOf_eq hnode, childrenOf, kindOf_eq hnode]
    exact h.size_eq hnode

theorem subtree_eq (h : f.Built) {id : NodeId} {node : Node} (hid : f.get? id = some node) :
    f.subtree id = id :: node.kind.children.flatMap f.subtree := by
  rw [subtree, h.sized.subtree_eq (contains_iff.mpr ⟨node, hid⟩), childrenOf, kindOf_eq hid]
  rfl

theorem preorder_eq (h : f.Built) {id : NodeId} (hid : f.contains id = true) :
    f.view.preorder id = .ok (f.subtree id) :=
  TreeView.preorder_eq h.sized (fun _ hx => view_kind hx) hid (view_size f id)

theorem contains_subtree (h : f.Built) {id x : NodeId} (hid : f.contains id = true)
    (hx : x ∈ f.subtree id) : f.contains x = true :=
  h.sized.subtree_forall hid hid h.sized.closed x hx

theorem subtree_grows (h : f.Built) (hg : g.Built) (hfg : Grows f g) {id : NodeId}
    (hid : f.contains id = true) : g.subtree id = f.subtree id := by
  refine (subtree_congr h.sized hg.sized id hid fun x hx => ⟨hfg.contains hx, ?_⟩).symm
  rw [childrenOf, childrenOf, hfg.kindOf_eq hx]

theorem flatMap_subtree_grows (h : f.Built) (hg : g.Built) (hfg : Grows f g) {ids : List NodeId}
    (hids : ∀ id ∈ ids, f.contains id = true) : ids.flatMap g.subtree = ids.flatMap f.subtree :=
  List.flatMap_congr fun id hid => h.subtree_grows hg hfg (hids id hid)

end Built

namespace Coherent

variable {f g : Forest}

theorem empty : Coherent .empty where
  built id node h := by simp [Forest.empty, Forest.get?] at h
  nodup id h := by simp [Forest.empty, Forest.contains, Forest.get?] at h

section Children

variable (hf : f.Coherent) {id : NodeId} (hid : f.contains id = true)
include hf hid

theorem nodup_flatMap_children : ((f.childrenOf id).flatMap f.subtree).Nodup := by
  have hnodup := hf.nodup id hid
  rw [subtree, hf.toBuilt.sized.subtree_eq hid] at hnodup
  exact (List.nodup_cons.mp hnodup).2

theorem disjoint_children {a b : NodeId} (ha : a ∈ f.childrenOf id) (hb : b ∈ f.childrenOf id) (hne : a ≠ b) :
    (f.subtree a).Disjoint (f.subtree b) := by
  have hpairwise := (List.nodup_flatMap.mp (hf.nodup_flatMap_children hid)).2
  have hsymm : Std.Symm (Function.onFun List.Disjoint f.subtree) := ⟨fun _ _ h _ hb ha => h ha hb⟩
  exact hpairwise.forall ha hb hne

theorem nodup_children : (f.childrenOf id).Nodup := by
  have hpairwise := (List.nodup_flatMap.mp (hf.nodup_flatMap_children hid)).2
  refine hpairwise.imp_of_mem fun {a b} ha _ hdisjoint => ?_
  rintro rfl
  have hself := hf.toBuilt.sized.mem_subtree_self (hf.toBuilt.sized.closed id hid a ha)
  exact hdisjoint hself hself

end Children

end Coherent

section Restrict

variable {f g : Forest} {keep : NodeId → Bool}
  (hget : ∀ id, g.get? id = if keep id then f.get? id else none)
  (hclosed : ∀ id, f.contains id = true → keep id = true → ∀ c ∈ f.childrenOf id, keep c = true)
include hget hclosed

theorem Built.restrict (h : f.Built) : g.Built where
  built id node hid := by
    rw [hget] at hid
    by_cases hk : keep id = true
    · rw [if_pos hk] at hid
      rw [← h.built id node hid]
      refine build_congr fun c hc => ?_
      have hchild : c ∈ f.childrenOf id := by rwa [childrenOf, kindOf_eq hid]
      rw [hget, if_pos (hclosed id (contains_iff.mpr ⟨node, hid⟩) hk c hchild)]
    · simp [hk] at hid

theorem Built.subtree_restrict (h : f.Built) {id : NodeId} (hid : g.contains id = true) :
    g.subtree id = f.subtree id := by
  refine subtree_congr (h.restrict hget hclosed).sized h.sized id hid fun x hx => ?_
  obtain ⟨node, hnode⟩ := contains_iff.mp hx
  have hfnode := hnode
  rw [hget] at hfnode
  split at hfnode
  · refine ⟨contains_iff.mpr ⟨node, hfnode⟩, ?_⟩
    rw [childrenOf, kindOf_eq hnode, childrenOf, kindOf_eq hfnode]
  · simp at hfnode

/-- A forest in which some nodes are gone, none of which is below one that stays. -/
theorem Coherent.restrict (h : f.Coherent) : g.Coherent where
  built := (h.toBuilt.restrict hget hclosed).built
  nodup id hid := by
    rw [h.toBuilt.subtree_restrict hget hclosed hid]
    refine h.nodup id ?_
    rw [contains, hget] at hid
    split at hid
    · exact hid
    · simp at hid

end Restrict

/-- A new node over nodes that are there, with the fingerprint that follows from theirs. -/
theorem Built.adds {f g : Forest} {kind : NodeKind NodeId} {fingerprint : ContentHash} {id : NodeId}
    (h : f.Built) (hadds : f.Adds (f.node kind fingerprint) id g)
    (hchildren : ∀ c ∈ kind.children, f.contains c = true)
    (hprint : fingerprint = (kind.map f.printOf).fingerprint) : g.Built where
  built x node hx := by
    have hbefore {k : NodeKind NodeId} (hk : ∀ c ∈ k.children, f.contains c = true) : g.build k = f.build k :=
      build_congr fun c hc => hadds.grows.get? (hk c hc)
    rw [hadds.get?_eq] at hx
    split at hx
    · obtain rfl := Option.some.inj hx
      exact (hbefore hchildren).trans (build_eq_ok.mpr ⟨hchildren, by rw [hprint]⟩)
    · rw [hbefore (h.contains_child hx)]
      exact h.built x node hx

end Forest
end Palimpsest
