import Mathlib.Algebra.Order.BigOperators.Group.List
import Mathlib.Algebra.Order.Group.Nat
import Mathlib.Algebra.Ring.Nat
import Mathlib.Data.List.Flatten
import Palimpsest.Node.Walk
import Palimpsest.Proofs.Node.Children
import Palimpsest.Proofs.Reach

/-!
Walks of trees whose sizes are known. A walk in preorder lists a node and then what its children list,
and no walk is refused where every handle that it meets refers to a node.
-/

namespace Palimpsest

variable {H : Type}

/-- Handles with their children and sizes, such that every tree of them is finite. -/
structure Sized (kids : H → List H) (size : H → Nat) (P : H → Prop) : Prop where
  closed : ∀ h, P h → ∀ c ∈ kids h, P c
  size_eq : ∀ h, P h → size h = 1 + ((kids h).map size).sum

/-- A handle and what is below it, down to a depth. -/
def spread (kids : H → List H) : (depth : Nat) → H → List H
  | 0, _ => []
  | n + 1, h => h :: (kids h).flatMap (spread kids n)

/-- What a walk in preorder lists. -/
def subtree (kids : H → List H) (size : H → Nat) (h : H) : List H := spread kids (size h) h

theorem size_le_sum (size : H → Nat) {hs : List H} {h : H} (hmem : h ∈ hs) :
    size h ≤ (hs.map size).sum := List.single_le_sum (fun _ _ => Nat.zero_le _) _ (List.mem_map_of_mem hmem)

theorem sublist_of_cons_sublist {before after rest : List H} {h : H} (hnot : h ∉ before)
    (hsub : (h :: rest).Sublist (before ++ h :: after)) : rest.Sublist after := by
  induction before with
  | nil => exact List.cons_sublist_cons.mp hsub
  | cons b before ih =>
      cases hsub with
      | cons _ hlater => exact ih (fun hin => hnot (List.mem_cons_of_mem b hin)) hlater
      | cons_cons _ _ => exact absurd List.mem_cons_self hnot

namespace Sized

variable {kids : H → List H} {size : H → Nat} {P : H → Prop}

theorem size_lt (hs : Sized kids size P) {h c : H} (hp : P h) (hc : c ∈ kids h) : size c < size h := by
  have hsize := hs.size_eq h hp
  have hle := size_le_sum size hc
  omega

/-- From the leaves up. -/
theorem induction (hs : Sized kids size P) {motive : H → Prop}
    (step : ∀ h, P h → (∀ c ∈ kids h, motive c) → motive h) (h : H) (hp : P h) : motive h := by
  generalize hn : size h = n
  induction n using Nat.strongRecOn generalizing h with
  | ind n ih =>
      subst hn
      exact step h hp fun c hc => ih (size c) (hs.size_lt hp hc) c (hs.closed h hp c hc) rfl

/-- What holds of a walk with a stack that puts the children of a handle in its place: fuel for all nodes of the trees
on the stack is enough, since each step takes one of them. -/
theorem stack_induction (hs : Sized kids size P) {motive : Nat → List H → Prop} (nil : ∀ n, motive n [])
    (cons : ∀ n h rest, P h → motive n (kids h ++ rest) → motive (n + 1) (h :: rest)) (n : Nat) (stack : List H)
    (hp : ∀ h ∈ stack, P h) (hn : (stack.map size).sum ≤ n) : motive n stack := by
  induction n generalizing stack with
  | zero =>
      cases stack with
      | nil => exact nil 0
      | cons h rest =>
          have hsize := hs.size_eq h (hp h List.mem_cons_self)
          simp only [List.map_cons, List.sum_cons] at hn
          omega
  | succ n ih =>
      cases stack with
      | nil => exact nil (n + 1)
      | cons h rest =>
          obtain ⟨hph, hrest⟩ := List.forall_mem_cons.mp hp
          have hsize := hs.size_eq h hph
          refine cons n h rest hph (ih _ (List.forall_mem_append.mpr ⟨hs.closed h hph, hrest⟩) ?_)
          simp only [List.map_cons, List.sum_cons] at hn
          simp only [List.map_append, List.sum_append]
          omega

/-- The children may be taken from the last on. -/
theorem reverse (hs : Sized kids size P) : Sized (fun h => (kids h).reverse) size P where
  closed h hp c hc := hs.closed h hp c (List.mem_reverse.mp hc)
  size_eq h hp := by rw [List.map_reverse, List.sum_reverse, hs.size_eq h hp]

theorem spread_eq (hs : Sized kids size P) {h : H} (hp : P h) :
    ∀ n, size h ≤ n → spread kids n h = h :: (kids h).flatMap (subtree kids size) := by
  refine hs.induction (motive := fun h =>
    ∀ n, size h ≤ n → spread kids n h = h :: (kids h).flatMap (subtree kids size)) ?_ h hp
  intro h hp ih n hn
  have hsize := hs.size_eq h hp
  obtain ⟨n, rfl⟩ : ∃ m, n = m + 1 := ⟨n - 1, by omega⟩
  rw [spread]
  congr 1
  refine List.flatMap_congr fun c hc => ?_
  have hlt := hs.size_lt hp hc
  rw [ih c hc n (by omega), subtree, ih c hc (size c) (Nat.le_refl _)]

theorem subtree_eq (hs : Sized kids size P) {h : H} (hp : P h) :
    subtree kids size h = h :: (kids h).flatMap (subtree kids size) :=
  hs.spread_eq hp (size h) (Nat.le_refl _)

theorem mem_subtree_self (hs : Sized kids size P) {h : H} (hp : P h) : h ∈ subtree kids size h := by
  rw [hs.subtree_eq hp]
  exact List.mem_cons_self

theorem mem_subtree (hs : Sized kids size P) {h x : H} (hp : P h) :
    x ∈ subtree kids size h ↔ x = h ∨ ∃ c ∈ kids h, x ∈ subtree kids size c := by
  rw [hs.subtree_eq hp, List.mem_cons, List.mem_flatMap]

theorem mem_subtree_iff (hs : Sized kids size P) {h x : H} (hp : P h) :
    x ∈ subtree kids size h ↔ Reach.Reachable kids [h] x := by
  constructor
  · refine hs.induction (motive := fun h => x ∈ subtree kids size h → Reach.Reachable kids [h] x) ?_ h hp
    intro h hp ih hx
    cases (hs.mem_subtree hp).mp hx with
    | inl heq => exact heq ▸ .root List.mem_cons_self
    | inr hbelow =>
        obtain ⟨c, hc, hx⟩ := hbelow
        refine (ih c hc hx).of_closed ?_ fun y hy z hz => hy.step hz
        intro r hr
        rw [List.mem_singleton.mp hr]
        exact Reach.Reachable.step (.root List.mem_cons_self) hc
  · intro hx
    have hclosed : ∀ h, P h → ∀ x ∈ subtree kids size h, ∀ y ∈ kids x, y ∈ subtree kids size h := by
      refine hs.induction ?_
      intro h hp ih x hx y hy
      cases (hs.mem_subtree hp).mp hx with
      | inl heq =>
          rw [heq] at hy
          exact (hs.mem_subtree hp).mpr (.inr ⟨y, hy, hs.mem_subtree_self (hs.closed h hp y hy)⟩)
      | inr hbelow =>
          obtain ⟨c, hc, hx⟩ := hbelow
          exact (hs.mem_subtree hp).mpr (.inr ⟨c, hc, ih c hc x hx y hy⟩)
    refine hx.of_closed (fun r hr => ?_) (hclosed h hp)
    rw [List.mem_singleton.mp hr]
    exact hs.mem_subtree_self hp

/-- A tree lists the trees below it, as they are. -/
theorem subtree_sublist (hs : Sized kids size P) {h x : H} (hp : P h) (hx : x ∈ subtree kids size h) :
    (subtree kids size x).Sublist (subtree kids size h) := by
  revert hx
  refine hs.induction (motive := fun h => x ∈ subtree kids size h →
    (subtree kids size x).Sublist (subtree kids size h)) ?_ h hp
  intro h hp ih hx
  cases (hs.mem_subtree hp).mp hx with
  | inl heq => rw [heq]
  | inr hbelow =>
      obtain ⟨c, hc, hx⟩ := hbelow
      have hchild : (subtree kids size c).Sublist ((kids h).flatMap (subtree kids size)) := by
        rw [List.flatMap_def]
        exact List.sublist_flatten_of_mem (List.mem_map_of_mem hc)
      rw [hs.subtree_eq hp]
      exact ((ih c hc hx).trans hchild).cons h

/-- Handles that carry something more with them stand in trees of the same shape. -/
theorem comap {E : Type} {kids' : E → List E} {p : E → H} (hs : Sized kids size P)
    (hkids : ∀ e, (kids' e).map p = kids (p e)) : Sized kids' (fun e => size (p e)) fun e => P (p e) where
  closed e he c hc := hs.closed (p e) he (p c) (hkids e ▸ List.mem_map_of_mem hc)
  size_eq e he := by
    rw [hs.size_eq (p e) he, ← hkids e, List.map_map]
    rfl

theorem map_subtree_comap {E : Type} {kids' : E → List E} {p : E → H} (hs : Sized kids size P)
    (hkids : ∀ e, (kids' e).map p = kids (p e)) {e : E} (he : P (p e)) :
    (subtree kids' (fun e => size (p e)) e).map p = subtree kids size (p e) := by
  refine (hs.comap hkids).induction (motive := fun e =>
    (subtree kids' (fun e => size (p e)) e).map p = subtree kids size (p e)) ?_ e he
  intro e he ih
  rw [(hs.comap hkids).subtree_eq he, hs.subtree_eq he, List.map_cons, List.map_flatMap, List.flatMap_congr ih,
    ← hkids e, List.flatMap_map]

theorem length_subtree (hs : Sized kids size P) {h : H} (hp : P h) : (subtree kids size h).length = size h := by
  refine hs.induction (motive := fun h => (subtree kids size h).length = size h) ?_ h hp
  intro h hp ih
  rw [hs.subtree_eq hp, List.length_cons, List.length_flatMap, List.map_congr_left ih, hs.size_eq h hp, Nat.add_comm]

/-- A property of a handle that goes down to children. -/
theorem subtree_forall (hs : Sized kids size P) {h : H} (hp : P h) {Q : H → Prop} (hq : Q h)
    (hdown : ∀ x, Q x → ∀ y ∈ kids x, Q y) : ∀ x ∈ subtree kids size h, Q x := by
  intro x hx
  refine ((hs.mem_subtree_iff hp).mp hx).of_closed (fun r hr => ?_) hdown
  rw [List.mem_singleton.mp hr]
  exact hq

/-- In trees that list nothing twice, what is below a node comes after it. -/
theorem not_mem_before (hs : Sized kids size P) {roots : List H} (hroots : ∀ r ∈ roots, P r)
    (hnodup : (roots.flatMap (subtree kids size)).Nodup) {before after : List H} {x : H}
    (hsplit : roots.flatMap (subtree kids size) = before ++ x :: after) : ∀ y ∈ subtree kids size x, y ∉ before := by
  obtain ⟨r, hr, hx⟩ := List.mem_flatMap.mp (hsplit ▸ List.mem_append_right before List.mem_cons_self)
  have hp : P x := hs.subtree_forall (hroots r hr) (hroots r hr) hs.closed x hx
  have htree : (subtree kids size x).Sublist (before ++ x :: after) := by
    rw [← hsplit, List.flatMap_def]
    exact (hs.subtree_sublist (hroots r hr) hx).trans (List.sublist_flatten_of_mem (List.mem_map_of_mem hr))
  rw [hsplit, List.nodup_append] at hnodup
  obtain ⟨-, -, hapart⟩ := hnodup
  rw [hs.subtree_eq hp] at htree ⊢
  have hbelow := sublist_of_cons_sublist (fun hin => hapart x hin x List.mem_cons_self rfl) htree
  intro y hy hbefore
  cases List.mem_cons.mp hy with
  | inl heq => exact hapart y hbefore x List.mem_cons_self heq
  | inr hin => exact hapart y hbefore y (List.mem_cons_of_mem x (hbelow.subset hin)) rfl

/-- A relation between handles that goes down to children relates their trees, node by node. -/
theorem forall₂_subtree {H' : Type} {kids' : H' → List H'} {size' : H' → Nat} {P' : H' → Prop}
    {R : H → H' → Prop} (hs : Sized kids size P) (hs' : Sized kids' size' P')
    (hdown : ∀ h h', P h → P' h' → R h h' → List.Forall₂ R (kids h) (kids' h')) {h : H} (hp : P h) :
    ∀ h', P' h' → R h h' → List.Forall₂ R (subtree kids size h) (subtree kids' size' h') := by
  refine hs.induction (motive := fun h => ∀ h', P' h' → R h h' →
    List.Forall₂ R (subtree kids size h) (subtree kids' size' h')) ?_ h hp
  intro h hp ih h' hp' hr
  rw [hs.subtree_eq hp, hs'.subtree_eq hp']
  refine .cons hr ?_
  have hkids : ∀ c' ∈ kids' h', P' c' := hs'.closed h' hp'
  have hbelow := hdown h h' hp hp' hr
  generalize kids h = cs at ih hbelow
  generalize kids' h' = cs' at hkids hbelow
  induction hbelow with
  | nil => exact .nil
  | cons hfirst _ ihrest =>
      obtain ⟨hkid, hkids⟩ := List.forall_mem_cons.mp hkids
      obtain ⟨ihfirst, ihs⟩ := List.forall_mem_cons.mp ih
      rw [List.flatMap_cons, List.flatMap_cons]
      exact List.rel_append (ihfirst _ hkid hfirst) (ihrest ihs hkids)

end Sized

theorem subtree_congr {kids kids' : H → List H} {size size' : H → Nat} {P P' : H → Prop}
    (hs : Sized kids size P) (hs' : Sized kids' size' P') (h : H) (hp : P h)
    (hagree : ∀ x, P x → P' x ∧ kids x = kids' x) : subtree kids size h = subtree kids' size' h := by
  refine hs.induction (motive := fun h => subtree kids size h = subtree kids' size' h) ?_ h hp
  intro h hp ih
  obtain ⟨hp', hkids⟩ := hagree h hp
  rw [hs.subtree_eq hp, hs'.subtree_eq hp', ← hkids]
  congr 1
  exact List.flatMap_congr ih

namespace TreeView

section Preorder

variable {m : Type → Type} [Monad m] [LawfulMonad m] {t : TreeView m H} {kind : H → NodeKind H}
  {size : H → Nat} {P : H → Prop}

theorem preorderLoop_eq (hs : Sized (fun h => (kind h).children) size P)
    (hkind : ∀ h, P h → t.kind h = pure (kind h)) (n : Nat) (stack : List H) (hp : ∀ h ∈ stack, P h)
    (hn : (stack.map size).sum ≤ n) :
    t.preorderLoop n stack = pure (stack.flatMap (subtree (fun h => (kind h).children) size)) := by
  refine hs.stack_induction (motive := fun n stack =>
    t.preorderLoop n stack = pure (stack.flatMap (subtree (fun h => (kind h).children) size))) ?_ ?_ n stack hp hn
  · intro n
    cases n with
    | zero | succ _ => rfl
  · intro n h rest hph ih
    rw [preorderLoop, hkind h hph, pure_bind, ih, pure_bind, List.flatMap_append, List.flatMap_cons,
      hs.subtree_eq hph]
    rfl

theorem preorderLoop_root (hs : Sized (fun h => (kind h).children) size P)
    (hkind : ∀ h, P h → t.kind h = pure (kind h)) {h : H} (hp : P h) {n : Nat} (hn : size h ≤ n) :
    t.preorderLoop n [h] = pure (subtree (fun h => (kind h).children) size h) := by
  rw [preorderLoop_eq hs hkind n [h] (by simpa using hp) (by simpa using hn)]
  simp

theorem preorder_eq (hs : Sized (fun h => (kind h).children) size P)
    (hkind : ∀ h, P h → t.kind h = pure (kind h)) {h : H} (hp : P h) (hsize : t.size h = pure (size h)) :
    t.preorder h = pure (subtree (fun h => (kind h).children) size h) := by
  rw [preorder, hsize, pure_bind, preorderLoop_root hs hkind hp (Nat.le_refl _)]

theorem run_push (hs stack : List H) :
    (hs.forM fun c => (modify (c :: ·) : StateM (List H) Unit)).run stack = ((), hs.reverse ++ stack) := by
  induction hs generalizing stack with
  | nil => rfl
  | cons h rest ih =>
      rw [List.reverse_cons, List.append_assoc, List.singleton_append, ← ih (h :: stack)]
      rfl

theorem countLoop_eq (hs : Sized (fun h => (kind h).children) size P)
    (hkind : ∀ h, P h → t.kind h = pure (kind h)) (n : Nat) (stack : List H) (hp : ∀ h ∈ stack, P h)
    (hn : (stack.map size).sum ≤ n) :
    ∀ count, t.countLoop n stack count = pure (count + (stack.map size).sum) := by
  refine hs.reverse.stack_induction (motive := fun n stack =>
    ∀ count, t.countLoop n stack count = pure (count + (stack.map size).sum)) ?_ ?_ n stack hp hn
  · intro n count
    cases n with
    | zero | succ _ => rfl
  · intro n h rest hph ih count
    have hsize := hs.reverse.size_eq h hph
    have hstep : t.countLoop (n + 1) (h :: rest) count =
        t.countLoop n ((kind h).children.reverse ++ rest) (count + 1) := by
      rw [countLoop, hkind h hph, pure_bind, NodeKind.forM_eq, run_push]
    rw [hstep, ih, List.map_append, List.sum_append, List.map_cons, List.sum_cons]
    congr 1
    omega

theorem countLoop_root (hs : Sized (fun h => (kind h).children) size P)
    (hkind : ∀ h, P h → t.kind h = pure (kind h)) {h : H} (hp : P h) {n : Nat} (hn : size h ≤ n) :
    t.countLoop n [h] 0 = pure (size h) := by
  rw [countLoop_eq hs hkind n [h] (by simpa using hp) (by simpa using hn)]
  simp

theorem subtreeSize_eq (hs : Sized (fun h => (kind h).children) size P)
    (hkind : ∀ h, P h → t.kind h = pure (kind h)) {h : H} (hp : P h) (hsize : t.size h = pure (size h)) :
    t.subtreeSize h = pure (size h) := by
  rw [subtreeSize, hsize, pure_bind, countLoop_root hs hkind hp (Nat.le_refl _)]

theorem filterM_eq_pure {α : Type} {f : α → m Bool} {p : α → Bool} {l : List α}
    (h : ∀ a ∈ l, f a = pure (p a)) : l.filterM f = pure (l.filter p) := by
  have haux : ∀ acc, l.filterAuxM f acc = pure ((l.filter p).reverse ++ acc) := by
    induction l with
    | nil => intro acc; simp [List.filterAuxM]
    | cons a l ih =>
        intro acc
        have hl := ih fun b hb => h b (List.mem_cons_of_mem a hb)
        cases ha : p a <;> simp [List.filterAuxM, h a List.mem_cons_self, hl, ha]
  simp [List.filterM, haux]

section Filtered

variable (hs : Sized (fun h => (kind h).children) size P) (hkind : ∀ h, P h → t.kind h = pure (kind h)) {h : H}
  (hp : P h) (hsize : t.size h = pure (size h))
include hs hkind hp hsize

theorem symbols_eq : t.symbols h =
    pure ((subtree (fun h => (kind h).children) size h).filter fun x => (kind x).tag.isSymbol) := by
  have hlisted : ∀ x ∈ subtree (fun h => (kind h).children) size h, P x := hs.subtree_forall hp hp hs.closed
  rw [symbols, preorder_eq hs hkind hp hsize, pure_bind]
  exact filterM_eq_pure fun x hx => by rw [hkind x (hlisted x hx), pure_bind]

theorem uses_eq [DecidableEq H] (name : String) : t.uses h name =
    pure ((subtree (fun h => (kind h).children) size h).filter fun x => kind x = .identifier name) := by
  have hlisted : ∀ x ∈ subtree (fun h => (kind h).children) size h, P x := hs.subtree_forall hp hp hs.closed
  rw [uses, preorder_eq hs hkind hp hsize, pure_bind]
  exact filterM_eq_pure fun x hx => by rw [hkind x (hlisted x hx), pure_bind]

end Filtered

end Preorder

end TreeView
end Palimpsest
