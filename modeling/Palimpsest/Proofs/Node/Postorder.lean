import Palimpsest.Proofs.Node.Walk

/-!
Walks in postorder. What such a walk lists is what its recursive definition lists: what the children list,
one after another, and then the node.
-/

namespace Palimpsest

variable {H : Type}

/-- What is below a handle, down to a depth, and then the handle. -/
def spreadUp (kids : H → List H) : (depth : Nat) → H → List H
  | 0, _ => []
  | n + 1, h => (kids h).flatMap (spreadUp kids n) ++ [h]

/-- What a walk in postorder lists. -/
def subtreeUp (kids : H → List H) (size : H → Nat) (h : H) : List H := spreadUp kids (size h) h

namespace Sized

variable {kids : H → List H} {size : H → Nat} {P : H → Prop}

theorem spreadUp_eq (hs : Sized kids size P) {h : H} (hp : P h) :
    ∀ n, size h ≤ n → spreadUp kids n h = (kids h).flatMap (subtreeUp kids size) ++ [h] := by
  apply hs.induction (motive := fun h =>
    ∀ n, size h ≤ n → spreadUp kids n h = (kids h).flatMap (subtreeUp kids size) ++ [h]) _ h hp
  intro h hp ih n hn
  have hsize := hs.size_eq h hp
  obtain ⟨n, rfl⟩ : ∃ m, n = m + 1 := ⟨n - 1, by omega⟩
  rw [spreadUp]
  congr 1
  apply List.flatMap_congr
  intro c hc
  have hlt := hs.size_lt hp hc
  rw [ih c hc n (by omega), subtreeUp, ih c hc (size c) (Nat.le_refl _)]

theorem subtreeUp_eq (hs : Sized kids size P) {h : H} (hp : P h) :
    subtreeUp kids size h = (kids h).flatMap (subtreeUp kids size) ++ [h] :=
  hs.spreadUp_eq hp (size h) (Nat.le_refl _)

/-- A tree lists the same nodes in both orders. -/
theorem subtreeUp_perm (hs : Sized kids size P) {h : H} (hp : P h) :
    (subtreeUp kids size h).Perm (subtree kids size h) := by
  apply hs.induction (motive := fun h => (subtreeUp kids size h).Perm (subtree kids size h)) _ h hp
  intro h hp ih
  rw [hs.subtreeUp_eq hp, hs.subtree_eq hp]
  have hbelow : ((kids h).flatMap (subtreeUp kids size)).Perm ((kids h).flatMap (subtree kids size)) :=
    List.Perm.flatMap_left (kids h) ih
  exact (List.perm_append_singleton h _).trans (hbelow.cons h)

end Sized

theorem subtreeUp_congr {kids kids' : H → List H} {size size' : H → Nat} {P P' : H → Prop}
    (hs : Sized kids size P) (hs' : Sized kids' size' P') (h : H) (hp : P h)
    (hagree : ∀ x, P x → P' x ∧ kids x = kids' x) : subtreeUp kids size h = subtreeUp kids' size' h := by
  apply hs.induction (motive := fun h => subtreeUp kids size h = subtreeUp kids' size' h) _ h hp
  intro h hp ih
  obtain ⟨hp', hkids⟩ := hagree h hp
  rw [hs.subtreeUp_eq hp, hs'.subtreeUp_eq hp', ← hkids]
  congr 1
  exact List.flatMap_congr ih

namespace TreeView

section Postorder

variable {m : Type → Type} [Monad m] [LawfulMonad m] {t : TreeView m H} {kind : H → NodeKind H}
  {size : H → Nat} {P : H → Prop}

/-- What is left to list of a pending entry: a subtree, or only the node once its children are pending too. -/
def toList (kind : H → NodeKind H) (size : H → Nat) (e : H × Bool) : List H :=
  if e.2 then [e.1] else subtreeUp (fun h => (kind h).children) size e.1

/-- How many steps a pending entry takes: every node of a subtree is taken from the stack twice. -/
def stepsOf (size : H → Nat) (e : H × Bool) : Nat := if e.2 then 1 else 2 * size e.1

/-- What a pending entry leaves on the stack: its children, and below them the node once more. -/
def pendingKids (kind : H → NodeKind H) (e : H × Bool) : List (H × Bool) :=
  if e.2 then [] else (kind e.1).children.map (·, false) ++ [(e.1, true)]

theorem sum_stepsOf_pending (size : H → Nat) (hs : List H) :
    ((hs.map (·, false)).map (stepsOf size)).sum = 2 * (hs.map size).sum := by
  induction hs with
  | nil => rfl
  | cons h rest ih =>
      simp only [List.map_cons, List.sum_cons, ih, stepsOf]
      simp only [Bool.false_eq_true, ite_false]
      omega

/-- Pending entries stand in finite trees themselves. -/
theorem sized_pending (hs : Sized (fun h => (kind h).children) size P) :
    Sized (pendingKids kind) (stepsOf size) fun e => P e.1 where
  closed := by
    rintro ⟨h, expanded⟩ hp e he
    cases expanded with
    | true => cases he
    | false =>
        cases List.mem_append.mp he with
        | inl hchild =>
            obtain ⟨c, hc, rfl⟩ := List.mem_map.mp hchild
            exact hs.closed h hp c hc
        | inr hself => exact List.mem_singleton.mp hself ▸ hp
  size_eq := by
    rintro ⟨h, expanded⟩ hp
    cases expanded with
    | true => rfl
    | false =>
        have hsize := hs.size_eq h hp
        simp only [pendingKids, Bool.false_eq_true, ite_false, List.map_append, List.sum_append, sum_stepsOf_pending]
        simp only [stepsOf, Bool.false_eq_true, ite_false, ite_true, List.map_cons, List.map_nil, List.sum_singleton]
        omega

theorem postorderLoop_eq (hs : Sized (fun h => (kind h).children) size P)
    (hkind : ∀ h, P h → t.kind h = pure (kind h)) (n : Nat) (stack : List (H × Bool)) (hp : ∀ e ∈ stack, P e.1)
    (hn : (stack.map (stepsOf size)).sum ≤ n) :
    t.postorderLoop n stack = pure (stack.flatMap (toList kind size)) := by
  refine (sized_pending hs).stack_induction (motive := fun n stack =>
    t.postorderLoop n stack = pure (stack.flatMap (toList kind size))) ?_ ?_ n stack hp hn
  · intro n
    cases n with
    | zero | succ _ => rfl
  · rintro n ⟨h, expanded⟩ rest hph ih
    cases expanded with
    | true =>
        simp only [postorderLoop, ite_true]
        rw [show t.postorderLoop n rest = _ from ih, pure_bind]
        rfl
    | false =>
        simp only [pendingKids, Bool.false_eq_true, ite_false, List.append_assoc, List.singleton_append] at ih
        simp only [postorderLoop, Bool.false_eq_true, ite_false]
        rw [hkind h hph, pure_bind, ih]
        simp only [List.flatMap_append, List.flatMap_cons, List.flatMap_map, toList, Bool.false_eq_true, ite_true,
          ite_false]
        rw [hs.subtreeUp_eq hph, List.append_assoc]

theorem postorderLoop_root (hs : Sized (fun h => (kind h).children) size P)
    (hkind : ∀ h, P h → t.kind h = pure (kind h)) {h : H} (hp : P h) {n : Nat} (hn : 2 * size h ≤ n) :
    t.postorderLoop n [(h, false)] = pure (subtreeUp (fun h => (kind h).children) size h) := by
  have hsum : ([(h, false)].map (stepsOf size)).sum ≤ n := by simpa [stepsOf] using hn
  rw [postorderLoop_eq hs hkind n [(h, false)] (by simpa using hp) hsum]
  simp [toList]

/-- The walk is never refused where every handle refers to a node, and lists what its recursion lists. -/
theorem postorder_eq (hs : Sized (fun h => (kind h).children) size P)
    (hkind : ∀ h, P h → t.kind h = pure (kind h)) {h : H} (hp : P h) (hsize : t.size h = pure (size h)) :
    t.postorder h = pure (subtreeUp (fun h => (kind h).children) size h) := by
  rw [postorder, hsize, pure_bind, postorderLoop_root hs hkind hp (Nat.le_refl _)]

end Postorder
end TreeView
end Palimpsest
