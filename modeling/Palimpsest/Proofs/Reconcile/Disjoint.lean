import Palimpsest.Proofs.Reconcile.Faithful

/-!
Disjoint reuse. In forests that only reconciling and sweeping brought about, no node is twice in a tree; then
neither is one in the trees that reconciling gives. These are made of the new nodes and of the old subtrees
claimed, as the statistics count them, and they have a node for each draft.
-/

namespace Palimpsest

open Reconcile

/-- A forest brought about by reconciling the drafts of files with old nodes, and by sweeps that keep the
children of what they keep. -/
inductive Grown : Forest → Prop
  | empty : Grown .empty
  | reconcile {f : Forest} {t : Locations} {olds ids : List NodeId} {file : Surface.File} {name path : String}
      {source : SourceText} {s : State} (hf : Grown f)
      (hrun : reconcile f t olds (.ofFile file name) path source = .ok (ids, s)) : Grown s.forest
  | sweep {f : Forest} {keep : NodeId → Bool} (hf : Grown f)
      (hkeep : ∀ id, f.contains id = true → keep id = true → ∀ c ∈ f.childrenOf id, keep c = true) :
      Grown (f.sweep keep).2

namespace Grown

variable {f : Forest}

theorem sound (h : Grown f) : f.Tidy ∧ f.Coherent := by
  induction h with
  | empty => exact ⟨.empty, .empty⟩
  | @reconcile f t olds ids file name path source s _ hrun ih =>
      obtain ⟨htidy, hcoherent⟩ := ih
      obtain ⟨_, ids', _, s', hrun', hreconciled⟩ :=
        reconcile_run htidy hcoherent.toBuilt t (DraftTree.lowered_ofFile file name) olds path source
      obtain ⟨rfl, rfl⟩ := Prod.mk.inj (Except.ok.inj (hrun.symm.trans hrun'))
      exact ⟨hreconciled.answered.steady.tidy, hreconciled.coherent hcoherent⟩
  | @sweep f keep _ hkeep ih =>
      exact ⟨ih.1.sweep keep, ih.2.restrict (Forest.get?_sweep f keep) hkeep⟩

theorem tidy (h : Grown f) : f.Tidy := h.sound.1

theorem coherent (h : Grown f) : f.Coherent := h.sound.2

end Grown

/-- The trees of `ids` consist of the nodes made and of the subtrees claimed, with no node twice. -/
structure Divided (f : Forest) (drafts : DraftTree) (ids : List NodeId) (s : State) (made claims : List NodeId) :
    Prop where
  preorder_eq : ids.mapM s.forest.view.preorder = .ok (ids.map s.forest.subtree)
  nodup : (ids.flatMap s.forest.subtree).Nodup
  perm : (ids.flatMap s.forest.subtree).Perm (made ++ claims.flatMap f.subtree)
  mem_made : ∀ id, id ∈ made ↔ s.forest.contains id = true ∧ f.contains id = false
  claims_old : ∀ old ∈ claims, f.contains old = true
  length_made : made.length = s.stats.freshNodes
  length_claims : claims.length = s.stats.reusedSubtrees
  length_reused : (claims.flatMap f.subtree).length = s.stats.reusedNodes
  total : s.stats.freshNodes + s.stats.reusedNodes = drafts.drafts.size
  live_eq : s.forest.live = f.live + s.stats.freshNodes

theorem length_flatMap_eq {A B C D : Type} {f : A → List C} {g : B → List D} {as : List A} {bs : List B}
    (h : List.Forall₂ (fun a b => (f a).length = (g b).length) as bs) :
    (as.flatMap f).length = (bs.flatMap g).length := by
  induction h with
  | nil => rfl
  | cons hfirst _ ih => rw [List.flatMap_cons, List.flatMap_cons, List.length_append, List.length_append, hfirst, ih]

namespace Reconcile
namespace Reconciliation

variable {f : Forest} {t : Locations} {olds : List NodeId} {drafts : DraftTree} {path : String} {source : SourceText}
  {keys : List (NodeId × SymbolKey)} {ids : List NodeId} {log : Log} {s : State}

/-- There are as many nodes in the trees of the answers as there are drafts. -/
theorem length_eq (h : Reconciliation f t olds (drafts.plan path source keys) ids log s)
    (hhash : Collisionless f drafts) :
    (drafts.roots.flatMap drafts.subtree).length = (ids.flatMap s.forest.subtree).length :=
  length_flatMap_eq (h.answered.answers.imp fun _ _ hanswers => (h.forall₂_subtree hhash hanswers).length_eq.symm)

theorem divided (h : Reconciliation f t olds (drafts.plan path source keys) ids log s) (hf : f.Coherent)
    (hdrafts : drafts.Lowered) (hhash : Collisionless f drafts) :
    Divided f drafts ids s log.fresh (log.claims.map Prod.snd) := by
  have hbuilt := h.answered.steady.built
  have hreused : (log.claims.map Prod.snd).flatMap f.subtree = log.reused f := by
    rw [List.flatMap_map]
    rfl
  have hstats := h.accounted.stats_eq
  simp only [Nat.zero_add] at hstats
  exact
    { preorder_eq := NodeKind.mapM_eq_pure fun id hid =>
        hbuilt.preorder_eq (contains_of_answers h.answered.answers id hid)
      nodup := h.nodup hf
      perm := hreused ▸ h.perm
      mem_made := h.accounted.mem_fresh_iff
      claims_old := List.forall_mem_map.mpr h.accounted.claims_old
      length_made := by rw [hstats]
      length_claims := by rw [hstats, List.length_map]
      length_reused := by rw [hstats, hreused]
      total := by
        have hlength := h.length_eq hhash
        rw [hdrafts.perm.length_eq, List.length_range, h.perm.length_eq, List.length_append] at hlength
        rw [hstats, ← hlength]
      live_eq := by rw [h.accounted.live_eq, hstats] }

end Reconciliation
end Reconcile

/-- Whatever the history of a forest and whatever its old nodes, no node is used twice for the drafts of a file. -/
theorem reconcile_divided {f : Forest} (hf : Grown f) (t : Locations) (olds : List NodeId) (file : Surface.File)
    (name path : String) (source : SourceText) (hhash : Collisionless f (.ofFile file name)) :
    ∃ ids s made claims, reconcile f t olds (.ofFile file name) path source = .ok (ids, s) ∧
      Divided f (.ofFile file name) ids s made claims := by
  have hdrafts := DraftTree.lowered_ofFile file name
  obtain ⟨_, ids, log, s, hrun, hreconciled⟩ :=
    reconcile_run hf.tidy hf.coherent.toBuilt t hdrafts olds path source
  exact ⟨ids, s, log.fresh, log.claims.map Prod.snd, hrun, hreconciled.divided hf.coherent hdrafts hhash⟩

/-- One old root is given twice. -/
theorem reconcile_divided_repeated :
    ∃ olds s ids s' made claims,
      reconcile .empty .empty [] (.ofText "var a = 1;" "m") "m" (.ofString "var a = 1;") = .ok (olds, s) ∧
      Grown s.forest ∧ reconcile s.forest s.locations (olds ++ olds) (.ofText "var b = 1; var a = 1;" "m") "m"
        (.ofString "var b = 1; var a = 1;") = .ok (ids, s') ∧
      Divided s.forest (.ofText "var b = 1; var a = 1;" "m") ids s' made claims := by
  obtain ⟨_, olds, _, s, hrun, -⟩ := reconcile_run .empty Forest.Coherent.empty.toBuilt .empty
    (DraftTree.lowered_ofText "var a = 1;" "m") [] "m" (.ofString "var a = 1;")
  have hgrown : Grown s.forest := .reconcile .empty hrun
  obtain ⟨ids, s', made, claims, hrun', hdivided⟩ := reconcile_divided hgrown s.locations (olds ++ olds)
    (Surface.parseText "var b = 1; var a = 1;").file "m" "m" (.ofString "var b = 1; var a = 1;")
    (collisionless_inserted hrun)
  exact ⟨olds, s, ids, s', made, claims, hrun, hgrown, hrun', hdivided⟩

end Palimpsest
