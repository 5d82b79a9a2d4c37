import Palimpsest.Proofs.Node.SymbolKey
import Palimpsest.Proofs.Reconcile

/-!
Reconciling drafts with old trees is never refused, and what it does is an installation of the roots, each
compared with the old root at the same place.
-/

namespace Palimpsest
namespace Reconcile

theorem run_bind_ok {α β : Type} {x : Install α} {f : α → Install β} {s s' : State} {a : α}
    (h : x.run s = .ok (a, s')) : (x >>= f).run s = (f a).run s' := by
  rw [StateT.run_bind, h]
  rfl

variable {f₀ : Forest} {p : Plan} {s : State} {draft : Draft}

/-- An old node is claimed with all below it, or left alone. -/
theorem tryClaim_run (hs : Steady f₀ p s) (draft : Draft) (old : NodeId) :
    Claimable s draft old ∧ (tryClaim draft old).run s = .ok (true, s.claim (s.forest.subtree old)) ∨
      ¬ Claimable s draft old ∧ (tryClaim draft old).run s = .ok (false, s) := by
  have hget : (get : Install State).run s = .ok (s, s) := rfl
  rw [tryClaim, run_bind_ok hget]
  cases hnode : s.forest.get? old with
  | none =>
      refine .inr ⟨fun hclaim => ?_, rfl⟩
      obtain ⟨node, hthere, -⟩ := hclaim.same
      simp [hnode] at hthere
  | some node =>
      by_cases hmatch : node.kind.tag = draft.kind.tag ∧ node.fingerprint = draft.fingerprint
      · have hthere : s.forest.contains old = true := Forest.contains_iff.mpr ⟨node, hnode⟩
        have hpreorder : (inForest (s.forest.view.preorder old)).run s = .ok (s.forest.subtree old, s) := by
          rw [hs.built.preorder_eq hthere]
          rfl
        simp only [hmatch, and_self, ite_true]
        rw [run_bind_ok hpreorder]
        by_cases hany : (s.forest.subtree old).any s.claimed.contains = true
        · simp only [hany, ite_true]
          obtain ⟨x, hx, hclaimed⟩ := List.any_eq_true.mp hany
          exact .inr ⟨fun hclaim => hclaim.unclaimed x hx (by simpa using hclaimed), rfl⟩
        · simp only [hany, ite_false, Bool.false_eq_true]
          refine .inl ⟨⟨⟨node, hnode, hmatch⟩, fun x hx hclaimed => hany ?_⟩, rfl⟩
          exact List.any_eq_true.mpr ⟨x, hx, by simpa using hclaimed⟩
      · simp only [hmatch, ite_false]
        refine .inr ⟨fun hclaim => hmatch ?_, rfl⟩
        obtain ⟨node', hthere, hsame⟩ := hclaim.same
        obtain rfl : node = node' := Option.some.inj (hnode.symm.trans hthere)
        exact hsame

/-- Of several candidates the first that can be is claimed, if any. -/
theorem claimFirst_run (hs : Steady f₀ p s) (draft : Draft) (olds : List NodeId) :
    (∃ skipped old later, olds = skipped ++ old :: later ∧ (∀ x ∈ skipped, ¬ Claimable s draft x) ∧
      Claimable s draft old ∧
      (claimFirst draft olds).run s = .ok (some old, s.claim (s.forest.subtree old))) ∨
    (∀ x ∈ olds, ¬ Claimable s draft x) ∧ (claimFirst draft olds).run s = .ok (none, s) := by
  induction olds with
  | nil => exact .inr ⟨by simp, rfl⟩
  | cons old rest ih =>
      rw [claimFirst]
      cases tryClaim_run hs draft old with
      | inl hclaimed =>
          rw [run_bind_ok hclaimed.2]
          exact .inl ⟨[], old, rest, rfl, by simp, hclaimed.1, rfl⟩
      | inr hleft =>
          rw [run_bind_ok hleft.2]
          cases ih with
          | inl hlater =>
              obtain ⟨skipped, x, later, heq, hskipped, hclaim, hrun⟩ := hlater
              refine .inl ⟨old :: skipped, x, later, by rw [heq]; rfl, ?_, hclaim, hrun⟩
              exact List.forall_mem_cons.mpr ⟨hleft.1, hskipped⟩
          | inr hnone => exact .inr ⟨List.forall_mem_cons.mpr ⟨hleft.1, hnone.1⟩, hnone.2⟩

theorem addFresh_run (p : Plan) {kind : NodeKind NodeId} {id : NodeId} {forest : Forest}
    (h : s.forest.alloc (s.forest.node kind draft.fingerprint) = (id, forest)) :
    (addFresh p draft kind).run s = .ok (id, s.add p draft id forest) := by
  have hrun : (addFresh p draft kind).run s =
      .ok ((s.forest.alloc (s.forest.node kind draft.fingerprint)).1,
        s.add p draft (s.forest.alloc (s.forest.node kind draft.fingerprint)).1
          (s.forest.alloc (s.forest.node kind draft.fingerprint)).2) := rfl
  rw [hrun, h]

theorem mapM_run {g : Nat × Option NodeId → Install NodeId} {jobs : List (Nat × Option NodeId)}
    (hg : ∀ job ∈ jobs, ∀ s, Steady f₀ p s → ∃ id log s', (g job).run s = .ok (id, s') ∧
      Installed f₀ p s [job] [id] log s') (hs : Steady f₀ p s) :
    ∃ ids log s', (jobs.mapM g).run s = .ok (ids, s') ∧ Installed f₀ p s jobs ids log s' := by
  induction jobs generalizing s with
  | nil => exact ⟨[], _, s, rfl, .nil hs⟩
  | cons job rest ih =>
      obtain ⟨id, first, s₁, hrun, hfirst⟩ := hg job List.mem_cons_self s hs
      obtain ⟨ids, log, s₂, hruns, hlater⟩ :=
        ih (fun x hx => hg x (List.mem_cons_of_mem job hx)) hfirst.answered.steady
      refine ⟨id :: ids, _, s₂, ?_, hfirst.cons hlater⟩
      rw [List.mapM_cons, run_bind_ok hrun, run_bind_ok hruns]
      rfl

theorem install_eq {i : Nat} {place : Option NodeId} (hdraft : p.drafts.drafts[i]? = some draft) :
    install p i place = (do
      match ← claimFirst draft (p.candidates i place) with
      | some old => return old
      | none =>
        let s ← get
        let kind ← (p.below s.forest i draft place).traverse fun job =>
          if _h : job.1 < i then install p job.1 job.2 else throw (.misnumbered job.1)
        addFresh p draft kind) := by
  rw [install, hdraft]
  rfl

variable (hf₀ : f₀.Built) (hready : p.Ready f₀)
include hf₀ hready

theorem install_run (i : Nat) (place : Option NodeId) (hjob : Pending f₀ p [(i, place)]) (hs : Steady f₀ p s) :
    ∃ id log s', (install p i place).run s = .ok (id, s') ∧ Installed f₀ p s [(i, place)] [id] log s' := by
  -- The children of a draft are numbered below it.
  induction i using Nat.strongRecOn generalizing s place with
  | ind i ih =>
      obtain ⟨hi, hplace⟩ := hjob (i, place) List.mem_cons_self
      obtain ⟨draft, hdraft⟩ : ∃ draft, p.drafts.drafts[i]? = some draft := ⟨_, Array.getElem?_eq_getElem hi⟩
      have hthere : ∀ x ∈ p.candidates i place, f₀.contains x = true := contains_of_candidate hready hplace
      rw [install_eq hdraft]
      cases claimFirst_run hs draft (p.candidates i place) with
      | inl hclaimed =>
          obtain ⟨skipped, old, later, hcandidates, hskipped, hold, hrun⟩ := hclaimed
          rw [run_bind_ok hrun]
          have hin : f₀.contains old = true := hthere old (by simp [hcandidates])
          exact ⟨old, _, _, rfl, .claim hs hdraft hthere hcandidates hskipped hold (.nil (hs.claim hf₀ hin))⟩
      | inr hnone =>
          have hget : (get : Install State).run s = .ok (s, s) := rfl
          rw [run_bind_ok hnone.2]
          simp only
          rw [run_bind_ok hget]
          have hjobs := pending_below hready hplace hf₀ hs hdraft
          have hchildren := map_fst_below p s.forest i draft place
          have hstep : ∀ job ∈ (p.below s.forest i draft place).children, ∀ s, Steady f₀ p s →
              ∃ id log s', (if _h : job.1 < i then install p job.1 job.2 else throw (.misnumbered job.1)).run s =
                .ok (id, s') ∧ Installed f₀ p s [job] [id] log s' := by
            intro job hmem s₁ hs₁
            have hlt : job.1 < i :=
              (hready.numbered i draft hdraft).1 job.1 (hchildren ▸ List.mem_map_of_mem hmem)
            simp only [hlt, dite_true]
            exact ih job.1 hlt job.2 (by simpa [Pending] using hjobs job hmem) hs₁
          obtain ⟨ids, inner, s₁, hruns, hbelow⟩ := mapM_run hstep hs
          have hlength : ids.length = (p.below s.forest i draft place).children.length := by
            rw [← hbelow.answered.answers.length_eq, List.length_map]
          have hshape : ((p.below s.forest i draft place).refill ids).shape = draft.kind.shape := by
            rw [NodeKind.shape_refill hlength, ← NodeKind.shape_map Prod.fst, Plan.below, NodeKind.map_fst_align]
          rw [← NodeKind.children_refill hlength] at hbelow
          rw [NodeKind.traverse_eq_refill, bind_map_left, run_bind_ok hruns]
          cases halloc : s₁.forest.alloc
              (s₁.forest.node ((p.below s.forest i draft place).refill ids) draft.fingerprint) with
          | mk id forest =>
              have hanswers := hbelow.answered.answers
              rw [hchildren] at hanswers
              have hadds := hbelow.answered.steady.tidy.adds halloc
              have hsteady := hbelow.answered.steady.add hready.numbered hdraft hshape hanswers hadds
              exact ⟨id, _, _, addFresh_run p halloc,
                .make hs hdraft hthere hnone.1 hshape hbelow hadds (.nil hsteady)⟩

/-- Each root is compared with the old root at the same place. -/
theorem installRoots_run {roots : List Nat} {olds : List NodeId}
    (hjobs : Pending f₀ p (NodeKind.alignLists roots olds)) (hs : Steady f₀ p s) :
    ∃ ids log s', (installRoots p roots olds).run s = .ok (ids, s') ∧
      Installed f₀ p s (NodeKind.alignLists roots olds) ids log s' := by
  induction roots generalizing olds s with
  | nil => exact ⟨[], _, s, rfl, .nil hs⟩
  | cons i rest ih =>
      have hsplit : NodeKind.alignLists (i :: rest) olds = (i, olds.head?) :: NodeKind.alignLists rest olds.tail := by
        cases olds <;> rfl
      rw [hsplit] at hjobs ⊢
      obtain ⟨hjob, hrest⟩ := List.forall_mem_cons.mp hjobs
      have hpending : Pending f₀ p [(i, olds.head?)] := by simpa [Pending] using hjob
      obtain ⟨id, first, s₁, hrun, hfirst⟩ := install_run hf₀ hready i olds.head? hpending hs
      obtain ⟨ids, log, s₂, hruns, hlater⟩ := ih hrest hfirst.answered.steady
      refine ⟨id :: ids, _, s₂, ?_, hfirst.cons hlater⟩
      rw [installRoots, run_bind_ok hrun, run_bind_ok hruns]
      rfl

/-- Drafts were installed in a forest, against those of some old roots that are still there. -/
structure Reconciliation (f : Forest) (t : Locations) (olds : List NodeId) (p : Plan) (ids : List NodeId)
    (log : Log) (s : State) : Prop where
  tidy : f.Tidy
  built : f.Built
  ready : p.Ready f
  oldKeys_eq : f.view.symbolKeys (olds.filter f.contains) = .ok p.oldKeys
  installed : Installed f p ⟨f, t, [], ⟨0, 0, 0⟩⟩ (NodeKind.alignLists p.drafts.roots (olds.filter f.contains))
    ids log s

omit hf₀ hready in
theorem Reconciliation.answered {f : Forest} {t : Locations} {olds : List NodeId} {p : Plan} {ids : List NodeId}
    {log : Log} {s : State} (h : Reconciliation f t olds p ids log s) :
    Answered f p ⟨f, t, [], ⟨0, 0, 0⟩⟩ p.drafts.roots ids s := by
  have hanswered := h.installed.answered
  rwa [NodeKind.map_fst_alignLists] at hanswered

end Reconcile

namespace DraftTree

/-- What reconciling the drafts goes by. -/
def plan (drafts : DraftTree) (path : String) (source : SourceText) (oldKeys : List (NodeId × SymbolKey)) :
    Reconcile.Plan :=
  { drafts, path, source, oldKeys, newKeys := (drafts.view.symbolKeys drafts.roots).run }

end DraftTree

open Reconcile in
/-- Reconciling drafts with old trees is never refused. -/
theorem reconcile_run {f : Forest} (htidy : f.Tidy) (hbuilt : f.Built) (t : Locations) {drafts : DraftTree}
    (hdrafts : drafts.Lowered) (olds : List NodeId) (path : String) (source : SourceText) :
    ∃ keys ids log s, reconcile f t olds drafts path source = .ok (ids, s) ∧
      Reconciliation f t olds (drafts.plan path source keys) ids log s := by
  have holds : ∀ id ∈ olds.filter f.contains, f.contains id = true := fun id hid => (List.mem_filter.mp hid).2
  obtain ⟨keys, hkeys, hfound⟩ := TreeView.symbolKeys_found hbuilt.sized (fun _ hx => Forest.view_kind hx)
    (fun x _ => Forest.view_size f x) holds
  have hmem : ∀ e ∈ keys, f.contains e.1 = true :=
    fun e he => of_mem_scopedNodes hbuilt.sized holds (hfound e he).1
  have hready : (drafts.plan path source keys).Ready f := ⟨hdrafts.numbered, hmem⟩
  have hpending :
      Pending f (drafts.plan path source keys) (NodeKind.alignLists drafts.roots (olds.filter f.contains)) := by
    intro job hjob
    obtain ⟨i, place⟩ := job
    constructor
    · refine hdrafts.roots_lt i ?_
      rw [← NodeKind.map_fst_alignLists drafts.roots (olds.filter f.contains)]
      exact List.mem_map_of_mem hjob
    · intro old hold
      obtain rfl : place = some old := hold
      exact holds old (NodeKind.mem_of_mem_alignLists hjob)
  obtain ⟨ids, log, s, hrun, hinstalled⟩ :=
    installRoots_run hbuilt hready hpending (.start htidy hbuilt t ⟨0, 0, 0⟩)
  refine ⟨keys, ids, log, s, ?_, htidy, hbuilt, hready, hkeys, hinstalled⟩
  rw [reconcile, hkeys]
  exact hrun

end Palimpsest
