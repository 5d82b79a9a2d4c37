import Palimpsest.Proofs.Draft.Places
import Palimpsest.Proofs.Reconcile.Scopes

/-!
Reconciling drafts with the very trees that answer them, wherever the drafts were read. Each root is claimed
where it stands, so that the roots stay and no node is made.
-/

namespace Palimpsest

namespace DraftTree

variable {t u : DraftTree}

theorem get?_unplaced (h : t.unplaced = u.unplaced) {i : Nat} {draft : Draft} (hi : t.drafts[i]? = some draft) :
    ∃ other, u.drafts[i]? = some other ∧ other.unplaced = draft.unplaced := by
  have hdrafts : t.drafts.map Draft.unplaced = u.drafts.map Draft.unplaced := congrArg drafts h
  have hget := congrArg (·[i]?) hdrafts
  simp only [Array.getElem?_map, hi, Option.map_some] at hget
  exact Option.map_eq_some_iff.mp hget.symm

end DraftTree

namespace Reconcile

variable {f : Forest} {p : Plan}

/-- Nodes that answer drafts answer the same drafts read elsewhere. -/
theorem answers_unplaced {t u : DraftTree} (h : t.unplaced = u.unplaced) {ids : List NodeId}
    (hanswers : List.Forall₂ (Answers t.drafts f) t.roots ids) :
    List.Forall₂ (Answers u.drafts f) u.roots ids := by
  have hroots : t.roots = u.roots := (congrArg DraftTree.roots h :)
  rw [← hroots]
  refine hanswers.imp fun i id hid => ?_
  obtain ⟨draft, node, hdraft, hnode, hprint, htag⟩ := hid
  obtain ⟨other, hother, hsame⟩ := DraftTree.get?_unplaced h hdraft
  have hkind : other.kind = draft.kind := (congrArg Draft.kind hsame :)
  have hfingerprint : other.fingerprint = draft.fingerprint := (congrArg Draft.fingerprint hsame :)
  exact ⟨other, node, hother, hnode, hfingerprint ▸ hprint, hkind ▸ htag⟩

/-- A root is no symbol itself, so that it has no key. -/
theorem keyed?_root {drafts : DraftTree} (h : drafts.Lowered) (path : String) (source : SourceText)
    (keys : List (NodeId × SymbolKey)) {i : Nat} (hi : i ∈ drafts.roots) :
    (drafts.plan path source keys).keyed? i = none := by
  obtain ⟨draft, visibility, symbol, -, -, -, hdraft, hkind, -⟩ := h.declares i hi
  apply keyed?_of_unnamed h
  rw [DraftTree.kindOf_eq hdraft, hkind]
  rfl

/-- Where every root can be claimed where it stands, all are, and nothing is made. -/
theorem Installed.claims_all {s s' : State} {is : List Nat} {olds ids : List NodeId} {log : Log}
    (h : Installed f p s (NodeKind.alignLists is olds) ids log s') (hkeyed : ∀ i ∈ is, p.keyed? i = none)
    (hanswers : List.Forall₂ (Answers p.drafts.drafts s.forest) is olds)
    (hnodup : (olds.flatMap s.forest.subtree).Nodup)
    (hfree : ∀ x ∈ olds.flatMap s.forest.subtree, x ∉ s.claimed) :
    ids = olds ∧ s'.forest = s.forest ∧ s'.locations = s.locations := by
  induction is generalizing s olds ids log with
  | nil =>
      cases hanswers
      cases h
      exact ⟨rfl, rfl, rfl⟩
  | cons i rest ih =>
      cases hanswers with
      | @cons _ old _ olds hfirst hrest =>
          obtain ⟨draft, node, hdraft, hnode, hprint, htag⟩ := hfirst
          have hcandidates := Plan.candidates_of_unkeyed (hkeyed i List.mem_cons_self) old
          rw [List.flatMap_cons] at hfree hnodup
          obtain ⟨-, hrestNodup, hapart⟩ := List.nodup_append.mp hnodup
          have hclaimable : Claimable s draft old :=
            ⟨⟨node, hnode, htag, hprint⟩, fun x hx => hfree x (List.mem_append_left _ hx)⟩
          obtain ⟨ids, _, rfl, hinstalled⟩ := h.claims_only hcandidates hdraft hclaimable
          have hfree' : ∀ x ∈ olds.flatMap s.forest.subtree, x ∉ (s.claim (s.forest.subtree old)).claimed := by
            intro x hx hclaimed
            cases List.mem_append.mp hclaimed with
            | inl hnow => exact hapart x hnow x hx rfl
            | inr hbefore => exact hfree x (List.mem_append_right _ hx) hbefore
          obtain ⟨rfl, hforest, hlocations⟩ := ih hinstalled (fun j hj => hkeyed j (List.mem_cons_of_mem i hj))
            hrest hrestNodup hfree'
          exact ⟨rfl, hforest, hlocations⟩

end Reconcile

open Reconcile in
theorem reconcile_same {f : Forest} (htidy : f.Tidy) (hbuilt : f.Built) (t : Locations) {old drafts : DraftTree}
    (hdrafts : drafts.Lowered) (hsame : old.unplaced = drafts.unplaced) {roots : List NodeId}
    (hanswers : List.Forall₂ (Answers old.drafts f) old.roots roots) (hnodup : (roots.flatMap f.subtree).Nodup)
    (path : String) (source : SourceText) :
    ∃ s, reconcile f t roots drafts path source = .ok (roots, s) ∧ s.forest = f ∧ s.locations = t := by
  obtain ⟨keys, ids, log, s, hrun, h⟩ := reconcile_run htidy hbuilt t hdrafts roots path source
  have hthere : roots.filter f.contains = roots := List.filter_eq_self.mpr (contains_of_answers hanswers)
  have hinstalled := h.installed
  rw [hthere] at hinstalled
  obtain ⟨rfl, hforest, hlocations⟩ := hinstalled.claims_all (fun i hi => keyed?_root hdrafts path source keys hi)
    (answers_unplaced hsame hanswers) hnodup fun _ _ => List.not_mem_nil
  exact ⟨s, hrun, hforest, hlocations⟩

end Palimpsest
