import Palimpsest.Proofs.Reconcile.Account

/-!
Old nodes that are left for a later draft. Where neither the old nodes in the places of some drafts nor those
with the keys of drafts below have a part among given nodes, nothing of these is claimed; so an old node is there
for the draft in whose place it stands when its turn comes.
-/

namespace Palimpsest
namespace Reconcile

/-- Neither the old node in the place of a draft nor one with the key of a draft in its tree has a part among
the nodes. -/
structure Plan.Spares (p : Plan) (f : Forest) (nodes : List NodeId) (job : Nat × Option NodeId) : Prop where
  place : ∀ old, job.2 = some old → (f.subtree old).Disjoint nodes
  keyed : ∀ i ∈ p.drafts.subtree job.1, ∀ old, p.keyed? i = some old → (f.subtree old).Disjoint nodes

variable {f : Forest} {p : Plan} {nodes : List NodeId}

namespace Plan.Spares

variable {s : State} {i : Nat} {draft : Draft} {place : Option NodeId} (h : p.Spares f nodes (i, place))
  (hnumbered : Draft.Numbered p.drafts.drafts) (hdraft : p.drafts.drafts[i]? = some draft)
include h hnumbered hdraft

theorem candidate : ∀ old ∈ p.candidates i place, (f.subtree old).Disjoint nodes := by
  intro old hold
  cases List.mem_append.mp hold with
  | inl hkeyed =>
      have hself : i ∈ p.drafts.subtree i := by simp [DraftTree.subtree_eq hnumbered hdraft]
      exact h.keyed i hself old (by simpa using hkeyed)
  | inr hplace => exact h.place old (by simpa using hplace)

/-- What a draft spares, its children spare. -/
theorem below (hf : f.Built) (hs : Steady f p s) (hthere : ∀ old ∈ p.candidates i place, f.contains old = true) :
    ∀ job ∈ (p.below s.forest i draft place).children, p.Spares f nodes job := by
  intro job hjob
  have hchild : job.1 ∈ draft.kind.children := map_fst_below p s.forest i draft place ▸ List.mem_map_of_mem hjob
  constructor
  · intro d hd
    obtain ⟨c, old⟩ := job
    obtain rfl : old = some d := hd
    obtain ⟨kind, hkind, hmem⟩ := NodeKind.mem_of_mem_align hjob
    obtain ⟨base, hbase, rfl, -⟩ := baseKind?_eq_some hkind
    have hcandidate := Plan.mem_candidates hbase
    have hin := hthere base hcandidate
    rw [hs.grows.kindOf_eq hin] at hmem
    intro x hx
    exact h.candidate hnumbered hdraft base hcandidate ((hf.sized.mem_subtree hin).mpr (.inr ⟨d, hmem, hx⟩))
  · intro j hj
    apply h.keyed j
    rw [DraftTree.subtree_eq hnumbered hdraft]
    exact List.mem_cons_of_mem i (List.mem_flatMap.mpr ⟨job.1, hchild, hj⟩)

end Plan.Spares

namespace Installed

variable {s s' : State} {jobs : List (Nat × Option NodeId)} {ids : List NodeId} {log : Log}

theorem spares (h : Installed f p s jobs ids log s') (hf : f.Built) (hnumbered : Draft.Numbered p.drafts.drafts)
    (hjobs : ∀ job ∈ jobs, p.Spares f nodes job) {x : NodeId} (hx : x ∈ nodes) (hfree : x ∉ s.claimed) :
    x ∉ s'.claimed := by
  induction h with
  | nil _ => exact hfree
  | @claim s s' i place draft skipped later old rest ids log hs hdraft hthere hcandidates _ _ _ ih =>
      obtain ⟨hjob, hjobs⟩ := List.forall_mem_cons.mp hjobs
      have hmem : old ∈ p.candidates i place := by simp [hcandidates]
      apply ih hjobs
      intro hclaimed
      cases List.mem_append.mp hclaimed with
      | inl hnow =>
          rw [hf.subtree_grows hs.built hs.grows (hthere old hmem)] at hnow
          exact hjob.candidate hnumbered hdraft old hmem hnow hx
      | inr hbefore => exact hfree hbefore
  | make hs hdraft hthere _ _ _ _ _ ihbelow ih =>
      obtain ⟨hjob, hjobs⟩ := List.forall_mem_cons.mp hjobs
      exact ih hjobs (ihbelow (hjob.below hnumbered hdraft hf hs hthere) hfree)

/-- An old node that is spared by the drafts before, and that could be claimed but for them, answers the draft in
whose place it stands. -/
theorem kept_in_place {before after : List (Nat × Option NodeId)} {i : Nat} {draft : Draft} {old : NodeId} {node : Node}
    (h : Installed f p s (before ++ (i, some old) :: after) ids log s') (hf : f.Built)
    (hnumbered : Draft.Numbered p.drafts.drafts) (hbefore : ∀ job ∈ before, p.Spares f (f.subtree old) job)
    (hkeyed : p.keyed? i = none) (hdraft : p.drafts.drafts[i]? = some draft) (hnode : f.get? old = some node)
    (htag : node.kind.tag = draft.kind.tag) (hprint : node.fingerprint = draft.fingerprint)
    (hfree : ∀ x ∈ f.subtree old, x ∉ s.claimed) : ids[before.length]? = some old := by
  obtain ⟨firsts, later, s₁, first, log', rfl, hfirst, hlater⟩ := h.split
  have hlength : before.length = firsts.length := by simpa using hfirst.answered.answers.length_eq
  have hs := hlater.start
  have hclaimable : Claimable s₁ draft old := by
    refine ⟨⟨node, hs.grows old node hnode, htag, hprint⟩, fun x hx => ?_⟩
    rw [hf.subtree_grows hs.built hs.grows (Forest.contains_iff.mpr ⟨node, hnode⟩)] at hx
    exact hfirst.spares hf hnumbered hbefore hx (hfree x hx)
  obtain ⟨rest, _, rfl, -⟩ := hlater.claims_only (Plan.candidates_of_unkeyed hkeyed old) hdraft hclaimable
  rw [hlength]
  simp

/-- A draft without a key is answered by the old node in its place or by a new one. -/
theorem own_or_new (h : Installed f p s jobs ids log s') (hkeyed : ∀ job ∈ jobs, p.keyed? job.1 = none) :
    List.Forall₂ (fun job id => job.2 = some id ∨ f.contains id = false) jobs ids := by
  induction h with
  | nil _ => exact .nil
  | @claim s s' i place draft skipped later old rest ids log _ _ _ hcandidates _ _ _ ih =>
      obtain ⟨hfirst, hrest⟩ := List.forall_mem_cons.mp hkeyed
      have hmem : old ∈ p.candidates i place := by simp [hcandidates]
      exact .cons (.inl (by simpa [Plan.candidates, hfirst] using hmem)) (ih hrest)
  | @make s s₁ s' i place draft kind id forest rest ids inner log _ _ _ _ _ hbelow hadds _ _ ih =>
      obtain ⟨-, hrest⟩ := List.forall_mem_cons.mp hkeyed
      refine .cons (.inr ?_) (ih hrest)
      rw [← Bool.not_eq_true]
      intro hold
      have hthere := hbelow.answered.steady.grows.contains hold
      simp [hadds.not_contains] at hthere

end Installed

end Reconcile
end Palimpsest
