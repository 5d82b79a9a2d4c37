import Palimpsest.Proofs.Draft
import Palimpsest.Proofs.Forest.Collect
import Palimpsest.Reconcile

/-!
Installing drafts, one after the other: each is answered by an old subtree that is claimed for it, or by a
new node over the answers to its children. Every answer has the tag and the fingerprint of its draft, and
what was in the forest stays as it is.
-/

namespace Palimpsest
namespace Reconcile

/-- The node has the tag and the fingerprint of the draft. -/
def Answers (drafts : Array Draft) (f : Forest) (i : Nat) (id : NodeId) : Prop :=
  ∃ draft node, drafts[i]? = some draft ∧ f.get? id = some node ∧
    node.fingerprint = draft.fingerprint ∧ node.kind.tag = draft.kind.tag

theorem Answers.grows {drafts : Array Draft} {f g : Forest} {i : Nat} {id : NodeId}
    (h : Answers drafts f i id) (hfg : f.Grows g) : Answers drafts g i id := by
  obtain ⟨draft, node, hi, hid, hprint, htag⟩ := h
  exact ⟨draft, node, hi, hfg id node hid, hprint, htag⟩

theorem Answers.contains {drafts : Array Draft} {f : Forest} {i : Nat} {id : NodeId}
    (h : Answers drafts f i id) : f.contains id = true := by
  obtain ⟨draft, node, -, hid, -⟩ := h
  exact Forest.contains_iff.mpr ⟨node, hid⟩

theorem exists_answer {drafts : Array Draft} {f : Forest} {is : List Nat} {ids : List NodeId}
    (h : List.Forall₂ (Answers drafts f) is ids) {id : NodeId} (hid : id ∈ ids) :
    ∃ i ∈ is, Answers drafts f i id := by
  induction h with
  | nil => exact nomatch hid
  | @cons i _ is _ hfirst _ ih =>
      cases hid with
      | head => exact ⟨i, List.mem_cons_self, hfirst⟩
      | tail _ hin =>
          obtain ⟨j, hj, hanswers⟩ := ih hin
          exact ⟨j, List.mem_cons_of_mem i hj, hanswers⟩

theorem contains_of_answers {drafts : Array Draft} {f : Forest} {is : List Nat} {ids : List NodeId}
    (h : List.Forall₂ (Answers drafts f) is ids) : ∀ id ∈ ids, f.contains id = true := by
  intro id hid
  obtain ⟨i, -, hanswers⟩ := exists_answer h hid
  exact hanswers.contains

theorem prints_of_answers {drafts : Array Draft} {f : Forest} {is : List Nat} {ids : List NodeId}
    (h : List.Forall₂ (Answers drafts f) is ids) : ids.map f.printOf = is.map (Draft.printIn drafts) := by
  induction h with
  | nil => rfl
  | cons hfirst _ ih =>
      obtain ⟨draft, node, hi, hid, hprint, -⟩ := hfirst
      rw [List.map_cons, List.map_cons, ih, Forest.printOf_eq hid, Draft.printIn, hi, hprint]
      rfl

section States

/-- The state after a claim. -/
def State.claim (s : State) (subtree : List NodeId) : State :=
  { s with claimed := subtree ++ s.claimed, stats := { s.stats with
    reusedSubtrees := s.stats.reusedSubtrees + 1
    reusedNodes := s.stats.reusedNodes + subtree.length } }

/-- The state after a node was made and placed. -/
def State.add (s : State) (p : Plan) (draft : Draft) (id : NodeId) (forest : Forest) : State :=
  { s with forest, locations := s.locations.insert id (Location.resolve p.path draft.span p.source),
           stats := { s.stats with freshNodes := s.stats.freshNodes + 1 } }

/-- The old node has the tag and the fingerprint of the draft, and no part of its tree is claimed. -/
structure Claimable (s : State) (draft : Draft) (old : NodeId) : Prop where
  same : ∃ node, s.forest.get? old = some node ∧ node.kind.tag = draft.kind.tag ∧
    node.fingerprint = draft.fingerprint
  unclaimed : ∀ x ∈ s.forest.subtree old, x ∉ s.claimed

/-- The old nodes that are tried for a draft. -/
def Plan.candidates (p : Plan) (i : Nat) (place : Option NodeId) : List NodeId :=
  (p.keyed? i).toList ++ place.toList

/-- The children of a draft, each with the old node in its place. -/
def Plan.below (p : Plan) (f : Forest) (i : Nat) (draft : Draft) (place : Option NodeId) :
    NodeKind (Nat × Option NodeId) :=
  draft.kind.align (baseKind? draft ((p.keyed? i).or place) f)

/-- What was done, the last first: drafts with the nodes made for them, and drafts with the old nodes that
were claimed for them. -/
structure Log where
  made : List (Nat × NodeId)
  claims : List (Nat × NodeId)

instance : Append Log := ⟨fun later earlier => ⟨later.made ++ earlier.made, later.claims ++ earlier.claims⟩⟩

@[simp] theorem Log.made_append (later earlier : Log) : (later ++ earlier).made = later.made ++ earlier.made := rfl

@[simp] theorem Log.claims_append (later earlier : Log) :
    (later ++ earlier).claims = later.claims ++ earlier.claims := rfl

end States

section Invariant

variable (f₀ : Forest) (p : Plan)

/-- The node has the content of one of the drafts. -/
def Drafted (drafts : Array Draft) (f : Forest) (node : Node) : Prop :=
  ∃ draft ∈ drafts, node.kind.map f.printOf = draft.kind.map (Draft.printIn drafts)

/-- How things stand between installations that start from `f₀`. -/
structure Steady (s : State) : Prop where
  tidy : s.forest.Tidy
  built : s.forest.Built
  grows : f₀.Grows s.forest
  origin : ∀ id node, s.forest.get? id = some node →
    f₀.get? id = some node ∨ Drafted p.drafts.drafts s.forest node
  claimed : ∀ x ∈ s.claimed, f₀.contains x = true

/-- The drafts are numbered, and the old nodes with keys are in the forest. -/
structure Plan.Ready : Prop where
  numbered : Draft.Numbered p.drafts.drafts
  keyed : ∀ e ∈ p.oldKeys, f₀.contains e.1 = true

/-- The drafts exist, and so do the old nodes in their places. -/
def Pending (jobs : List (Nat × Option NodeId)) : Prop :=
  ∀ job ∈ jobs, job.1 < p.drafts.drafts.size ∧ ∀ old, job.2 = some old → f₀.contains old = true

/-- From one state to another, drafts with old nodes in their places were answered by nodes, in order. -/
inductive Installed : State → List (Nat × Option NodeId) → List NodeId → Log → State → Prop
  | nil {s : State} (hs : Steady f₀ p s) : Installed s [] [] ⟨[], []⟩ s
  | claim {s s' : State} {i : Nat} {place : Option NodeId} {draft : Draft} {skipped later : List NodeId}
      {old : NodeId} {rest : List (Nat × Option NodeId)} {ids : List NodeId} {log : Log}
      (hs : Steady f₀ p s) (hdraft : p.drafts.drafts[i]? = some draft)
      (hthere : ∀ x ∈ p.candidates i place, f₀.contains x = true)
      (hcandidates : p.candidates i place = skipped ++ old :: later)
      (hskipped : ∀ x ∈ skipped, ¬ Claimable s draft x) (hold : Claimable s draft old)
      (hrest : Installed (s.claim (s.forest.subtree old)) rest ids log s') :
      Installed s ((i, place) :: rest) (old :: ids) (log ++ ⟨[], [(i, old)]⟩) s'
  | make {s s₁ s' : State} {i : Nat} {place : Option NodeId} {draft : Draft} {kind : NodeKind NodeId}
      {id : NodeId} {forest : Forest} {rest : List (Nat × Option NodeId)} {ids : List NodeId}
      {inner log : Log}
      (hs : Steady f₀ p s) (hdraft : p.drafts.drafts[i]? = some draft)
      (hthere : ∀ x ∈ p.candidates i place, f₀.contains x = true)
      (hnone : ∀ x ∈ p.candidates i place, ¬ Claimable s draft x) (hshape : kind.shape = draft.kind.shape)
      (hbelow : Installed s (p.below s.forest i draft place).children kind.children inner s₁)
      (hadds : s₁.forest.Adds (s₁.forest.node kind draft.fingerprint) id forest)
      (hrest : Installed (s₁.add p draft id forest) rest ids log s') :
      Installed s ((i, place) :: rest) (id :: ids) (log ++ (⟨[(i, id)], []⟩ ++ inner)) s'

/-- What installing one draft after the other leaves. -/
structure Answered (s : State) (is : List Nat) (ids : List NodeId) (s' : State) : Prop where
  steady : Steady f₀ p s'
  grows : s.forest.Grows s'.forest
  answers : List.Forall₂ (Answers p.drafts.drafts s'.forest) is ids

variable {f₀ p}

theorem Steady.start {f : Forest} (htidy : f.Tidy) (hbuilt : f.Built) (t : Locations) (stats : Stats) :
    Steady f p ⟨f, t, [], stats⟩ where
  tidy := htidy
  built := hbuilt
  grows := .refl f
  origin _ _ h := .inl h
  claimed _ hx := nomatch hx

theorem map_fst_below (p : Plan) (f : Forest) (i : Nat) (draft : Draft) (place : Option NodeId) :
    (p.below f i draft place).children.map Prod.fst = draft.kind.children := by
  rw [← NodeKind.children_map, Plan.below, NodeKind.map_fst_align]

theorem baseKind?_eq_some {draft : Draft} {old : Option NodeId} {f : Forest} {kind : NodeKind NodeId}
    (h : baseKind? draft old f = some kind) :
    ∃ id, old = some id ∧ f.kindOf id = kind ∧ kind.tag = draft.kind.tag := by
  simp only [baseKind?, Option.bind_eq_bind, Option.bind_eq_some_iff] at h
  obtain ⟨id, hid, node, hnode, hkind⟩ := h
  split at hkind
  · rename_i htag
    obtain rfl := Option.some.inj hkind
    exact ⟨id, hid, Forest.kindOf_eq hnode, htag⟩
  · simp at hkind

theorem Plan.below_eq {f : Forest} {i : Nat} {draft : Draft} {place : Option NodeId} {old : NodeId}
    (hbase : (p.keyed? i).or place = some old) (hin : f.contains old = true)
    (htag : (f.kindOf old).tag = draft.kind.tag) :
    p.below f i draft place = draft.kind.align (some (f.kindOf old)) := by
  obtain ⟨node, hnode⟩ := Forest.contains_iff.mp hin
  rw [Forest.kindOf_eq hnode] at htag ⊢
  simp [below, hbase, baseKind?, hnode, htag]

theorem Plan.candidates_of_unkeyed {i : Nat} (h : p.keyed? i = none) (old : NodeId) :
    p.candidates i (some old) = [old] := by
  rw [candidates, h]
  rfl

/-- A draft is compared with one of the old nodes that are tried for it. -/
theorem Plan.mem_candidates {i : Nat} {place : Option NodeId} {old : NodeId}
    (h : (p.keyed? i).or place = some old) : old ∈ p.candidates i place := by
  cases Option.or_eq_some_iff.mp h with
  | inl hkeyed => simp [candidates, hkeyed]
  | inr hplace => simp [candidates, hplace.2]

section Candidates

variable {s : State} {i : Nat} {draft : Draft} {place : Option NodeId}

/-- A draft and the old node with its key have one key. -/
theorem Plan.mem_keys_of_keyed {old : NodeId} (h : p.keyed? i = some old) :
    ∃ key, (i, key) ∈ p.newKeys ∧ (old, key) ∈ p.oldKeys := by
  simp only [keyed?, Option.bind_eq_bind, Option.bind_eq_some_iff] at h
  obtain ⟨key, hkey, entry, hfind, heq⟩ := h
  obtain rfl : entry.1 = old := by simpa using heq
  have hsame : entry.2 = key := by simpa using List.find?_some hfind
  obtain ⟨before, after, hentries, -⟩ := List.lookup_eq_some_iff.mp hkey
  exact ⟨key, by simp [hentries], hsame ▸ List.mem_of_find?_eq_some hfind⟩

theorem contains_of_keyed (hready : p.Ready f₀) {old : NodeId} (h : p.keyed? i = some old) :
    f₀.contains old = true := by
  obtain ⟨_, -, hold⟩ := Plan.mem_keys_of_keyed h
  exact hready.keyed _ hold

variable (hready : p.Ready f₀) (hplace : ∀ old, place = some old → f₀.contains old = true)
include hready hplace

theorem contains_of_candidate : ∀ old ∈ p.candidates i place, f₀.contains old = true := by
  intro old hold
  cases List.mem_append.mp hold with
  | inl hkeyed => exact contains_of_keyed hready (by simpa using hkeyed)
  | inr hpositional => exact hplace old (by simpa using hpositional)

theorem pending_below (hf₀ : f₀.Built) (hs : Steady f₀ p s) (hdraft : p.drafts.drafts[i]? = some draft) :
    Pending f₀ p (p.below s.forest i draft place).children := by
  intro job hjob
  have hchild : job.1 ∈ draft.kind.children := map_fst_below p s.forest i draft place ▸ List.mem_map_of_mem hjob
  have hi := (Array.getElem?_eq_some_iff.mp hdraft).1
  refine ⟨Nat.lt_trans ((hready.numbered i draft hdraft).1 _ hchild) hi, ?_⟩
  intro d hd
  obtain ⟨c, old⟩ := job
  obtain rfl : old = some d := hd
  obtain ⟨kind, hkind, hmem⟩ := NodeKind.mem_of_mem_align hjob
  obtain ⟨b, hb, rfl, -⟩ := baseKind?_eq_some hkind
  have hin := contains_of_candidate hready hplace b (Plan.mem_candidates hb)
  rw [hs.grows.kindOf_eq hin] at hmem
  exact hf₀.sized.closed b hin d hmem

end Candidates

theorem Steady.claim {s : State} {old : NodeId} (hs : Steady f₀ p s) (hf₀ : f₀.Built)
    (hold : f₀.contains old = true) : Steady f₀ p (s.claim (s.forest.subtree old)) where
  tidy := hs.tidy
  built := hs.built
  grows := hs.grows
  origin := hs.origin
  claimed x hx := by
    cases List.mem_append.mp hx with
    | inl hx =>
        rw [hf₀.subtree_grows hs.built hs.grows hold] at hx
        exact hf₀.contains_subtree hold hx
    | inr hx => exact hs.claimed x hx

/-- A node over the answers to the children of a draft has the content of the draft. -/
theorem map_printOf_eq {drafts : Array Draft} {f : Forest} {draft : Draft} {kind : NodeKind NodeId}
    (hshape : kind.shape = draft.kind.shape)
    (hanswers : List.Forall₂ (Answers drafts f) draft.kind.children kind.children) :
    kind.map f.printOf = draft.kind.map (Draft.printIn drafts) := by
  refine NodeKind.ext_shape (by simpa using hshape) ?_
  rw [NodeKind.children_map, NodeKind.children_map]
  exact prints_of_answers hanswers

/-- A node made for a draft over the answers to its children. -/
theorem Steady.add {s : State} {i : Nat} {draft : Draft} {kind : NodeKind NodeId} {id : NodeId} {forest : Forest}
    (hs : Steady f₀ p s) (hnumbered : Draft.Numbered p.drafts.drafts)
    (hdraft : p.drafts.drafts[i]? = some draft) (hshape : kind.shape = draft.kind.shape)
    (hanswers : List.Forall₂ (Answers p.drafts.drafts s.forest) draft.kind.children kind.children)
    (hadds : s.forest.Adds (s.forest.node kind draft.fingerprint) id forest) :
    Steady f₀ p (s.add p draft id forest) := by
  have hthere : ∀ c ∈ kind.children, s.forest.contains c = true := contains_of_answers hanswers
  have hkind := map_printOf_eq hshape hanswers
  have hprint : draft.fingerprint = (kind.map s.forest.printOf).fingerprint := by
    rw [hkind]
    exact (hnumbered i draft hdraft).2.1
  have hprints {k : NodeKind NodeId} (hk : ∀ c ∈ k.children, s.forest.contains c = true) :
      k.map forest.printOf = k.map s.forest.printOf :=
    NodeKind.map_congr fun c hc => by rw [Forest.printOf, hadds.grows.get? (hk c hc), Forest.printOf]
  exact
    { tidy := hadds.tidy
      built := hs.built.adds hadds hthere hprint
      grows := hs.grows.trans hadds.grows
      claimed := hs.claimed
      origin := fun x node hx => by
        have hx : forest.get? x = some node := hx
        rw [hadds.get?_eq] at hx
        split at hx
        · obtain rfl := Option.some.inj hx
          exact .inr ⟨draft, Array.mem_of_getElem? hdraft, (hprints hthere).trans hkind⟩
        · cases hs.origin x node hx with
          | inl hold => exact .inl hold
          | inr hdrafted =>
              obtain ⟨d, hd, heq⟩ := hdrafted
              exact .inr ⟨d, hd, (hprints (hs.built.contains_child hx)).trans heq⟩ }

namespace Installed

variable {s s₁ s' : State} {jobs : List (Nat × Option NodeId)} {ids : List NodeId} {log : Log}

theorem start (h : Installed f₀ p s jobs ids log s') : Steady f₀ p s := by
  cases h with
  | nil hs => exact hs
  | claim hs _ _ _ _ _ _ => exact hs
  | make hs _ _ _ _ _ _ _ => exact hs

/-- One draft after the others. -/
theorem cons {job : Nat × Option NodeId} {id : NodeId} {first : Log} (hfirst : Installed f₀ p s [job] [id] first s₁)
    (hrest : Installed f₀ p s₁ jobs ids log s') : Installed f₀ p s (job :: jobs) (id :: ids) (log ++ first) s' := by
  cases hfirst with
  | claim hs hdraft hthere hcandidates hskipped hold hnil =>
      cases hnil
      exact .claim hs hdraft hthere hcandidates hskipped hold hrest
  | make hs hdraft hthere hnone hshape hbelow hadds hnil =>
      cases hnil
      exact .make hs hdraft hthere hnone hshape hbelow hadds hrest

/-- The drafts before, and then the others. -/
theorem split {before rest : List (Nat × Option NodeId)} (h : Installed f₀ p s (before ++ rest) ids log s') :
    ∃ firsts later s₁ first log', ids = firsts ++ later ∧ Installed f₀ p s before firsts first s₁ ∧
      Installed f₀ p s₁ rest later log' s' := by
  induction before generalizing s ids log with
  | nil => exact ⟨[], ids, s, _, log, rfl, .nil h.start, h⟩
  | cons job before ih =>
      cases h with
      | claim hs hdraft hthere hcandidates hskipped hold hinstalled =>
          obtain ⟨firsts, later, s₁, first, log', rfl, hfirst, hlater⟩ := ih hinstalled
          exact ⟨_, later, s₁, _, log', rfl, .claim hs hdraft hthere hcandidates hskipped hold hfirst, hlater⟩
      | make hs hdraft hthere hnone hshape hbelow hadds hinstalled =>
          obtain ⟨firsts, later, s₁, first, log', rfl, hfirst, hlater⟩ := ih hinstalled
          exact ⟨_, later, s₁, _, log', rfl, .make hs hdraft hthere hnone hshape hbelow hadds hfirst, hlater⟩

/-- The only old node that is tried for a draft is claimed if it can be. -/
theorem claims_only {i : Nat} {place : Option NodeId} {draft : Draft} {old : NodeId}
    (h : Installed f₀ p s ((i, place) :: jobs) ids log s') (hcandidates : p.candidates i place = [old])
    (hdraft : p.drafts.drafts[i]? = some draft) (hclaimable : Claimable s draft old) :
    ∃ rest log', ids = old :: rest ∧ Installed f₀ p (s.claim (s.forest.subtree old)) jobs rest log' s' := by
  cases h with
  | @claim _ _ _ _ _ skipped later old' _ rest _ _ _ _ hsplit _ _ hinstalled =>
      have hsingle : skipped ++ old' :: later = [old] := hsplit.symm.trans hcandidates
      cases skipped with
      | nil =>
          obtain rfl := (List.cons.inj hsingle).1
          exact ⟨rest, _, rfl, hinstalled⟩
      | cons x xs => simp at hsingle
  | make _ hdraft' _ hnone _ _ _ _ =>
      obtain rfl := Option.some.inj (hdraft.symm.trans hdraft')
      exact absurd hclaimable (hnone old (hcandidates ▸ List.mem_cons_self))

theorem answered (h : Installed f₀ p s jobs ids log s') : Answered f₀ p s (jobs.map Prod.fst) ids s' := by
  induction h with
  | nil hs => exact ⟨hs, .refl _, .nil⟩
  | @claim s s' i place draft skipped later old rest ids log _ hdraft _ _ _ hold _ ih =>
      obtain ⟨node, hnode, htag, hprint⟩ := hold.same
      have hanswers : Answers p.drafts.drafts s.forest i old := ⟨draft, node, hdraft, hnode, hprint, htag⟩
      exact ⟨ih.steady, ih.grows, .cons (hanswers.grows ih.grows) ih.answers⟩
  | @make s s₁ s' i place draft kind id forest rest ids inner log _ hdraft _ _ hshape _ hadds _ ihbelow ih =>
      have hanswers : Answers p.drafts.drafts forest i id :=
        ⟨draft, _, hdraft, hadds.get?_self, rfl, NodeKind.tag_of_shape hshape⟩
      exact ⟨ih.steady, (ihbelow.grows.trans hadds.grows).trans ih.grows,
        .cons (hanswers.grows ih.grows) ih.answers⟩

end Installed

end Invariant

end Reconcile
end Palimpsest
