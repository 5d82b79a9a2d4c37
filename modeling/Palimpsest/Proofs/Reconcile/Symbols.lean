import Palimpsest.Proofs.Reconcile.Disjoint
import Palimpsest.Proofs.Reconcile.Scopes

/-!
Symbols that keep their nodes. The old symbol with the key and the content of a new one is tried for it first,
and an old node that answers something around the new symbol has the old one at the same place. So the old
symbol stands for the new one, unless a part of it has answered an earlier draft.
-/

namespace Palimpsest

open TreeView Reconcile

theorem append_eq_append_cons {A : Type} {l r before after : List A} {a : A} (h : l ++ r = before ++ a :: after) :
    (∃ rest, l = before ++ a :: rest) ∨ ∃ rest, before = l ++ rest ∧ r = rest ++ a :: after := by
  cases List.append_eq_append_iff.mp h with
  | inl hlater => exact .inr hlater
  | inr hhere =>
      obtain ⟨bs, hl, hr⟩ := hhere
      cases bs with
      | nil => exact .inr ⟨[], by simpa using hl.symm, by simpa using hr.symm⟩
      | cons b bs =>
          obtain ⟨rfl, -⟩ := List.cons.inj hr
          exact .inl ⟨bs, hl⟩

namespace Reconcile

/-- An old symbol with the scope, the name, the tag and the fingerprint of a new one. -/
structure Plan.Renews (p : Plan) (f : Forest) (olds : List NodeId) (i : Nat) (old : NodeId) (scope : List String)
    (name : String) : Prop where
  newIn : (scope, i) ∈ p.drafts.scopes
  newName : (p.drafts.kindOf i).symbolName? = some name
  oldIn : (scope, old) ∈ f.scopes olds
  oldName : (f.kindOf old).symbolName? = some name
  tag_eq : (f.kindOf old).tag = (p.drafts.kindOf i).tag
  print_eq : f.printOf old = Draft.printIn p.drafts.drafts i

variable {f g : Forest} {olds : List NodeId} {p : Plan} {i : Nat} {old : NodeId} {scope : List String} {name : String}

/-- The old symbol can be claimed for the new one as long as no part of it is. -/
theorem Plan.Renews.claimable (hold : p.Renews f olds i old scope name) (hf : f.Built) {s : State} {draft : Draft}
    (hs : Steady f p s) (hin : f.contains old = true) (hdraft : p.drafts.drafts[i]? = some draft)
    (hunclaimed : ∀ y ∈ f.subtree old, y ∉ s.claimed) : Claimable s draft old where
  same := by
    obtain ⟨node, hnode⟩ := Forest.contains_iff.mp hin
    have htag := hold.tag_eq
    have hprint := hold.print_eq
    rw [Forest.kindOf_eq hnode, DraftTree.kindOf_eq hdraft] at htag
    rw [Forest.printOf_eq hnode, Draft.printIn, hdraft] at hprint
    exact ⟨node, hs.grows old node hnode, htag, hprint⟩
  unclaimed := by
    rw [hf.subtree_grows hs.built hs.grows hin]
    exact hunclaimed

/-- What was claimed for the first draft stands in its tree. -/
theorem Installed.kept_later {s s₁ : State} {job : Nat × Option NodeId} {id x : NodeId} {first : Log}
    {before : List (Nat × NodeId)} (hfirst : Installed f p s [job] [id] first s₁) (hf : f.Built) (hg : g.Built)
    (hgrows : s₁.forest.Grows g) (hlength : (p.drafts.subtree job.1).length = (g.subtree id).length)
    (hlater : x = old ∨ ∃ y ∈ f.subtree old, y ∈ s₁.claimed ∨ y ∈ before.map Prod.snd) :
    x = old ∨ ∃ y ∈ f.subtree old, y ∈ s.claimed ∨
      y ∈ ((p.drafts.subtree job.1).zip (g.subtree id) ++ before).map Prod.snd := by
  rw [List.map_append, List.map_snd_zip hlength.ge]
  refine hlater.imp_right ?_
  rintro ⟨y, hy, hclaimed | hbefore⟩
  · refine ⟨y, hy, ?_⟩
    cases hfirst.mem_claimed hf hclaimed with
    | inl hhere =>
        rw [← hfirst.answered.steady.built.flatMap_subtree_grows hg hgrows
          (contains_of_answers hfirst.answered.answers)] at hhere
        exact .inr (List.mem_append_left _ (by simpa using hhere))
    | inr hearlier => exact .inl hearlier
  · exact ⟨y, hy, .inr (List.mem_append_right _ hbefore)⟩

section Keeping

variable (hf : f.Built) (hu : p.Unambiguous f olds) (hold : p.Renews f olds i old scope name) (hg : g.Built)
  (hcontent : ∀ id j, g.contains id = true → j < p.drafts.drafts.size →
    g.printOf id = Draft.printIn p.drafts.drafts j → (g.kindOf id).map g.printOf = p.drafts.contentOf j)
include hu hg hcontent

/-- A node with the fingerprint of a draft has its tree, node by node and scope by scope. -/
theorem forall₂_scopedSubtree {j : Nat} {id : NodeId} (hj : j < p.drafts.drafts.size) (hid : g.contains id = true)
    (hprint : g.printOf id = Draft.printIn p.drafts.drafts j) (outer : List String) :
    List.Forall₂ (fun e e' => e.1 = e'.1 ∧ g.printOf e'.2 = Draft.printIn p.drafts.drafts e.2)
      (scopedSubtree p.drafts.kindOf p.drafts.sizeOf (outer, j)) (scopedSubtree g.kindOf g.sizeOf (outer, id)) := by
  have hdown := (DraftTree.sized hu.numbered).scoped.forall₂_subtree (h := (outer, j)) hg.sized.scoped
    (R := fun e e' => e.1 = e'.1 ∧ g.printOf e'.2 = Draft.printIn p.drafts.drafts e.2)
  refine hdown ?_ hj (outer, id) hid ⟨rfl, hprint⟩
  rintro ⟨scope, j⟩ ⟨_, id⟩ hj hid ⟨rfl, hprint⟩
  have hsame := hcontent id j hid hj hprint
  have hinside : (p.drafts.kindOf j).scopeInside scope = (g.kindOf id).scopeInside scope := by
    rw [← NodeKind.scopeInside_map (Draft.printIn p.drafts.drafts) (p.drafts.kindOf j), ← DraftTree.contentOf,
      ← hsame, NodeKind.scopeInside_map]
  rw [scopedKids, scopedKids, List.forall₂_map_left_iff, List.forall₂_map_right_iff]
  exact (NodeKind.forall₂_children hsame.symm).imp fun c d hprints => ⟨hinside, hprints.symm⟩

theorem length_subtree_eq {j : Nat} {id : NodeId} (h : Answers p.drafts.drafts g j id) :
    (p.drafts.subtree j).length = (g.subtree id).length := by
  obtain ⟨hj, hprint⟩ := h.printOf_eq
  have hlengths := (forall₂_scopedSubtree hu hg hcontent hj h.contains hprint []).length_eq
  have hdrafts := map_snd_scopedSubtree (e := ([], j)) (DraftTree.sized hu.numbered) hj
  have hnodes := map_snd_scopedSubtree (e := ([], id)) hg.sized h.contains
  rw [← List.length_map Prod.snd, hdrafts, ← List.length_map Prod.snd, hnodes] at hlengths
  exact hlengths

/-- A job and the jobs after it: the new symbol is in the tree of the first, or among what comes later. -/
theorem Installed.kept_cons {s s₁ : State} {j : Nat} {place : Option NodeId} {id x : NodeId} {first : Log}
    {js : List Nat} {ids : List NodeId} {before after : List (Nat × NodeId)} (hf : f.Built)
    (hfirst : Installed f p s [(j, place)] [id] first s₁) (hgrows : s₁.forest.Grows g)
    (hsplit : ((j :: js).flatMap p.drafts.subtree).zip ((id :: ids).flatMap g.subtree) = before ++ (i, x) :: after)
    (hhere : ∀ rest, (p.drafts.subtree j).zip (g.subtree id) = before ++ (i, x) :: rest →
      x = old ∨ ∃ y ∈ f.subtree old, y ∈ s.claimed ∨ y ∈ before.map Prod.snd)
    (hlater : ∀ before, (js.flatMap p.drafts.subtree).zip (ids.flatMap g.subtree) = before ++ (i, x) :: after →
      x = old ∨ ∃ y ∈ f.subtree old, y ∈ s₁.claimed ∨ y ∈ before.map Prod.snd) :
    x = old ∨ ∃ y ∈ f.subtree old, y ∈ s.claimed ∨ y ∈ before.map Prod.snd := by
  have hanswers := (List.forall₂_cons.mp hfirst.answered.answers).1.grows hgrows
  have hlength := length_subtree_eq hu hg hcontent hanswers
  rw [List.flatMap_cons, List.flatMap_cons, List.zip_append hlength] at hsplit
  cases append_eq_append_cons hsplit with
  | inl h =>
      obtain ⟨rest, hrest⟩ := h
      exact hhere rest hrest
  | inr h =>
      obtain ⟨before, rfl, hlate⟩ := h
      exact hfirst.kept_later hf hg hgrows hlength (hlater before hlate)

include hf hold

/-- Where an old node of the same scope answers a draft, the old symbol answers the new one below it. -/
theorem eq_of_mem_zip (hgrows : f.Grows g) {outer : List String} {j : Nat} {id x : NodeId}
    (hj : (outer, j) ∈ p.drafts.scopes) (hanswers : Answers p.drafts.drafts g j id)
    (hplace : outer <+: scope → (outer, id) ∈ f.scopes olds)
    (hx : (i, x) ∈ (p.drafts.subtree j).zip (g.subtree id)) : x = old := by
  have hsized := DraftTree.sized hu.numbered
  obtain ⟨hlt, hprint⟩ := hanswers.printOf_eq
  have hzip : (i, x) ∈ ((scopedSubtree p.drafts.kindOf p.drafts.sizeOf (outer, j)).map Prod.snd).zip
      ((scopedSubtree g.kindOf g.sizeOf (outer, id)).map Prod.snd) := by
    rw [map_snd_scopedSubtree (e := (outer, j)) hsized hlt,
      map_snd_scopedSubtree (e := (outer, id)) hg.sized hanswers.contains]
    exact hx
  rw [List.zip_map, List.mem_map] at hzip
  obtain ⟨⟨⟨inner, i⟩, ⟨inner', x⟩⟩, hpair, heq⟩ := hzip
  obtain ⟨rfl, rfl⟩ := Prod.mk.inj heq
  obtain ⟨hdraft, hnode⟩ := List.of_mem_zip hpair
  obtain ⟨rfl, hprints⟩ : inner = inner' ∧ g.printOf x = Draft.printIn p.drafts.drafts i :=
    List.forall₂_zip (forall₂_scopedSubtree hu hg hcontent hlt hanswers.contains hprint outer) hpair
  have hin : (inner, i) ∈ p.drafts.scopes := mem_scopedNodes_of_mem hsized hu.roots_lt hj hdraft
  obtain rfl := hu.eq_of_scope hin hold.newIn
  have hmem := hplace (prefix_of_mem_scopedSubtree (e := (outer, j)) hsized hlt hdraft)
  rw [scopedSubtree_grows hf hg hgrows (hu.contains_of_mem hf hmem)] at hnode
  have hxin : (inner, x) ∈ f.scopes olds := mem_scopedNodes_of_mem hf.sized hu.contains hmem hnode
  have hxthere := hu.contains_of_mem hf hxin
  have hxname : (f.kindOf x).symbolName? = some name := by
    have hsame := hcontent x i (hgrows.contains hxthere) (of_mem_scopedNodes hsized hu.roots_lt hin) hprints
    rw [← hgrows.kindOf_eq hxthere, ← NodeKind.symbolName?_map g.printOf, hsame, DraftTree.contentOf,
      NodeKind.symbolName?_map]
    exact hold.newName
  exact hu.old.eq_of_name hxin hxname hold.oldIn hold.oldName

/-- The old symbol answers the new one unless a part of it is claimed before. -/
theorem Installed.kept {s s' : State} {jobs : List (Nat × Option NodeId)} {ids : List NodeId} {log : Log}
    (h : Installed f p s jobs ids log s') (hgrows : s'.forest.Grows g)
    (hjobs : ∀ job ∈ jobs, ∃ outer, p.Corresponds f olds outer job) {x : NodeId}
    {before after : List (Nat × NodeId)}
    (hsplit : ((jobs.map Prod.fst).flatMap p.drafts.subtree).zip (ids.flatMap g.subtree) = before ++ (i, x) :: after) :
    x = old ∨ ∃ y ∈ f.subtree old, y ∈ s.claimed ∨ y ∈ before.map Prod.snd := by
  induction h generalizing before after with
  | nil _ => simp at hsplit
  | @claim s s' j place draft skipped later id rest ids log hs hdraft hthere hcandidates hskipped hclaim hrest ih =>
      have hfirst : Installed f p s [(j, place)] [id] _ (s.claim (s.forest.subtree id)) :=
        .claim hs hdraft hthere hcandidates hskipped hclaim (.nil hrest.start)
      have hlater : s.forest.Grows g := hrest.answered.grows.trans hgrows
      obtain ⟨⟨outer, hjob⟩, hjobs⟩ := List.forall_mem_cons.mp hjobs
      refine hfirst.kept_cons hu hg hcontent hf hlater hsplit (fun _ hhere => ?_) fun _ => ih hgrows hjobs
      have hanswers := (List.forall₂_cons.mp hfirst.answered.answers).1.grows hlater
      refine .inl (eq_of_mem_zip hf hu hold hg hcontent (hs.grows.trans hlater) hjob.draft hanswers
        (fun hscope => ?_) (hhere ▸ by simp))
      exact hu.candidate hjob hold.oldIn hscope id (by simp [hcandidates])
  | @make s s₁ s' j place draft kind id forest rest ids inner log hs hdraft hthere hnone hshape hbelow hadds hrest
      ihbelow ih =>
      have hfirst : Installed f p s [(j, place)] [id] _ (s₁.add p draft id forest) :=
        .make hs hdraft hthere hnone hshape hbelow hadds (.nil hrest.start)
      have hlater : forest.Grows g := hrest.answered.grows.trans hgrows
      obtain ⟨⟨outer, hjob⟩, hjobs⟩ := List.forall_mem_cons.mp hjobs
      refine hfirst.kept_cons hu hg hcontent hf hlater hsplit (fun _ hhere => ?_) fun _ => ih hgrows hjobs
      rw [DraftTree.subtree_eq hu.numbered hdraft, hg.subtree_eq (hlater id _ hadds.get?_self),
        List.zip_cons_cons] at hhere
      cases before with
      | nil =>
          -- The symbol itself was made anew, although the old one was tried for it.
          obtain ⟨rfl, rfl⟩ := Prod.mk.inj (List.cons.inj hhere).1
          have hkeyed := hu.keyed?_eq hold.newIn hold.newName hold.oldIn hold.oldName
          have hin := hu.contains_of_mem hf hold.oldIn
          refine .inr (by_contra fun hnot => ?_)
          refine hnone old (by simp [Plan.candidates, hkeyed]) (hold.claimable hf hs hin hdraft ?_)
          exact fun y hy hclaimed => hnot ⟨y, hy, .inl hclaimed⟩
      | cons first before =>
          have hinner := (List.cons.inj hhere).2
          rw [← map_fst_below p s.forest j draft place] at hinner
          have hbelows := hu.below hf hs hdraft hjob
          refine (ihbelow (hadds.grows.trans hlater) (fun job hmem => ⟨_, hbelows job hmem⟩) hinner).imp_right ?_
          rintro ⟨y, hy, hbefore⟩
          exact ⟨y, hy, hbefore.imp_right (List.mem_cons_of_mem _)⟩

end Keeping

/-- A new symbol has the key, the tag and the content of an old one. -/
structure Renewed (f : Forest) (drafts : DraftTree) (oldKeys : List (NodeId × SymbolKey)) (i : Nat) (old : NodeId) :
    Prop where
  key : ∃ e ∈ drafts.symbolKeys, e.1 = i ∧ (old, e.2) ∈ oldKeys
  tag_eq : (f.kindOf old).tag = (drafts.kindOf i).tag
  print_eq : f.printOf old = Draft.printIn drafts.drafts i

/-- The drafts with the nodes that stand for them, in preorder. -/
def matched (drafts : DraftTree) (ids : List NodeId) (s : State) : List (Nat × NodeId) :=
  (drafts.roots.flatMap drafts.subtree).zip (ids.flatMap s.forest.subtree)

/-- The old node stands for the draft if and only if no part of it stands for a draft before. -/
def KeptUnlessUsed (f : Forest) (drafts : DraftTree) (ids : List NodeId) (s : State) (i : Nat) (old : NodeId) : Prop :=
  ∃ before x after, matched drafts ids s = before ++ (i, x) :: after ∧ (x = old ↔ ∀ e ∈ before, e.2 ∉ f.subtree old)

namespace Reconciliation

variable {f : Forest} {t : Locations} {olds : List NodeId} {drafts : DraftTree} {path : String} {source : SourceText}
  {keys : List (NodeId × SymbolKey)} {ids : List NodeId} {log : Log} {s : State}

theorem unambiguous (h : Reconciliation f t olds (drafts.plan path source keys) ids log s) (hdrafts : drafts.Lowered)
    (hdisjoint : ((olds.filter f.contains).flatMap f.subtree).Nodup) (hold : Distinct keys)
    (hnew : Distinct drafts.symbolKeys) :
    (drafts.plan path source keys).Unambiguous f (olds.filter f.contains) := by
  have holds : ∀ id ∈ olds.filter f.contains, f.contains id = true := fun id hid => (List.mem_filter.mp hid).2
  have hnodup : (drafts.roots.flatMap drafts.subtree).Nodup := hdrafts.perm.nodup_iff.mpr List.nodup_range
  obtain ⟨oldKeys, hkeys, hnamed⟩ := symbolKeys_named h.built.sized (fun _ hx => Forest.view_kind hx)
    (fun x _ => Forest.view_size f x) holds hdisjoint
  obtain rfl : keys = oldKeys := Except.ok.inj (h.oldKeys_eq.symm.trans hkeys)
  obtain ⟨newKeys, hkeys', hnamed'⟩ := symbolKeys_named (t := drafts.view) (DraftTree.sized h.ready.numbered)
    (fun _ _ => rfl) (fun _ _ => rfl) hdrafts.roots_lt hnodup
  obtain rfl : drafts.symbolKeys = newKeys := congrArg Id.run hkeys'
  exact
    { numbered := h.ready.numbered
      roots_lt := hdrafts.roots_lt
      nodup := hnodup
      contains := holds
      old := hnamed hold
      new := hnamed' hnew }

/-- Each root is compared with an old root. -/
theorem corresponds (h : Reconciliation f t olds (drafts.plan path source keys) ids log s)
    (hu : (drafts.plan path source keys).Unambiguous f (olds.filter f.contains)) :
    ∀ job ∈ NodeKind.alignLists drafts.roots (olds.filter f.contains),
      (drafts.plan path source keys).Corresponds f (olds.filter f.contains) [] job := by
  rintro ⟨i, place⟩ hjob
  have hi : i ∈ drafts.roots := NodeKind.map_fst_alignLists drafts.roots _ ▸ List.mem_map_of_mem hjob
  refine ⟨root_mem_scopedNodes (DraftTree.sized hu.numbered) hu.roots_lt hi, ?_⟩
  rintro - - - root rfl
  exact root_mem_scopedNodes h.built.sized hu.contains (NodeKind.mem_of_mem_alignLists hjob)

theorem keptUnlessUsed (h : Reconciliation f t olds (drafts.plan path source keys) ids log s) (hf : f.Coherent)
    (hhash : Collisionless f drafts) (hu : (drafts.plan path source keys).Unambiguous f (olds.filter f.contains))
    {i : Nat} {old : NodeId} {scope : List String} {name : String}
    (hold : (drafts.plan path source keys).Renews f (olds.filter f.contains) i old scope name) :
    KeptUnlessUsed f drafts ids s i old := by
  have hbuilt := h.answered.steady.built
  have hlength := h.length_eq hhash
  have hi : i ∈ (matched drafts ids s).map Prod.fst := by
    have hin := List.mem_map_of_mem (f := Prod.snd) hold.newIn
    rw [matched, List.map_fst_zip hlength.le]
    rwa [DraftTree.scopes, map_snd_scopedNodes (DraftTree.sized hu.numbered) hu.roots_lt] at hin
  obtain ⟨⟨i, x⟩, hmem, rfl⟩ := List.mem_map.mp hi
  obtain ⟨before, after, hsplit⟩ := List.append_of_mem hmem
  refine ⟨before, x, after, hsplit, ?_, fun hunused => ?_⟩
  · rintro rfl e he hbelow
    have hnodes := congrArg (List.map Prod.snd) hsplit
    rw [matched, List.map_snd_zip hlength.ge, List.map_append, List.map_cons] at hnodes
    have hx : f.contains x = true := hu.contains_of_mem h.built hold.oldIn
    rw [← h.built.subtree_grows hbuilt h.answered.grows hx] at hbelow
    exact hbuilt.sized.not_mem_before (contains_of_answers h.answered.answers) (h.nodup hf) hnodes e.2 hbelow
      (List.mem_map_of_mem he)
  · have hkept := h.installed.kept h.built hu hold hbuilt
      (fun id j hid hj hprint => h.content_eq hhash hid hj hprint) (.refl _)
      (fun job hjob => ⟨[], h.corresponds hu job hjob⟩) (by rw [NodeKind.map_fst_alignLists]; exact hsplit)
    refine hkept.resolve_right ?_
    rintro ⟨y, hy, hclaimed | hbefore⟩
    · exact absurd hclaimed List.not_mem_nil
    · obtain ⟨e, he, rfl⟩ := List.mem_map.mp hbefore
      exact hunused e he hy

end Reconciliation

end Reconcile

/-- Trees that reconciling installed share no node. -/
theorem disjoint_of_installed {f : Forest} {t : Locations} {olds ids : List NodeId} {file : Surface.File}
    {name path : String} {source : SourceText} {s : State} (hf : Grown f)
    (hrun : reconcile f t olds (.ofFile file name) path source = .ok (ids, s)) :
    ((ids.filter s.forest.contains).flatMap s.forest.subtree).Nodup := by
  obtain ⟨_, ids', _, s', hrun', hreconciled⟩ :=
    reconcile_run hf.tidy hf.coherent.toBuilt t (DraftTree.lowered_ofFile file name) olds path source
  obtain ⟨rfl, rfl⟩ := Prod.mk.inj (Except.ok.inj (hrun.symm.trans hrun'))
  exact (hreconciled.nodup hf.coherent).sublist (List.filter_sublist.flatMap s.forest.subtree)

/-- Where no two symbols have the same scope and name, and old trees share no node, an old symbol stands for the new
symbol of its key, tag and content unless a part of it already stands for something before. -/
theorem reconcile_keptUnlessUsed {f : Forest} (hf : Grown f) (t : Locations) (olds : List NodeId) (file : Surface.File)
    (name path : String) (source : SourceText) (hhash : Collisionless f (.ofFile file name))
    (hdisjoint : ((olds.filter f.contains).flatMap f.subtree).Nodup) {oldKeys : List (NodeId × SymbolKey)}
    (holdKeys : f.view.symbolKeys (olds.filter f.contains) = .ok oldKeys) (hold : Distinct oldKeys)
    (hnew : Distinct (DraftTree.ofFile file name).symbolKeys) :
    ∃ ids s, reconcile f t olds (.ofFile file name) path source = .ok (ids, s) ∧
      ∀ i old, Renewed f (.ofFile file name) oldKeys i old → KeptUnlessUsed f (.ofFile file name) ids s i old := by
  have hdrafts := DraftTree.lowered_ofFile file name
  obtain ⟨keys, ids, log, s, hrun, hreconciled⟩ :=
    reconcile_run hf.tidy hf.coherent.toBuilt t hdrafts olds path source
  obtain rfl : keys = oldKeys := Except.ok.inj (hreconciled.oldKeys_eq.symm.trans holdKeys)
  have hu := hreconciled.unambiguous hdrafts hdisjoint hold hnew
  refine ⟨ids, s, hrun, fun i old hrenewed => ?_⟩
  obtain ⟨⟨i, key⟩, hi, rfl, hkey⟩ := hrenewed.key
  have hnewMem := (hu.new.mem_iff i key).mp hi
  have holdMem := (hu.old.mem_iff old key).mp hkey
  exact hreconciled.keptUnlessUsed hf.coherent hhash hu
    ⟨hnewMem.1, hnewMem.2.1, holdMem.1, holdMem.2.1, hrenewed.tag_eq, hrenewed.print_eq⟩

section Moved

instance (f : Forest) (drafts : DraftTree) (oldKeys : List (NodeId × SymbolKey)) (i : Nat) (old : NodeId) :
    Decidable (Renewed f drafts oldKeys i old) :=
  decidable_of_iff ((∃ e ∈ drafts.symbolKeys, e.1 = i ∧ (old, e.2) ∈ oldKeys) ∧
      (f.kindOf old).tag = (drafts.kindOf i).tag ∧ f.printOf old = Draft.printIn drafts.drafts i)
    ⟨fun h => ⟨h.1, h.2.1, h.2.2⟩, fun h => ⟨h.key, h.tag_eq, h.print_eq⟩⟩

/-- A variable is the same where another is declared in front of it. -/
theorem renewed_inserted {olds : List NodeId} {s : State}
    (hrun : reconcile .empty .empty [] (.ofText "var a = 1;" "m") "m" (.ofString "var a = 1;") = .ok (olds, s)) :
    ∃ oldKeys, s.forest.view.symbolKeys (olds.filter s.forest.contains) = .ok oldKeys ∧ Distinct oldKeys ∧
      Renewed s.forest (.ofText "var b = 1; var a = 1;" "m") oldKeys 4 ⟨1, 0⟩ := by
  have hcomputed : (reconcile .empty .empty [] (.ofText "var a = 1;" "m") "m" (.ofString "var a = 1;")).toOption.all
      (fun r => (r.2.forest.view.symbolKeys (r.1.filter r.2.forest.contains)).toOption.any fun keys =>
        decide (Distinct keys ∧ Renewed r.2.forest (.ofText "var b = 1; var a = 1;" "m") keys 4 ⟨1, 0⟩)) = true := by
    decide +kernel
  rw [hrun] at hcomputed
  cases hkeys : s.forest.view.symbolKeys (olds.filter s.forest.contains) with
  | error _ => simp [hkeys, Except.toOption] at hcomputed
  | ok keys =>
      simp only [hkeys, Except.toOption, Option.all_some, Option.any_some, decide_eq_true_eq] at hcomputed
      exact ⟨keys, rfl, hcomputed⟩

theorem distinct_inserted : Distinct (DraftTree.ofText "var b = 1; var a = 1;" "m").symbolKeys := by decide +kernel

/-- Before the old variable another is declared, whose value is the same. -/
theorem reconcile_keptUnlessUsed_inserted :
    ∃ olds s oldKeys ids s',
      reconcile .empty .empty [] (.ofText "var a = 1;" "m") "m" (.ofString "var a = 1;") = .ok (olds, s) ∧
      reconcile s.forest s.locations olds (.ofText "var b = 1; var a = 1;" "m") "m"
        (.ofString "var b = 1; var a = 1;") = .ok (ids, s') ∧
      Renewed s.forest (.ofText "var b = 1; var a = 1;" "m") oldKeys 4 ⟨1, 0⟩ ∧
      KeptUnlessUsed s.forest (.ofText "var b = 1; var a = 1;" "m") ids s' 4 ⟨1, 0⟩ := by
  obtain ⟨_, olds, _, s, hrun, -⟩ := reconcile_run .empty Forest.Coherent.empty.toBuilt .empty
    (DraftTree.lowered_ofText "var a = 1;" "m") [] "m" (.ofString "var a = 1;")
  obtain ⟨oldKeys, holdKeys, hold, hrenewed⟩ := renewed_inserted hrun
  obtain ⟨ids, s', hrun', hkept⟩ := reconcile_keptUnlessUsed (.reconcile .empty hrun) s.locations olds
    (Surface.parseText "var b = 1; var a = 1;").file "m" "m" (.ofString "var b = 1; var a = 1;")
    (collisionless_inserted hrun) (disjoint_of_installed .empty hrun) holdKeys hold distinct_inserted
  exact ⟨olds, s, oldKeys, ids, s', hrun, hrun', hrenewed, hkept 4 ⟨1, 0⟩ hrenewed⟩

/-- The value of the old variable went to the other one, and the old variable, unchanged, is not kept. -/
theorem reconcile_loses_moved :
    ∃ olds s oldKeys ids s',
      reconcile .empty .empty [] (.ofText "var a = 1;" "m") "m" (.ofString "var a = 1;") = .ok (olds, s) ∧
      reconcile s.forest s.locations olds (.ofText "var b = 1; var a = 1;" "m") "m"
        (.ofString "var b = 1; var a = 1;") = .ok (ids, s') ∧
      s.forest.view.symbolKeys (olds.filter s.forest.contains) = .ok oldKeys ∧ Distinct oldKeys ∧
      Distinct (DraftTree.ofText "var b = 1; var a = 1;" "m").symbolKeys ∧
      Renewed s.forest (.ofText "var b = 1; var a = 1;" "m") oldKeys 4 ⟨1, 0⟩ ∧
      (4, ⟨1, 0⟩) ∉ matched (.ofText "var b = 1; var a = 1;" "m") ids s' := by
  obtain ⟨_, olds, _, s, hrun, -⟩ := reconcile_run .empty Forest.Coherent.empty.toBuilt .empty
    (DraftTree.lowered_ofText "var a = 1;" "m") [] "m" (.ofString "var a = 1;")
  have hgrown : Grown s.forest := .reconcile .empty hrun
  obtain ⟨oldKeys, holdKeys, hold, hrenewed⟩ := renewed_inserted hrun
  obtain ⟨_, ids, _, s', hrun', -⟩ := reconcile_run hgrown.tidy hgrown.coherent.toBuilt s.locations
    (DraftTree.lowered_ofText "var b = 1; var a = 1;" "m") olds "m" (.ofString "var b = 1; var a = 1;")
  refine ⟨olds, s, oldKeys, ids, s', hrun, hrun', holdKeys, hold, distinct_inserted, hrenewed, ?_⟩
  have hcomputed : (reconcile .empty .empty [] (.ofText "var a = 1;" "m") "m" (.ofString "var a = 1;")).toOption.all
      (fun r => (reconcile r.2.forest r.2.locations r.1 (.ofText "var b = 1; var a = 1;" "m") "m"
        (.ofString "var b = 1; var a = 1;")).toOption.all fun r' =>
          decide ((4, ⟨1, 0⟩) ∉ matched (.ofText "var b = 1; var a = 1;" "m") r'.1 r'.2)) = true := by decide +kernel
  rw [hrun] at hcomputed
  simpa [Except.toOption, hrun'] using hcomputed

end Moved

end Palimpsest
