import Palimpsest.Proofs.Content
import Palimpsest.Proofs.Reconcile.Account
import Palimpsest.Surface.Parser

/-!
Faithful reconciliation. Where contents are told apart by their hashes, the trees that answer the roots are
the trees of the drafts, node by node; each node that was made stands where its draft stands and has the
draft's place; and everything else is as it was.
-/

namespace Palimpsest

section Hashed

/-- What was hashed for the nodes of a forest and for drafts. -/
inductive Hashed (f : Forest) (t : DraftTree) : NodeKind ContentHash → Prop
  | node {id : NodeId} (hid : f.contains id = true) : Hashed f t ((f.kindOf id).map f.printOf)
  | draft {i : Nat} (hi : i < t.drafts.size) : Hashed f t (t.contentOf i)

/-- Different bytes have different hashes, as far as bytes were hashed; and a word of 64 bits can count the
bytes of every name. -/
structure Collisionless (f : Forest) (t : DraftTree) : Prop where
  hash_inj : ∀ k k', Hashed f t k → Hashed f t k' →
    ContentHash.ofBytes k.encode = ContentHash.ofBytes k'.encode → k.encode = k'.encode
  fits : ∀ k, Hashed f t k → k.Fits

theorem Collisionless.fingerprint_inj {f : Forest} {t : DraftTree} (h : Collisionless f t) :
    ∀ k k', Hashed f t k → Hashed f t k' → k.fingerprint = k'.fingerprint → k = k' :=
  fun k k' hk hk' hprint =>
    NodeKind.encode_inj (h.fits k hk) (h.fits k' hk') (h.hash_inj k k' hk hk' hprint)

/-- The same, one after the other. -/
def hashedIn (f : Forest) (t : DraftTree) : List (NodeKind ContentHash) :=
  f.ids.map (fun id => (f.kindOf id).map f.printOf) ++ (List.range t.drafts.size).map t.contentOf

theorem mem_hashedIn {f : Forest} {t : DraftTree} {k : NodeKind ContentHash} : k ∈ hashedIn f t ↔ Hashed f t k := by
  rw [hashedIn, List.mem_append, List.mem_map, List.mem_map]
  constructor
  · rintro (⟨id, hid, rfl⟩ | ⟨i, hi, rfl⟩)
    · exact .node (Forest.mem_ids.mp hid)
    · exact .draft (List.mem_range.mp hi)
  · intro h
    cases h with
    | @node id hid => exact .inl ⟨id, Forest.mem_ids.mpr hid, rfl⟩
    | @draft i hi => exact .inr ⟨i, List.mem_range.mpr hi, rfl⟩

instance {C : Type} (k : NodeKind C) : Decidable k.Fits :=
  decidable_of_iff (k.symbolName?.all fun name => name.utf8ByteSize < 2 ^ 64) <| by
    simp [NodeKind.Fits, Option.all_eq_true]

instance (f : Forest) (t : DraftTree) : Decidable (Collisionless f t) :=
  decidable_of_iff ((∀ k ∈ hashedIn f t, ∀ k' ∈ hashedIn f t,
      ContentHash.ofBytes k.encode = ContentHash.ofBytes k'.encode → k.encode = k'.encode) ∧
      ∀ k ∈ hashedIn f t, k.Fits) <| by
    simp only [mem_hashedIn]
    exact ⟨fun h => ⟨fun k k' hk hk' => h.1 k hk k' hk', h.2⟩, fun h => ⟨fun k hk k' hk' => h.hash_inj k k' hk hk', h.fits⟩⟩

end Hashed

namespace Reconcile

namespace Installed

variable {f₀ g : Forest} {p : Plan} {s s' : State} {jobs : List (Nat × Option NodeId)} {ids : List NodeId}
  {log : Log}

/-- A node that was made stands in the tree of an answer where its draft stands in the tree of a draft. -/
theorem mem_zip (h : Installed f₀ p s jobs ids log s') (hnumbered : Draft.Numbered p.drafts.drafts)
    (hg : g.Built) (hgrows : s'.forest.Grows g)
    (hlength : ∀ i id, Answers p.drafts.drafts g i id → (p.drafts.subtree i).length = (g.subtree id).length) :
    ∀ e ∈ log.made, e ∈ ((jobs.map Prod.fst).flatMap p.drafts.subtree).zip (ids.flatMap g.subtree) := by
  induction h with
  | nil _ => exact fun e he => nomatch he
  | @claim s s' i place draft skipped later old rest ids log hs hdraft hthere hcandidates hskipped hold hrest ih =>
      have hanswers := (Installed.claim hs hdraft hthere hcandidates hskipped hold hrest).answered.answers
      obtain ⟨hfirst, -⟩ := List.forall₂_cons.mp hanswers
      intro e he
      rw [List.map_cons, List.flatMap_cons, List.flatMap_cons,
        List.zip_append (hlength i old (hfirst.grows hgrows)), List.mem_append]
      exact .inr (ih hgrows e (by simpa using he))
  | @make s s₁ s' i place draft kind id forest rest ids inner log hs hdraft hthere hnone hshape hbelow hadds hrest
      ihbelow ih =>
      have hanswers := (Installed.make hs hdraft hthere hnone hshape hbelow hadds hrest).answered.answers
      obtain ⟨hfirst, -⟩ := List.forall₂_cons.mp hanswers
      have hlater : forest.Grows g := hrest.answered.grows.trans hgrows
      have hsubtree : g.subtree id = id :: kind.children.flatMap g.subtree :=
        hg.subtree_eq (hlater id _ hadds.get?_self)
      intro e he
      rw [List.map_cons, List.flatMap_cons, List.flatMap_cons,
        List.zip_append (hlength i id (hfirst.grows hgrows)), List.mem_append]
      rw [Log.made_append, List.mem_append] at he
      cases he with
      | inl hlog => exact .inr (ih hgrows e hlog)
      | inr hhere =>
          rw [DraftTree.subtree_eq hnumbered hdraft, hsubtree, List.zip_cons_cons]
          refine .inl ?_
          rw [← map_fst_below p s.forest i draft place]
          cases List.mem_cons.mp hhere with
          | inl heq => exact heq ▸ List.mem_cons_self
          | inr hinner =>
              exact List.mem_cons_of_mem _ (ihbelow (hadds.grows.trans hlater) e hinner)

end Installed

/-- The nodes that were made, each with its draft. -/
structure Places (f : Forest) (t : Locations) (drafts : DraftTree) (path : String) (source : SourceText)
    (ids : List NodeId) (s : State) (made : List (Nat × NodeId)) : Prop where
  new_iff : ∀ id, id ∈ made.map Prod.snd ↔ s.forest.contains id = true ∧ f.contains id = false
  nodup : (made.map Prod.snd).Nodup
  at_draft : ∀ e ∈ made, e ∈ (drafts.roots.flatMap drafts.subtree).zip (ids.flatMap s.forest.subtree)
  entries_eq : s.locations.entries = made.map (fun e => (e.2, drafts.placeOf path source e.1)) ++ t.entries

/-- The trees of the answers are those of the drafts, new nodes have the places of their drafts, and old nodes
are as they were. -/
structure Faithful (f : Forest) (t : Locations) (drafts : DraftTree) (path : String) (source : SourceText)
    (ids : List NodeId) (s : State) : Prop where
  trees_eq : ids.mapM s.forest.view.unfold = .ok (drafts.roots.map fun i => (drafts.view.unfold i).run)
  kept : ∀ id node, f.get? id = some node → s.forest.get? id = some node
  location_eq : ∀ id, f.contains id = true → s.locations.get? id = t.get? id
  places : ∃ made, Places f t drafts path source ids s made
  built : s.forest.Built
  within : s.locations.Within s.forest

section Matching

variable {f : Forest} {drafts : DraftTree} {path : String} {source : SourceText}
  {keys : List (NodeId × SymbolKey)} {s : State}

theorem Steady.hashed (hs : Steady f (drafts.plan path source keys) s) (hf : f.Built) {id : NodeId}
    (hid : s.forest.contains id = true) : Hashed f drafts ((s.forest.kindOf id).map s.forest.printOf) := by
  obtain ⟨node, hnode⟩ := Forest.contains_iff.mp hid
  rw [Forest.kindOf_eq hnode]
  cases hs.origin id node hnode with
  | inl hold =>
      have hsame : node.kind.map s.forest.printOf = node.kind.map f.printOf := by
        refine NodeKind.map_congr fun c hc => ?_
        rw [Forest.printOf, hs.grows.get? (hf.contains_child hold c hc), Forest.printOf]
      rw [hsame, ← Forest.kindOf_eq hold]
      exact .node (Forest.contains_iff.mpr ⟨node, hold⟩)
  | inr hdrafted =>
      obtain ⟨draft, hdraft, heq⟩ := hdrafted
      obtain ⟨i, hi, rfl⟩ := Array.getElem_of_mem hdraft
      rw [heq, ← DraftTree.contentOf_eq (Array.getElem?_eq_getElem hi)]
      exact .draft hi

end Matching

end Reconcile

open Reconcile

section Reconciled

variable {f : Forest} {t : Locations} {olds : List NodeId} {drafts : DraftTree} {path : String} {source : SourceText}
  {keys : List (NodeId × SymbolKey)} {ids : List NodeId} {log : Log} {s : State}

theorem Reconcile.Reconciliation.content_eq (h : Reconciliation f t olds (drafts.plan path source keys) ids log s)
    (hhash : Collisionless f drafts) {id : NodeId} {i : Nat} (hid : s.forest.contains id = true)
    (hi : i < drafts.drafts.size) (hprint : s.forest.printOf id = Draft.printIn drafts.drafts i) :
    (s.forest.kindOf id).map s.forest.printOf = drafts.contentOf i :=
  Palimpsest.content_eq hhash.fingerprint_inj h.answered.steady.built h.ready.numbered
    (fun _ hx => h.answered.steady.hashed h.built hx) (fun _ hj => .draft hj) hid hi hprint

/-- A node and the draft that it answers have trees with the same fingerprints, node by node. -/
theorem Reconcile.Reconciliation.forall₂_subtree
    (h : Reconciliation f t olds (drafts.plan path source keys) ids log s) (hhash : Collisionless f drafts)
    {i : Nat} {id : NodeId} (hanswers : Answers drafts.drafts s.forest i id) :
    List.Forall₂ (fun x y => s.forest.printOf x = Draft.printIn drafts.drafts y) (s.forest.subtree id)
      (drafts.subtree i) := by
  have hbuilt := h.answered.steady.built
  refine hbuilt.sized.forall₂_subtree (DraftTree.sized h.ready.numbered) ?_ hanswers.contains i
    hanswers.printOf_eq.1 hanswers.printOf_eq.2
  intro x y hx hy hprint
  exact NodeKind.forall₂_children (h.content_eq hhash hx hy hprint)

theorem Reconcile.Reconciliation.faithful (h : Reconciliation f t olds (drafts.plan path source keys) ids log s)
    (ht : t.Within f) (hhash : Collisionless f drafts) : Faithful f t drafts path source ids s where
  trees_eq := mapM_unfold_eq hhash.fingerprint_inj h.answered.steady.built h.ready.numbered
    (fun _ hx => h.answered.steady.hashed h.built hx) (fun _ hi => .draft hi) h.answered.answers
  kept := h.answered.grows
  location_eq _ hid := h.location_eq ht hid
  places := by
    refine ⟨log.made, h.accounted.mem_fresh_iff, h.accounted.nodup_fresh, fun e he => ?_, h.accounted.entries_eq ht⟩
    have hmem := h.installed.mem_zip h.ready.numbered h.answered.steady.built (.refl _)
      (fun i id hanswers => (h.forall₂_subtree hhash hanswers).length_eq.symm) e he
    rwa [NodeKind.map_fst_alignLists] at hmem
  built := h.answered.steady.built
  within := h.accounted.within ht

end Reconciled

/-- Drafts of a file are reconciled faithfully with whatever old trees of a forest. -/
theorem reconcile_faithful {f : Forest} {t : Locations} (htidy : f.Tidy) (hbuilt : f.Built) (ht : t.Within f)
    (olds : List NodeId) (file : Surface.File) (name path : String) (source : SourceText)
    (hhash : Collisionless f (DraftTree.ofFile file name)) :
    ∃ ids s, reconcile f t olds (DraftTree.ofFile file name) path source = .ok (ids, s) ∧
      Faithful f t (DraftTree.ofFile file name) path source ids s := by
  obtain ⟨_, ids, _, s, hrun, hreconciled⟩ :=
    reconcile_run htidy hbuilt t (DraftTree.lowered_ofFile file name) olds path source
  exact ⟨ids, s, hrun, hreconciled.faithful ht hhash⟩

/-- The drafts of a text. -/
def DraftTree.ofText (text name : String) : DraftTree := .ofFile (Surface.parseText text).file name

theorem DraftTree.lowered_ofText (text name : String) : (DraftTree.ofText text name).Lowered := lowered_ofFile _ _

/-- Another variable is declared before an old one. -/
theorem collisionless_inserted {olds : List NodeId} {s : State}
    (hrun : reconcile .empty .empty [] (.ofText "var a = 1;" "m") "m" (.ofString "var a = 1;") = .ok (olds, s)) :
    Collisionless s.forest (.ofText "var b = 1; var a = 1;" "m") := by
  have hcomputed : (reconcile .empty .empty [] (.ofText "var a = 1;" "m") "m" (.ofString "var a = 1;")).toOption.all
      (fun r => decide (Collisionless r.2.forest (.ofText "var b = 1; var a = 1;" "m"))) = true := by decide +kernel
  rw [hrun] at hcomputed
  simpa [Except.toOption] using hcomputed

theorem reconcile_faithful_inserted :
    ∃ olds s ids s', reconcile .empty .empty [] (.ofText "var a = 1;" "m") "m" (.ofString "var a = 1;") = .ok (olds, s) ∧
      reconcile s.forest s.locations olds (.ofText "var b = 1; var a = 1;" "m") "m"
        (.ofString "var b = 1; var a = 1;") = .ok (ids, s') ∧
      Faithful s.forest s.locations (.ofText "var b = 1; var a = 1;" "m") "m"
        (.ofString "var b = 1; var a = 1;") ids s' := by
  obtain ⟨_, olds, _, s, hrun, hfirst⟩ := reconcile_run .empty Forest.Coherent.empty.toBuilt .empty
    (DraftTree.lowered_ofText "var a = 1;" "m") [] "m" (.ofString "var a = 1;")
  have hwithin : s.locations.Within s.forest := hfirst.accounted.within fun _ he => nomatch he
  obtain ⟨ids, s', hrun', hfaithful⟩ := reconcile_faithful hfirst.answered.steady.tidy
    hfirst.answered.steady.built hwithin olds (Surface.parseText "var b = 1; var a = 1;").file "m" "m"
    (.ofString "var b = 1; var a = 1;") (collisionless_inserted hrun)
  exact ⟨olds, s, ids, s', hrun, hrun', hfaithful⟩

end Palimpsest
