import Palimpsest.Proofs.Node.Encode
import Palimpsest.Proofs.Node.Unfold
import Palimpsest.Proofs.Reconcile

/-!
Content and fingerprint. Where different contents have different fingerprints, nodes with the fingerprints
of drafts unfold to the trees of the drafts.
-/

namespace Palimpsest

theorem Forest.Built.printOf_eq_fingerprint {f : Forest} (h : f.Built) {id : NodeId}
    (hid : f.contains id = true) : f.printOf id = ((f.kindOf id).map f.printOf).fingerprint := by
  obtain ⟨node, hnode⟩ := contains_iff.mp hid
  have hbuild := (build_eq_ok.mp (h.built id node hnode)).2
  rw [printOf_eq hnode, kindOf_eq hnode]
  exact congrArg Node.fingerprint hbuild

namespace DraftTree

variable {t : DraftTree}

/-- What is hashed for a draft. -/
def contentOf (t : DraftTree) (i : Nat) : NodeKind ContentHash := (t.kindOf i).map (Draft.printIn t.drafts)

theorem contentOf_eq {i : Nat} {draft : Draft} (h : t.drafts[i]? = some draft) :
    t.contentOf i = draft.kind.map (Draft.printIn t.drafts) := by
  rw [contentOf, kindOf_eq h]

theorem printIn_eq_fingerprint (h : Draft.Numbered t.drafts) {i : Nat} (hi : i < t.drafts.size) :
    Draft.printIn t.drafts i = (t.contentOf i).fingerprint := by
  have hget := Array.getElem?_eq_getElem hi
  rw [Draft.printIn, hget, contentOf_eq hget]
  exact (h i _ hget).2.1

theorem unfold_eq (t : DraftTree) (i : Nat) : t.view.unfold i = unfolded t.kindOf (t.sizeOf i) i := by
  have hloop (n : Nat) : t.view.unfoldLoop n i = pure (unfolded t.kindOf n i) :=
    TreeView.unfoldLoop_eq (P := fun _ => True) (fun _ _ _ _ => trivial) (fun _ _ => rfl) n i trivial
  exact hloop (t.sizeOf i)

end DraftTree

theorem Forest.Built.unfold_eq {f : Forest} (h : f.Built) {id : NodeId} (hid : f.contains id = true) :
    f.view.unfold id = .ok (unfolded f.kindOf (f.sizeOf id) id) :=
  TreeView.unfoldLoop_eq h.sized.closed (fun _ hx => view_kind hx) (f.sizeOf id) id hid

theorem Reconcile.Answers.printOf_eq {drafts : Array Draft} {f : Forest} {i : Nat} {id : NodeId}
    (h : Reconcile.Answers drafts f i id) : i < drafts.size ∧ f.printOf id = Draft.printIn drafts i := by
  obtain ⟨draft, node, hi, hnode, hprint, -⟩ := h
  refine ⟨(Array.getElem?_eq_some_iff.mp hi).1, ?_⟩
  rw [Forest.printOf_eq hnode, hprint, Draft.printIn, hi]
  rfl

/-- A node that unfolds to the tree of a draft has its tag and its fingerprint. -/
theorem same_of_unfold {f : Forest} {t : DraftTree} (hf : f.Built) (ht : Draft.Numbered t.drafts) {id : NodeId}
    {i : Nat} (hid : f.contains id = true) (hi : i < t.drafts.size)
    (h : f.view.unfold id = .ok (t.view.unfold i).run) :
    (f.kindOf id).tag = (t.kindOf i).tag ∧ f.printOf id = Draft.printIn t.drafts i := by
  rw [hf.unfold_eq hid, t.unfold_eq i] at h
  have hsame : unfolded f.kindOf (f.sizeOf id) id = unfolded t.kindOf (t.sizeOf i) i := Except.ok.inj h
  constructor
  · rw [hf.sized.size_eq id hid, (DraftTree.sized ht).size_eq i hi, Nat.add_comm 1, Nat.add_comm 1, unfolded,
      unfolded] at hsame
    simpa using congrArg NodeKind.tag (Tree.node.inj hsame)
  · exact label_eq_of_unfolded hf.sized (DraftTree.sized ht) (fun _ hid => hf.printOf_eq_fingerprint hid)
      (fun _ hi => DraftTree.printIn_eq_fingerprint ht hi) hid i hi hsame

section Matching

variable {f : Forest} {t : DraftTree} {content : NodeKind ContentHash → Prop}
  (hinj : ∀ k k', content k → content k' → k.fingerprint = k'.fingerprint → k = k')
  (hf : f.Built) (ht : Draft.Numbered t.drafts)
  (hnodes : ∀ id, f.contains id = true → content ((f.kindOf id).map f.printOf))
  (hdrafts : ∀ i, i < t.drafts.size → content (t.contentOf i))
include hinj hf ht hnodes hdrafts

/-- A node with the fingerprint of a draft has its content. -/
theorem content_eq {id : NodeId} {i : Nat} (hid : f.contains id = true) (hi : i < t.drafts.size)
    (h : f.printOf id = Draft.printIn t.drafts i) : (f.kindOf id).map f.printOf = t.contentOf i := by
  refine hinj _ _ (hnodes id hid) (hdrafts i hi) ?_
  rw [← hf.printOf_eq_fingerprint hid, h, DraftTree.printIn_eq_fingerprint ht hi]

theorem unfold_eq_of_print {id : NodeId} {i : Nat} (hid : f.contains id = true) (hi : i < t.drafts.size)
    (h : f.printOf id = Draft.printIn t.drafts i) : f.view.unfold id = .ok (t.view.unfold i).run := by
  obtain ⟨hsize, hunfolded⟩ := unfolded_eq hf.sized (DraftTree.sized ht)
    (fun id i hid hi h => content_eq hinj hf ht hnodes hdrafts hid hi h) hid i hi h
  rw [hf.unfold_eq hid, t.unfold_eq i, hunfolded, hsize]
  rfl

theorem mapM_unfold_eq {is : List Nat} {ids : List NodeId}
    (h : List.Forall₂ (Reconcile.Answers t.drafts f) is ids) :
    ids.mapM f.view.unfold = .ok (is.map fun i => (t.view.unfold i).run) := by
  induction h with
  | nil => rfl
  | cons hfirst _ ih =>
      obtain ⟨hlt, hprint⟩ := hfirst.printOf_eq
      rw [List.mapM_cons, unfold_eq_of_print hinj hf ht hnodes hdrafts hfirst.contains hlt hprint, ih]
      rfl

theorem answers_of_print {id : NodeId} {i : Nat} (hid : f.contains id = true) (hi : i < t.drafts.size)
    (h : f.printOf id = Draft.printIn t.drafts i) : Reconcile.Answers t.drafts f i id := by
  obtain ⟨node, hnode⟩ := Forest.contains_iff.mp hid
  have hdraft := Array.getElem?_eq_getElem hi
  have htag := congrArg NodeKind.tag (content_eq hinj hf ht hnodes hdrafts hid hi h)
  rw [NodeKind.tag_map, DraftTree.contentOf, NodeKind.tag_map, Forest.kindOf_eq hnode, DraftTree.kindOf_eq hdraft] at htag
  rw [Forest.printOf_eq hnode, Draft.printIn, hdraft] at h
  exact ⟨_, node, hdraft, hnode, h, htag⟩

/-- A node with the fingerprint of a draft that declares a module declares one of the same name, over statements
that answer those of the draft. -/
theorem declaresModule_of_print {id : NodeId} {i : Nat} {name : String} {draftStmts : List Nat}
    (hid : f.contains id = true) (hi : i < t.drafts.size) (h : f.printOf id = Draft.printIn t.drafts i)
    (hdeclares : DeclaresModule t.kindOf i name draftStmts) : ∃ stmts, DeclaresModule f.kindOf id name stmts ∧
      List.Forall₂ (Reconcile.Answers t.drafts f) draftStmts stmts := by
  obtain ⟨symbol, hmodule⟩ := hdeclares
  obtain ⟨visibility, hkind⟩ := hmodule.root_eq
  have hdown := (DraftTree.sized ht).closed
  have hsymbol : symbol < t.drafts.size := hdown i hi symbol (by simp [hmodule.children_root])
  have hcontent := content_eq hinj hf ht hnodes hdrafts hid hi h
  rw [DraftTree.contentOf, hkind, NodeKind.map] at hcontent
  cases hroot : f.kindOf id with
  | moduleDecl visibility' m =>
      rw [hroot] at hcontent
      obtain ⟨rfl, hprint⟩ := NodeKind.moduleDecl.inj hcontent
      have hm : f.contains m = true := hf.sized.closed id hid m (by simp [Forest.childrenOf, hroot, NodeKind.children])
      have hbelow := content_eq hinj hf ht hnodes hdrafts hm hsymbol hprint
      rw [DraftTree.contentOf, hmodule.symbol_eq, NodeKind.map] at hbelow
      cases hkindm : f.kindOf m with
      | module_ name' stmts =>
          rw [hkindm] at hbelow
          obtain ⟨rfl, hprints⟩ := NodeKind.module_.inj hbelow
          have hnode : ModuleAt f.kindOf id m name' stmts := ⟨⟨visibility', hroot⟩, hkindm⟩
          refine ⟨stmts, ⟨m, hnode⟩, NodeKind.forall₂_of_map_eq hprints.symm fun d hd c hc hcd => ?_⟩
          have hc := hf.sized.closed m hm c (by rwa [Forest.childrenOf, hnode.children_symbol])
          have hd := hdown symbol hsymbol d (by rwa [hmodule.children_symbol])
          exact answers_of_print hinj hf ht hnodes hdrafts hc hd hcd.symm
      | _ => simp [hkindm, NodeKind.map] at hbelow
  | _ => simp [hroot, NodeKind.map] at hcontent

/-- A node with the fingerprint of a draft that declares a module declares one. -/
theorem declares_module {id : NodeId} {i : Nat} (hid : f.contains id = true)
    (h : f.printOf id = Draft.printIn t.drafts i) (hdeclares : Draft.Declares t.drafts i) :
    ∃ visibility symbol name stmts, f.kindOf id = .moduleDecl visibility symbol ∧
      f.contains symbol = true ∧ f.kindOf symbol = .module_ name stmts := by
  obtain ⟨hi, name, draftStmts, hmodule⟩ := DraftTree.declaresModule hdeclares
  obtain ⟨stmts, ⟨symbol, hnode⟩, -⟩ := declaresModule_of_print hinj hf ht hnodes hdrafts hid hi h hmodule
  obtain ⟨visibility, hkind⟩ := hnode.root_eq
  have hsymbol := hf.sized.closed id hid symbol (by simp [Forest.childrenOf, hnode.children_root])
  exact ⟨visibility, symbol, name, stmts, hkind, hsymbol, hnode.symbol_eq⟩

end Matching
end Palimpsest
