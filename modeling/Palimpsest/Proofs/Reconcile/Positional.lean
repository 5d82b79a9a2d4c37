import Palimpsest.Proofs.Reconcile.Disjoint
import Palimpsest.Proofs.Reconcile.Scopes
import Palimpsest.Proofs.Reconcile.Spared

/-!
The statements of a module, before and after. A statement is compared with the old statement at its place only.
Symbols inside it may be compared with old symbols in any statement of the old module, so that an old statement
in which there are symbols can lose parts to others; one without symbols cannot.
-/

namespace Palimpsest

open Reconcile TreeView

/-- What became of the statements of a module: each is the old one at its place or a new node, none is an old one
from another place, and an old one without symbols is kept where the draft at its place has its content. -/
structure Positional (f : Forest) (stmts : List NodeId) (drafts : DraftTree) (draftStmts : List Nat)
    (stmts' : List NodeId) : Prop where
  own_or_new : ∀ (i : Nat) (x : NodeId), stmts'[i]? = some x → stmts[i]? = some x ∨ f.contains x = false
  not_moved : ∀ (i j : Nat) (x : NodeId), stmts'[i]? = some x → stmts[j]? = some x → i = j
  kept : ∀ (i : Nat) (old : NodeId) (draft : Nat), stmts[i]? = some old → draftStmts[i]? = some draft →
    f.view.unfold old = .ok (drafts.view.unfold draft).run →
    (∀ x ∈ f.subtree old, (f.kindOf x).tag.isSymbol = false) → stmts'[i]? = some old

namespace Reconcile

/-- The drafts of a module are compared with an old module of the same name. -/
structure Facing (f : Forest) (drafts : DraftTree) (root symbol : NodeId) (stmts : List NodeId)
    (draftRoot draftSymbol : Nat) (draftStmts : List Nat) (name : String) : Prop where
  coherent : f.Coherent
  lowered : drafts.Lowered
  old : ModuleAt f.kindOf root symbol name stmts
  roots_eq : drafts.roots = [draftRoot]
  new : ModuleAt drafts.kindOf draftRoot draftSymbol name draftStmts
  unnamed : ∀ i ∈ draftStmts, (drafts.kindOf i).symbolName? = none

namespace Facing

variable {f : Forest} {drafts : DraftTree} {root symbol : NodeId} {stmts : List NodeId}
  {draftRoot draftSymbol : Nat} {draftStmts : List Nat} {name : String}
  (h : Facing f drafts root symbol stmts draftRoot draftSymbol draftStmts name)
include h

theorem contains_root : f.contains root = true := by
  obtain ⟨visibility, hkind⟩ := h.old.root_eq
  exact Forest.contains_of_kindOf (by simp [hkind])

theorem contains_symbol : f.contains symbol = true := Forest.contains_of_kindOf (by simp [h.old.symbol_eq])

theorem childrenOf_symbol : f.childrenOf symbol = stmts := h.old.children_symbol

theorem contains_stmt {stmt : NodeId} (hstmt : stmt ∈ stmts) : f.contains stmt = true :=
  h.coherent.toBuilt.sized.closed symbol h.contains_symbol stmt (h.childrenOf_symbol ▸ hstmt)

theorem nodup_stmts : stmts.Nodup := by
  have hnodup := h.coherent.nodup_children h.contains_symbol
  rwa [h.childrenOf_symbol] at hnodup

theorem index_inj {i j : Nat} {x : NodeId} (hi : stmts[i]? = some x) (hj : stmts[j]? = some x) : i = j :=
  (List.getElem?_inj (List.getElem?_eq_some_iff.mp hi).1 h.nodup_stmts).mp (hi.trans hj.symm)

theorem disjoint_stmts {a b : NodeId} (ha : a ∈ stmts) (hb : b ∈ stmts) (hne : a ≠ b) :
    (f.subtree a).Disjoint (f.subtree b) := by
  rw [← h.childrenOf_symbol] at ha hb
  exact h.coherent.disjoint_children h.contains_symbol ha hb hne

theorem draftRoot_lt : draftRoot < drafts.drafts.size := h.lowered.roots_lt draftRoot (by simp [h.roots_eq])

theorem draftSymbol_lt : draftSymbol < draftRoot :=
  DraftTree.child_lt h.lowered.numbered (by simp [h.new.children_root])

theorem draft_lt {d : Nat} (hd : d ∈ draftStmts) : d < drafts.drafts.size := by
  have hlt : d < draftSymbol := DraftTree.child_lt h.lowered.numbered (h.new.children_symbol ▸ hd)
  exact Nat.lt_trans (Nat.lt_trans hlt h.draftSymbol_lt) h.draftRoot_lt

theorem lt_of_mem_subtree {d i : Nat} (hd : d ∈ draftStmts) (hi : i ∈ drafts.subtree d) : i < draftSymbol :=
  Nat.lt_of_le_of_lt (DraftTree.le_of_mem_subtree h.lowered.numbered (h.draft_lt hd) hi)
    (DraftTree.child_lt h.lowered.numbered (h.new.children_symbol ▸ hd))

/-- The old statements themselves. -/
theorem positional_refl : Positional f stmts drafts draftStmts stmts where
  own_or_new _ _ hx := .inl hx
  not_moved _ _ _ hi hj := h.index_inj hi hj
  kept _ _ _ hold _ _ _ := hold

section Keys

variable {t : Locations} {path : String} {source : SourceText} {keys : List (NodeId × SymbolKey)}
  {ids : List NodeId} {log : Log} {s s₀ s₁ : State}

theorem unkeyed {d : Nat} (hd : d ∈ draftStmts) : (drafts.plan path source keys).keyed? d = none :=
  keyed?_of_unnamed h.lowered path source keys (h.unnamed d hd)

section Statements

variable {stmts' : List NodeId} {inner : Log}
  (hinstalled : Installed f (drafts.plan path source keys) s₀ (NodeKind.alignLists draftStmts stmts) stmts' inner s₁)
include hinstalled

theorem own_or_new {i : Nat} {x : NodeId} (hx : stmts'[i]? = some x) : stmts[i]? = some x ∨ f.contains x = false := by
  have hpairs := hinstalled.own_or_new fun job hjob => h.unkeyed <| by
    rw [← NodeKind.map_fst_alignLists draftStmts stmts]
    exact List.mem_map_of_mem hjob
  obtain ⟨hi, rfl⟩ := List.getElem?_eq_some_iff.mp hx
  have hi' : i < (NodeKind.alignLists draftStmts stmts).length := hpairs.length_eq ▸ hi
  obtain ⟨-, hplace⟩ := NodeKind.of_getElem?_alignLists (List.getElem?_eq_getElem hi')
  rw [hplace]
  exact hpairs.get hi' hi

theorem not_moved {i j : Nat} {x : NodeId} (hx : stmts'[i]? = some x) (hj : stmts[j]? = some x) : i = j := by
  cases h.own_or_new hinstalled hx with
  | inl hi => exact h.index_inj hi hj
  | inr hnew =>
      have hthere := h.contains_stmt (List.mem_of_getElem? hj)
      simp [hnew] at hthere

end Statements

variable (hrun : Reconciliation f t [root] (drafts.plan path source keys) ids log s)
include hrun

theorem scopes_of_keyed {i : Nat} {old : NodeId} (hkeyed : (drafts.plan path source keys).keyed? i = some old) :
    ∃ scope, (scope, i) ∈ scopedNodes drafts.kindOf drafts.sizeOf [draftRoot] ∧
      (scope, old) ∈ scopedNodes f.kindOf f.sizeOf [root] ∧ (f.kindOf old).symbolName?.isSome := by
  have hscopes := hrun.scopes_of_keyed h.lowered hkeyed
  have hthere : [root].filter f.contains = [root] := by simp [h.contains_root]
  rwa [hthere, DraftTree.scopes, h.roots_eq] at hscopes

/-- A symbol inside a statement has the key of an old one inside some statement. -/
theorem keyed_inside {d i : Nat} {old : NodeId} (hd : d ∈ draftStmts) (hi : i ∈ drafts.subtree d)
    (hkeyed : (drafts.plan path source keys).keyed? i = some old) :
    ∃ stmt ∈ stmts, old ∈ f.subtree stmt ∧ (f.kindOf old).symbolName?.isSome := by
  obtain ⟨scope, hnew, hold, hname⟩ := h.scopes_of_keyed hrun hkeyed
  have hlt := h.lt_of_mem_subtree hd hi
  have hroot := h.draftSymbol_lt
  cases h.new.mem_scopedNodes (DraftTree.sized h.lowered.numbered) h.draftRoot_lt hnew with
  | inl houtside => omega
  | inr hinside =>
      cases h.old.mem_scopedNodes h.coherent.toBuilt.sized h.contains_root hold with
      | inl houtside => exact absurd houtside.1 hinside.1
      | inr hstmts =>
          obtain ⟨-, stmt, hstmt, hmem⟩ := hstmts
          exact ⟨stmt, hstmt, hmem, hname⟩

/-- The module has no key but that of the old one. -/
theorem keyed_symbol {old : NodeId} (hkeyed : (drafts.plan path source keys).keyed? draftSymbol = some old) :
    old = symbol := by
  obtain ⟨scope, hnew, hold, hname⟩ := h.scopes_of_keyed hrun hkeyed
  cases h.new.mem_scopedNodes (DraftTree.sized h.lowered.numbered) h.draftRoot_lt hnew with
  | inr hinside =>
      obtain ⟨-, d, hd, hmem⟩ := hinside
      exact absurd (h.lt_of_mem_subtree hd hmem) (Nat.lt_irrefl _)
  | inl houtside =>
      cases h.old.mem_scopedNodes h.coherent.toBuilt.sized h.contains_root hold with
      | inr hinside => exact absurd houtside.1 hinside.1
      | inl hold =>
          refine hold.2.resolve_left ?_
          rintro rfl
          simp [h.old.symbolName?_root] at hname

/-- A statement spares the old ones without symbols that are not at its place. -/
theorem spares {d : Nat} {place : Option NodeId} {kept : NodeId} (hd : d ∈ draftStmts)
    (hplace : ∀ old, place = some old → old ∈ stmts ∧ old ≠ kept) (hkept : kept ∈ stmts)
    (hunnamed : ∀ x ∈ f.subtree kept, (f.kindOf x).tag.isSymbol = false) :
    (drafts.plan path source keys).Spares f (f.subtree kept) (d, place) where
  place old hold := h.disjoint_stmts (hplace old hold).1 hkept (hplace old hold).2
  keyed i hi old hkeyed := by
    obtain ⟨stmt, hstmt, hmem, hname⟩ := h.keyed_inside hrun hd hi hkeyed
    have hne : stmt ≠ kept := by
      rintro rfl
      have hsymbol := hunnamed old hmem
      rw [NodeKind.isSymbol_tag, hname] at hsymbol
      cases hsymbol
    have hbelow := (h.coherent.toBuilt.sized.subtree_sublist (h.contains_stmt hstmt) hmem).subset
    exact fun x hx hin => h.disjoint_stmts hstmt hkept hne (hbelow hx) hin

/-- The drafts of the statements before a place spare what is kept there. -/
theorem spares_before {i : Nat} {kept : NodeId} (hkept : stmts[i]? = some kept)
    (hunnamed : ∀ x ∈ f.subtree kept, (f.kindOf x).tag.isSymbol = false) :
    ∀ job ∈ (NodeKind.alignLists draftStmts stmts).take i,
      (drafts.plan path source keys).Spares f (f.subtree kept) job := by
  intro job hjob
  obtain ⟨k, hk, heq⟩ := List.mem_take_iff_getElem.mp hjob
  obtain ⟨hki, hlength⟩ := Nat.lt_min.mp hk
  obtain ⟨hd, hplace⟩ := NodeKind.of_getElem?_alignLists (List.getElem?_eq_some_iff.mpr ⟨hlength, heq⟩)
  refine h.spares hrun (List.mem_of_getElem? hd) (fun old hold => ?_) (List.mem_of_getElem? hkept) hunnamed
  have hthere : stmts[k]? = some old := hplace.trans hold
  refine ⟨List.mem_of_getElem? hthere, ?_⟩
  rintro rfl
  have hsame := h.index_inj hthere hkept
  omega

theorem kept {stmts' : List NodeId} {inner : Log}
    (hinstalled : Installed f (drafts.plan path source keys) s₀ (NodeKind.alignLists draftStmts stmts) stmts' inner s₁)
    {i d : Nat} {old : NodeId} (hold : stmts[i]? = some old) (hd : draftStmts[i]? = some d)
    (hcontent : f.view.unfold old = .ok (drafts.view.unfold d).run)
    (hunnamed : ∀ x ∈ f.subtree old, (f.kindOf x).tag.isSymbol = false) (hfree : s₀.claimed = []) :
    stmts'[i]? = some old := by
  have hlt := h.draft_lt (List.mem_of_getElem? hd)
  have hthere := h.contains_stmt (List.mem_of_getElem? hold)
  obtain ⟨node, hnode⟩ := Forest.contains_iff.mp hthere
  obtain ⟨draft, hdraft⟩ : ∃ draft, drafts.drafts[d]? = some draft := ⟨_, Array.getElem?_eq_getElem hlt⟩
  obtain ⟨htag, hprint⟩ := same_of_unfold h.coherent.toBuilt h.lowered.numbered hthere hlt hcontent
  rw [Forest.kindOf_eq hnode, DraftTree.kindOf_eq hdraft] at htag
  rw [Forest.printOf_eq hnode, Draft.printIn, hdraft] at hprint
  -- The jobs before this one spare the old statement, and this one has no other candidate.
  have hjob : (NodeKind.alignLists draftStmts stmts)[i]? = some (d, some old) := by
    rw [NodeKind.getElem?_alignLists, hd, hold]
    rfl
  obtain ⟨hi, hget⟩ := List.getElem?_eq_some_iff.mp hjob
  have hsplit : NodeKind.alignLists draftStmts stmts = (NodeKind.alignLists draftStmts stmts).take i ++
      (d, some old) :: (NodeKind.alignLists draftStmts stmts).drop (i + 1) := by
    rw [← hget, List.getElem_cons_drop, List.take_append_drop]
  rw [hsplit] at hinstalled
  have hkept := hinstalled.kept_in_place h.coherent.toBuilt h.lowered.numbered
    (h.spares_before hrun hold hunnamed) (h.unkeyed (List.mem_of_getElem? hd)) hdraft hnode htag hprint
    (by simp [hfree])
  rwa [List.length_take_of_le (Nat.le_of_lt hi)] at hkept

/-- What answers the drafts of the statements that are compared with the old ones. -/
theorem positional {stmts' : List NodeId} {inner : Log}
    (hinstalled : Installed f (drafts.plan path source keys) s₀ (NodeKind.alignLists draftStmts stmts) stmts' inner s₁)
    (hfree : s₀.claimed = []) : Positional f stmts drafts draftStmts stmts' where
  own_or_new _ _ hx := h.own_or_new hinstalled hx
  not_moved _ _ _ hx hj := h.not_moved hinstalled hx hj
  kept _ _ _ hold hd hcontent hunnamed := h.kept hrun hinstalled hold hd hcontent hunnamed hfree

/-- The module is the old one, or a new one over what answers its statements. -/
theorem answered_symbol {id : NodeId} {inner : Log}
    (hinstalled : Installed f (drafts.plan path source keys) s₀ [(draftSymbol, some symbol)] [id] inner s₁)
    (hfree : s₀.claimed = []) :
    ∃ stmts', s₁.forest.kindOf id = .module_ name stmts' ∧ Positional f stmts drafts draftStmts stmts' := by
  have hkind := h.new.symbol_eq
  cases hinstalled with
  | @claim _ _ _ _ _ skipped later _ _ _ _ hs _ _ hcandidates _ _ hrest =>
      cases hrest
      have hmem : id ∈ (drafts.plan path source keys).candidates draftSymbol (some symbol) := by simp [hcandidates]
      have hsame : id = symbol := by
        cases List.mem_append.mp hmem with
        | inl hkeyed => exact h.keyed_symbol hrun (by simpa using hkeyed)
        | inr hplace => simpa using hplace
      refine ⟨stmts, ?_, h.positional_refl⟩
      rw [hsame]
      exact (hs.grows.kindOf_eq h.contains_symbol).trans h.old.symbol_eq
  | @make _ _ _ _ _ draft kind _ _ _ _ _ _ hs hdraft _ _ hshape hbelow hadds hrest =>
      cases hrest
      have hbase : ((drafts.plan path source keys).keyed? draftSymbol).or (some symbol) = some symbol := by
        cases hkeyed : (drafts.plan path source keys).keyed? draftSymbol with
        | none => rfl
        | some old => rw [h.keyed_symbol hrun hkeyed, Option.some_or]
      have hold := (hs.grows.kindOf_eq h.contains_symbol).trans h.old.symbol_eq
      have hdraftKind : draft.kind = .module_ name draftStmts := (DraftTree.kindOf_eq hdraft).symm.trans hkind
      rw [Plan.below_eq hbase (hs.grows.contains h.contains_symbol) (by rw [hold, hdraftKind]; rfl), hold,
        hdraftKind] at hbelow
      rw [hdraftKind] at hshape
      cases kind with
      | module_ name' stmts' =>
          obtain ⟨rfl, -⟩ := NodeKind.module_.inj hshape
          exact ⟨stmts', Forest.kindOf_eq hadds.get?_self, h.positional hrun hbelow hfree⟩
      | _ => simp [NodeKind.shape, NodeKind.map] at hshape

/-- The root is the old one, or a new one that declares what answers the module. -/
theorem answered_root : ∃ root' stmts', ids = [root'] ∧ DeclaresModule s.forest.kindOf root' name stmts' ∧
    Positional f stmts drafts draftStmts stmts' := by
  obtain ⟨visibility, holdKind⟩ := h.old.root_eq
  obtain ⟨visibility', hkind⟩ := h.new.root_eq
  have hkeyed := keyed?_of_unnamed h.lowered path source keys h.new.symbolName?_root
  have hthere : [root].filter f.contains = [root] := by simp [h.contains_root]
  have hroots : (drafts.plan path source keys).drafts.roots = [draftRoot] := h.roots_eq
  have hinstalled := hrun.installed
  rw [hthere, hroots] at hinstalled
  cases hinstalled with
  | @claim _ _ _ _ _ skipped later old _ _ _ _ _ _ hcandidates _ _ hrest =>
      cases hrest
      have hmem : old ∈ (drafts.plan path source keys).candidates draftRoot (some root) := by simp [hcandidates]
      rw [Plan.candidates_of_unkeyed hkeyed, List.mem_singleton] at hmem
      exact ⟨root, stmts, by rw [hmem], ⟨symbol, h.old⟩, h.positional_refl⟩
  | @make _ s₁ _ _ _ draft kind id forest _ _ _ _ hs hdraft _ _ hshape hbelow hadds hrest =>
      cases hrest
      have hdraftKind : draft.kind = .moduleDecl visibility' draftSymbol :=
        (DraftTree.kindOf_eq hdraft).symm.trans hkind
      have hbase : ((drafts.plan path source keys).keyed? draftRoot).or (some root) = some root := by rw [hkeyed]; rfl
      rw [Plan.below_eq hbase h.contains_root (by rw [holdKind, hdraftKind]; rfl), holdKind, hdraftKind] at hbelow
      rw [hdraftKind] at hshape
      cases kind with
      | moduleDecl visibility'' symbol' =>
          obtain ⟨stmts', hsymbol, hpositional⟩ := h.answered_symbol hrun hbelow rfl
          have hin : s₁.forest.contains symbol' = true := Forest.contains_of_kindOf (by simp [hsymbol])
          refine ⟨id, stmts', rfl, ⟨symbol', ⟨visibility'', Forest.kindOf_eq hadds.get?_self⟩, ?_⟩, hpositional⟩
          exact (hadds.grows.kindOf_eq hin).trans hsymbol
      | _ => simp [NodeKind.shape, NodeKind.map] at hshape

/-- The new statements have the contents of their drafts. -/
theorem unfold_eq (hhash : Collisionless f drafts) {root' : NodeId} {name' : String} {stmts' : List NodeId}
    (hmodule : DeclaresModule s.forest.kindOf root' name' stmts') (hids : ids = [root']) :
    stmts'.mapM s.forest.view.unfold = .ok (draftStmts.map fun i => (drafts.view.unfold i).run) := by
  have hbuilt := hrun.answered.steady.built
  have hhashed : ∀ x, s.forest.contains x = true → Hashed f drafts ((s.forest.kindOf x).map s.forest.printOf) :=
    fun _ hx => hrun.answered.steady.hashed h.coherent.toBuilt hx
  have hanswers := hrun.answered.answers
  rw [DraftTree.plan, h.roots_eq, hids] at hanswers
  have hfirst := (List.forall₂_cons.mp hanswers).1
  obtain ⟨hlt, hprint⟩ := hfirst.printOf_eq
  obtain ⟨stmts'', hmodule', hstmts⟩ := declaresModule_of_print hhash.fingerprint_inj hbuilt h.lowered.numbered hhashed
    (fun _ hi => .draft hi) hfirst.contains hlt hprint ⟨draftSymbol, h.new⟩
  rw [hmodule.stmts_eq hmodule']
  exact mapM_unfold_eq hhash.fingerprint_inj hbuilt h.lowered.numbered hhashed (fun _ hi => .draft hi) hstmts

end Keys

end Facing

end Reconcile

/-- Whatever else changed in a module, its statements keep their places. -/
theorem reconcile_positional {f : Forest} (hf : Grown f) (t : Locations) {root : NodeId} {name : String}
    {stmts : List NodeId} (hold : DeclaresModule f.kindOf root name stmts) {file : Surface.File}
    (hfile : file.onlyModules = false) (path : String) (source : SourceText) :
    ∃ draftRoot draftStmts root' s stmts', (DraftTree.ofFile file name).roots = [draftRoot] ∧
      DeclaresModule (DraftTree.ofFile file name).kindOf draftRoot name draftStmts ∧
      reconcile f t [root] (.ofFile file name) path source = .ok ([root'], s) ∧
      DeclaresModule s.forest.kindOf root' name stmts' ∧
      Positional f stmts (.ofFile file name) draftStmts stmts' ∧
      (Collisionless f (.ofFile file name) → stmts'.mapM s.forest.view.unfold =
        .ok (draftStmts.map fun i => ((DraftTree.ofFile file name).view.unfold i).run)) := by
  have hdrafts := DraftTree.lowered_ofFile file name
  obtain ⟨draftRoot, draftStmts, hroots, ⟨draftSymbol, hnew⟩, hunnamed⟩ := DraftTree.ofFile_implicit hfile name
  obtain ⟨symbol, hold⟩ := hold
  have hfacing : Facing f (.ofFile file name) root symbol stmts draftRoot draftSymbol draftStmts name :=
    ⟨hf.coherent, hdrafts, hold, hroots, hnew, hunnamed⟩
  obtain ⟨keys, ids, log, s, hrun, hreconciled⟩ :=
    reconcile_run hf.tidy hf.coherent.toBuilt t hdrafts [root] path source
  obtain ⟨root', stmts', rfl, hmodule, hpositional⟩ := hfacing.answered_root hreconciled
  refine ⟨draftRoot, draftStmts, root', s, stmts', hroots, ⟨draftSymbol, hnew⟩, hrun, hmodule, hpositional, ?_⟩
  exact fun hhash => hfacing.unfold_eq hreconciled hhash hmodule rfl

/-- The module of a file with one statement. -/
theorem declaresModule_first {olds : List NodeId} {s : State}
    (hrun : reconcile .empty .empty [] (.ofText "var a = 1;" "m") "m" (.ofString "var a = 1;") = .ok (olds, s)) :
    olds = [⟨4, 0⟩] ∧ DeclaresModule s.forest.kindOf ⟨4, 0⟩ "m" [⟨2, 0⟩] := by
  have hcomputed : (reconcile .empty .empty [] (.ofText "var a = 1;" "m") "m" (.ofString "var a = 1;")).toOption.all
      (fun r => decide (r.1 = [⟨4, 0⟩] ∧ r.2.forest.kindOf ⟨4, 0⟩ = .moduleDecl .plain ⟨3, 0⟩ ∧
        r.2.forest.kindOf ⟨3, 0⟩ = .module_ "m" [⟨2, 0⟩])) = true := by decide +kernel
  rw [hrun] at hcomputed
  obtain ⟨holds, hroot, hsymbol⟩ : olds = [⟨4, 0⟩] ∧ s.forest.kindOf ⟨4, 0⟩ = .moduleDecl .plain ⟨3, 0⟩ ∧
      s.forest.kindOf ⟨3, 0⟩ = .module_ "m" [⟨2, 0⟩] := by simpa [Except.toOption] using hcomputed
  exact ⟨holds, ⟨3, 0⟩, ⟨.plain, hroot⟩, hsymbol⟩

/-- A statement is put before the only one. -/
theorem reconcile_positional_inserted :
    ∃ s draftRoot draftStmts root' s' stmts',
      reconcile .empty .empty [] (.ofText "var a = 1;" "m") "m" (.ofString "var a = 1;") = .ok ([⟨4, 0⟩], s) ∧
      (DraftTree.ofText "var b = 1; var a = 1;" "m").roots = [draftRoot] ∧
      DeclaresModule (DraftTree.ofText "var b = 1; var a = 1;" "m").kindOf draftRoot "m" draftStmts ∧
      reconcile s.forest s.locations [⟨4, 0⟩] (.ofText "var b = 1; var a = 1;" "m") "m"
        (.ofString "var b = 1; var a = 1;") = .ok ([root'], s') ∧
      DeclaresModule s'.forest.kindOf root' "m" stmts' ∧
      Positional s.forest [⟨2, 0⟩] (.ofText "var b = 1; var a = 1;" "m") draftStmts stmts' := by
  obtain ⟨_, olds, _, s, hrun, -⟩ := reconcile_run .empty Forest.Coherent.empty.toBuilt .empty
    (DraftTree.lowered_ofText "var a = 1;" "m") [] "m" (.ofString "var a = 1;")
  obtain ⟨rfl, hmodule⟩ := declaresModule_first hrun
  have hfile : (Surface.parseText "var b = 1; var a = 1;").file.onlyModules = false := by decide +kernel
  obtain ⟨draftRoot, draftStmts, root', s', stmts', hroots, hnew, hrun', hmodule', hpositional, -⟩ :=
    reconcile_positional (.reconcile .empty hrun) s.locations hmodule hfile "m" (.ofString "var b = 1; var a = 1;")
  exact ⟨s, draftRoot, draftStmts, root', s', stmts', hrun, hroots, hnew, hrun', hmodule', hpositional⟩

end Palimpsest
