import Palimpsest.Proofs.Node.SymbolKey
import Palimpsest.Proofs.Reconcile.Run

/-!
Scopes while drafts are installed. Where scopes and names tell symbols apart, a draft is compared with old
nodes of its own scope only, as long as old nodes stand in that scope or further inside: a scope that is also
an old one is opened by an old symbol with the key of the new one that opens it.
-/

namespace Palimpsest

open TreeView

/-- The nodes of trees with their scopes. -/
def Forest.scopes (f : Forest) (roots : List NodeId) : List (List String × NodeId) :=
  scopedNodes f.kindOf f.sizeOf roots

namespace DraftTree

/-- The drafts of the trees of the roots with their scopes. -/
def scopes (t : DraftTree) : List (List String × Nat) := scopedNodes t.kindOf t.sizeOf t.roots

def symbolKeys (t : DraftTree) : List (Nat × SymbolKey) := (t.view.symbolKeys t.roots).run

theorem of_mem_symbolKeys {t : DraftTree} (h : t.Lowered) {e : Nat × SymbolKey} (he : e ∈ t.symbolKeys) :
    (e.2.scope, e.1) ∈ t.scopes ∧ (t.kindOf e.1).symbolName? = some e.2.name := by
  obtain ⟨keys, hkeys, hfound⟩ := symbolKeys_found (t := t.view) (sized h.numbered) (fun _ _ => rfl) (fun _ _ => rfl)
    h.roots_lt
  obtain rfl : t.symbolKeys = keys := congrArg Id.run hkeys
  exact hfound e he

end DraftTree

theorem Forest.of_mem_symbolKeys {f : Forest} (hf : f.Built) {roots : List NodeId}
    (hroots : ∀ id ∈ roots, f.contains id = true) {keys : List (NodeId × SymbolKey)}
    (hkeys : f.view.symbolKeys roots = .ok keys) {e : NodeId × SymbolKey} (he : e ∈ keys) :
    (e.2.scope, e.1) ∈ f.scopes roots ∧ (f.kindOf e.1).symbolName? = some e.2.name := by
  obtain ⟨keys', hkeys', hfound⟩ := symbolKeys_found hf.sized (fun _ hx => view_kind hx) (fun x _ => view_size f x)
    hroots
  obtain rfl : keys = keys' := Except.ok.inj (hkeys.symm.trans hkeys')
  exact hfound e he

theorem scopedSubtree_grows {f g : Forest} (hf : f.Built) (hg : g.Built) (hgrows : f.Grows g)
    {e : List String × NodeId} (he : f.contains e.2 = true) :
    scopedSubtree g.kindOf g.sizeOf e = scopedSubtree f.kindOf f.sizeOf e := by
  refine (subtree_congr hf.sized.scoped hg.sized.scoped e he fun x hx => ⟨hgrows.contains hx, ?_⟩).symm
  rw [scopedKids, scopedKids, hgrows.kindOf_eq hx]

namespace Reconcile

/-- What has no name of its own has no key. -/
theorem keyed?_of_unnamed {drafts : DraftTree} (h : drafts.Lowered) (path : String) (source : SourceText)
    (keys : List (NodeId × SymbolKey)) {i : Nat} (hi : (drafts.kindOf i).symbolName? = none) :
    (drafts.plan path source keys).keyed? i = none := by
  cases hkeyed : (drafts.plan path source keys).keyed? i with
  | none => rfl
  | some old =>
      obtain ⟨key, hkey, -⟩ := Plan.mem_keys_of_keyed hkeyed
      have hname := (DraftTree.of_mem_symbolKeys h hkey).2
      cases hi.symm.trans hname

/-- A draft and the old node with its key are symbols that stand in one scope. -/
theorem Reconciliation.scopes_of_keyed {f : Forest} {t : Locations} {olds ids : List NodeId} {drafts : DraftTree}
    {path : String} {source : SourceText} {keys : List (NodeId × SymbolKey)} {log : Log} {s : State}
    (h : Reconciliation f t olds (drafts.plan path source keys) ids log s) (hdrafts : drafts.Lowered) {i : Nat}
    {old : NodeId} (hkeyed : (drafts.plan path source keys).keyed? i = some old) :
    ∃ scope, (scope, i) ∈ drafts.scopes ∧ (scope, old) ∈ f.scopes (olds.filter f.contains) ∧
      (f.kindOf old).symbolName?.isSome := by
  obtain ⟨key, hnew, hold⟩ := Plan.mem_keys_of_keyed hkeyed
  have hfound := Forest.of_mem_symbolKeys h.built (fun id hid => (List.mem_filter.mp hid).2) h.oldKeys_eq hold
  exact ⟨key.scope, (DraftTree.of_mem_symbolKeys hdrafts hnew).1, hfound.1, by simp [hfound.2]⟩

/-- Scopes and names tell the old symbols apart, and the new ones. -/
structure Plan.Unambiguous (f : Forest) (olds : List NodeId) (p : Plan) : Prop where
  numbered : Draft.Numbered p.drafts.drafts
  roots_lt : ∀ i ∈ p.drafts.roots, i < p.drafts.drafts.size
  nodup : (p.drafts.roots.flatMap p.drafts.subtree).Nodup
  contains : ∀ id ∈ olds, f.contains id = true
  old : Named f.kindOf (f.scopes olds) p.oldKeys
  new : Named p.drafts.kindOf p.drafts.scopes p.newKeys

/-- The draft stands in the scope. If some old node stands there or further inside, then the old node in the
place of the draft stands there too. -/
structure Plan.Corresponds (p : Plan) (f : Forest) (olds : List NodeId) (scope : List String)
    (job : Nat × Option NodeId) : Prop where
  draft : (scope, job.1) ∈ p.drafts.scopes
  place : ∀ e ∈ f.scopes olds, scope <+: e.1 → ∀ old, job.2 = some old → (scope, old) ∈ f.scopes olds

namespace Plan.Unambiguous

variable {f : Forest} {olds : List NodeId} {p : Plan} (hf : f.Built) (hu : p.Unambiguous f olds)
include hu

theorem eq_of_scope {i : Nat} {scope scope' : List String} (h : (scope, i) ∈ p.drafts.scopes)
    (h' : (scope', i) ∈ p.drafts.scopes) : scope = scope' := by
  have hnodup : (p.drafts.scopes.map Prod.snd).Nodup := by
    rw [DraftTree.scopes, map_snd_scopedNodes (DraftTree.sized hu.numbered) hu.roots_lt]
    exact hu.nodup
  exact congrArg Prod.fst (List.inj_on_of_nodup_map hnodup h h' rfl)

theorem keyed?_eq {scope : List String} {name : String} {i : Nat} {old : NodeId} (hi : (scope, i) ∈ p.drafts.scopes)
    (hname : (p.drafts.kindOf i).symbolName? = some name) (hold : (scope, old) ∈ f.scopes olds)
    (holdname : (f.kindOf old).symbolName? = some name) : p.keyed? i = some old := by
  have hkey := lookup_eq_some_of_mem hu.new.nodup (hu.new.mem hi hname)
  have hmem := hu.old.mem hold holdname
  obtain ⟨entry, hentry⟩ : ∃ entry, p.oldKeys.find? (·.2 == ⟨scope, name, 0⟩) = some entry := by
    rw [← Option.isSome_iff_exists, List.find?_isSome]
    exact ⟨_, hmem, by simp⟩
  have hsame : entry.2 = ⟨scope, name, 0⟩ := by simpa using List.find?_some hentry
  have hfound : (entry.1, ⟨scope, name, 0⟩) ∈ p.oldKeys := hsame ▸ List.mem_of_find?_eq_some hentry
  simp [Plan.keyed?, hkey, hentry, hu.old.eq_of_key hfound hmem]

theorem mem_scopes_of_keyed {scope : List String} {i : Nat} {old : NodeId} (hi : (scope, i) ∈ p.drafts.scopes)
    (h : p.keyed? i = some old) : (scope, old) ∈ f.scopes olds := by
  obtain ⟨key, hnew, hold⟩ := Plan.mem_keys_of_keyed h
  rw [hu.eq_of_scope hi ((hu.new.mem_iff i key).mp hnew).1]
  exact ((hu.old.mem_iff old key).mp hold).1

theorem candidate {scope : List String} {i : Nat} {place : Option NodeId}
    (hjob : p.Corresponds f olds scope (i, place)) {e : List String × NodeId} (he : e ∈ f.scopes olds)
    (hscope : scope <+: e.1) : ∀ old ∈ p.candidates i place, (scope, old) ∈ f.scopes olds := by
  intro old hold
  cases List.mem_append.mp hold with
  | inl hkeyed => exact hu.mem_scopes_of_keyed hjob.draft (by simpa using hkeyed)
  | inr hplace => exact hjob.place e he hscope old (by simpa using hplace)

include hf

theorem contains_of_mem {e : List String × NodeId} (he : e ∈ f.scopes olds) : f.contains e.2 = true :=
  of_mem_scopedNodes hf.sized hu.contains he

section Below

variable {s : State} (hs : Steady f p s) {scope : List String} {i : Nat} {draft : Draft} {place : Option NodeId}
  (hdraft : p.drafts.drafts[i]? = some draft) (hjob : p.Corresponds f olds scope (i, place))
include hs hdraft hjob

/-- The old node that a draft is compared with stands in its scope and opens the same one inside. -/
theorem inside {base : NodeId} (hbase : (p.keyed? i).or place = some base)
    (htag : (s.forest.kindOf base).tag = draft.kind.tag) {e : List String × NodeId} (he : e ∈ f.scopes olds)
    (hscope : draft.kind.scopeInside scope <+: e.1) :
    (scope, base) ∈ f.scopes olds ∧ (f.kindOf base).scopeInside scope = draft.kind.scopeInside scope := by
  cases hopens : draft.kind.opensScope with
  | false =>
      rw [NodeKind.scopeInside_of_not_opens hopens] at hscope ⊢
      have hin := hu.candidate hjob he hscope base (Plan.mem_candidates hbase)
      rw [hs.grows.kindOf_eq (hu.contains_of_mem hf hin)] at htag
      exact ⟨hin, NodeKind.scopeInside_of_not_opens ((NodeKind.opensScope_of_tag htag).trans hopens) scope⟩
  | true =>
      -- An old symbol opens the scope; by its key the draft is compared with it.
      obtain ⟨name, hname⟩ := NodeKind.symbolName?_of_opens hopens
      rw [NodeKind.scopeInside_of_opens hname hopens] at hscope ⊢
      obtain ⟨opener, hin, hsymbol, hopener⟩ := exists_opener hf.sized hu.contains he hscope
      rw [← DraftTree.kindOf_eq hdraft] at hname
      have hkeyed := hu.keyed?_eq hjob.draft hname hin hsymbol
      obtain rfl : opener = base := by simpa [hkeyed] using hbase
      exact ⟨hin, NodeKind.scopeInside_of_opens hsymbol hopener scope⟩

/-- The children of a draft are compared with old nodes of their scope. -/
theorem below : ∀ job ∈ (p.below s.forest i draft place).children,
    p.Corresponds f olds (draft.kind.scopeInside scope) job := by
  intro job hmem
  have hchild : job.1 ∈ draft.kind.children := map_fst_below p s.forest i draft place ▸ List.mem_map_of_mem hmem
  constructor
  · rw [← DraftTree.kindOf_eq hdraft] at hchild ⊢
    exact child_mem_scopedNodes (DraftTree.sized hu.numbered) hu.roots_lt hjob.draft hchild
  · intro e he hscope d hd
    obtain ⟨c, old⟩ := job
    obtain rfl : old = some d := hd
    obtain ⟨kind, hkind, hd⟩ := NodeKind.mem_of_mem_align hmem
    obtain ⟨base, hbase, rfl, htag⟩ := baseKind?_eq_some hkind
    obtain ⟨hin, hsame⟩ := hu.inside hf hs hdraft hjob hbase htag he hscope
    rw [hs.grows.kindOf_eq (hu.contains_of_mem hf hin)] at hd
    exact hsame ▸ child_mem_scopedNodes hf.sized hu.contains hin hd

end Below

end Plan.Unambiguous

end Reconcile
end Palimpsest
