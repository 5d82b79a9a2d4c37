import Palimpsest.Draft.Lower
import Palimpsest.Forest.Basic

/-!
Drafts against the trees of before. A draft is answered by an old node with the same tag and the same
fingerprint: a symbol by the old symbol of the same key, or else by the node in the same field of the
corresponding old parent, any other node by the latter only. What finds no answer becomes a new node over
answered children. No old node answers twice.
-/

namespace Palimpsest
namespace Reconcile

/-- How much was made anew and how much was found. -/
structure Stats where
  freshNodes : Nat
  reusedSubtrees : Nat
  reusedNodes : Nat
deriving DecidableEq, Repr, Inhabited

/-- Why drafts cannot be installed. -/
inductive Fault where
  | freed (node : FreedNode)
  /-- A draft has a child that was not made before it. -/
  | misnumbered (draft : Nat)
deriving DecidableEq, Repr, Inhabited

/-- What does not change while drafts are installed. -/
structure Plan where
  drafts : DraftTree
  path : String
  source : SourceText
  /-- The old symbols with their keys. -/
  oldKeys : List (NodeId × SymbolKey)
  /-- The new symbols with their keys. -/
  newKeys : List (Nat × SymbolKey)

structure State where
  forest : Forest
  locations : Locations
  /-- The nodes of old subtrees that answer a draft. -/
  claimed : List NodeId
  stats : Stats
deriving Repr, Inhabited

abbrev Install := StateT State (Except Fault)

def inForest {α : Type} (x : Except FreedNode α) : Install α :=
  match x with
  | .ok a => return a
  | .error e => throw (.freed e)

namespace Plan

/-- The old symbol with the key of a draft. -/
def keyed? (p : Plan) (draft : Nat) : Option NodeId := do
  let key ← p.newKeys.lookup draft
  let entry ← p.oldKeys.find? (·.2 == key)
  return entry.1

end Plan

/-- Lets an old subtree answer a draft, if the content is the same and no part of it is claimed. -/
def tryClaim (draft : Draft) (old : NodeId) : Install Bool := do
  let s ← get
  match s.forest.get? old with
  | none => return false
  | some node =>
    if node.kind.tag = draft.kind.tag ∧ node.fingerprint = draft.fingerprint then
      let subtree ← inForest (s.forest.view.preorder old)
      if subtree.any s.claimed.contains then return false
      else
        set { s with claimed := subtree ++ s.claimed, stats := { s.stats with
          reusedSubtrees := s.stats.reusedSubtrees + 1
          reusedNodes := s.stats.reusedNodes + subtree.length } }
        return true
    else return false

/-- The first of the candidates that can be claimed. -/
def claimFirst (draft : Draft) : List NodeId → Install (Option NodeId)
  | [] => return none
  | old :: rest => do
    if ← tryClaim draft old then return some old else claimFirst draft rest

/-- Makes a new node over installed children and places it. -/
def addFresh (p : Plan) (draft : Draft) (kind : NodeKind NodeId) : Install NodeId := do
  let s ← get
  let (id, forest) := s.forest.alloc (s.forest.node kind draft.fingerprint)
  let location := Location.resolve p.path draft.span p.source
  set { s with forest, locations := s.locations.insert id location,
               stats := { s.stats with freshNodes := s.stats.freshNodes + 1 } }
  return id

/-- The old node whose children the children of a draft are compared with. -/
def baseKind? (draft : Draft) (old : Option NodeId) (forest : Forest) : Option (NodeKind NodeId) := do
  let node ← forest.get? (← old)
  if node.kind.tag = draft.kind.tag then some node.kind else none

/-- The node for a draft; `positional` is the old node in its place. -/
def install (p : Plan) (i : Nat) (positional : Option NodeId) : Install NodeId := do
  match p.drafts.drafts[i]? with
  | none => throw (.misnumbered i)
  | some draft =>
    let keyed := p.keyed? i
    match ← claimFirst draft (keyed.toList ++ positional.toList) with
    | some old => return old
    | none =>
      let base := baseKind? draft (keyed.or positional) (← get).forest
      let kind ← (draft.kind.align base).traverse fun pair =>
        if _h : pair.1 < i then install p pair.1 pair.2 else throw (.misnumbered pair.1)
      addFresh p draft kind
termination_by i

/-- The roots, each compared with the old root at the same place. -/
def installRoots (p : Plan) : List Nat → List NodeId → Install (List NodeId)
  | [], _ => return []
  | i :: rest, olds => do
    let id ← install p i olds.head?
    return id :: (← installRoots p rest olds.tail)

end Reconcile

open Reconcile in
/-- Installs drafts in a forest. Of the old roots only those still there count. -/
def reconcile (forest : Forest) (locations : Locations) (oldRoots : List NodeId) (drafts : DraftTree)
    (path : String) (source : SourceText) : Except Fault (List NodeId × State) := do
  let oldRoots := oldRoots.filter forest.contains
  let start : State := { forest, locations, claimed := [], stats := ⟨0, 0, 0⟩ }
  let oldKeys ← match forest.view.symbolKeys oldRoots with
    | .ok keys => pure keys
    | .error e => throw (.freed e)
  let plan : Plan := { drafts, path, source, oldKeys, newKeys := (drafts.view.symbolKeys drafts.roots).run }
  (installRoots plan drafts.roots oldRoots).run start

end Palimpsest
