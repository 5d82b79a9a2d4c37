import Palimpsest.Proofs.Node.SymbolKey

/-!
What the keys of symbols say. In trees that share no node every symbol has one key and no two have the same: it
names the modules and functions around the symbol, the symbol, and how many of that name its scope had before it.
-/

namespace Palimpsest

namespace NodeKind

/-- The name that a module or a function gives to the scope inside. -/
def scopeName? {C : Type} : NodeKind C → Option String
  | module_ name _ | function name _ _ => some name
  | _ => none

theorem scopeInside_eq {C : Type} (k : NodeKind C) (scope : List String) :
    k.scopeInside scope = scope ++ k.scopeName?.toList := by
  cases k <;> simp [scopeInside, symbolName?, opensScope, scopeName?]

end NodeKind

section Around

variable {H : Type}

/-- The nodes around a node, from a root in. -/
inductive Around (kids : H → List H) (roots : List H) : List H → H → Prop where
  | root {r : H} (hr : r ∈ roots) : Around kids roots [] r
  | child {above : List H} {h c : H} (habove : Around kids roots above h) (hc : c ∈ kids h) :
      Around kids roots (above ++ [h]) c

theorem exists_around {kids : H → List H} {size : H → Nat} {P : H → Prop} (hs : Sized kids size P) {roots : List H}
    (hroots : ∀ h ∈ roots, P h) {h : H} (hmem : h ∈ roots.flatMap (subtree kids size)) :
    ∃ above, Around kids roots above h := by
  obtain ⟨r, hr, hmem⟩ := List.mem_flatMap.mp hmem
  apply hs.subtree_forall (Q := fun h => ∃ above, Around kids roots above h) (hroots r hr) ⟨[], .root hr⟩ _ h hmem
  intro x hx c hc
  obtain ⟨above, habove⟩ := hx
  exact ⟨above ++ [x], .child habove hc⟩

variable {kind : H → NodeKind H} {size : H → Nat} {P : H → Prop} (hs : Sized (fun h => (kind h).children) size P)
  {roots : List H} (hroots : ∀ h ∈ roots, P h)
include hs hroots

/-- A node stands in the scope that the modules and functions around it make. -/
theorem Around.mem_scopedNodes {above : List H} {h : H} (habove : Around (fun h => (kind h).children) roots above h) :
    (above.filterMap fun a => (kind a).scopeName?, h) ∈ scopedNodes kind size roots := by
  induction habove with
  | root hr => exact root_mem_scopedNodes hs hroots hr
  | @child above h c _ hc ih =>
      have hchild := child_mem_scopedNodes hs hroots ih hc
      rw [NodeKind.scopeInside_eq] at hchild
      rw [List.filterMap_append]
      exact hchild

/-- A node has one scope where none stands in two places. -/
theorem Around.scope_eq {above : List H} {h : H} (habove : Around (fun h => (kind h).children) roots above h)
    (hnodup : (roots.flatMap (subtree (fun h => (kind h).children) size)).Nodup) {scope : List String}
    (hmem : (scope, h) ∈ scopedNodes kind size roots) : scope = above.filterMap fun a => (kind a).scopeName? := by
  rw [← map_snd_scopedNodes hs hroots] at hnodup
  exact congrArg Prod.fst (List.inj_on_of_nodup_map hnodup hmem (habove.mem_scopedNodes hs hroots) rfl)

end Around

namespace TreeView

variable {H : Type}

/-- Each symbol has the occurrence that those met before it leave to it. -/
def Counted (met : List (H × SymbolKey)) : Prop :=
  ∀ before e after, met = before ++ e :: after → e.2 = nextKey before e.2.scope e.2.name

namespace Counted

variable {met : List (H × SymbolKey)}

theorem concat (h : Counted met) (x : H) (scope : List String) (name : String) :
    Counted (met ++ [(x, nextKey met scope name)]) := by
  intro before e after heq
  cases List.eq_nil_or_concat after with
  | inl hlast =>
      subst hlast
      obtain ⟨rfl, hlast⟩ := List.append_inj' heq rfl
      rw [← List.singleton_inj.mp hlast]
      rfl
  | inr hmore =>
      obtain ⟨inner, last, rfl⟩ := hmore
      have hinner : met ++ [(x, nextKey met scope name)] = (before ++ e :: inner) ++ [last] := by simp [heq]
      exact h before e inner (List.append_inj' hinner rfl).1

theorem enters (kind : H → NodeKind H) (l : List (List String × H)) (h : Counted met) :
    Counted (l.foldl (enter kind) met) := by
  induction l generalizing met with
  | nil => exact h
  | cons e rest ih =>
      apply ih
      cases enter_eq kind met e with
      | inl heq =>
          rw [heq]
          exact h
      | inr hadded =>
          obtain ⟨name, -, heq⟩ := hadded
          rw [heq]
          exact h.concat e.2 e.1 name

/-- Of two symbols with the same scope and name the later has counted the earlier. -/
theorem nodup (h : Counted met) : (met.map Prod.snd).Nodup := by
  induction met using List.reverseRecOn with
  | nil => exact List.nodup_nil
  | append_singleton met e ih =>
      have hbefore : Counted met := by
        intro before x after heq
        exact h before x (after ++ [e]) (by simp [heq])
      rw [List.map_append, List.map_singleton, ← List.concat_eq_append, List.nodup_concat]
      refine ⟨?_, ih hbefore⟩
      intro hmem
      obtain ⟨x, hx, hsame⟩ := List.mem_map.mp hmem
      obtain ⟨before, after, rfl⟩ := List.append_of_mem hx
      have hfirst := congrArg SymbolKey.occurrence (hbefore before x after rfl)
      have hlast := congrArg SymbolKey.occurrence (h (before ++ x :: after) e [] rfl)
      rw [hsame] at hfirst
      simp only [nextKey, List.countP_append, List.countP_cons, hsame, beq_self_eq_true, Bool.and_self, ite_true] at hfirst hlast
      omega

end Counted

/-- What stands before an item of a part of a list stands before it in the list, and nothing else of the part does. -/
theorem before_of_sublist {α : Type} {front rest before after : List α} {x : α}
    (hsub : (front ++ x :: rest).Sublist (before ++ x :: after)) (hnodup : (before ++ x :: after).Nodup) :
    (∀ y ∈ front, y ∈ before) ∧ ∀ y ∈ x :: rest, y ∉ before := by
  obtain ⟨-, hafter, hapart⟩ := List.nodup_append.mp hnodup
  have hbefore : x ∉ before := fun hmem => hapart x hmem x List.mem_cons_self rfl
  have hrest : rest.Sublist after :=
    sublist_of_cons_sublist hbefore ((List.sublist_append_right front (x :: rest)).trans hsub)
  have hturned : (x :: front.reverse).Sublist (after.reverse ++ x :: before.reverse) := by
    have hreverse := (List.sublist_append_right rest.reverse (x :: front.reverse)).trans (by simpa using hsub.reverse)
    simpa using hreverse
  have hfront := sublist_of_cons_sublist (by simpa using (List.nodup_cons.mp hafter).1) hturned
  constructor
  · intro y hy
    exact List.mem_reverse.mp (hfront.subset (List.mem_reverse.mpr hy))
  · intro y hy hmem
    cases List.mem_cons.mp hy with
    | inl heq => exact hbefore (heq ▸ hmem)
    | inr hin => exact hapart y hmem y (List.mem_cons_of_mem x (hrest.subset hin)) rfl

/-- The keys of the symbols of some trees, whose nodes are `nodes` in preorder. -/
structure Keyed [DecidableEq H] (kind : H → NodeKind H) (roots nodes : List H) (keys : List (H × SymbolKey)) : Prop where
  mem_iff : ∀ h, h ∈ keys.map Prod.fst ↔
    (∃ above, Around (fun h => (kind h).children) roots above h) ∧ (kind h).tag.isSymbol = true
  handles_nodup : (keys.map Prod.fst).Nodup
  keys_nodup : (keys.map Prod.snd).Nodup
  name_eq : ∀ h key, (h, key) ∈ keys → (kind h).symbolName? = some key.name
  scope_eq : ∀ h key above, (h, key) ∈ keys → Around (fun h => (kind h).children) roots above h →
    key.scope = above.filterMap fun a => (kind a).scopeName?
  occurrence_eq : ∀ h key before after, (h, key) ∈ keys → nodes = before ++ h :: after →
    key.occurrence = keys.countP fun e => e.1 ∈ before ∧ e.2.scope = key.scope ∧ e.2.name = key.name

theorem Counted.occurrence_eq [DecidableEq H] {nodes : List H} {keys : List (H × SymbolKey)} (hcounted : Counted keys)
    (hsub : (keys.map Prod.fst).Sublist nodes) (hnodup : nodes.Nodup) {h : H} {key : SymbolKey} {before after : List H}
    (hmem : (h, key) ∈ keys) (hnodes : nodes = before ++ h :: after) :
    key.occurrence = keys.countP fun e => e.1 ∈ before ∧ e.2.scope = key.scope ∧ e.2.name = key.name := by
  obtain ⟨front, rest, rfl⟩ := List.append_of_mem hmem
  rw [List.map_append, List.map_cons, hnodes] at hsub
  obtain ⟨hfront, hrest⟩ := before_of_sublist hsub (hnodes ▸ hnodup)
  have hlater : ((h, key) :: rest).countP
      (fun e => e.1 ∈ before ∧ e.2.scope = key.scope ∧ e.2.name = key.name) = 0 := by
    rw [List.countP_eq_zero]
    intro e he
    simp [hrest e.1 (List.mem_map_of_mem he)]
  rw [List.countP_append, hlater, congrArg SymbolKey.occurrence (hcounted front (h, key) rest rfl)]
  apply List.countP_congr
  intro e he
  simp [hfront e.1 (List.mem_map_of_mem he)]

section Keys

variable {m : Type → Type} [Monad m] [LawfulMonad m] {t : TreeView m H} {kind : H → NodeKind H} {size : H → Nat}
  {P : H → Prop}

/-- Of trees that share no node, and have none in two places, the symbols are found with their keys, and nothing is
refused on the way. -/
theorem symbolKeys_keyed [DecidableEq H] (hs : Sized (fun h => (kind h).children) size P)
    (hkind : ∀ h, P h → t.kind h = pure (kind h)) (hsize : ∀ h, P h → t.size h = pure (size h)) {roots : List H}
    (hroots : ∀ h ∈ roots, P h) (hnodup : ∀ r ∈ roots, (subtree (fun h => (kind h).children) size r).Nodup)
    (hdisjoint : roots.Pairwise fun r r' =>
      (subtree (fun h => (kind h).children) size r).Disjoint (subtree (fun h => (kind h).children) size r')) :
    (∀ r ∈ roots, t.preorder r = pure (subtree (fun h => (kind h).children) size r)) ∧
      ∃ keys, t.symbolKeys roots = pure keys ∧
        Keyed kind roots (roots.flatMap (subtree (fun h => (kind h).children) size)) keys := by
  have hnodes : (roots.flatMap (subtree (fun h => (kind h).children) size)).Nodup :=
    List.nodup_flatMap.mpr ⟨hnodup, hdisjoint⟩
  refine ⟨fun r hr => preorder_eq hs hkind (hroots r hr) (hsize r (hroots r hr)), _,
    symbolKeys_eq hs hkind hsize hroots hnodes, ?_⟩
  have hcounted : Counted ((scopedNodes kind size roots).foldl (enter kind) []) :=
    Counted.enters kind _ fun before e after heq => by simp at heq
  have hfound {h : H} {key : SymbolKey} (hmem : (h, key) ∈ (scopedNodes kind size roots).foldl (enter kind) []) :=
    (of_mem_enters hmem).resolve_left List.not_mem_nil
  constructor
  case handles_nodup => exact nodup_enters hs hroots hnodes
  case keys_nodup => exact hcounted.nodup
  case name_eq =>
    intro h key hmem
    exact (hfound hmem).2
  case scope_eq =>
    intro h key above hmem habove
    exact habove.scope_eq hs hroots hnodes (hfound hmem).1
  case occurrence_eq =>
    intro h key before after hmem heq
    exact hcounted.occurrence_eq (enters_sublist hs hroots) hnodes hmem heq
  case mem_iff =>
    intro h
    rw [NodeKind.isSymbol_tag, Option.isSome_iff_exists]
    constructor
    · intro hmem
      obtain ⟨⟨_, key⟩, hentry, rfl⟩ := List.mem_map.mp hmem
      obtain ⟨hscoped, hname⟩ := hfound hentry
      have hnode := List.mem_map_of_mem (f := Prod.snd) hscoped
      rw [map_snd_scopedNodes hs hroots] at hnode
      exact ⟨exists_around hs hroots hnode, key.name, hname⟩
    · intro hsymbol
      obtain ⟨⟨above, habove⟩, name, hname⟩ := hsymbol
      obtain ⟨occurrence, hmem⟩ := mem_enters_of_mem (habove.mem_scopedNodes hs hroots) hname []
      exact List.mem_map_of_mem hmem

/-- Two modules of one name; what the first declares has the name of what it is in. -/
def repeatedNames : Nat → NodeKind Nat
  | 0 => .moduleDecl .plain 1
  | 1 => .module_ "M" [2, 4]
  | 2 => .variableDecl .plain 3
  | 3 => .variable_ "a" .var none
  | 4 => .functionDecl .plain 5
  | 5 => .function "a" [6] 7
  | 6 => .formal "a" .plain
  | 7 => .block [8]
  | 8 => .block [9]
  | 9 => .variableDecl .plain 10
  | 10 => .variable_ "a" .const none
  | 11 => .moduleDecl .pub 12
  | 12 => .module_ "M" [13]
  | 13 => .variableDecl .plain 14
  | 14 => .variable_ "a" .param none
  | _ => .erroneous

def repeatedSizes (n : Nat) : Nat := [11, 10, 2, 1, 7, 6, 1, 4, 3, 2, 1, 4, 3, 2, 1].getD n 1

theorem symbolKeys_keyed_repeated :
    let t : TreeView Id Nat := ⟨repeatedNames, repeatedSizes⟩
    let nodes := subtree (fun n => (repeatedNames n).children) repeatedSizes
    (nodes 0).Nodup ∧ (nodes 11).Nodup ∧ (nodes 0).Disjoint (nodes 11) ∧
      ∃ keys, t.symbolKeys [0, 11] = keys ∧ Keyed repeatedNames [0, 11] (nodes 0 ++ nodes 11) keys ∧
        keys.map (fun e => (e.1, e.2.display)) =
          [(1, "M#0"), (3, "M.a#0"), (5, "M.a#1"), (6, "M.a.a#0"), (10, "M.a.a#1"), (12, "M#1"), (14, "M.a#2")] := by
  intro t nodes
  have hsized : Sized (fun n => (repeatedNames n).children) repeatedSizes (· < 15) := ⟨by decide, by decide⟩
  have hfirst : (nodes 0).Nodup := by decide
  have hsecond : (nodes 11).Nodup := by decide
  have hapart : (nodes 0).Disjoint (nodes 11) := List.disjoint_left.mpr (by decide)
  obtain ⟨-, keys, hkeys, hkeyed⟩ := symbolKeys_keyed (t := t) hsized (fun _ _ => rfl) (fun _ _ => rfl)
    (show ∀ r ∈ [0, 11], r < 15 by decide) (by simpa using ⟨hfirst, hsecond⟩) (by simpa using hapart)
  refine ⟨hfirst, hsecond, hapart, keys, hkeys, by simpa using hkeyed, ?_⟩
  rw [← show t.symbolKeys [0, 11] = keys from hkeys]
  decide

end Keys
end TreeView
end Palimpsest
