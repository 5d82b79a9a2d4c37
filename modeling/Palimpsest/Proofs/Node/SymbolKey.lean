import Mathlib.Data.List.Infix
import Mathlib.Data.List.Nodup
import Palimpsest.Node.SymbolKey
import Palimpsest.Proofs.Node.Walk

/-!
Symbols and the scopes they stand in. Symbols get their keys along a walk of the nodes with their scopes.
Where no two symbols have the same scope and name, a key is a scope and a name.
-/

namespace Palimpsest

namespace NodeKind

/-- The scope of what is below a node in a scope. -/
def scopeInside {C : Type} (k : NodeKind C) (scope : List String) : List String :=
  match k.symbolName? with
  | some name => if k.opensScope then scope ++ [name] else scope
  | none => scope

theorem scopeInside_of_opens {C : Type} {k : NodeKind C} {name : String} (hname : k.symbolName? = some name)
    (hopens : k.opensScope = true) (scope : List String) : k.scopeInside scope = scope ++ [name] := by
  simp [scopeInside, hname, hopens]

theorem scopeInside_of_not_opens {C : Type} {k : NodeKind C} (hopens : k.opensScope = false) (scope : List String) :
    k.scopeInside scope = scope := by
  rw [scopeInside]
  split <;> simp [hopens]

@[simp] theorem scopeInside_map {C D : Type} (f : C → D) (k : NodeKind C) (scope : List String) :
    (k.map f).scopeInside scope = k.scopeInside scope := by
  cases k <;> rfl

theorem prefix_scopeInside {C : Type} (k : NodeKind C) (scope : List String) : scope <+: k.scopeInside scope := by
  rw [scopeInside]
  split
  · split
    · exact List.prefix_append scope _
    · exact List.prefix_rfl
  · exact List.prefix_rfl

theorem symbolName?_of_opens {C : Type} {k : NodeKind C} (hopens : k.opensScope = true) :
    ∃ name, k.symbolName? = some name := by
  cases k with
  | module_ name _ | function name _ _ => exact ⟨name, rfl⟩
  | _ => simp [opensScope] at hopens

theorem opensScope_of_tag {C D : Type} {k : NodeKind C} {k' : NodeKind D} (h : k.tag = k'.tag) :
    k.opensScope = k'.opensScope := by
  cases k <;> cases k' <;> first | rfl | simp [tag] at h

end NodeKind

section Scoped

variable {H : Type} (kind : H → NodeKind H)

/-- Children with their scopes. -/
def scopedKids (e : List String × H) : List (List String × H) :=
  (kind e.2).children.map ((kind e.2).scopeInside e.1, ·)

/-- A node with its scope, and all below it with theirs. -/
def scopedSubtree (size : H → Nat) (e : List String × H) : List (List String × H) :=
  subtree (scopedKids kind) (fun e => size e.2) e

/-- The nodes of trees with their scopes. -/
def scopedNodes (size : H → Nat) (roots : List H) : List (List String × H) :=
  (roots.map ([], ·)).flatMap (scopedSubtree kind size)

variable {kind} {size : H → Nat} {P : H → Prop}

theorem map_snd_scopedKids (e : List String × H) : (scopedKids kind e).map Prod.snd = (kind e.2).children := by
  rw [scopedKids, List.map_map]
  exact List.map_id _

theorem Sized.scoped (hs : Sized (fun h => (kind h).children) size P) :
    Sized (scopedKids kind) (fun e => size e.2) fun e => P e.2 := hs.comap map_snd_scopedKids

variable (hs : Sized (fun h => (kind h).children) size P)
include hs

theorem scopedSubtree_eq {e : List String × H} (he : P e.2) :
    scopedSubtree kind size e = e :: (scopedKids kind e).flatMap (scopedSubtree kind size) :=
  hs.scoped.subtree_eq (h := e) he

theorem prefix_of_mem_scopedSubtree {e x : List String × H} (he : P e.2) (hx : x ∈ scopedSubtree kind size e) :
    e.1 <+: x.1 := by
  refine hs.scoped.subtree_forall (Q := fun x => e.1 <+: x.1) he List.prefix_rfl ?_ x hx
  intro x hx y hy
  obtain ⟨c, -, rfl⟩ := List.mem_map.mp hy
  exact hx.trans (NodeKind.prefix_scopeInside _ _)

theorem map_snd_scopedSubtree {e : List String × H} (he : P e.2) :
    (scopedSubtree kind size e).map Prod.snd = subtree (fun h => (kind h).children) size e.2 :=
  hs.map_subtree_comap map_snd_scopedKids he

theorem map_snd_scopedNodes {roots : List H} (hroots : ∀ h ∈ roots, P h) :
    (scopedNodes kind size roots).map Prod.snd = roots.flatMap (subtree (fun h => (kind h).children) size) := by
  rw [scopedNodes, List.map_flatMap, List.flatMap_map]
  exact List.flatMap_congr fun h hh => map_snd_scopedSubtree (e := ([], h)) hs (hroots h hh)

theorem root_mem_scopedNodes {roots : List H} (hroots : ∀ h ∈ roots, P h) {h : H} (hh : h ∈ roots) :
    ([], h) ∈ scopedNodes kind size roots :=
  List.mem_flatMap.mpr ⟨([], h), List.mem_map_of_mem hh, hs.scoped.mem_subtree_self (hroots h hh)⟩

theorem of_mem_scopedNodes {roots : List H} (hroots : ∀ h ∈ roots, P h) {e : List String × H}
    (he : e ∈ scopedNodes kind size roots) : P e.2 := by
  obtain ⟨r, hr, he⟩ := List.mem_flatMap.mp he
  obtain ⟨h, hh, rfl⟩ := List.mem_map.mp hr
  exact hs.scoped.subtree_forall (h := ([], h)) (hroots h hh) (hroots h hh) hs.scoped.closed e he

theorem mem_scopedNodes_of_mem {roots : List H} (hroots : ∀ h ∈ roots, P h) {e x : List String × H}
    (he : e ∈ scopedNodes kind size roots) (hx : x ∈ scopedSubtree kind size e) :
    x ∈ scopedNodes kind size roots := by
  obtain ⟨r, hr, he⟩ := List.mem_flatMap.mp he
  obtain ⟨h, hh, rfl⟩ := List.mem_map.mp hr
  have hsub := hs.scoped.subtree_sublist (h := ([], h)) (hroots h hh) he
  exact List.mem_flatMap.mpr ⟨([], h), hr, hsub.subset hx⟩

theorem child_mem_scopedNodes {roots : List H} (hroots : ∀ h ∈ roots, P h) {scope : List String} {h c : H}
    (hh : (scope, h) ∈ scopedNodes kind size roots) (hc : c ∈ (kind h).children) :
    ((kind h).scopeInside scope, c) ∈ scopedNodes kind size roots := by
  have hph : P h := of_mem_scopedNodes hs hroots hh
  refine mem_scopedNodes_of_mem hs hroots hh ((hs.scoped.mem_subtree hph).mpr (.inr ?_))
  exact ⟨_, List.mem_map_of_mem hc, hs.scoped.mem_subtree_self (hs.closed h hph c hc)⟩

/-- A scope that a tree has and its root has not is opened by a symbol in the tree. -/
theorem exists_opener_in {e x : List String × H} (he : P e.2) (hx : x ∈ scopedSubtree kind size e)
    {scope : List String} {name : String} (hscope : scope ++ [name] <+: x.1) :
    scope ++ [name] <+: e.1 ∨ ∃ h, (scope, h) ∈ scopedSubtree kind size e ∧
      (kind h).symbolName? = some name ∧ (kind h).opensScope = true := by
  revert hx
  refine hs.scoped.induction (motive := fun e => x ∈ scopedSubtree kind size e → scope ++ [name] <+: e.1 ∨
    ∃ h, (scope, h) ∈ scopedSubtree kind size e ∧
      (kind h).symbolName? = some name ∧ (kind h).opensScope = true) ?_ e he
  intro e he ih hx
  cases (hs.scoped.mem_subtree he).mp hx with
  | inl heq => exact .inl (heq ▸ hscope)
  | inr hbelow =>
      obtain ⟨c, hc, hx⟩ := hbelow
      cases ih c hc hx with
      | inr hopener =>
          obtain ⟨h, hh, hopens⟩ := hopener
          exact .inr ⟨h, (hs.scoped.mem_subtree he).mpr (.inr ⟨c, hc, hh⟩), hopens⟩
      | inl hinside =>
          obtain ⟨d, -, rfl⟩ := List.mem_map.mp hc
          cases hopens : (kind e.2).opensScope with
          | false => exact .inl (NodeKind.scopeInside_of_not_opens hopens e.1 ▸ hinside)
          | true =>
              obtain ⟨own, hown⟩ := NodeKind.symbolName?_of_opens hopens
              rw [NodeKind.scopeInside_of_opens hown hopens, List.prefix_concat_iff] at hinside
              cases hinside with
              | inr hbefore => exact .inl hbefore
              | inl heq =>
                  obtain ⟨rfl, hname⟩ := List.append_inj' heq rfl
                  obtain rfl := List.singleton_inj.mp hname
                  exact .inr ⟨e.2, hs.scoped.mem_subtree_self he, hown, hopens⟩

theorem exists_opener {roots : List H} (hroots : ∀ h ∈ roots, P h) {x : List String × H}
    (hx : x ∈ scopedNodes kind size roots) {scope : List String} {name : String} (hscope : scope ++ [name] <+: x.1) :
    ∃ h, (scope, h) ∈ scopedNodes kind size roots ∧
      (kind h).symbolName? = some name ∧ (kind h).opensScope = true := by
  obtain ⟨r, hr, hx⟩ := List.mem_flatMap.mp hx
  obtain ⟨root, hroot, rfl⟩ := List.mem_map.mp hr
  cases exists_opener_in hs (hroots root hroot) hx hscope with
  | inl houter => simp at houter
  | inr hopener =>
      obtain ⟨h, hh, hopens⟩ := hopener
      exact ⟨h, List.mem_flatMap.mpr ⟨([], root), hr, hh⟩, hopens⟩

end Scoped

/-- Nothing but the root and the module stands outside the scope of the module. -/
theorem ModuleAt.mem_scopedNodes {H : Type} {kind : H → NodeKind H} {size : H → Nat} {P : H → Prop} {root symbol : H}
    {name : String} {stmts : List H} (h : ModuleAt kind root symbol name stmts)
    (hs : Sized (fun h => (kind h).children) size P) (hroot : P root) {scope : List String} {x : H}
    (hx : (scope, x) ∈ scopedNodes kind size [root]) : scope = [] ∧ (x = root ∨ x = symbol) ∨
      scope ≠ [] ∧ ∃ stmt ∈ stmts, x ∈ subtree (fun h => (kind h).children) size stmt := by
  obtain ⟨visibility, hkind⟩ := h.root_eq
  have hsymbol : P symbol := hs.closed root hroot symbol (by simp [h.children_root])
  have hkids : scopedKids kind ([], root) = [([], symbol)] := by
    simp [scopedKids, hkind, NodeKind.children, NodeKind.scopeInside, NodeKind.symbolName?]
  have hinside : scopedKids kind ([], symbol) = stmts.map ([name], ·) := by
    simp [scopedKids, h.symbol_eq, NodeKind.children, NodeKind.scopeInside, NodeKind.symbolName?,
      NodeKind.opensScope]
  have hnodes : scopedNodes kind size [root] =
      ([], root) :: ([], symbol) :: (stmts.map ([name], ·)).flatMap (scopedSubtree kind size) := by
    simp [scopedNodes, scopedSubtree_eq hs (e := ([], root)) hroot, hkids,
      scopedSubtree_eq hs (e := ([], symbol)) hsymbol, hinside]
  rw [hnodes, List.mem_cons, List.mem_cons, Prod.mk.injEq, Prod.mk.injEq] at hx
  cases hx with
  | inl hhere => exact .inl ⟨hhere.1, .inl hhere.2⟩
  | inr hbelow =>
      cases hbelow with
      | inl hhere => exact .inl ⟨hhere.1, .inr hhere.2⟩
      | inr hstmts =>
          obtain ⟨e, he, hx⟩ := List.mem_flatMap.mp hstmts
          obtain ⟨stmt, hstmt, rfl⟩ := List.mem_map.mp he
          have hpstmt : P stmt := hs.closed symbol hsymbol stmt (h.children_symbol ▸ hstmt)
          have hprefix := prefix_of_mem_scopedSubtree (e := ([name], stmt)) hs hpstmt hx
          refine .inr ⟨?_, stmt, hstmt, ?_⟩
          · rintro rfl
            simp at hprefix
          · rw [← map_snd_scopedSubtree (e := ([name], stmt)) hs hpstmt]
            exact List.mem_map_of_mem hx

namespace TreeView

section Keys

variable {H : Type} (kind : H → NodeKind H)

/-- The symbols met after one more node. -/
def enter (met : List (H × SymbolKey)) (e : List String × H) : List (H × SymbolKey) :=
  match (kind e.2).symbolName? with
  | some name => met ++ [(e.2, nextKey met e.1 name)]
  | none => met

theorem enter_eq (met : List (H × SymbolKey)) (e : List String × H) :
    enter kind met e = met ∨ ∃ name, (kind e.2).symbolName? = some name ∧
      enter kind met e = met ++ [(e.2, nextKey met e.1 name)] := by
  rw [enter]
  split
  · rename_i name hname
    exact .inr ⟨name, hname, rfl⟩
  · exact .inl rfl

theorem prefix_enters (l : List (List String × H)) (met : List (H × SymbolKey)) : met <+: l.foldl (enter kind) met := by
  induction l generalizing met with
  | nil => exact List.prefix_rfl
  | cons e rest ih =>
      refine List.IsPrefix.trans ?_ (ih (enter kind met e))
      cases enter_eq kind met e with
      | inl heq => rw [heq]
      | inr hadded =>
          obtain ⟨name, -, heq⟩ := hadded
          exact heq ▸ List.prefix_append met _

variable {kind}

theorem sublist_enters (l : List (List String × H)) (met : List (H × SymbolKey)) :
    ((l.foldl (enter kind) met).map Prod.fst).Sublist (met.map Prod.fst ++ l.map Prod.snd) := by
  induction l generalizing met with
  | nil => simp
  | cons e rest ih =>
      refine (ih (enter kind met e)).trans ?_
      cases enter_eq kind met e with
      | inl heq =>
          rw [heq]
          exact (List.Sublist.refl _).append (List.sublist_cons_self _ _)
      | inr hadded =>
          obtain ⟨name, -, heq⟩ := hadded
          simp [heq]

/-- Symbols are met in their scopes, under their names. -/
theorem of_mem_enters {l : List (List String × H)} {met : List (H × SymbolKey)} {e : H × SymbolKey}
    (h : e ∈ l.foldl (enter kind) met) :
    e ∈ met ∨ (e.2.scope, e.1) ∈ l ∧ (kind e.1).symbolName? = some e.2.name := by
  induction l generalizing met with
  | nil => exact .inl h
  | cons x rest ih =>
      cases ih h with
      | inr hrest => exact .inr ⟨List.mem_cons_of_mem x hrest.1, hrest.2⟩
      | inl hmet =>
          cases enter_eq kind met x with
          | inl heq => exact .inl (heq ▸ hmet)
          | inr hadded =>
              obtain ⟨name, hname, heq⟩ := hadded
              rw [heq] at hmet
              cases List.mem_append.mp hmet with
              | inl hold => exact .inl hold
              | inr hnew =>
                  obtain rfl := List.mem_singleton.mp hnew
                  exact .inr ⟨List.mem_cons_self, hname⟩

theorem mem_enters_of_mem {l : List (List String × H)} {scope : List String} {h : H} {name : String}
    (hmem : (scope, h) ∈ l) (hname : (kind h).symbolName? = some name) (met : List (H × SymbolKey)) :
    ∃ occurrence, (h, ⟨scope, name, occurrence⟩) ∈ l.foldl (enter kind) met := by
  induction l generalizing met with
  | nil => exact absurd hmem List.not_mem_nil
  | cons e rest ih =>
      cases List.mem_cons.mp hmem with
      | inr hrest => exact ih hrest (enter kind met e)
      | inl heq =>
          subst heq
          have hentered : enter kind met (scope, h) = met ++ [(h, nextKey met scope name)] := by rw [enter, hname]
          exact ⟨_, (prefix_enters kind rest _).subset (hentered ▸ List.mem_append_right met List.mem_cons_self)⟩

/-- No two symbols have the same scope and name. -/
def Distinct (keys : List (H × SymbolKey)) : Prop := (keys.map fun e => (e.2.scope, e.2.name)).Nodup

instance (keys : List (H × SymbolKey)) : Decidable (Distinct keys) := inferInstanceAs (Decidable (List.Nodup _))

theorem occurrence_of_mem_enters {l : List (List String × H)} {met : List (H × SymbolKey)}
    (hdistinct : Distinct (l.foldl (enter kind) met)) {e : H × SymbolKey} (he : e ∈ l.foldl (enter kind) met) :
    e ∈ met ∨ e.2.occurrence = 0 := by
  induction l generalizing met with
  | nil => exact .inl he
  | cons x rest ih =>
      cases ih hdistinct he with
      | inr hzero => exact .inr hzero
      | inl hentered =>
          cases enter_eq kind met x with
          | inl heq => exact .inl (heq ▸ hentered)
          | inr hadded =>
              obtain ⟨name, -, heq⟩ := hadded
              rw [heq] at hentered
              cases List.mem_append.mp hentered with
              | inl hmet => exact .inl hmet
              | inr hlast =>
                  obtain rfl := List.mem_singleton.mp hlast
                  refine .inr (List.countP_eq_zero.mpr fun y hy hsame => ?_)
                  -- A symbol before it with its scope and name would be listed beside it.
                  have hprefix := (prefix_enters kind rest (enter kind met x)).map fun e => (e.2.scope, e.2.name)
                  have hnodup := List.Nodup.sublist hprefix.sublist hdistinct
                  rw [heq, List.map_append, List.map_singleton, List.nodup_append] at hnodup
                  refine hnodup.2.2 (y.2.scope, y.2.name) (List.mem_map_of_mem hy) _ List.mem_cons_self ?_
                  simpa [nextKey] using hsame

theorem mem_of_mem_lastEntries [DecidableEq H] {entries : List (H × SymbolKey)} {e : H × SymbolKey}
    (h : e ∈ lastEntries entries) : e ∈ entries := by
  induction entries with
  | nil => exact h
  | cons x rest ih =>
      rw [lastEntries] at h
      split at h
      · exact List.mem_cons_of_mem x (ih h)
      · cases List.mem_cons.mp h with
        | inl heq => rw [heq]; exact List.mem_cons_self
        | inr hin => exact List.mem_cons_of_mem x (ih hin)

theorem lastEntries_eq_self [DecidableEq H] {entries : List (H × SymbolKey)} (h : (entries.map Prod.fst).Nodup) :
    lastEntries entries = entries := by
  induction entries with
  | nil => rfl
  | cons e rest ih =>
      obtain ⟨hnot, hrest⟩ := List.nodup_cons.mp h
      have hlast : rest.any (·.1 == e.1) = false := by
        rw [List.any_eq_false]
        intro x hx heq
        exact hnot (List.mem_map.mpr ⟨x, hx, by simpa using heq⟩)
      rw [lastEntries, hlast, ih hrest]
      rfl

/-- The symbols among the nodes with their keys, which are their scopes and names. -/
structure Named (kind : H → NodeKind H) (nodes : List (List String × H)) (keys : List (H × SymbolKey)) : Prop where
  mem_iff : ∀ h key, (h, key) ∈ keys ↔ (key.scope, h) ∈ nodes ∧ (kind h).symbolName? = some key.name ∧ key.occurrence = 0
  nodup : (keys.map Prod.fst).Nodup
  distinct : Distinct keys

namespace Named

variable {nodes : List (List String × H)} {keys : List (H × SymbolKey)}

theorem mem (hn : Named kind nodes keys) {scope : List String} {h : H} {name : String} (hmem : (scope, h) ∈ nodes)
    (hname : (kind h).symbolName? = some name) : (h, ⟨scope, name, 0⟩) ∈ keys :=
  (hn.mem_iff h ⟨scope, name, 0⟩).mpr ⟨hmem, hname, rfl⟩

theorem eq_of_key (hn : Named kind nodes keys) {h h' : H} {key : SymbolKey} (hmem : (h, key) ∈ keys)
    (hmem' : (h', key) ∈ keys) : h = h' :=
  congrArg Prod.fst (List.inj_on_of_nodup_map hn.distinct hmem hmem' rfl)

theorem eq_of_name (hn : Named kind nodes keys) {scope : List String} {h h' : H} {name : String}
    (hmem : (scope, h) ∈ nodes) (hname : (kind h).symbolName? = some name) (hmem' : (scope, h') ∈ nodes)
    (hname' : (kind h').symbolName? = some name) : h = h' :=
  hn.eq_of_key (hn.mem hmem hname) (hn.mem hmem' hname')

end Named

variable {m : Type → Type} [Monad m] [LawfulMonad m] {t : TreeView m H} {size : H → Nat} {P : H → Prop}
  (hs : Sized (fun h => (kind h).children) size P) (hkind : ∀ h, P h → t.kind h = pure (kind h))
include hs

/-- Symbols are met in the order of the nodes. -/
theorem enters_sublist {roots : List H} (hroots : ∀ h ∈ roots, P h) :
    (((scopedNodes kind size roots).foldl (enter kind) []).map Prod.fst).Sublist
      (roots.flatMap (subtree (fun h => (kind h).children) size)) := by
  rw [← map_snd_scopedNodes hs hroots]
  exact sublist_enters _ []

/-- In trees that share no node, every symbol is met once. -/
theorem nodup_enters {roots : List H} (hroots : ∀ h ∈ roots, P h)
    (hnodup : (roots.flatMap (subtree (fun h => (kind h).children) size)).Nodup) :
    (((scopedNodes kind size roots).foldl (enter kind) []).map Prod.fst).Nodup :=
  hnodup.sublist (enters_sublist hs hroots)

include hkind

theorem symbolLoop_eq (n : Nat) (stack : List (List String × H)) (hp : ∀ e ∈ stack, P e.2)
    (hn : (stack.map fun e => size e.2).sum ≤ n) :
    ∀ met, t.symbolLoop n stack met = pure ((stack.flatMap (scopedSubtree kind size)).foldl (enter kind) met) := by
  refine hs.scoped.stack_induction (motive := fun n stack => ∀ met,
    t.symbolLoop n stack met = pure ((stack.flatMap (scopedSubtree kind size)).foldl (enter kind) met))
    ?_ ?_ n stack hp hn
  · intro n met
    cases n with
    | zero | succ _ => rfl
  · intro n e rest hpe ih met
    have hstep : t.symbolLoop (n + 1) (e :: rest) met =
        t.symbolLoop n (scopedKids kind e ++ rest) (enter kind met e) := by
      rw [symbolLoop, hkind e.2 hpe, pure_bind]
      rfl
    rw [hstep, ih, List.flatMap_append, List.flatMap_cons, scopedSubtree_eq hs hpe]
    rfl

/-- Walking trees for symbols is never refused. -/
theorem symbolKeys_enters [DecidableEq H] (hsize : ∀ h, P h → t.size h = pure (size h)) {roots : List H}
    (hroots : ∀ h ∈ roots, P h) :
    t.symbolKeys roots = pure (lastEntries ((scopedNodes kind size roots).foldl (enter kind) [])) := by
  have hsizes : roots.mapM t.size = pure (roots.map size) :=
    NodeKind.mapM_eq_pure fun h hh => hsize h (hroots h hh)
  have hstack : ∀ e ∈ roots.map (([] : List String), ·), P e.2 := by
    intro e he
    obtain ⟨h, hh, rfl⟩ := List.mem_map.mp he
    exact hroots h hh
  have hsum : ((roots.map (([] : List String), ·)).map fun e => size e.2).sum ≤ (roots.map size).foldr (· + ·) 0 := by
    rw [List.map_map]
    exact Nat.le_refl _
  rw [symbolKeys, symbolVisits, hsizes, pure_bind, symbolLoop_eq hs hkind _ _ hstack hsum, pure_bind]
  rfl

/-- Only symbols get keys, with their scopes and names. -/
theorem symbolKeys_found [DecidableEq H] (hsize : ∀ h, P h → t.size h = pure (size h)) {roots : List H}
    (hroots : ∀ h ∈ roots, P h) : ∃ keys, t.symbolKeys roots = pure keys ∧
      ∀ e ∈ keys, (e.2.scope, e.1) ∈ scopedNodes kind size roots ∧ (kind e.1).symbolName? = some e.2.name :=
  ⟨_, symbolKeys_enters hs hkind hsize hroots, fun _ he =>
    (of_mem_enters (mem_of_mem_lastEntries he)).resolve_left List.not_mem_nil⟩

/-- Of trees that share no node, all that is met is kept. -/
theorem symbolKeys_eq [DecidableEq H] (hsize : ∀ h, P h → t.size h = pure (size h)) {roots : List H}
    (hroots : ∀ h ∈ roots, P h) (hnodup : (roots.flatMap (subtree (fun h => (kind h).children) size)).Nodup) :
    t.symbolKeys roots = pure ((scopedNodes kind size roots).foldl (enter kind) []) := by
  rw [symbolKeys_enters hs hkind hsize hroots, lastEntries_eq_self (nodup_enters hs hroots hnodup)]

/-- Trees that share no node are walked for symbols, and the keys found tell the symbols apart if scopes and
names do. -/
theorem symbolKeys_named [DecidableEq H] (hsize : ∀ h, P h → t.size h = pure (size h)) {roots : List H}
    (hroots : ∀ h ∈ roots, P h) (hnodup : (roots.flatMap (subtree (fun h => (kind h).children) size)).Nodup) :
    ∃ keys, t.symbolKeys roots = pure keys ∧
      (Distinct keys → Named kind (scopedNodes kind size roots) keys) := by
  refine ⟨_, symbolKeys_eq hs hkind hsize hroots hnodup, fun hdistinct =>
    ⟨?_, nodup_enters hs hroots hnodup, hdistinct⟩⟩
  intro h key
  constructor
  · intro hmem
    have hfound := (of_mem_enters hmem).resolve_left List.not_mem_nil
    exact ⟨hfound.1, hfound.2, (occurrence_of_mem_enters hdistinct hmem).resolve_left List.not_mem_nil⟩
  · rintro ⟨hmem, hname, hzero⟩
    obtain ⟨occurrence, hentered⟩ := mem_enters_of_mem hmem hname []
    have hfirst := (occurrence_of_mem_enters hdistinct hentered).resolve_left List.not_mem_nil
    obtain rfl : occurrence = key.occurrence := hfirst.trans hzero.symm
    exact hentered

end Keys
end TreeView
end Palimpsest
