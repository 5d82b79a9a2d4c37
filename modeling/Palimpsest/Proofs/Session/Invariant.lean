import Palimpsest.Proofs.Forest.Dump
import Palimpsest.Proofs.Session.Run

/-!
What can be relied on after any operations, refused ones included. The nodes that results and pins refer
to are there with all that is below them, each where it was read from; from one operation to the next a
node that stays is the node that it was.
-/

namespace Palimpsest

namespace Context

open Session Query

structure WellFormed (c : Context) : Prop where
  children_live : ∀ id node, c.forest.get? id = some node → ∀ x ∈ node.kind.children, c.forest.contains x = true
  results_live : ∀ k memo, (k, memo) ∈ c.table.memos → ∀ id ∈ memo.value.roots, c.forest.contains id = true
  pins_live : ∀ id n, (id, n) ∈ c.pins → c.forest.contains id = true
  located_iff : ∀ id, (∃ l, c.locations.get? id = some l) ↔ c.forest.contains id = true
  /-- Fingerprints are those of the kind over the fingerprints of the children. -/
  fingerprint_eq : ∀ id node, c.forest.get? id = some node → ∃ children,
    node.kind.traverse c.forest.get = .ok children ∧
      node.fingerprint = (children.map Node.fingerprint).fingerprint
  /-- The trees of a file have no node in common, nor one of them a node twice. -/
  once : ∀ k memo parsed, (k, memo) ∈ c.table.memos → memo.value = .parsed parsed →
    ∃ trees, parsed.modules.mapM c.forest.view.preorder = .ok trees ∧ trees.flatten.Nodup
  idle : c.table.isRunning = false

/-- A result or a pin refers to the node. -/
def Held (c : Context) (id : NodeId) : Prop :=
  (∃ n, (id, n) ∈ c.pins) ∨ ∃ k memo, (k, memo) ∈ c.table.memos ∧ id ∈ memo.value.roots

/-- Nothing that is asked about the tree of a node is refused. -/
structure Walkable (c : Context) (id : NodeId) : Prop where
  node : ∃ n, (Context.node id).eval c = (.ok n, c)
  locate : ∃ l, (Context.locate id).eval c = (.ok l, c)
  dump : ∃ text, (Context.dump id).eval c = (.ok text, c)
  preorder : ∃ l, c.forest.view.preorder id = .ok l ∧ ∀ x ∈ l, ∃ place, (Context.locate x).eval c = (.ok place, c)
  postorder : ∃ l, c.forest.view.postorder id = .ok l
  subtreeSize : ∃ n, c.forest.view.subtreeSize id = .ok n
  withDepths : ∃ l, c.forest.view.withDepths id = .ok l
  symbols : ∃ l, c.forest.view.symbols id = .ok l
  uses : ∀ name, ∃ l, c.forest.view.uses id name = .ok l
  declarations : ∃ l, c.forest.view.declarations id = .ok l

/-- A node that is there before and after is the same, and in the same place. -/
def Stable (c c' : Context) : Prop :=
  ∀ id, c.forest.contains id = true → c'.forest.contains id = true →
    c'.forest.get? id = c.forest.get? id ∧ c'.locations.get? id = c.locations.get? id

namespace Sound

variable {c : Context}

theorem wellFormed (h : c.Sound) : c.WellFormed where
  children_live _ _ hid := h.world.coherent.contains_child hid
  results_live k memo hmem := h.held k memo ((Table.memo?_eq_some_iff h.nodup).mpr hmem)
  pins_live id n hmem := h.pins_held id (List.mem_map.mpr ⟨(id, n), hmem, rfl⟩)
  located_iff id := by
    rw [← Option.isSome_iff_exists]
    exact Bool.eq_iff_iff.mp (h.world.placed.isSome_eq id)
  fingerprint_eq id node hid := by
    have hbuild := h.world.coherent.built id node hid
    rw [Forest.build] at hbuild
    cases htraverse : node.kind.traverse c.state.world.forest.get with
    | error e => simp [htraverse, Bind.bind, Except.bind] at hbuild
    | ok children =>
        rw [htraverse] at hbuild
        exact ⟨children, htraverse, (congrArg Node.fingerprint (Except.ok.inj hbuild)).symm⟩
  once k memo parsed hmem hvalue := by
    have hmemo := (Table.memo?_eq_some_iff h.nodup).mpr hmem
    have hwalk : ∀ id ∈ parsed.modules, c.forest.view.preorder id = pure (c.forest.subtree id) := by
      intro id hid
      refine h.world.coherent.preorder_eq (h.held k memo hmemo id ?_)
      rw [hvalue]
      exact hid
    refine ⟨_, NodeKind.mapM_eq_pure hwalk, ?_⟩
    rw [← List.flatMap_def]
    exact h.once k memo parsed hmemo hvalue
  idle := by simp [Table.isRunning, h.idle]

theorem locate_ok (h : c.Sound) {id : NodeId} (hid : c.forest.contains id = true) :
    ∃ l, (locate id).eval c = (.ok l, c) := by
  obtain ⟨node, hnode⟩ := Forest.contains_iff.mp hid
  obtain ⟨l, hl⟩ := (h.wellFormed.located_iff id).mpr hid
  refine ⟨l, ?_⟩
  rw [eval_locate, Forest.get_eq_ok.mpr hnode, hl]

theorem walkable (h : c.Sound) {id : NodeId} (hid : c.forest.contains id = true) : c.Walkable id := by
  have hbuilt : c.forest.Built := h.world.coherent.toBuilt
  obtain ⟨node, hnode⟩ := Forest.contains_iff.mp hid
  have hwalked : c.forest.view.Walked c.forest.kindOf c.forest.sizeOf id := hbuilt.shows.walked hid
  exact
    { node := ⟨node, by rw [eval_node, Forest.get_eq_ok.mpr hnode]; rfl⟩
      locate := h.locate_ok hid
      dump := ⟨_, by rw [eval_dump, Forest.dump_eq hbuilt.shows hid]; rfl⟩
      preorder := ⟨_, hbuilt.preorder_eq hid, fun x hx => h.locate_ok (hbuilt.contains_subtree hid hx)⟩
      postorder := ⟨_, hwalked.postorder⟩
      subtreeSize := ⟨_, hwalked.subtreeSize⟩
      withDepths := ⟨_, hwalked.withDepths⟩
      symbols := ⟨_, hwalked.symbols⟩
      uses := fun name => ⟨_, hwalked.uses name⟩
      declarations := ⟨_, declarations_eq hbuilt hid⟩ }

theorem contains_of_held (h : c.Sound) {id : NodeId} (hid : c.Held id) : c.forest.contains id = true := by
  cases hid with
  | inl hpin =>
      obtain ⟨n, hmem⟩ := hpin
      exact h.wellFormed.pins_live id n hmem
  | inr hresult =>
      obtain ⟨k, memo, hmem, hroot⟩ := hresult
      exact h.wellFormed.results_live k memo hmem id hroot

theorem symbolKeys_ok (h : c.Sound) {roots : List NodeId} (hroots : ∀ id ∈ roots, c.Held id) :
    ∃ l, c.forest.view.symbolKeys roots = .ok l := by
  have hthere : ∀ id ∈ roots, c.forest.contains id = true := fun id hid => h.contains_of_held (hroots id hid)
  have hshows := h.world.coherent.toBuilt.shows
  exact ⟨_, TreeView.symbolKeys_enters hshows.sized hshows.kind_eq hshows.size_eq hthere⟩

end Sound

section Stability

variable {c c' : Context}

theorem Stable.of_extends (h : c.state.world.Extends c'.state.world) : Stable c c' :=
  fun id hid _ => ⟨h.grows.get? hid, h.location_eq id hid⟩

theorem stable_collected (c : Context) (keep : NodeId → Bool) : Stable c (c.collected keep) := by
  intro id _ hid
  have hget : (c.collected keep).forest.get? id = if keep id then c.forest.get? id else none :=
    Forest.get?_sweep c.forest keep id
  have hplace : (c.collected keep).locations.get? id =
      if id ∈ (c.forest.sweep keep).1 then none else c.locations.get? id := Locations.get?_eraseAll _ _ id
  have hkeep : keep id = true := by
    rw [Forest.contains, hget] at hid
    by_contra hk
    simp [hk] at hid
  have hstays : id ∉ (c.forest.sweep keep).1 := by
    rw [Forest.mem_sweep_fst]
    simp [hkeep]
  rw [hget, hplace, if_pos hkeep, if_neg hstays]
  exact ⟨rfl, rfl⟩

theorem Sound.moves_extends (h : c.Sound) (hmoves : Relation.ReflTransGen Move c c') :
    c.state.world.Extends c'.state.world := by
  induction hmoves with
  | refl => exact .refl h.world
  | tail hmoves hmove ih => exact ih.trans (hmove.world_extends (h.moves hmoves))

theorem Effect.stable {change : Change} (hc : c.Sound) (h : Effect c change c') : Stable c c' := by
  cases h with
  | moves hmoves => exact .of_extends (hc.moves_extends hmoves)
  | sets _ _ | pins _ | unpins _ => exact fun _ _ _ => ⟨rfl, rfl⟩
  | collects _ => exact stable_collected c _
  | advances _ hc₁ =>
      cases hc₁ with
      | inl heq => exact heq ▸ fun _ _ _ => ⟨rfl, rfl⟩
      | inr hcollected =>
          obtain ⟨keep, -, rfl⟩ := hcollected
          exact stable_collected c.tick keep

end Stability

/-- Whatever was asked of a session, it is in order; whatever is asked next changes no node that stays, and
what results and pins refer to can be walked, printed and located. -/
theorem run_wellFormed (tuning : Tuning) (ops : List Op) :
    ((fresh tuning).run ops).WellFormed ∧
      (∀ op : Op, Stable ((fresh tuning).run ops) (op.after ((fresh tuning).run ops))) ∧
      (∀ id, ((fresh tuning).run ops).Held id → ((fresh tuning).run ops).Walkable id) ∧
      ∀ roots, (∀ id ∈ roots, ((fresh tuning).run ops).Held id) →
        ∃ l, ((fresh tuning).run ops).forest.view.symbolKeys roots = .ok l := by
  have h : ((fresh tuning).run ops).Sound := (sound_fresh tuning).run ops
  refine ⟨h.wellFormed, fun op => (op.effect h).stable h, fun id hid => ?_, fun roots => h.symbolKeys_ok⟩
  exact h.walkable (h.contains_of_held hid)

end Context
end Palimpsest
