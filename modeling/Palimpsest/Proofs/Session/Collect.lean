import Palimpsest.Proofs.Session.Sound

/-!
Collections in a session. Results that are out of date are dropped; what the others and the pins lead to
stays as it is and where it is, and all else is freed. A collection is never refused, nor is an advance.
-/

namespace Palimpsest
namespace Context

open Session Query

/-- What pins and the results that survive a sweep refer to. -/
def survivors (c : Context) : List NodeId :=
  c.pins.map Prod.fst ++ (c.table.swept rules).memos.flatMap fun e => e.2.value.roots

/-- What is accepted is what survivors lead to. -/
def Keeps (c : Context) (keep : NodeId → Bool) : Prop :=
  ∀ id, keep id = true ↔ Reach.Reachable c.forest.childrenOf c.survivors id

/-- The session after a collection that keeps what is accepted. -/
def collected (c : Context) (keep : NodeId → Bool) : Context :=
  c.withState ⟨c.table.swept rules, { c.state.world with
    forest := (c.forest.sweep keep).2
    locations := c.locations.eraseAll (c.forest.sweep keep).1 }⟩

/-- The session with one more advance counted. -/
def tick (c : Context) : Context := { c with advances := c.advances + 1 }

namespace Sound

variable {c : Context}

theorem tick (h : c.Sound) : c.tick.Sound :=
  ⟨h.world, h.idle, h.nodup, h.fits, h.held, h.once, h.pinned, h.pins_held⟩

theorem shrink (h : c.Sound) {u : Table Key Value} (hidle : u.active = []) (hnodup : u.keys.Nodup)
    (hmemo : ∀ k memo, u.memo? k = some memo → c.table.memo? k = some memo) : (c.withTable u).Sound where
  world := h.world
  idle := hidle
  nodup := hnodup
  fits k memo hm := h.fits k memo (hmemo k memo hm)
  held k memo hm := h.held k memo (hmemo k memo hm)
  once k memo parsed hm := h.once k memo parsed (hmemo k memo hm)
  pinned := h.pinned
  pins_held := h.pins_held

theorem swept (h : c.Sound) : (c.withTable (c.table.swept rules)).Sound :=
  h.shrink h.idle (Table.nodup_keys_swept h.nodup) fun _ _ hm => (Table.memo?_of_swept hm).2

theorem advanced (h : c.Sound) (keepOldResults : Bool) :
    (c.withTable (c.table.advanced rules keepOldResults)).Sound := by
  refine h.shrink h.idle ?_ fun k memo hm => ?_
  · cases keepOldResults with
    | true => exact h.nodup
    | false => exact h.nodup.sublist (List.filter_sublist.map Prod.fst)
  · rw [Table.memo?_advanced] at hm
    split at hm
    · exact hm
    · simp at hm

theorem survivors_held (h : c.Sound) : ∀ id ∈ c.survivors, c.forest.contains id = true := by
  intro id hid
  cases List.mem_append.mp hid with
  | inl hpin => exact h.pins_held id hpin
  | inr hmemo =>
      obtain ⟨e, he, hroot⟩ := List.mem_flatMap.mp hmemo
      have hthere := (Table.memo?_eq_some_iff h.swept.nodup).mpr he
      exact h.swept.held e.1 e.2 hthere id hroot

section Collected

variable {keep : NodeId → Bool} (hkeep : c.Keeps keep)
include hkeep

theorem children_kept : ∀ id, c.forest.contains id = true → keep id = true →
    ∀ x ∈ c.forest.childrenOf id, keep x = true :=
  fun id _ hid x hx => (hkeep x).mpr (((hkeep id).mp hid).step hx)

theorem contains_collected (h : c.Sound) {id : NodeId} :
    (c.collected keep).forest.contains id = true ↔ Reach.Reachable c.forest.childrenOf c.survivors id := by
  have hget := Forest.get?_sweep c.forest keep id
  rw [← hkeep id]
  change ((c.forest.sweep keep).2.get? id).isSome = true ↔ _
  rw [hget]
  by_cases hk : keep id = true
  · rw [if_pos hk]
    exact iff_of_true (h.world.coherent.toBuilt.contains_of_reachable h.survivors_held ((hkeep id).mp hk)) hk
  · simp [hk]

theorem collected (h : c.Sound) : (c.collected keep).Sound := by
  have hsurvives (id : NodeId) (hid : id ∈ c.survivors) : (c.collected keep).forest.contains id = true :=
    (contains_collected hkeep h).mpr (.root hid)
  have hheld (k : Key) (memo : Memo Key Value) (hm : (c.table.swept rules).memo? k = some memo) :
      ∀ id ∈ memo.value.roots, (c.collected keep).forest.contains id = true := by
    intro id hid
    refine hsurvives id (List.mem_append_right _ (List.mem_flatMap.mpr ⟨(k, memo), ?_, hid⟩))
    exact (Table.memo?_eq_some_iff h.swept.nodup).mp hm
  exact
    { world := ⟨h.world.tidy.sweep keep, h.world.coherent.sweep hkeep, h.world.placed.sweep keep⟩
      idle := h.idle
      nodup := h.swept.nodup
      fits := h.swept.fits
      held := hheld
      once := by
        intro k memo parsed hm hvalue
        have hsame : parsed.modules.flatMap (c.collected keep).forest.subtree =
            parsed.modules.flatMap c.forest.subtree := by
          refine List.flatMap_congr fun id hid => ?_
          refine h.world.coherent.toBuilt.subtree_restrict (Forest.get?_sweep c.forest keep)
            (children_kept hkeep) (hheld k memo hm id ?_)
          rw [hvalue]
          exact hid
        exact hsame ▸ h.swept.once k memo parsed hm hvalue
      pinned := h.pinned
      pins_held := fun id hid => hsurvives id (List.mem_append_left _ hid) }

end Collected

/-- A collection drops what is stale and sweeps what survivors do not lead to. -/
theorem eval_collectGarbage (h : c.Sound) :
    ∃ keep, c.Keeps keep ∧ collectGarbage.eval c =
      (.ok { entriesDropped := (c.table.staleKeys rules).length
             nodesFreed := (c.forest.sweep keep).1.length
             nodesLive := (c.forest.sweep keep).2.live }, c.collected keep) := by
  obtain ⟨keep, hkeep, hcollect⟩ := Forest.collect_eq h.world.coherent.toBuilt h.world.tidy c.locations
    h.survivors_held
  refine ⟨keep, hkeep, ?_⟩
  have hsweep : (Run.sweep rules).eval c.state =
      (.ok (c.table.staleKeys rules), { c.state with table := c.table.swept rules }) := by
    have hidle : c.state.table.active = [] := h.idle
    rw [Run.sweep, Run.eval_onTable, Table.sweep_of_idle hidle]
    rfl
  rw [collectGarbage, Act.eval_bind_ok (Act.eval_ofRun_ok hsweep), Act.eval_bind_ok (Act.eval_get _)]
  exact Act.eval_bind_ok (Act.eval_ofFreed_ok hcollect)

/-- An advance collects garbage or does not, and starts the next revision. -/
theorem eval_advance (h : c.Sound) (keepOldResults : Bool) :
    ∃ c₁, (c₁ = c.tick ∨ ∃ keep, c.tick.Keeps keep ∧ c₁ = c.tick.collected keep) ∧
      (advance keepOldResults).eval c =
        (.ok (), c₁.withTable (c₁.table.advanced rules keepOldResults)) := by
  have hadvance (c₁ : Context) (hc₁ : c₁.Sound) : (Act.ofRun (Run.advance rules keepOldResults)).eval c₁ =
      (.ok (), c₁.withTable (c₁.table.advanced rules keepOldResults)) := by
    refine Act.eval_ofRun_ok (s := { c₁.state with table := c₁.table.advanced rules keepOldResults }) ?_
    have hidle : c₁.state.table.active = [] := hc₁.idle
    rw [Run.advance, Run.eval_onTable, Table.advance_of_idle hidle]
    rfl
  have htick : (modify fun c : Context => { c with advances := c.advances + 1 } : Act PUnit).eval c =
      (.ok ⟨⟩, c.tick) := rfl
  rw [advance, Act.eval_bind_ok htick, Act.eval_bind_ok (Act.eval_get _)]
  by_cases hdue : c.tick.tuning.gcEvery > 0 ∧ c.tick.advances % c.tick.tuning.gcEvery = 0
  · obtain ⟨keep, hkeep, hcollect⟩ := h.tick.eval_collectGarbage
    refine ⟨c.tick.collected keep, .inr ⟨keep, hkeep, rfl⟩, ?_⟩
    rw [if_pos hdue]
    exact (Act.eval_bind_ok hcollect).trans (hadvance _ (h.tick.collected hkeep))
  · refine ⟨c.tick, .inl rfl, ?_⟩
    rw [if_neg hdue]
    exact hadvance c.tick h.tick

end Sound
end Context
end Palimpsest
