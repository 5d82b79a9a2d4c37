import Palimpsest.Proofs.Session.Invariant

/-!
Collections after any operations. What stays is what was there and what results that survive, and nodes
pinned more often than unpinned, lead to; the counts add up; a second collection finds nothing to do.
-/

namespace Palimpsest

namespace Forest

/-- A node and one of its children. -/
def Child (f : Forest) (a b : NodeId) : Prop := ∃ node, f.get? a = some node ∧ b ∈ node.kind.children

theorem child_iff {f : Forest} {a b : NodeId} : f.Child a b ↔ b ∈ f.childrenOf a := by
  rw [Child, childrenOf, kindOf]
  cases f.get? a with
  | none => simp [NodeKind.children]
  | some node => simp

theorem reachable_iff {f : Forest} {roots : List NodeId} {id : NodeId} :
    Reach.Reachable f.childrenOf roots id ↔ ∃ r ∈ roots, Relation.ReflTransGen f.Child r id := by
  have hedges : f.Child = fun a b => b ∈ f.childrenOf a := by
    funext a b
    exact propext child_iff
  rw [Reach.Reachable, hedges]

end Forest

namespace Context

open Session Query

/-- The changes of operations, one after the other. -/
def changes : Context → List Op → List Change
  | _, [] => []
  | c, op :: rest => op.change c :: changes (op.after c) rest

/-- The node was pinned more often than it was unpinned. -/
def Outstanding (changes : List Change) (id : NodeId) : Prop :=
  changes.count (.unpin id) < changes.count (.pin id)

theorem Effect.pins_eq {c c' : Context} (h : Effect c .nothing c') : c'.pins = c.pins := by
  cases h with
  | moves hmoves =>
      induction hmoves with
      | refl => rfl
      | tail _ hmove ih => exact hmove.pins_eq.trans ih
  | collects _ => rfl
  | advances _ hc₁ =>
      cases hc₁ with
      | inl heq => exact heq ▸ rfl
      | inr hcollected =>
          obtain ⟨keep, -, rfl⟩ := hcollected
          rfl

theorem Effect.pinCount_eq {c c' : Context} {change : Change} (hc : c.Sound) (h : Effect c change c')
    (id : NodeId) :
    pinCount c'.pins id + (if change == .unpin id then 1 else 0) =
      pinCount c.pins id + (if change == .pin id then 1 else 0) := by
  cases change with
  | nothing => simp [h.pins_eq]
  | text path text =>
      cases h with
      | sets _ _ => simp [withTable, withNames]
  | pin x =>
      cases h with
      | pins _ =>
          have hcount := Pinned.pinCount_addPin x id c.pins
          by_cases hx : id = x
          · simpa [hx, withPins] using hcount
          · simpa [hx, Ne.symm hx, withPins] using hcount
  | unpin x =>
      cases h with
      | @unpins _ n hn =>
          have hcount := hc.pinned.pinCount_dropPin x id
          by_cases hx : id = x
          · subst hx
            have hpinned : id ∈ c.pins.map Prod.fst := lookup_isSome_iff.mp (by rw [hn]; rfl)
            have hpos := hc.pinned.mem_iff.mp hpinned
            simp only [ite_true] at hcount
            simp [withPins, hcount]
            omega
          · simpa [hx, Ne.symm hx, withPins] using hcount

/-- The count of a node is what its pins have over its unpins. -/
theorem pinCount_run {c : Context} (h : c.Sound) (ops : List Op) (id : NodeId) :
    pinCount (c.run ops).pins id + (changes c ops).count (.unpin id) =
      pinCount c.pins id + (changes c ops).count (.pin id) := by
  induction ops generalizing c with
  | nil => rfl
  | cons op rest ih =>
      have hfirst := (op.effect h).pinCount_eq h id
      have hrest := ih (h.after op)
      rw [changes, List.count_cons, List.count_cons]
      change pinCount ((op.after c).run rest).pins id + _ = _
      omega

/-- A collection in `c` that leaves `c'`, when the nodes with a pin left are the outstanding ones. -/
structure Collected (c : Context) (outstanding : NodeId → Prop) (stats : GcStats) (c' : Context) : Prop where
  memos_iff : ∀ e, e ∈ c'.table.memos ↔ e ∈ c.table.memos ∧ ¬ c.table.Stale rules e.1
  /-- What is left was there, and an outstanding node or a node of a result that is left leads to it. -/
  live_iff : ∀ id, c'.forest.contains id = true ↔ c.forest.contains id = true ∧
    ∃ root, (outstanding root ∨ ∃ e ∈ c'.table.memos, root ∈ e.2.value.roots) ∧
      Relation.ReflTransGen c.forest.Child root id
  stable : Stable c c'
  places_iff : ∀ e, e ∈ c'.locations.entries ↔ e ∈ c.locations.entries ∧ c'.forest.contains e.1 = true
  dropped : stats.entriesDropped + c'.table.memos.length = c.table.memos.length
  freed : stats.nodesFreed + stats.nodesLive = c.forest.toList.length
  live : stats.nodesLive = c'.forest.toList.length

namespace Sound

variable {c : Context} {keep : NodeId → Bool}

theorem live_eq (h : c.Sound) : c.forest.live = c.forest.toList.length :=
  h.world.tidy.live_eq.trans (List.length_map _)

theorem places_collected (h : c.Sound) (hkeep : c.Keeps keep) (e : NodeId × Location) :
    e ∈ (c.collected keep).locations.entries ↔
      e ∈ c.locations.entries ∧ (c.collected keep).forest.contains e.1 = true := by
  have hentries : (c.collected keep).locations.entries =
      c.locations.entries.filter fun e => !(c.forest.sweep keep).1.contains e.1 := rfl
  rw [hentries, List.mem_filter]
  refine and_congr_right fun hmem => ?_
  have hplace := lookup_eq_some_of_mem h.world.placed.nodup hmem
  have hlive : c.forest.contains e.1 = true := (h.wellFormed.located_iff e.1).mp ⟨e.2, hplace⟩
  rw [contains_collected hkeep h, ← hkeep e.1]
  simp [Forest.mem_sweep_fst, hlive]

theorem collected_spec (h : c.Sound) (hkeep : c.Keeps keep) {outstanding : NodeId → Prop}
    (houtstanding : ∀ id, outstanding id ↔ 0 < pinCount c.pins id) :
    Collected c outstanding { entriesDropped := (c.table.staleKeys rules).length
                              nodesFreed := (c.forest.sweep keep).1.length
                              nodesLive := (c.forest.sweep keep).2.live } (c.collected keep) where
  memos_iff e := Table.mem_memos_swept
  live_iff id := by
    have hroots (root : NodeId) : root ∈ c.survivors ↔
        outstanding root ∨ ∃ e ∈ (c.table.swept rules).memos, root ∈ e.2.value.roots := by
      rw [survivors, List.mem_append, List.mem_flatMap, houtstanding, h.pinned.mem_iff]
    rw [contains_collected hkeep h, Forest.reachable_iff]
    constructor
    · intro hreached
      obtain ⟨root, hroot, path⟩ := hreached
      exact ⟨h.world.coherent.toBuilt.contains_of_reachable h.survivors_held
        (Forest.reachable_iff.mpr ⟨root, hroot, path⟩), root, (hroots root).mp hroot, path⟩
    · intro hlive
      obtain ⟨-, root, hroot, path⟩ := hlive
      exact ⟨root, (hroots root).mpr hroot, path⟩
  stable := stable_collected c keep
  places_iff := h.places_collected hkeep
  dropped := by
    have hlength : (c.table.swept rules).memos.length + (c.table.staleKeys rules).length = c.table.memos.length :=
      Table.length_swept h.nodup
    change (c.table.staleKeys rules).length + (c.table.swept rules).memos.length = _
    omega
  freed := by
    have hlength := Forest.length_sweep_fst c.forest keep
    have hlive : (c.forest.sweep keep).2.live = (c.forest.sweep keep).2.ids.length :=
      (h.world.tidy.sweep keep).live_eq
    have hbefore : c.forest.ids.length = c.forest.toList.length := List.length_map _
    change (c.forest.sweep keep).1.length + (c.forest.sweep keep).2.live = _
    omega
  live := (h.collected hkeep).live_eq

theorem survivors_collected (c : Context) (keep : NodeId → Bool) : (c.collected keep).survivors = c.survivors := by
  have htable : (c.collected keep).table.swept rules = c.table.swept rules := Table.swept_swept
  have hpins : (c.collected keep).pins = c.pins := rfl
  rw [survivors, htable, hpins, survivors]

theorem sweep_collected (h : c.Sound) (hkeep : c.Keeps keep) {keep' : NodeId → Bool}
    (hkeep' : (c.collected keep).Keeps keep') : ((c.collected keep).forest.sweep keep').1 = [] := by
  refine List.eq_nil_iff_forall_not_mem.mpr fun id hid => ?_
  obtain ⟨hthere, hfreed⟩ := (Forest.mem_sweep_fst _ keep').mp hid
  have hreached := (contains_collected hkeep h).mp hthere
  have hedges : ∀ x, Reach.Reachable c.forest.childrenOf c.survivors x →
      c.forest.childrenOf x = (c.collected keep).forest.childrenOf x := by
    intro x hx
    have hlive := h.world.coherent.toBuilt.contains_of_reachable h.survivors_held hx
    obtain ⟨hsame, -⟩ := stable_collected c keep x hlive ((contains_collected hkeep h).mpr hx)
    rw [Forest.childrenOf, Forest.childrenOf, Forest.kindOf, Forest.kindOf, hsame]
  rw [Reach.Reachable.congr hedges, ← survivors_collected c keep, ← hkeep' id, hfreed] at hreached
  exact Bool.false_ne_true hreached

theorem collectGarbage_again (h : c.Sound) (hkeep : c.Keeps keep) :
    ∃ again c'', collectGarbage.eval (c.collected keep) = (.ok again, c'') ∧
      again.entriesDropped = 0 ∧ again.nodesFreed = 0 := by
  obtain ⟨keep', hkeep', heval⟩ := (h.collected hkeep).eval_collectGarbage
  have hstale : (c.collected keep).table.staleKeys rules = [] := Table.staleKeys_swept
  refine ⟨_, _, heval, ?_, ?_⟩
  · rw [hstale]
    rfl
  · rw [h.sweep_collected hkeep hkeep']
    rfl

end Sound

/-- After any operations a collection is carried out, exactly as it should be, and another one right after
it drops no result and frees no node. -/
theorem collectGarbage_run (tuning : Tuning) (ops : List Op) :
    ∃ stats c', collectGarbage.eval ((fresh tuning).run ops) = (.ok stats, c') ∧
      Collected ((fresh tuning).run ops) (Outstanding (changes (fresh tuning) ops)) stats c' ∧
      ∃ again c'', collectGarbage.eval c' = (.ok again, c'') ∧
        again.entriesDropped = 0 ∧ again.nodesFreed = 0 := by
  have h : ((fresh tuning).run ops).Sound := (sound_fresh tuning).run ops
  have houtstanding (id : NodeId) : Outstanding (changes (fresh tuning) ops) id ↔
      0 < pinCount ((fresh tuning).run ops).pins id := by
    have hcount := pinCount_run (sound_fresh tuning) ops id
    have hfresh : pinCount (fresh tuning).pins id = 0 := rfl
    rw [Outstanding]
    omega
  obtain ⟨keep, hkeep, heval⟩ := h.eval_collectGarbage
  exact ⟨_, _, heval, h.collected_spec hkeep houtstanding, h.collectGarbage_again hkeep⟩

end Context
end Palimpsest
