import Palimpsest.Proofs.Reconcile.Run

/-!
The account of an installation. Its log tells all that changed: a handle for each node made, which nothing
answered to before, with its place; and the old subtrees claimed, which no two answers share. Together they
make up the trees of the answers.
-/

namespace Palimpsest

namespace Draft

def spanIn (drafts : Array Draft) (i : Nat) : Span := ((drafts[i]?).map Draft.span).getD default

end Draft

/-- The place of a draft in a text. -/
def DraftTree.placeOf (t : DraftTree) (path : String) (source : SourceText) (i : Nat) : Location :=
  Location.resolve path (Draft.spanIn t.drafts i) source

namespace Locations

theorem entries_insert {t : Locations} {id : NodeId} (h : ∀ e ∈ t.entries, e.1 ≠ id) (l : Location) :
    (t.insert id l).entries = (id, l) :: t.entries := by
  rw [insert, erase, List.filter_eq_self.mpr]
  intro e he
  simpa using h e he

end Locations

namespace Reconcile

namespace Log

/-- The handles of the nodes made. -/
def fresh (log : Log) : List NodeId := log.made.map Prod.snd

/-- The nodes of the subtrees claimed. -/
def reused (log : Log) (f : Forest) : List NodeId := log.claims.flatMap fun e => f.subtree e.2

/-- The nodes made with the places of their drafts. -/
def places (log : Log) (p : Plan) : List (NodeId × Location) :=
  log.made.map fun e => (e.2, p.drafts.placeOf p.path p.source e.1)

variable (later earlier : Log)

@[simp] theorem fresh_append : (later ++ earlier).fresh = later.fresh ++ earlier.fresh := by simp [fresh]

@[simp] theorem reused_append (f : Forest) : (later ++ earlier).reused f = later.reused f ++ earlier.reused f := by
  simp [reused]

@[simp] theorem places_append (p : Plan) : (later ++ earlier).places p = later.places p ++ earlier.places p := by
  simp [places]

theorem map_fst_places (log : Log) (p : Plan) : (log.places p).map Prod.fst = log.fresh := by
  simp [places, fresh]

@[simp] theorem length_made (log : Log) : log.made.length = log.fresh.length := by simp [fresh]

end Log

/-- What changed from one state to another is in the log. -/
structure Accounted (f₀ : Forest) (p : Plan) (s : State) (log : Log) (s' : State) : Prop where
  contains_iff : ∀ x, s'.forest.contains x = true ↔ s.forest.contains x = true ∨ x ∈ log.fresh
  nodup_fresh : log.fresh.Nodup
  fresh_new : ∀ x ∈ log.fresh, s.forest.contains x = false
  live_eq : s'.forest.live = s.forest.live + log.fresh.length
  claims_old : ∀ e ∈ log.claims, f₀.contains e.2 = true
  claimed_eq : s'.claimed = log.reused f₀ ++ s.claimed
  nodup_claimed : f₀.Coherent → s.claimed.Nodup → s'.claimed.Nodup
  stats_eq : s'.stats = { freshNodes := s.stats.freshNodes + log.fresh.length
                          reusedSubtrees := s.stats.reusedSubtrees + log.claims.length
                          reusedNodes := s.stats.reusedNodes + (log.reused f₀).length }
  entries_eq : s.locations.Within s.forest → s'.locations.entries = log.places p ++ s.locations.entries

namespace Accounted

variable {f₀ : Forest} {p : Plan} {s s₁ s' : State} {log first later : Log}

theorem refl (s : State) : Accounted f₀ p s ⟨[], []⟩ s where
  contains_iff := by simp [Log.fresh]
  nodup_fresh := List.nodup_nil
  fresh_new := by simp [Log.fresh]
  live_eq := rfl
  claims_old := by simp
  claimed_eq := rfl
  nodup_claimed _ h := h
  stats_eq := rfl
  entries_eq _ := rfl

theorem within (h : Accounted f₀ p s log s') (hwithin : s.locations.Within s.forest) :
    s'.locations.Within s'.forest := by
  intro e he
  rw [h.entries_eq hwithin] at he
  apply (h.contains_iff e.1).mpr
  cases List.mem_append.mp he with
  | inl hplaced =>
      obtain ⟨made, hmade, rfl⟩ := List.mem_map.mp hplaced
      exact .inr (List.mem_map_of_mem hmade)
  | inr hold => exact .inl (hwithin e hold)

theorem mem_fresh_iff (h : Accounted f₀ p s log s') (id : NodeId) :
    id ∈ log.fresh ↔ s'.forest.contains id = true ∧ s.forest.contains id = false := by
  constructor
  · intro hfresh
    exact ⟨(h.contains_iff id).mpr (.inr hfresh), h.fresh_new id hfresh⟩
  · rintro ⟨hthere, hnew⟩
    cases (h.contains_iff id).mp hthere with
    | inl hold => simp [hnew] at hold
    | inr hfresh => exact hfresh

theorem trans (h : Accounted f₀ p s first s₁) (h' : Accounted f₀ p s₁ later s') :
    Accounted f₀ p s (later ++ first) s' where
  contains_iff x := by
    rw [h'.contains_iff, h.contains_iff, Log.fresh_append, List.mem_append, or_assoc, or_comm (a := x ∈ first.fresh)]
  nodup_fresh := by
    rw [Log.fresh_append, List.nodup_append]
    refine ⟨h'.nodup_fresh, h.nodup_fresh, ?_⟩
    rintro x hx _ hfirst rfl
    have hthere := (h.contains_iff x).mpr (.inr hfirst)
    simp [h'.fresh_new x hx] at hthere
  fresh_new x hx := by
    cases List.mem_append.mp (Log.fresh_append later first ▸ hx) with
    | inl hlater =>
        have hnew := h'.fresh_new x hlater
        by_contra hthere
        have hstill := (h.contains_iff x).mpr (.inl (by simpa using hthere))
        simp [hnew] at hstill
    | inr hfirst => exact h.fresh_new x hfirst
  live_eq := by
    rw [h'.live_eq, h.live_eq, Log.fresh_append, List.length_append]
    omega
  claims_old e he := by
    cases List.mem_append.mp he with
    | inl hlater => exact h'.claims_old e hlater
    | inr hfirst => exact h.claims_old e hfirst
  claimed_eq := by rw [h'.claimed_eq, h.claimed_eq, Log.reused_append, List.append_assoc]
  nodup_claimed hf₀ hs := h'.nodup_claimed hf₀ (h.nodup_claimed hf₀ hs)
  stats_eq := by
    rw [h'.stats_eq, h.stats_eq]
    simp only [Log.fresh_append, Log.claims_append, Log.reused_append, List.length_append, Stats.mk.injEq]
    omega
  entries_eq hs := by rw [h'.entries_eq (h.within hs), h.entries_eq hs, Log.places_append, List.append_assoc]

theorem claim {i : Nat} {draft : Draft} {old : NodeId} (hs : Steady f₀ p s) (hf₀ : f₀.Built)
    (hin : f₀.contains old = true) (hold : Claimable s draft old) :
    Accounted f₀ p s ⟨[], [(i, old)]⟩ (s.claim (s.forest.subtree old)) := by
  have hsame := hf₀.subtree_grows hs.built hs.grows hin
  exact
    { contains_iff := by simp [Log.fresh, State.claim]
      nodup_fresh := List.nodup_nil
      fresh_new := by simp [Log.fresh]
      live_eq := rfl
      claims_old := by simpa using hin
      claimed_eq := by simp [Log.reused, State.claim, hsame]
      nodup_claimed := fun hcoherent hclaimed => by
        refine List.nodup_append.mpr ⟨hsame ▸ hcoherent.nodup old hin, hclaimed, ?_⟩
        rintro x hx _ hbefore rfl
        exact hold.unclaimed x hx hbefore
      stats_eq := by simp [Log.reused, Log.fresh, State.claim, hsame]
      entries_eq := fun _ => rfl }

theorem add {i : Nat} {draft : Draft} {node : Node} {id : NodeId} {forest : Forest}
    (hdraft : p.drafts.drafts[i]? = some draft) (hadds : s.forest.Adds node id forest) :
    Accounted f₀ p s ⟨[(i, id)], []⟩ (s.add p draft id forest) where
  contains_iff x := by
    rw [State.add, hadds.contains_iff]
    simp [Log.fresh]
  nodup_fresh := List.nodup_singleton id
  fresh_new := by simpa [Log.fresh] using hadds.not_contains
  live_eq := hadds.live_eq
  claims_old := by simp
  claimed_eq := rfl
  nodup_claimed _ h := h
  stats_eq := rfl
  entries_eq hs := by
    have hne : ∀ e ∈ s.locations.entries, e.1 ≠ id := by
      rintro e he rfl
      have hthere := hs e he
      simp [hadds.not_contains] at hthere
    rw [State.add, Locations.entries_insert hne]
    simp [Log.places, DraftTree.placeOf, Draft.spanIn, hdraft]

end Accounted

namespace Installed

variable {f₀ : Forest} {p : Plan} {s s' : State} {jobs : List (Nat × Option NodeId)} {ids : List NodeId} {log : Log}

theorem accounted (h : Installed f₀ p s jobs ids log s') (hf₀ : f₀.Built) : Accounted f₀ p s log s' := by
  induction h with
  | nil _ => exact .refl _
  | claim hs _ hthere hcandidates _ hold _ ih =>
      exact (Accounted.claim hs hf₀ (hthere _ (by simp [hcandidates])) hold).trans ih
  | make _ hdraft _ _ _ _ hadds _ ihbelow ih =>
      exact (ihbelow.trans (.add hdraft hadds)).trans ih

/-- The trees of the answers are made of the nodes made and the nodes claimed. -/
theorem perm (h : Installed f₀ p s jobs ids log s') (hf₀ : f₀.Built) :
    (ids.flatMap s'.forest.subtree).Perm (log.fresh ++ log.reused f₀) := by
  induction h with
  | nil _ => exact .refl _
  | @claim s s' i place draft skipped later old rest ids log hs _ hthere hcandidates _ _ hrest ih =>
      have hin : f₀.contains old = true := hthere old (by simp [hcandidates])
      have hsteady := hrest.answered.steady
      have hsame : s'.forest.subtree old = f₀.subtree old :=
        hf₀.subtree_grows hsteady.built hsteady.grows hin
      refine List.perm_iff_count.mpr fun x => ?_
      have hrests := ih.count_eq x
      simp only [List.flatMap_cons, hsame, Log.fresh_append, Log.reused_append, List.count_append] at hrests ⊢
      simp only [Log.fresh, Log.reused, List.map_nil, List.count_nil, List.flatMap_singleton] at hrests ⊢
      omega
  | @make s s₁ s' i place draft kind id forest rest ids inner log hs _ _ _ _ hbelow hadds hrest ihbelow ih =>
      have hsteady := hrest.answered.steady
      have hgrows : forest.Grows s'.forest := hrest.answered.grows
      have hchildren : kind.children.flatMap s'.forest.subtree = kind.children.flatMap s₁.forest.subtree :=
        hbelow.answered.steady.built.flatMap_subtree_grows hsteady.built (hadds.grows.trans hgrows)
          (contains_of_answers hbelow.answered.answers)
      have hsubtree : s'.forest.subtree id = id :: kind.children.flatMap s₁.forest.subtree := by
        rw [hsteady.built.subtree_eq (hgrows id _ hadds.get?_self), Forest.node, hchildren]
      refine List.perm_iff_count.mpr fun x => ?_
      have hbelows := ihbelow.count_eq x
      have hrests := ih.count_eq x
      simp only [List.flatMap_cons, hsubtree, Log.fresh_append, Log.reused_append, List.count_append,
        List.count_cons] at hbelows hrests ⊢
      simp only [Log.fresh, Log.reused, List.map_cons, List.map_nil, List.count_cons, List.count_nil,
        List.flatMap_nil] at hbelows hrests ⊢
      omega

/-- What is claimed is in the trees of the answers. -/
theorem mem_claimed (h : Installed f₀ p s jobs ids log s') (hf₀ : f₀.Built) {x : NodeId} (hx : x ∈ s'.claimed) :
    x ∈ ids.flatMap s'.forest.subtree ∨ x ∈ s.claimed := by
  rw [(h.accounted hf₀).claimed_eq] at hx
  cases List.mem_append.mp hx with
  | inl hreused => exact .inl ((h.perm hf₀).mem_iff.mpr (List.mem_append_right _ hreused))
  | inr hearlier => exact .inr hearlier

end Installed

namespace Reconciliation

variable {f : Forest} {t : Locations} {olds : List NodeId} {p : Plan} {ids : List NodeId} {log : Log} {s : State}

theorem accounted (h : Reconciliation f t olds p ids log s) : Accounted f p ⟨f, t, [], ⟨0, 0, 0⟩⟩ log s :=
  h.installed.accounted h.built

theorem perm (h : Reconciliation f t olds p ids log s) :
    (ids.flatMap s.forest.subtree).Perm (log.fresh ++ log.reused f) := h.installed.perm h.built

theorem contains_of_reused (h : Reconciliation f t olds p ids log s) {x : NodeId} (hx : x ∈ log.reused f) :
    f.contains x = true := by
  obtain ⟨e, he, hmem⟩ := List.mem_flatMap.mp hx
  exact h.built.contains_subtree (h.accounted.claims_old e he) hmem

theorem nodup_reused (h : Reconciliation f t olds p ids log s) (hf : f.Coherent) : (log.reused f).Nodup := by
  have hclaimed := h.accounted.nodup_claimed hf List.nodup_nil
  rwa [h.accounted.claimed_eq, List.append_nil] at hclaimed

/-- No node is twice in the trees of the answers. -/
theorem nodup (h : Reconciliation f t olds p ids log s) (hf : f.Coherent) :
    (ids.flatMap s.forest.subtree).Nodup := by
  rw [h.perm.nodup_iff, List.nodup_append]
  refine ⟨h.accounted.nodup_fresh, h.nodup_reused hf, ?_⟩
  rintro x hfresh _ hreused rfl
  have hthere := h.contains_of_reused hreused
  have hnew := h.accounted.fresh_new x hfresh
  simp [hthere] at hnew

theorem coherent (h : Reconciliation f t olds p ids log s) (hf : f.Coherent) : s.forest.Coherent where
  toBuilt := h.answered.steady.built
  nodup id hid := by
    have hbuilt := h.answered.steady.built
    cases (h.accounted.contains_iff id).mp hid with
    | inl hold =>
        rw [hf.toBuilt.subtree_grows hbuilt h.answered.grows hold]
        exact hf.nodup id hold
    | inr hfresh =>
        -- A node that was made is in the tree of an answer, and with it all below.
        have hmem : id ∈ ids.flatMap s.forest.subtree := h.perm.mem_iff.mpr (List.mem_append_left _ hfresh)
        obtain ⟨r, hr, hbelow⟩ := List.mem_flatMap.mp hmem
        have hroot := contains_of_answers h.answered.answers r hr
        have htree := (List.nodup_flatMap.mp (h.nodup hf)).1 r hr
        exact htree.sublist (hbuilt.sized.subtree_sublist hroot hbelow)

theorem location_eq (h : Reconciliation f t olds p ids log s) (ht : t.Within f) {id : NodeId}
    (hid : f.contains id = true) : s.locations.get? id = t.get? id := by
  have hnone : (log.places p).lookup id = none := by
    rw [← Option.not_isSome_iff_eq_none, lookup_isSome_iff, Log.map_fst_places]
    intro hfresh
    have hnew := h.accounted.fresh_new id hfresh
    simp [hid] at hnew
  rw [Locations.get?, h.accounted.entries_eq ht, List.lookup_append, hnone]
  rfl

theorem placed (h : Reconciliation f t olds p ids log s) (ht : t.Placed f) : s.locations.Placed s.forest where
  nodup := by
    rw [h.accounted.entries_eq ht.within, List.map_append, Log.map_fst_places, List.nodup_append]
    refine ⟨h.accounted.nodup_fresh, ht.nodup, ?_⟩
    rintro x hfresh _ hold rfl
    obtain ⟨e, he, rfl⟩ := List.mem_map.mp hold
    have hnew := h.accounted.fresh_new e.1 hfresh
    simp [ht.within e he] at hnew
  isSome_eq id := by
    rw [Bool.eq_iff_iff, h.accounted.contains_iff, Locations.get?, lookup_isSome_iff,
      h.accounted.entries_eq ht.within, List.map_append, List.mem_append, Log.map_fst_places, or_comm, ← ht.isSome_eq,
      Locations.get?, lookup_isSome_iff]

end Reconciliation
end Reconcile
end Palimpsest
