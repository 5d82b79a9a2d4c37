import Palimpsest.Query.Stats

/-!
Counters of executions. They stand in strictly ascending order of kinds, and one more execution is one more
for its kind and for no other.
-/

namespace Palimpsest
namespace Query
namespace Stats

variable {counts : List (String × Nat)} {kind : String}

/-- The kinds stand in strictly ascending order. -/
def Ascending (counts : List (String × Nat)) : Prop := (counts.map Prod.fst).Pairwise (· < ·)

theorem lookup_of_lt (h : ∀ k ∈ counts.map Prod.fst, kind < k) : counts.lookup kind = none := by
  apply List.lookup_eq_none_iff.mpr
  intro e he
  apply bne_iff_ne.mpr
  intro heq
  have hlt := h e.1 (List.mem_map_of_mem he)
  exact String.lt_irrefl kind (heq ▸ hlt)

theorem mem_bump {k : String} (h : k ∈ (bump kind counts).map Prod.fst) :
    k = kind ∨ k ∈ counts.map Prod.fst := by
  induction counts with
  | nil => exact .inl (by simpa [bump] using h)
  | cons e rest ih =>
      rw [bump] at h
      split at h
      · exact .inr h
      · split at h
        · exact List.mem_cons.mp h
        · cases List.mem_cons.mp h with
          | inl heq => exact .inr (heq ▸ List.mem_cons_self)
          | inr hmem => exact (ih hmem).imp id (List.mem_cons_of_mem _)

theorem Ascending.bump (h : Ascending counts) (kind : String) : Ascending (bump kind counts) := by
  induction counts with
  | nil => exact List.pairwise_singleton _ _
  | cons e rest ih =>
      obtain ⟨hfirst, hrest⟩ := List.pairwise_cons.mp h
      rw [Stats.bump]
      split
      · exact h
      · split
        case isTrue hlt =>
          apply List.pairwise_cons.mpr
          refine ⟨fun k hk => ?_, h⟩
          cases List.mem_cons.mp hk with
          | inl heq => exact heq ▸ hlt
          | inr hmem => exact String.lt_trans hlt (hfirst k hmem)
        case isFalse hne hlt =>
          apply List.pairwise_cons.mpr
          refine ⟨fun k hk => ?_, ih hrest⟩
          cases mem_bump hk with
          | inr hmem => exact hfirst k hmem
          | inl heq =>
              subst heq
              have hle := String.not_lt.mp hlt
              apply Classical.byContradiction
              intro hge
              exact hne (String.le_antisymm hle (String.not_lt.mp hge))

theorem lookup_bump (h : Ascending counts) (kind k : String) :
    (bump kind counts).lookup k =
      if k = kind then some ((counts.lookup kind).getD 0 + 1) else counts.lookup k := by
  induction counts with
  | nil => by_cases hk : k = kind <;> simp [bump, hk, List.lookup_cons, beq_eq_false_iff_ne.mpr]
  | cons e rest ih =>
      obtain ⟨first, n⟩ := e
      obtain ⟨hfirst, hrest⟩ := List.pairwise_cons.mp h
      by_cases heq : first = kind
      · subst heq
        by_cases hk : k = first <;> simp [bump, hk, List.lookup_cons, beq_eq_false_iff_ne.mpr]
      · by_cases hlt : kind < first
        · have hnone : ((first, n) :: rest).lookup kind = none := by
            apply lookup_of_lt
            intro j hj
            cases List.mem_cons.mp hj with
            | inl hj => exact hj ▸ hlt
            | inr hj => exact String.lt_trans hlt (hfirst j hj)
          rw [bump, if_neg heq, if_pos hlt, hnone]
          by_cases hk : k = kind <;> simp [hk, List.lookup_cons, beq_eq_false_iff_ne.mpr]
        · rw [bump, if_neg heq, if_neg hlt, List.lookup_cons, ih hrest, List.lookup_cons, List.lookup_cons]
          by_cases hk : k = kind
          · subst hk
            simp [beq_eq_false_iff_ne.mpr (Ne.symm heq)]
          · simp [hk]

/-- One more body of `kind` has run. -/
def ran (s : Stats) (kind : String) (backdated : Bool) : Stats :=
  { s with executions := Stats.bump kind s.executions, backdates := s.backdates + backdated.toNat }

theorem executionsOf_ran {s : Stats} (h : Ascending s.executions) (kind : String) (backdated : Bool)
    (k : String) :
    (s.ran kind backdated).executionsOf k = s.executionsOf k + if kind == k then 1 else 0 := by
  rw [executionsOf, ran, lookup_bump h, executionsOf]
  by_cases hk : k = kind
  · simp [hk]
  · simp [hk, beq_eq_false_iff_ne.mpr (Ne.symm hk)]

end Stats
end Query
end Palimpsest
