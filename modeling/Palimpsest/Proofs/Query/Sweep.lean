import Palimpsest.Proofs.Query.Order
import Palimpsest.Proofs.Reach

/-!
Sweeping the memo table. What is dropped is what leads back, by reads that were valid, to a memo that is
out of date by itself; no memo that is known to be current is among it, and a second sweep finds nothing.
-/

namespace Palimpsest
namespace Query
namespace Table

variable {K V W E : Type} [DecidableEq K] {rules : Rules K V W E} {t : Table K V}

/-- Out of date, by itself or by way of what was read. -/
def Stale (rules : Rules K V W E) (t : Table K V) (k : K) : Prop :=
  Reach.Reachable (t.dependents rules) (t.staleSeeds rules) k

theorem mem_staleSeeds {k : K} :
    k ∈ t.staleSeeds rules ↔ ∃ memo, (k, memo) ∈ t.memos ∧ t.isUnverified rules (k, memo) = true ∧
      ∃ d ∈ memo.reads, t.isIntact memo.verifiedAt d = false := by
  simp [staleSeeds, and_assoc]

theorem mem_dependents {k d : K} :
    k ∈ t.dependents rules d ↔ ∃ memo, (k, memo) ∈ t.memos ∧ t.isUnverified rules (k, memo) = true ∧
      d ∈ memo.reads ∧ t.isIntact memo.verifiedAt d = true := by
  simp [dependents, and_assoc]

theorem Stale.unverified {k : K} (h : t.Stale rules k) :
    ∃ memo, (k, memo) ∈ t.memos ∧ t.isUnverified rules (k, memo) = true := by
  refine Reach.Reachable.of_closed (p := fun k =>
    ∃ memo, (k, memo) ∈ t.memos ∧ t.isUnverified rules (k, memo) = true) ?_ ?_ h
  · intro k hk
    obtain ⟨memo, hmem, hun, -⟩ := mem_staleSeeds.mp hk
    exact ⟨memo, hmem, hun⟩
  · intro d _ k hk
    obtain ⟨memo, hmem, hun, -⟩ := mem_dependents.mp hk
    exact ⟨memo, hmem, hun⟩

theorem staleKeys_spec (rules : Rules K V W E) (t : Table K V) :
    (t.staleKeys rules).Nodup ∧ ∀ k, k ∈ t.staleKeys rules ↔ t.Stale rules k := by
  have hdomain : ∀ k, t.Stale rules k → k ∈ t.keys := by
    intro k hk
    obtain ⟨memo, hmem, -⟩ := hk.unverified
    exact List.mem_map.mpr ⟨(k, memo), hmem, rfl⟩
  let successors (k : K) : Id (List K) := t.dependents rules k
  obtain ⟨trace, heq, hnodup, -, hmem⟩ : ∃ trace : Reach.Trace K,
      Reach.trace successors t.memos.length (t.staleSeeds rules) = pure trace ∧ trace.marked.Nodup ∧
        trace.asked.Perm trace.marked ∧ ∀ k, k ∈ trace.marked ↔ t.Stale rules k :=
    Reach.trace_eq (fun _ _ => rfl) hdomain (by simp [keys])
  have hkeys : t.staleKeys rules = trace.marked := congrArg Reach.Trace.marked heq
  rw [hkeys]
  exact ⟨hnodup, hmem⟩

theorem mem_staleKeys {k : K} : k ∈ t.staleKeys rules ↔ t.Stale rules k := (staleKeys_spec rules t).2 k

/-- What a sweep leaves. -/
def swept (rules : Rules K V W E) (t : Table K V) : Table K V :=
  { t with memos := t.memos.filter fun e => !(t.staleKeys rules).contains e.1 }

theorem sweep_of_idle (h : t.active = []) :
    t.sweep rules = .ok (t.staleKeys rules, t.swept rules) := by
  have hidle : t.requireIdle .sweeping = (.ok () : Except (Fault K E) Unit) := by rw [requireIdle, h]
  rw [sweep, hidle]
  rfl

theorem mem_memos_swept {e : K × Memo K V} :
    e ∈ (t.swept rules).memos ↔ e ∈ t.memos ∧ ¬ t.Stale rules e.1 := by
  simp [swept, mem_staleKeys]

theorem memo?_swept_of_not_stale {k : K} (h : ¬ t.Stale rules k) :
    (t.swept rules).memo? k = t.memo? k := by
  have hkeys := mt mem_staleKeys.mp h
  rw [memo?, swept, lookup_filter_key (fun k => !(t.staleKeys rules).contains k), memo?]
  simp [hkeys]

theorem memo?_swept_of_stale {k : K} (h : t.Stale rules k) : (t.swept rules).memo? k = none := by
  have hkeys := mem_staleKeys.mpr h
  rw [memo?, swept, lookup_filter_key (fun k => !(t.staleKeys rules).contains k)]
  simp [hkeys]

theorem memo?_of_swept {k : K} {memo : Memo K V} (h : (t.swept rules).memo? k = some memo) :
    ¬ t.Stale rules k ∧ t.memo? k = some memo := by
  by_cases hstale : t.Stale rules k
  · simp [memo?_swept_of_stale hstale] at h
  · exact ⟨hstale, (memo?_swept_of_not_stale hstale).symm.trans h⟩

theorem nodup_keys_swept (h : t.keys.Nodup) : (t.swept rules).keys.Nodup :=
  h.sublist (List.filter_sublist.map Prod.fst)

/-- A sweep drops one memo for each stale query. -/
theorem length_swept (h : t.keys.Nodup) :
    (t.swept rules).memos.length + (t.staleKeys rules).length = t.memos.length := by
  let stale (e : K × Memo K V) : Bool := (t.staleKeys rules).contains e.1
  have hdropped : ((t.memos.filter stale).map Prod.fst).Perm (t.staleKeys rules) := by
    have hnodup : ((t.memos.filter stale).map Prod.fst).Nodup :=
      h.sublist (List.filter_sublist.map Prod.fst)
    refine (List.perm_ext_iff_of_nodup hnodup (staleKeys_spec rules t).1).mpr fun k => ?_
    constructor
    · intro hk
      obtain ⟨e, he, rfl⟩ := List.mem_map.mp hk
      simpa [stale] using (List.mem_filter.mp he).2
    · intro hk
      obtain ⟨memo, hmem, -⟩ := (mem_staleKeys.mp hk).unverified
      exact List.mem_map.mpr ⟨(k, memo), List.mem_filter.mpr ⟨hmem, by simpa [stale] using hk⟩, rfl⟩
  have hlength := hdropped.length_eq
  rw [List.length_map] at hlength
  have hsplit := List.length_eq_length_filter_add (l := t.memos) stale
  have hkept : (t.swept rules).memos = t.memos.filter fun e => !stale e := rfl
  rw [hkept]
  omega

theorem Stale.not_current (h : t.keys.Nodup) {k : K} (hk : t.Stale rules k) : t.current? rules k = none := by
  obtain ⟨memo, hmem, hun⟩ := hk.unverified
  have hmemo := (memo?_eq_some_iff h).mpr hmem
  simp only [isUnverified, Bool.and_eq_true, Bool.not_eq_true', bne_iff_ne] at hun
  simp [current?, hmemo, hun]

theorem current?_swept (h : t.keys.Nodup) (k : K) : (t.swept rules).current? rules k = t.current? rules k := by
  by_cases hk : t.Stale rules k
  · rw [hk.not_current h, current?, memo?_swept_of_stale hk]
  · exact current?_congr rfl (memo?_swept_of_not_stale hk)

theorem Orderly.swept (h : Orderly rules t) : Orderly rules (t.swept rules) := by
  have holds {k : K} {memo : Memo K V} (hk : (t.swept rules).Holds rules k memo) :
      t.Holds rules k memo := ⟨hk.1, (memo?_of_swept hk.2).2⟩
  obtain ⟨rank, hrank⟩ := h.ordered
  exact
    { nodup := nodup_keys_swept h.nodup
      verified_le := fun k memo hk => h.verified_le k memo (holds hk)
      closed := fun k memo hk hv d hd => by
        rw [current?_swept h.nodup]
        exact h.closed k memo (holds hk) hv d hd
      ordered := ⟨rank, fun k m d read hk hd hread => hrank k m d read (holds hk) hd (holds hread)⟩ }

/-- What reads a stale query, validly, is stale, and what reads it otherwise is so too. -/
theorem not_stale_swept (k : K) : ¬ (t.swept rules).Stale rules k := by
  intro hk
  refine Reach.Reachable.of_closed (p := fun _ => False) ?_ (fun _ hf => hf.elim) hk
  intro k hk
  obtain ⟨memo, hmem, hun, d, hd, hintact⟩ := mem_staleSeeds.mp hk
  obtain ⟨hmem, hfresh⟩ := mem_memos_swept.mp hmem
  apply hfresh
  by_cases hbefore : t.isIntact memo.verifiedAt d = true
  · have hstale : t.Stale rules d := by
      by_contra hd
      rw [isIntact, memo?_swept_of_not_stale hd, ← isIntact, hbefore] at hintact
      exact absurd hintact (by simp)
    exact hstale.step (mem_dependents.mpr ⟨memo, hmem, hun, hd, hbefore⟩)
  · exact .root (mem_staleSeeds.mpr ⟨memo, hmem, hun, d, hd, by simpa using hbefore⟩)

theorem staleKeys_swept : (t.swept rules).staleKeys rules = [] := by
  refine List.eq_nil_iff_forall_not_mem.mpr fun k hk => ?_
  exact not_stale_swept k (mem_staleKeys.mp hk)

theorem swept_swept : (t.swept rules).swept rules = t.swept rules := by
  rw [swept, staleKeys_swept]
  simp

end Table
end Query
end Palimpsest
