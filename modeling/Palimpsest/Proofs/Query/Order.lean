import Mathlib.Algebra.Order.BigOperators.Group.List
import Mathlib.Algebra.Order.Group.Nat
import Palimpsest.Proofs.Query.Table

/-!
When the memos of a table are in order, whatever their values. Memos are read by memos that were verified
no later, no memo is recorded as read below itself, and what is known to be current was read from what is.
Storing a memo for a query whose reads are all current keeps that order.
-/

namespace Palimpsest
namespace Query
namespace Table

variable {K V W E : Type} [DecidableEq K] {rules : Rules K V W E} {t u : Table K V}

/-- `memo` is the memo of the derived query `k`. -/
def Holds (rules : Rules K V W E) (t : Table K V) (k : K) (memo : Memo K V) : Prop :=
  rules.isInput k = false ∧ t.memo? k = some memo

/-- Memos are read by memos that were verified no later, and in the same revision by those of higher
rank only. -/
def Ordered (rules : Rules K V W E) (t : Table K V) (rank : K → Nat) : Prop :=
  ∀ k memo d read, t.Holds rules k memo → d ∈ memo.reads → t.Holds rules d read →
    memo.verifiedAt ≤ read.verifiedAt ∧ (read.verifiedAt = memo.verifiedAt → rank d < rank k)

structure Orderly (rules : Rules K V W E) (t : Table K V) : Prop where
  nodup : t.keys.Nodup
  verified_le : ∀ k memo, t.Holds rules k memo → memo.verifiedAt ≤ t.revision
  /-- What is known to be current was read from what is. -/
  closed : ∀ k memo, t.Holds rules k memo → memo.verifiedAt = t.revision →
    ∀ d ∈ memo.reads, (t.current? rules d).isSome
  ordered : ∃ rank, t.Ordered rules rank

theorem Holds.of_memo? {k : K} {memo : Memo K V} (h : t.Holds rules k memo)
    (hmemo : u.memo? k = t.memo? k) : u.Holds rules k memo :=
  ⟨h.1, hmemo.trans h.2⟩

theorem Holds.current?_eq_none {k : K} {memo : Memo K V} (h : t.Holds rules k memo) :
    t.current? rules k = none ↔ memo.verifiedAt ≠ t.revision := by
  simp [Table.current?, h.1, h.2]

namespace Orderly

theorem empty (rules : Rules K V W E) : Orderly rules (.empty : Table K V) where
  nodup := List.nodup_nil
  verified_le _ _ h := nomatch h.2
  closed _ _ h := nomatch h.2
  ordered := ⟨fun _ => 0, fun _ _ _ _ h => nomatch h.2⟩

theorem of_memos (h : Orderly rules t) (hrev : u.revision = t.revision) (hmemos : u.memos = t.memos) :
    Orderly rules u := by
  cases t
  cases u
  simp only at hrev hmemos
  subst hrev hmemos
  exact ⟨h.nodup, h.verified_le, h.closed, h.ordered⟩

theorem of_alike (h : Orderly rules t) (hu : Alike t u) : Orderly rules u :=
  h.of_memos hu.revision hu.memos

/-- Memos may go, as long as none is left that is known to be current. -/
theorem of_fewer (h : Orderly rules t) (hnodup : u.keys.Nodup) (hrev : t.revision ≤ u.revision)
    (hmemo : ∀ k memo, u.Holds rules k memo → t.Holds rules k memo)
    (houtdated : ∀ k memo, u.Holds rules k memo → memo.verifiedAt ≠ u.revision) : Orderly rules u where
  nodup := hnodup
  verified_le k memo hk := (h.verified_le k memo (hmemo k memo hk)).trans hrev
  closed k memo hk hv := absurd hv (houtdated k memo hk)
  ordered := by
    obtain ⟨rank, hrank⟩ := h.ordered
    exact ⟨rank, fun k m d read hk hd hread => hrank k m d read (hmemo k m hk) hd (hmemo d read hread)⟩

end Orderly

/-- A memo for `k` that is known to be current, over reads that are. -/
structure Marked (rules : Rules K V W E) (t : Table K V) (k : K) (memo : Memo K V) : Prop where
  derived : rules.isInput k = false
  pending : t.current? rules k = none
  verified : memo.verifiedAt = t.revision
  reads : ∀ d ∈ memo.reads, (t.current? rules d).isSome

namespace Marked

variable {k : K} {memo : Memo K V}

theorem not_mem_reads (h : Marked rules t k memo) : k ∉ memo.reads := by
  intro hk
  simpa [h.pending] using h.reads k hk

theorem current?_put_of_ne (t : Table K V) (memo : Memo K V) {j : K} (hj : j ≠ k) :
    (t.put k memo).current? rules j = t.current? rules j :=
  current?_congr rfl (memo?_put_of_ne t memo hj)

theorem current?_put_self (h : Marked rules t k memo) :
    (t.put k memo).current? rules k = some memo.value :=
  current?_of_memo (memo?_put_self t k memo) (.inr h.verified)

theorem current?_put (h : Marked rules t k memo) {j : K} (hj : (t.current? rules j).isSome) :
    (t.put k memo).current? rules j = t.current? rules j := by
  refine current?_put_of_ne t memo ?_
  rintro rfl
  simp [h.pending] at hj

theorem current?_eq_none (h : Marked rules t k memo) {j : K}
    (hj : (t.put k memo).current? rules j = none) : j ≠ k ∧ t.current? rules j = none := by
  have hne : j ≠ k := by
    rintro rfl
    simp [h.current?_put_self] at hj
  exact ⟨hne, (current?_put_of_ne t memo hne).symm.trans hj⟩

theorem holds_put {j : K} {other : Memo K V} (hj : (t.put k memo).Holds rules j other) :
    j = k ∧ other = memo ∨ j ≠ k ∧ t.Holds rules j other := by
  by_cases h : j = k
  · subst h
    have := hj.2
    simp only [memo?_put_self, Option.some.injEq] at this
    exact .inl ⟨rfl, this.symm⟩
  · exact .inr ⟨h, hj.1, (memo?_put_of_ne t memo h).symm.trans hj.2⟩

theorem verified_lt (h : Marked rules t k memo) (ht : Orderly rules t) {j : K} {other : Memo K V}
    (hj : t.Holds rules j other) (hk : k ∈ other.reads) : other.verifiedAt < t.revision := by
  refine Nat.lt_of_le_of_ne (ht.verified_le j other hj) fun hv => ?_
  simpa [h.pending] using ht.closed j other hj hv k hk

theorem ordered_put (h : Marked rules t k memo) (ht : Orderly rules t) :
    ∃ rank, (t.put k memo).Ordered rules rank := by
  obtain ⟨rank, hrank⟩ := ht.ordered
  -- The new memo ranks above everything that it reads; nothing current reads it.
  refine ⟨fun j => if j = k then (memo.reads.map rank).sum + 1 else rank j, ?_⟩
  intro j other d read hj hd hread
  rcases holds_put hj with ⟨rfl, rfl⟩ | ⟨hjk, hj'⟩
  · have hdk : d ≠ j := fun he => h.not_mem_reads (he ▸ hd)
    obtain ⟨-, hread⟩ := (holds_put hread).resolve_left fun he => hdk he.1
    have hcurrent : (t.current? rules d).isSome := h.reads d hd
    have hverified : read.verifiedAt = t.revision := by
      by_contra hne
      simp [hread.current?_eq_none.mpr hne] at hcurrent
    refine ⟨Nat.le_of_eq (h.verified.trans hverified.symm), fun _ => ?_⟩
    have := List.single_le_sum (fun _ _ => Nat.zero_le _) _ (List.mem_map_of_mem (f := rank) hd)
    simp only [hdk, ite_true, ite_false]
    omega
  · rcases holds_put hread with ⟨rfl, rfl⟩ | ⟨hdk, hread'⟩
    · have hlt := h.verified_lt ht hj' hd
      have hv := h.verified
      exact ⟨by omega, fun he => by omega⟩
    · simp only [hjk, hdk, ite_false]
      exact hrank j other d read hj' hd hread'

theorem orderly_put (h : Marked rules t k memo) (ht : Orderly rules t) : Orderly rules (t.put k memo) where
  nodup := nodup_keys_put ht.nodup k memo
  verified_le j other hj := by
    rcases holds_put hj with ⟨rfl, rfl⟩ | ⟨-, hj⟩
    · exact Nat.le_of_eq h.verified
    · exact ht.verified_le j other hj
  closed j other hj hv d hd := by
    rcases holds_put hj with ⟨rfl, rfl⟩ | ⟨-, hj⟩
    · have hd' := h.reads d hd
      rwa [h.current?_put hd']
    · have hd' := ht.closed j other hj hv d hd
      rwa [h.current?_put hd']
  ordered := h.ordered_put ht

end Marked
end Table
end Query
end Palimpsest
