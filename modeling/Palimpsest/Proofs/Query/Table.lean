import Palimpsest.Proofs.Lookup
import Palimpsest.Query.Table

/-!
The memo table operation by operation: what becomes of memos, revision, window and running queries.
-/

namespace Palimpsest
namespace Query
namespace Table

variable {K V W E : Type}

/-- Tables that answer alike: they may differ in their counters and in whether the window is open. -/
structure Alike (t u : Table K V) : Prop where
  revision : u.revision = t.revision
  memos : u.memos = t.memos
  active : u.active = t.active

theorem Alike.trans {t u v : Table K V} (h : Alike t u) (h' : Alike u v) : Alike t v :=
  ⟨h'.revision.trans h.revision, h'.memos.trans h.memos, h'.active.trans h.active⟩

theorem alike_closeWindow (t : Table K V) : Alike t t.closeWindow := ⟨rfl, rfl, rfl⟩

theorem alike_countHit (t : Table K V) : Alike t t.countHit := ⟨rfl, rfl, rfl⟩

theorem closeWindow_eq {t : Table K V} (h : t.accepting = false) : t.closeWindow = t := by
  cases t
  simp only at h
  simp [closeWindow, h]

variable [DecidableEq K]

theorem lookup_putMemo (key k : K) (memo : Memo K V) (memos : List (K × Memo K V)) :
    (putMemo key memo memos).lookup k = if k = key then some memo else memos.lookup k := by
  induction memos with
  | nil => by_cases h : k = key <;> simp [putMemo, h]
  | cons e rest ih =>
      obtain ⟨first, old⟩ := e
      by_cases he : first = key
      · subst he
        by_cases h : k = first
        · simp [putMemo, h]
        · simp [putMemo, h, beq_false_of_ne h, List.lookup_cons]
      · by_cases h : k = first
        · subst h
          simp [putMemo, he]
        · simp [putMemo, he, beq_false_of_ne h, List.lookup_cons, ih]

theorem memo?_put (t : Table K V) (key k : K) (memo : Memo K V) :
    (t.put key memo).memo? k = if k = key then some memo else t.memo? k :=
  lookup_putMemo key k memo t.memos

@[simp] theorem memo?_put_self (t : Table K V) (key : K) (memo : Memo K V) :
    (t.put key memo).memo? key = some memo := by
  rw [memo?_put, if_pos rfl]

theorem memo?_put_of_ne (t : Table K V) {key k : K} (memo : Memo K V) (h : k ≠ key) :
    (t.put key memo).memo? k = t.memo? k := by
  rw [memo?_put, if_neg h]

/-- The queries that have a memo. -/
def keys (t : Table K V) : List K := t.memos.map Prod.fst

theorem mem_keys_putMemo {key k : K} {memo : Memo K V} {memos : List (K × Memo K V)}
    (h : k ∈ (putMemo key memo memos).map Prod.fst) : k = key ∨ k ∈ memos.map Prod.fst := by
  induction memos with
  | nil => exact .inl (by simpa [putMemo] using h)
  | cons e rest ih =>
      by_cases he : e.1 = key
      · subst he
        simp only [putMemo, ite_true, List.map_cons, List.mem_cons] at h ⊢
        exact .inr h
      · simp only [putMemo, he, ite_false, List.map_cons, List.mem_cons] at h ⊢
        rcases h with h | h
        · exact .inr (.inl h)
        · exact (ih h).imp id .inr

theorem nodup_putMemo {memos : List (K × Memo K V)} (h : (memos.map Prod.fst).Nodup) (key : K)
    (memo : Memo K V) : ((putMemo key memo memos).map Prod.fst).Nodup := by
  induction memos with
  | nil => simp [putMemo]
  | cons e rest ih =>
      obtain ⟨hmem, hrest⟩ := List.nodup_cons.mp h
      by_cases he : e.1 = key
      · subst he
        simpa [putMemo] using h
      · simp only [putMemo, he, ite_false, List.map_cons, List.nodup_cons]
        refine ⟨fun hm => ?_, ih hrest⟩
        exact (mem_keys_putMemo hm).elim he hmem

theorem nodup_keys_put {t : Table K V} (h : t.keys.Nodup) (key : K) (memo : Memo K V) :
    (t.put key memo).keys.Nodup := nodup_putMemo h key memo

theorem memo?_eq_some_iff {t : Table K V} (h : t.keys.Nodup) {k : K} {memo : Memo K V} :
    t.memo? k = some memo ↔ (k, memo) ∈ t.memos := by
  refine ⟨fun hm => ?_, lookup_eq_some_of_mem h⟩
  obtain ⟨before, after, heq, -⟩ := List.lookup_eq_some_iff.mp hm
  simp [heq]

namespace Alike

variable {t u : Table K V}

theorem memo? (h : Alike t u) (k : K) : u.memo? k = t.memo? k := by
  rw [Table.memo?, h.memos, Table.memo?]

theorem isActive (h : Alike t u) (k : K) : u.isActive k = t.isActive k := by
  rw [Table.isActive, h.active, Table.isActive]

theorem isIntact (h : Alike t u) (since : Nat) (k : K) : u.isIntact since k = t.isIntact since k := by
  rw [Table.isIntact, h.memo?, Table.isIntact]

end Alike

theorem setInput_ok {rules : Rules K V W E} {t t' : Table K V} {key : K} {value : V}
    (h : t.setInput rules key value = .ok t') :
    rules.isInput key = true ∧ t.accepting = true ∧ ∃ memo, t' = t.put key memo ∧
      memo.verifiedAt = t.revision ∧
      (memo.value = value ∧ memo.changedAt = t.revision ∨
        ∃ old, t.memo? key = some old ∧ rules.same old.value value = true ∧ memo.value = old.value ∧
          memo.changedAt = old.changedAt) := by
  rw [setInput] at h
  by_cases hinput : rules.isInput key = true
  · by_cases hacc : t.accepting = true
    · simp only [hinput, hacc, Bool.not_true, Bool.false_eq_true, ite_false] at h
      refine ⟨hinput, hacc, ?_⟩
      cases hold : t.memo? key with
      | none =>
          simp only [hold, Except.ok.injEq] at h
          exact ⟨_, h.symm, rfl, .inl ⟨rfl, rfl⟩⟩
      | some old =>
          simp only [hold] at h
          by_cases hsame : rules.same old.value value = true
          · simp only [hsame, ite_true, Except.ok.injEq] at h
            exact ⟨_, h.symm, rfl, .inr ⟨old, rfl, hsame, rfl, rfl⟩⟩
          · simp only [hsame, ite_false, Bool.false_eq_true, Except.ok.injEq] at h
            exact ⟨_, h.symm, rfl, .inl ⟨rfl, rfl⟩⟩
    · simp [hinput, hacc] at h
  · simp [hinput] at h

theorem reads_setInput {rules : Rules K V W E} {t t' : Table K V} {key : K} {value : V}
    (h : t.setInput rules key value = .ok t') {memo : Memo K V} (hmemo : t'.memo? key = some memo) :
    memo.reads = ((t.memo? key).map Memo.reads).getD [] := by
  rw [setInput] at h
  split at h
  · cases h
  · split at h
    · cases h
    · cases hold : t.memo? key with
      | none =>
          obtain rfl : t.put key ⟨value, t.revision, t.revision, []⟩ = t' := by simpa [hold] using h
          obtain rfl : _ = memo := by simpa using hmemo
          rfl
      | some old =>
          simp only [hold] at h
          split at h <;> obtain rfl := Except.ok.inj h <;> obtain rfl : _ = memo := by simpa using hmemo
          all_goals rfl

theorem leave_eq (rules : Rules K V W E) {t : Table K V} {key : K} {reads : List K}
    {outer : List (Frame K)} (hactive : t.active = ⟨key, reads⟩ :: outer) (v : V) :
    ∃ memo stats, t.leave rules key (t.memo? key) v =
        (memo.value, { t with active := outer, stats }.put key memo) ∧
      memo.verifiedAt = t.revision ∧ memo.reads = reads ∧
      (memo.value = v ∧ memo.changedAt = t.revision ∨
        ∃ old, t.memo? key = some old ∧ rules.same v old.value = true ∧ memo.value = old.value ∧
          memo.changedAt = old.changedAt) ∧
      ∀ old, t.memo? key = some old → rules.same v old.value = true →
        memo.value = old.value ∧ memo.changedAt = old.changedAt := by
  unfold leave
  rw [hactive]
  cases hold : t.memo? key with
  | none => exact ⟨⟨v, t.revision, t.revision, reads⟩, _, rfl, rfl, rfl, .inl ⟨rfl, rfl⟩, fun _ h => nomatch h⟩
  | some old =>
      by_cases hsame : rules.same v old.value = true
      · simp only [hsame, ite_true]
        refine ⟨⟨old.value, old.changedAt, t.revision, reads⟩, _, rfl, rfl, rfl, .inr ⟨old, rfl, hsame, rfl, rfl⟩, ?_⟩
        rintro _ ⟨rfl⟩ -
        exact ⟨rfl, rfl⟩
      · simp only [hsame, ite_false, Bool.false_eq_true]
        refine ⟨⟨v, t.revision, t.revision, reads⟩, _, rfl, rfl, rfl, .inl ⟨rfl, rfl⟩, ?_⟩
        rintro _ ⟨rfl⟩ hkept
        exact absurd hkept hsame

omit [DecidableEq K] in
/-- What is stored came in this revision, or when the value of before came. -/
theorem changed_of_stored {rules : Rules K V W E} {memo : Memo K V} {v : V} {stored : Option (Memo K V)}
    {revision : Nat}
    (h : memo.value = v ∧ memo.changedAt = revision ∨
      ∃ old, stored = some old ∧ rules.same v old.value = true ∧ memo.value = old.value ∧
        memo.changedAt = old.changedAt) :
    memo.changedAt = revision ∨
      ∃ old, stored = some old ∧ memo.changedAt = old.changedAt ∧ memo.value = old.value := by
  cases h with
  | inl hnew => exact .inl hnew.2
  | inr hkept =>
      obtain ⟨old, hold, -, hvalue, hchanged⟩ := hkept
      exact .inr ⟨old, hold, hchanged, hvalue⟩

/-- The table at the start of the next revision. -/
def advanced (rules : Rules K V W E) (t : Table K V) (keep : Bool) : Table K V :=
  { t with
    revision := t.revision + 1
    accepting := true
    memos := if keep then t.memos else t.memos.filter fun e => rules.isInput e.1 }

omit [DecidableEq K] in
theorem advance_of_idle {rules : Rules K V W E} {t : Table K V} (h : t.active = []) (keep : Bool) :
    t.advance rules keep = .ok (t.advanced rules keep) := by
  have hidle : t.requireIdle .advancing = (.ok () : Except (Fault K E) Unit) := by rw [requireIdle, h]
  rw [advance, hidle]
  rfl

theorem memo?_advanced (rules : Rules K V W E) (t : Table K V) (keep : Bool) (k : K) :
    (t.advanced rules keep).memo? k = if keep || rules.isInput k then t.memo? k else none := by
  cases keep with
  | true => rfl
  | false =>
      have h := lookup_filter_key rules.isInput t.memos k
      simpa [advanced, memo?] using h

/-- The read is noted with the innermost running query, once. -/
def noteRead (reads : List K) (key : K) : List K := if key ∈ reads then reads else reads ++ [key]

theorem recordRead_of_active {t : Table K V} {frame : Frame K} {outer : List (Frame K)}
    (h : t.active = frame :: outer) (key : K) :
    t.recordRead key = { t with active := { frame with reads := noteRead frame.reads key } :: outer } := by
  rw [recordRead, noteRead]
  rw [h]
  by_cases hmem : key ∈ frame.reads
  · simp only [List.contains_eq_mem, hmem, decide_true, ite_true]
    cases t
    simp_all
  · simp [List.contains_eq_mem, hmem]

theorem recordRead_of_idle {t : Table K V} (h : t.active = []) (key : K) : t.recordRead key = t := by
  rw [recordRead]
  rw [h]

/-- The value that a read gets without any work: that of an input or of a memo known to be current. -/
def current? (rules : Rules K V W E) (t : Table K V) (key : K) : Option V :=
  match t.memo? key with
  | some memo => if rules.isInput key || memo.verifiedAt == t.revision then some memo.value else none
  | none => none

section Current

variable {rules : Rules K V W E} {t : Table K V} {key : K}

theorem current?_eq_some {v : V} :
    t.current? rules key = some v ↔
      ∃ memo, t.memo? key = some memo ∧ memo.value = v ∧
        (rules.isInput key = true ∨ memo.verifiedAt = t.revision) := by
  rw [current?]
  cases h : t.memo? key with
  | none => simp
  | some memo => by_cases hc : rules.isInput key ∨ memo.verifiedAt = t.revision <;> simp [hc]

theorem current?_of_memo {memo : Memo K V} (h : t.memo? key = some memo)
    (hc : rules.isInput key = true ∨ memo.verifiedAt = t.revision) :
    t.current? rules key = some memo.value :=
  current?_eq_some.mpr ⟨memo, h, rfl, hc⟩

theorem current?_congr {u : Table K V} (hrev : u.revision = t.revision) (hmemo : u.memo? key = t.memo? key) :
    u.current? rules key = t.current? rules key := by
  rw [current?, hmemo, hrev, current?]

end Current

end Table
end Query
end Palimpsest
