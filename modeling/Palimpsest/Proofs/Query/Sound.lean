import Palimpsest.Proofs.Query.Order
import Palimpsest.Proofs.Query.Scratch

/-!
When a memo table is sound for given inputs. Its memos are in order, and a memo that is known to be current
has the value found from nothing. Any other memo has the value that its body gave for the reads that it
records, and a read that has not changed since still has the value that it had then.
-/

namespace Palimpsest
namespace Query

open Filter

variable {K V W E : Type} [DecidableEq K]

/-- A script that reads, from `seen` on, up to `reads` and yields `w`, with reads answered by `values`. -/
def Script.Follows (values : K → Option V) : Script K V W E → (seen reads : List K) → V → Prop
  | .yield v, seen, reads, w => seen = reads ∧ v = w
  | .read key next, seen, reads, w =>
    ∃ v, values key = some v ∧ (next v).Follows values (Table.noteRead seen key) reads w
  | _, _, _, _ => False

namespace Script

variable {values : K → Option V} {s : Script K V W E} {seen reads : List K} {w : V}

theorem prefix_noteRead (seen : List K) (key : K) : seen <+: Table.noteRead seen key := by
  rw [Table.noteRead]
  split
  · exact List.prefix_rfl
  · exact List.prefix_append _ _

theorem mem_noteRead_self (seen : List K) (key : K) : key ∈ Table.noteRead seen key := by
  rw [Table.noteRead]
  split
  · assumption
  · simp

theorem mem_noteRead {seen : List K} {key k : K} (h : k ∈ Table.noteRead seen key) :
    k ∈ seen ∨ k = key := by
  rw [Table.noteRead] at h
  split at h
  · exact .inl h
  · simpa using h

theorem Follows.seen_prefix (h : s.Follows values seen reads w) : seen <+: reads := by
  induction s generalizing seen with
  | yield v => exact h.1 ▸ List.prefix_rfl
  | read key next ih =>
      obtain ⟨v, -, hnext⟩ := h
      exact (prefix_noteRead seen key).trans (ih v hnext)
  | fail _ | peek _ _ _ | running _ _ | set _ _ _ _ | advance _ _ _ | sweep _ _ | look _ _
  | change _ _ _ => exact h.elim

theorem Follows.congr {other : K → Option V} (hvalues : ∀ k ∈ reads, values k = other k)
    (h : s.Follows values seen reads w) : s.Follows other seen reads w := by
  induction s generalizing seen with
  | yield v => exact h
  | read key next ih =>
      obtain ⟨v, hv, hnext⟩ := h
      have hkey : key ∈ reads := hnext.seen_prefix.subset (mem_noteRead_self seen key)
      exact ⟨v, hvalues key hkey ▸ hv, ih v hnext⟩
  | fail _ | peek _ _ _ | running _ _ | set _ _ _ _ | advance _ _ _ | sweep _ _ | look _ _
  | change _ _ _ => exact h.elim

/-- Where the reads are found from nothing to have the values followed, the script comes to its value. -/
theorem Follows.eventually_answer {read : Nat → K → Option (Except (Fault K E) V)}
    (hread : ∀ k ∈ reads, ∀ v, values k = some v → ∀ᶠ n in atTop, read n k = some (.ok v))
    (h : s.Follows values seen reads w) : ∀ᶠ n in atTop, s.answer (read n) = some (.ok w) := by
  induction s generalizing seen with
  | yield v => exact Eventually.of_forall fun n => by rw [answer, h.2]
  | read key next ih =>
      obtain ⟨v, hv, hnext⟩ := h
      have hkey : key ∈ reads := hnext.seen_prefix.subset (mem_noteRead_self seen key)
      filter_upwards [hread key hkey v hv, ih v hnext] with n hn hnext
      rw [answer, hn]
      exact hnext
  | fail _ | peek _ _ _ | running _ _ | set _ _ _ _ | advance _ _ _ | sweep _ _ | look _ _
  | change _ _ _ => exact h.elim

end Script

namespace Table

variable {rules : Rules K V W E} {inputs : K → Option V} {t u : Table K V}

/-- `values` are those that the reads of a memo had when it was last verified. -/
structure Recorded (rules : Rules K V W E) (t : Table K V) (k : K) (memo : Memo K V)
    (values : K → Option V) : Prop where
  follows : (rules.body k none).Follows values [] memo.reads memo.value
  unchanged : ∀ d ∈ memo.reads, ∀ read, t.memo? d = some read → read.changedAt ≤ memo.verifiedAt →
    values d = some read.value

structure Sound (rules : Rules K V W E) (inputs : K → Option V) (t : Table K V) : Prop
    extends Orderly rules t where
  inputs_eq : ∀ k, rules.isInput k = true → t.value? k = inputs k
  recorded : ∀ k memo, t.Holds rules k memo → ∃ values, t.Recorded rules k memo values
  scratch_eq : ∀ k memo, t.Holds rules k memo → memo.verifiedAt = t.revision →
    ∀ above, (∀ p ∈ above, t.current? rules p = none) →
      ∀ᶠ n in atTop, rules.scratch inputs n above k = some (.ok memo.value)

namespace Sound

theorem of_memos (h : Sound rules inputs t) (hrev : u.revision = t.revision) (hmemos : u.memos = t.memos) :
    Sound rules inputs u := by
  have horderly := h.toOrderly.of_memos hrev hmemos
  cases t
  cases u
  simp only at hrev hmemos
  subst hrev hmemos
  refine ⟨horderly, h.inputs_eq, fun k memo hk => ?_, h.scratch_eq⟩
  obtain ⟨values, hvalues⟩ := h.recorded k memo hk
  exact ⟨values, hvalues.follows, hvalues.unchanged⟩

theorem of_alike (h : Sound rules inputs t) (hu : Alike t u) : Sound rules inputs u :=
  h.of_memos hu.revision hu.memos

/-- A value that can be read without any work is the one found from nothing. -/
theorem scratch_current (h : Sound rules inputs t) {k : K} {v : V} (hk : t.current? rules k = some v)
    {above : List K} (habove : ∀ p ∈ above, t.current? rules p = none) :
    ∀ᶠ n in atTop, rules.scratch inputs n above k = some (.ok v) := by
  obtain ⟨memo, hmemo, rfl, hc⟩ := current?_eq_some.mp hk
  by_cases hinput : rules.isInput k
  · have hvalue : inputs k = some memo.value := by
      rw [← h.inputs_eq k hinput, value?, hmemo]
      rfl
    have hmem : k ∉ above := fun hm => by simp [habove k hm] at hk
    have hfound : rules.scratch inputs 1 above k = some (.ok memo.value) := by
      simp [Rules.scratch, hmem, hinput, hvalue]
    exact Rules.eventually_scratch hfound
  · have hderived : rules.isInput k = false := by simpa using hinput
    exact h.scratch_eq k memo ⟨hderived, hmemo⟩ (hc.resolve_left hinput) above habove

/-- A body whose reads can all be had without any work comes, from nothing, to what it yields for them. -/
theorem scratch_of_follows (h : Sound rules inputs t) {k : K} {reads : List K} {w : V}
    (hk : rules.isInput k = false) (hcurrent : t.current? rules k = none)
    (hfollows : (rules.body k none).Follows (t.current? rules) [] reads w)
    {above : List K} (hmem : k ∉ above) (habove : ∀ p ∈ above, t.current? rules p = none) :
    ∀ᶠ n in atTop, rules.scratch inputs n above k = some (.ok w) := by
  have hpending : ∀ p ∈ k :: above, t.current? rules p = none := by
    simpa [hcurrent] using habove
  have hread : ∀ d ∈ reads, ∀ v, t.current? rules d = some v →
      ∀ᶠ n in atTop, rules.scratch inputs n (k :: above) d = some (.ok v) :=
    fun d _ v hv => h.scratch_current hv hpending
  have hanswer := hfollows.eventually_answer hread
  refine eventually_succ hanswer fun n hn => ?_
  simpa [Rules.scratch, hmem, hk] using hn

end Sound

/-- A memo for `k` that its body has given, or would give again. -/
structure Fresh (rules : Rules K V W E) (t : Table K V) (k : K) (memo : Memo K V) : Prop
    extends Marked rules t k memo where
  follows : (rules.body k none).Follows (t.current? rules) [] memo.reads memo.value
  changed : memo.changedAt = t.revision ∨
    ∃ old, t.memo? k = some old ∧ memo.changedAt = old.changedAt ∧ memo.value = old.value

namespace Fresh

variable {k : K} {memo : Memo K V}

/-- What other memos have on record stays true. -/
theorem recorded_put (h : Fresh rules t k memo) (ht : Sound rules inputs t) {j : K} {other : Memo K V}
    (hj : t.Holds rules j other) {values : K → Option V} (hr : t.Recorded rules j other values) :
    (t.put k memo).Recorded rules j other values := by
  refine ⟨hr.follows, fun d hd read hread hle => ?_⟩
  by_cases hdk : d = k
  · subst hdk
    obtain rfl : memo = read := by simpa using hread
    rcases h.changed with hrev | ⟨old, hold, hchanged, hvalue⟩
    · have := h.verified_lt ht.toOrderly hj hd
      omega
    · rw [hvalue]
      exact hr.unchanged d hd old hold (hchanged ▸ hle)
  · exact hr.unchanged d hd read ((memo?_put_of_ne t memo hdk).symm.trans hread) hle

theorem sound_put (h : Fresh rules t k memo) (ht : Sound rules inputs t) :
    Sound rules inputs (t.put k memo) where
  toOrderly := h.orderly_put ht.toOrderly
  inputs_eq j hj := by
    have hjk : j ≠ k := by
      rintro rfl
      simp [h.derived] at hj
    rw [← ht.inputs_eq j hj, value?, memo?_put_of_ne t memo hjk, value?]
  recorded j other hj := by
    rcases Marked.holds_put hj with ⟨rfl, rfl⟩ | ⟨-, hj⟩
    · refine ⟨t.current? rules, h.follows, fun d hd read hread _ => ?_⟩
      have hdj : d ≠ j := fun he => h.not_mem_reads (he ▸ hd)
      obtain ⟨v, hv⟩ := Option.isSome_iff_exists.mp (h.reads d hd)
      obtain ⟨stored, hstored, hvalue, -⟩ := current?_eq_some.mp hv
      rw [memo?_put_of_ne t _ hdj, hstored] at hread
      rw [hv, ← hvalue, Option.some.inj hread]
    · obtain ⟨values, hvalues⟩ := ht.recorded j other hj
      exact ⟨values, h.recorded_put ht hj hvalues⟩
  scratch_eq j other hj hv above habove := by
    have hpending : ∀ p ∈ above, t.current? rules p = none := fun p hp =>
      (h.current?_eq_none (habove p hp)).2
    rcases Marked.holds_put hj with ⟨rfl, rfl⟩ | ⟨-, hj⟩
    · have hmem : j ∉ above := fun hm => (h.current?_eq_none (habove j hm)).1 rfl
      exact ht.scratch_of_follows h.derived h.pending h.follows hmem hpending
    · exact ht.scratch_eq j other hj hv above hpending

end Fresh
end Table
end Query
end Palimpsest
