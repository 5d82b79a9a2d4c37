import Mathlib.Data.List.Chain
import Mathlib.Order.WellFounded
import Palimpsest.Proofs.Query.Run
import Palimpsest.Proofs.Query.Sound

/-!
Queries under way while one is answered, from the innermost out. Each waits for the one inside it: its
body runs, or its memo is being checked. A query that is met again while it is under way leads back to a
running one, because no memo is recorded as read below itself, so that the cycle is found.
-/

namespace Palimpsest
namespace Query

open Filter

variable {K V W E : Type} [DecidableEq K]

/-- The faults tell of the same trouble: the same input without a value, or some cycle. -/
def Fault.SameCause : Fault K E → Fault K E → Prop
  | .unset k, .unset k' => k = k'
  | .cycle _, .cycle _ => True
  | _, _ => False

namespace Rules

variable {rules : Rules K V W E} {inputs : K → Option V}

/-- One query further down, and not one of those above it. -/
def Descends (rules : Rules K V W E) (inputs : K → Option V) (longer path : List K) : Prop :=
  (∃ k, longer = k :: path) ∧ longer.Nodup ∧
    longer.IsChain fun inner outer => rules.Asks inputs outer inner

theorem acc_descends (h : ¬ rules.EndlessDescent inputs) (path : List K) :
    Acc (rules.Descends inputs) path := by
  by_contra hacc
  obtain ⟨paths, -, hdown⟩ := not_acc_iff_exists_descending_chain.mp hacc
  choose keys hkeys using fun n => (hdown n).1
  have hmem (m n : Nat) (hlt : m < n) : keys m ∈ paths n := by
    induction hlt with
    | refl => rw [Nat.succ_eq_add_one, hkeys m]; simp
    | step _ ih => rw [Nat.succ_eq_add_one, hkeys]; exact List.mem_cons_of_mem _ ih
  have hne (m n : Nat) (hlt : m < n) : keys m ≠ keys n := by
    intro he
    have hnodup := (hdown n).2.1
    rw [hkeys n, List.nodup_cons] at hnodup
    exact hnodup.1 (he ▸ hmem m n hlt)
  refine h ⟨keys, fun m n he => ?_, fun n => ?_⟩
  · rcases Nat.lt_trichotomy m n with hlt | heq | hgt
    · exact absurd he (hne m n hlt)
    · exact heq
    · exact absurd he.symm (hne n m hgt)
  · have hchain := (hdown (n + 1)).2.2
    rw [hkeys (n + 1), hkeys n, List.isChain_cons_cons] at hchain
    exact hchain.1

end Rules

namespace Table

variable {rules : Rules K V W E} {inputs : K → Option V} {t u : Table K V} {path : List K}

/-- The memo of `outer` is being checked, and the check has come to `inner`. -/
def Verifies (rules : Rules K V W E) (t : Table K V) (outer inner : K) : Prop :=
  ∃ memo before after, t.Holds rules outer memo ∧ memo.verifiedAt ≠ t.revision ∧
    memo.reads = before ++ inner :: after ∧
    (∀ d ∈ before, (t.current? rules d).isSome ∧ t.isIntact memo.verifiedAt d = true) ∧
    (t.memo? inner).isSome

def Waits (rules : Rules K V W E) (t : Table K V) (outer inner : K) : Prop :=
  t.isActive outer = true ∨ t.Verifies rules outer inner

/-- The queries under way, from the innermost out. -/
structure Waiting (rules : Rules K V W E) (t : Table K V) (path : List K) : Prop where
  derived : ∀ p ∈ path, rules.isInput p = false
  pending : ∀ p ∈ path, t.current? rules p = none
  active : ∀ p, t.isActive p = true → p ∈ path
  waits : path.IsChain fun inner outer => t.Waits rules outer inner
  nodup : path.Nodup

/-- The queries under way, each of which the evaluation of the next from nothing reads as well. -/
structure Underway (rules : Rules K V W E) (inputs : K → Option V) (t : Table K V) (path : List K) :
    Prop extends Waiting rules t path where
  asks : path.IsChain fun inner outer => rules.Asks inputs outer inner

/-- The innermost query under way waits for `k`. -/
def Awaited (rules : Rules K V W E) (t : Table K V) (path : List K) (k : K) : Prop :=
  ∀ outer ∈ path.head?, t.Waits rules outer k

/-- The innermost query under way waits for `k`, which its evaluation from nothing reads as well. -/
def Wanted (rules : Rules K V W E) (inputs : K → Option V) (t : Table K V) (path : List K) (k : K) :
    Prop :=
  ∀ outer ∈ path.head?, t.Waits rules outer k ∧ rules.Asks inputs outer k

/-- What answering a query leaves alone: inputs, and whatever is current or under way. -/
structure Keeps (rules : Rules K V W E) (path : List K) (t u : Table K V) : Prop where
  revision : u.revision = t.revision
  accepting : u.accepting = t.accepting
  inputs : ∀ k, rules.isInput k = true → u.memo? k = t.memo? k
  current : ∀ k, (t.current? rules k).isSome → u.memo? k = t.memo? k
  waiting : ∀ k ∈ path, u.memo? k = t.memo? k

/-- Besides, what is on record of the queries under way stays true. -/
structure Extends (rules : Rules K V W E) (path : List K) (t u : Table K V) : Prop
    extends Keeps rules path t u where
  recorded : ∀ k ∈ path, ∀ memo values, t.Holds rules k memo → t.Recorded rules k memo values →
    u.Recorded rules k memo values

theorem Wanted.awaited {k : K} (h : Wanted rules inputs t path k) : Awaited rules t path k :=
  fun outer ho => (h outer ho).1

namespace Keeps

theorem of_memos (path : List K) (hrev : u.revision = t.revision) (hacc : u.accepting = t.accepting)
    (hmemos : u.memos = t.memos) : Keeps rules path t u := by
  have hmemo (k : K) : u.memo? k = t.memo? k := by rw [memo?, hmemos, memo?]
  exact ⟨hrev, hacc, fun k _ => hmemo k, fun k _ => hmemo k, fun k _ => hmemo k⟩

theorem refl (path : List K) (t : Table K V) : Keeps rules path t t := of_memos path rfl rfl rfl

theorem current?_eq (h : Keeps rules path t u) {k : K} (hk : (t.current? rules k).isSome) :
    u.current? rules k = t.current? rules k :=
  current?_congr h.revision (h.current k hk)

theorem pending (h : Keeps rules path t u) {k : K} (hk : k ∈ path) :
    u.current? rules k = t.current? rules k :=
  current?_congr h.revision (h.waiting k hk)

theorem isIntact_eq (h : Keeps rules path t u) {k : K} (hk : (t.current? rules k).isSome)
    (since : Nat) : u.isIntact since k = t.isIntact since k := by
  rw [isIntact, h.current k hk, isIntact]

theorem holds (h : Keeps rules path t u) {k : K} (hk : k ∈ path) {memo : Memo K V}
    (hm : t.Holds rules k memo) : u.Holds rules k memo :=
  hm.of_memo? (h.waiting k hk)

theorem trans {v : Table K V} (h : Keeps rules path t u) (h' : Keeps rules path u v) :
    Keeps rules path t v where
  revision := h'.revision.trans h.revision
  accepting := h'.accepting.trans h.accepting
  inputs k hk := (h'.inputs k hk).trans (h.inputs k hk)
  current k hk := by
    have hu : (u.current? rules k).isSome := by rwa [h.current?_eq hk]
    exact (h'.current k hu).trans (h.current k hk)
  waiting k hk := (h'.waiting k hk).trans (h.waiting k hk)

theorem tail {k : K} (h : Keeps rules (k :: path) t u) : Keeps rules path t u where
  revision := h.revision
  accepting := h.accepting
  inputs := h.inputs
  current := h.current
  waiting p hp := h.waiting p (List.mem_cons_of_mem k hp)

theorem put {k : K} {memo : Memo K V} (hk : Marked rules t k memo) (hmem : k ∉ path) :
    Keeps rules path t (t.put k memo) where
  revision := rfl
  accepting := rfl
  inputs j hj := by
    refine memo?_put_of_ne t memo ?_
    rintro rfl
    simp [hk.derived] at hj
  current j hj := by
    refine memo?_put_of_ne t memo ?_
    rintro rfl
    simp [hk.pending] at hj
  waiting j hj := by
    refine memo?_put_of_ne t memo ?_
    rintro rfl
    exact hmem hj

theorem verifies (h : Keeps rules path t u) {outer inner : K} (houter : outer ∈ path)
    (hinner : inner ∈ path) (hv : t.Verifies rules outer inner) : u.Verifies rules outer inner := by
  obtain ⟨memo, before, after, hm, hne, hreads, hbefore, hsome⟩ := hv
  refine ⟨memo, before, after, h.holds houter hm, h.revision ▸ hne, hreads, fun d hd => ?_, ?_⟩
  · obtain ⟨hcurrent, hintact⟩ := hbefore d hd
    exact ⟨by rwa [h.current?_eq hcurrent], by rwa [h.isIntact_eq hcurrent]⟩
  · rwa [h.waiting inner hinner]

end Keeps

namespace Extends

theorem of_memos (path : List K) (hrev : u.revision = t.revision) (hacc : u.accepting = t.accepting)
    (hmemos : u.memos = t.memos) : Extends rules path t u := by
  have hmemo (k : K) : u.memo? k = t.memo? k := by rw [memo?, hmemos, memo?]
  refine ⟨.of_memos path hrev hacc hmemos, fun k _ memo values _ hr => ?_⟩
  exact ⟨hr.follows, fun d hd read hread => hr.unchanged d hd read ((hmemo d).symm.trans hread)⟩

theorem refl (path : List K) (t : Table K V) : Extends rules path t t := of_memos path rfl rfl rfl

theorem trans {v : Table K V} (h : Extends rules path t u) (h' : Extends rules path u v) :
    Extends rules path t v where
  toKeeps := h.toKeeps.trans h'.toKeeps
  recorded k hk memo values hm hr :=
    h'.recorded k hk memo values (h.holds hk hm) (h.recorded k hk memo values hm hr)

theorem tail {k : K} (h : Extends rules (k :: path) t u) : Extends rules path t u where
  toKeeps := h.toKeeps.tail
  recorded p hp := h.recorded p (List.mem_cons_of_mem k hp)

theorem put {k : K} {memo : Memo K V} (hk : Fresh rules t k memo) (ht : Sound rules inputs t)
    (hmem : k ∉ path) : Extends rules path t (t.put k memo) where
  toKeeps := .put hk.toMarked hmem
  recorded _ _ _ _ hm hr := hk.recorded_put ht hm hr

end Extends

namespace Waiting

theorem nil (h : t.active = []) : Waiting rules t [] where
  derived := by simp
  pending := by simp
  active p hact := by simp [isActive, h] at hact
  waits := .nil
  nodup := List.nodup_nil

/-- Answering a query leaves those above it under way. -/
theorem extend (hp : Waiting rules t path) (h : Keeps rules path t u)
    (hactive : ∀ p, u.isActive p = t.isActive p) : Waiting rules u path where
  derived := hp.derived
  pending p hmem := (h.pending hmem).trans (hp.pending p hmem)
  active p hact := hp.active p ((hactive p).symm.trans hact)
  waits := by
    refine hp.waits.imp_of_mem_imp fun inner outer hinner houter hw => ?_
    exact hw.imp (hactive outer).trans (h.verifies houter hinner)
  nodup := hp.nodup

theorem cons (hp : Waiting rules t path) {k : K} (hk : Awaited rules t path k)
    (hmem : k ∉ path) (hinput : rules.isInput k = false) (hcurrent : t.current? rules k = none) :
    Waiting rules t (k :: path) where
  derived := by simpa [hinput] using hp.derived
  pending := by simpa [hcurrent] using hp.pending
  active p hact := List.mem_cons_of_mem k (hp.active p hact)
  waits := hp.waits.cons hk
  nodup := List.nodup_cons.mpr ⟨hmem, hp.nodup⟩

theorem enter {k : K} (hp : Waiting rules t (k :: path)) : Waiting rules (t.enter k) (k :: path) where
  derived := hp.derived
  pending := hp.pending
  active p hact := by
    simp only [isActive, Table.enter, List.any_cons, Bool.or_eq_true, beq_iff_eq] at hact
    rcases hact with rfl | hact
    · exact List.mem_cons_self
    · exact hp.active p hact
  waits := by
    refine hp.waits.imp fun inner outer hw => ?_
    refine hw.imp (fun hact => ?_) id
    simp only [isActive, Table.enter, List.any_cons, Bool.or_eq_true]
    exact .inr hact
  nodup := hp.nodup

end Waiting

namespace Underway

theorem cons (hp : Underway rules inputs t path) {k : K} (hk : Wanted rules inputs t path k)
    (hmem : k ∉ path) (hinput : rules.isInput k = false) (hcurrent : t.current? rules k = none) :
    Underway rules inputs t (k :: path) :=
  ⟨hp.toWaiting.cons hk.awaited hmem hinput hcurrent, hp.asks.cons fun outer ho => (hk outer ho).2⟩

end Underway
end Table
end Query
end Palimpsest
