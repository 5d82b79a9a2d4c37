import Mathlib.Data.Fintype.EquivFin
import Palimpsest.Proofs.Query.Refresh
import Palimpsest.Proofs.Query.Sweep

/-!
A memo table over time. Inputs are set, revisions advanced, memos swept and queries fetched in any order;
as long as none of that is refused the memos stay in order. If bodies only read, the table stays sound for
the inputs as they were last set, and a fetch gives what evaluation from nothing on these inputs gives.
-/

namespace Palimpsest
namespace Query

open Filter Run

variable {K V W E : Type} [DecidableEq K]

/-- The states, and the inputs as they were last set, that come about without a refusal. -/
inductive History (rules : Rules K V W E) : (K → Option V) → State K V W → Prop where
  | start (world : W) : History rules (fun _ => none) ⟨.empty, world⟩
  | set {inputs s s'} {key : K} {value : V} (h : History rules inputs s)
      (hstep : (setInput rules key value).eval s = (.ok (), s')) :
      History rules (Function.update inputs key (some value)) s'
  | advance {inputs s s'} {keep : Bool} (h : History rules inputs s)
      (hstep : (Run.advance rules keep).eval s = (.ok (), s')) : History rules inputs s'
  | sweep {inputs s s'} {dropped : List K} (h : History rules inputs s)
      (hstep : (Run.sweep rules).eval s = (.ok dropped, s')) : History rules inputs s'
  | fetch {inputs s s'} {fuel : Nat} {key : K} {value : V} (h : History rules inputs s)
      (hstep : (Run.fetch rules fuel key).eval s = (.ok value, s')) : History rules inputs s'

/-- The same value, or faults of the same cause. -/
def SameOutcome : Except (Fault K E) V → Except (Stop K E) V → Prop
  | .ok v, .ok v' => v = v'
  | .error f, .error (.fault g) => f.SameCause g
  | _, _ => False

namespace Table

/-- How a table stands between operations. While inputs may be set nothing derived counts as current. -/
structure Resting (rules : Rules K V W E) (t : Table K V) : Prop where
  orderly : Orderly rules t
  idle : t.active = []
  outdated : t.accepting = true → ∀ k memo, t.Holds rules k memo → memo.verifiedAt ≠ t.revision
  unread : ∀ k memo, rules.isInput k = true → t.memo? k = some memo → memo.reads = []

structure Settled (rules : Rules K V W E) (inputs : K → Option V) (t : Table K V) : Prop
    extends Resting rules t where
  sound : Sound rules inputs t

variable {rules : Rules K V W E} {inputs : K → Option V} {t u : Table K V} {w : W}

theorem holds_put_input {key : K} (hinput : rules.isInput key = true) {memo : Memo K V} {k : K}
    {m : Memo K V} (hk : (t.put key memo).Holds rules k m) : k ≠ key ∧ t.Holds rules k m := by
  have hne : k ≠ key := by
    rintro rfl
    simp [hk.1] at hinput
  exact ⟨hne, hk.1, (memo?_put_of_ne t memo hne).symm.trans hk.2⟩

namespace Resting

theorem empty (rules : Rules K V W E) : Resting rules (.empty : Table K V) where
  orderly := .empty rules
  idle := rfl
  outdated _ _ _ h := nomatch h.2
  unread _ _ _ h := nomatch h

theorem put_input (h : Resting rules t) (hacc : t.accepting = true) {key : K}
    (hinput : rules.isInput key = true) {memo : Memo K V}
    (hreads : memo.reads = ((t.memo? key).map Memo.reads).getD []) : Resting rules (t.put key memo) where
  orderly := h.orderly.of_fewer (nodup_keys_put h.orderly.nodup key memo) le_rfl
    (fun k m hk => (holds_put_input hinput hk).2)
    fun k m hk => h.outdated hacc k m (holds_put_input hinput hk).2
  idle := h.idle
  outdated _ k m hk := h.outdated hacc k m (holds_put_input hinput hk).2
  unread k m hk hm := by
    rw [memo?_put] at hm
    split at hm
    · obtain rfl := Option.some.inj hm
      cases hold : t.memo? key with
      | none => simp [hreads, hold]
      | some old => simp [hreads, hold, h.unread key old hinput hold]
    · exact h.unread k m hk hm

theorem of_earlier (h : Resting rules t) (hnodup : u.keys.Nodup) (hidle : u.active = [])
    (hrev : t.revision < u.revision) (hmemo : ∀ k memo, u.memo? k = some memo → t.memo? k = some memo) :
    Resting rules u := by
  have houtdated {k : K} {memo : Memo K V} (hk : u.Holds rules k memo) :
      memo.verifiedAt ≠ u.revision := by
    have := h.orderly.verified_le k memo ⟨hk.1, hmemo k memo hk.2⟩
    omega
  refine ⟨?_, hidle, fun _ k memo hk => houtdated hk, fun k memo hk hm => h.unread k memo hk (hmemo k memo hm)⟩
  exact h.orderly.of_fewer hnodup hrev.le (fun k m hk => ⟨hk.1, hmemo k m hk.2⟩) fun k m hk => houtdated hk

theorem memo?_of_advanced {keep : Bool} {k : K} {memo : Memo K V}
    (hk : (t.advanced rules keep).memo? k = some memo) : t.memo? k = some memo := by
  rw [memo?_advanced] at hk
  split at hk
  · exact hk
  · simp at hk

theorem advanced (h : Resting rules t) (keep : Bool) : Resting rules (t.advanced rules keep) := by
  refine h.of_earlier ?_ h.idle (Nat.lt_succ_self _) fun k memo hk => memo?_of_advanced hk
  cases keep with
  | true => exact h.orderly.nodup
  | false => exact h.orderly.nodup.sublist (List.filter_sublist.map Prod.fst)

theorem swept (h : Resting rules t) : Resting rules (t.swept rules) where
  orderly := h.orderly.swept
  idle := h.idle
  outdated hacc k memo hk := h.outdated hacc k memo ⟨hk.1, (memo?_of_swept hk.2).2⟩
  unread k memo hk hm := h.unread k memo hk (memo?_of_swept hm).2

/-- A fetch closes the window first. -/
theorem eval_refresh_open (n : Nat) (key : K) :
    (refresh rules (n + 1) key).eval ⟨t, w⟩ = (refresh rules (n + 1) key).eval ⟨t.closeWindow, w⟩ := by
  rw [eval_refresh_succ, eval_refresh_succ]
  rfl

theorem of_left (h : Resting rules t) {key : K} {v : V} (hleft : Left rules [] t.closeWindow key v u) :
    Resting rules u where
  orderly := hleft.orderly
  idle := hleft.active.trans h.idle
  outdated hacc := by simp [hleft.keeps.accepting, closeWindow] at hacc
  unread k memo hk hm := h.unread k memo hk ((hleft.keeps.inputs k hk).symm.trans hm)

theorem fetched (h : Resting rules t) {n : Nat} {key : K} {v : V} {s' : State K V W}
    (hfetch : (Run.fetch rules n key).eval ⟨t, w⟩ = (.ok v, s')) : Resting rules s'.table := by
  rw [eval_fetch] at hfetch
  rcases hrun : (refresh rules n key).eval ⟨t, w⟩ with ⟨e | value, t₁, w₁⟩
  · simp [hrun] at hfetch
  · cases n with
    | zero => cases hrun
    | succ n =>
        rw [eval_refresh_open] at hrun
        have hleft := leavesOrder (n + 1) [] (h.orderly.of_alike (alike_closeWindow t)) rfl
          (.nil (t := t.closeWindow) h.idle) (fun o ho => absurd ho (by simp)) hrun
        have hrest := h.of_left hleft
        simp only [eval_refresh_open, hrun, recordRead_of_idle hrest.idle] at hfetch
        obtain ⟨-, rfl⟩ := Prod.mk.inj hfetch
        exact hrest

end Resting

namespace Settled

theorem empty (rules : Rules K V W E) : Settled rules (fun _ => none) (.empty : Table K V) where
  toResting := .empty rules
  sound :=
    { toOrderly := .empty rules
      inputs_eq := fun _ _ => rfl
      recorded := fun _ _ h => nomatch h.2
      scratch_eq := fun _ _ h => nomatch h.2 }

/-- Setting an input, seen from the inputs as they are set. -/
theorem put_input (hd : rules.Deterministic) (h : Settled rules inputs t) (hacc : t.accepting = true)
    {key : K} (hinput : rules.isInput key = true) {value : V} {memo : Memo K V}
    (hmemo : memo.value = value ∧ memo.changedAt = t.revision ∨
      ∃ old, t.memo? key = some old ∧ rules.same old.value value = true ∧ memo.value = old.value ∧
        memo.changedAt = old.changedAt)
    (hreads : memo.reads = ((t.memo? key).map Memo.reads).getD []) :
    Settled rules (Function.update inputs key (some value)) (t.put key memo) := by
  have hvalue : memo.value = value := by
    rcases hmemo with ⟨h, -⟩ | ⟨old, -, hsame, h, -⟩
    · exact h
    · rw [h, (hd.same_iff old.value value).mp hsame]
  have hresting := h.toResting.put_input hacc hinput hreads
  have holds {k : K} {m : Memo K V} (hk : (t.put key memo).Holds rules k m) : t.Holds rules k m :=
    (holds_put_input hinput hk).2
  have houtdated {k : K} {m : Memo K V} (hk : (t.put key memo).Holds rules k m) :
      m.verifiedAt ≠ t.revision := h.outdated hacc k m (holds hk)
  refine ⟨hresting, ?_⟩
  exact
    { toOrderly := hresting.orderly
      inputs_eq := by
        intro k hk
        rw [value?, memo?_put, Function.update_apply]
        by_cases he : k = key
        · simp [he, hvalue]
        · simp only [he, ite_false]
          exact h.sound.inputs_eq k hk
      recorded := by
        intro k m hk
        obtain ⟨values, hr⟩ := h.sound.recorded k m (holds hk)
        refine ⟨values, hr.follows, fun d hd read hread hle => ?_⟩
        by_cases he : d = key
        · subst he
          obtain rfl : memo = read := by simpa using hread
          rcases hmemo with ⟨-, hchanged⟩ | ⟨old, hold, -, hvalue', hchanged⟩
          · have := h.sound.verified_le k m (holds hk)
            have := houtdated hk
            omega
          · rw [hvalue']
            exact hr.unchanged d hd old hold (hchanged ▸ hle)
        · exact hr.unchanged d hd read ((memo?_put_of_ne t memo he).symm.trans hread) hle
      scratch_eq := fun k m hk hv => absurd hv (houtdated hk) }

theorem advanced (h : Settled rules inputs t) (keep : Bool) :
    Settled rules inputs (t.advanced rules keep) := by
  have hresting := h.toResting.advanced keep
  have houtdated {k : K} {memo : Memo K V} (hk : (t.advanced rules keep).Holds rules k memo) :
      memo.verifiedAt ≠ t.revision + 1 := hresting.outdated rfl k memo hk
  refine ⟨hresting, ?_⟩
  exact
    { toOrderly := hresting.orderly
      inputs_eq := fun k hk => by
        rw [value?, memo?_advanced, hk, Bool.or_true, if_pos rfl]
        exact h.sound.inputs_eq k hk
      recorded := fun k memo hk => by
        obtain ⟨values, hr⟩ := h.sound.recorded k memo ⟨hk.1, Resting.memo?_of_advanced hk.2⟩
        refine ⟨values, hr.follows, fun d hd read hread => ?_⟩
        exact hr.unchanged d hd read (Resting.memo?_of_advanced hread)
      scratch_eq := fun k memo hk hv => absurd hv (houtdated hk) }

theorem swept (h : Settled rules inputs t) : Settled rules inputs (t.swept rules) := by
  have holds {k : K} {memo : Memo K V} (hk : (t.swept rules).Holds rules k memo) :
      t.Holds rules k memo := ⟨hk.1, (memo?_of_swept hk.2).2⟩
  refine ⟨h.toResting.swept, ?_⟩
  exact
    { toOrderly := h.sound.toOrderly.swept
      inputs_eq := by
        intro k hk
        have hkept : ¬ t.Stale rules k := by
          intro hstale
          obtain ⟨memo, -, hun⟩ := hstale.unverified
          simp [isUnverified, hk] at hun
        rw [value?, memo?_swept_of_not_stale hkept]
        exact h.sound.inputs_eq k hk
      recorded := fun k memo hk => by
        obtain ⟨values, hr⟩ := h.sound.recorded k memo (holds hk)
        refine ⟨values, hr.follows, fun d hd read hread => ?_⟩
        exact hr.unchanged d hd read (memo?_of_swept hread).2
      scratch_eq := fun k memo hk hv above habove =>
        h.sound.scratch_eq k memo (holds hk) hv above fun p hp => by
          rw [← current?_swept h.sound.nodup]
          exact habove p hp }

/-- A fetch between operations comes to what evaluation from nothing comes to, and leaves a sound table. -/
theorem eventually_fetch (hd : rules.Deterministic) (hend : ¬ rules.EndlessDescent inputs)
    (h : Settled rules inputs t) (w : W) (key : K) :
    ∃ r res t', (∀ᶠ n in atTop, rules.scratch inputs n [] key = some r) ∧
      (∀ᶠ n in atTop, (Run.fetch rules n key).eval ⟨t, w⟩ = (res, ⟨t', w⟩)) ∧
      Agree (fun _ => Settled rules inputs t') r res := by
  have hp : Underway rules inputs t.closeWindow [] := ⟨.nil h.idle, .nil⟩
  have hwanted : Wanted rules inputs t.closeWindow [] key := fun o ho => absurd ho (by simp)
  have hsound := h.sound.of_alike (alike_closeWindow t)
  obtain ⟨r, res, t', hscratch, hrefresh, hagree⟩ :=
    serves hd hend w [] t.closeWindow key hsound rfl hp hwanted
  have hopen : ∀ᶠ n in atTop, (refresh rules n key).eval ⟨t, w⟩ = (res, ⟨t', w⟩) := by
    filter_upwards [hrefresh, eventually_gt_atTop 0] with n hn hpos
    obtain ⟨n, rfl⟩ : ∃ m, n = m + 1 := ⟨n - 1, by omega⟩
    rw [Resting.eval_refresh_open, hn]
  cases hagree with
  | fault hcause =>
      refine ⟨_, _, t', hscratch, ?_, .fault hcause⟩
      filter_upwards [hopen] with n hn
      rw [eval_fetch, hn]
  | value hanswered =>
      have hresting : Resting rules t' := h.toResting.of_left hanswered.left
      refine ⟨_, _, t', hscratch, ?_, .value ⟨hresting, hanswered.sound⟩⟩
      filter_upwards [hopen] with n hn
      rw [eval_fetch, hn]
      simp only [recordRead_of_idle hresting.idle]

end Settled
end Table

namespace History

variable {rules : Rules K V W E}

section Steps

variable {s s' : State K V W}

theorem of_set {key : K} {value : V} (h : (setInput rules key value).eval s = (.ok (), s')) :
    rules.isInput key = true ∧ s.table.accepting = true ∧ ∃ memo,
      s' = { s with table := s.table.put key memo } ∧
      (memo.value = value ∧ memo.changedAt = s.table.revision ∨
        ∃ old, s.table.memo? key = some old ∧ rules.same old.value value = true ∧
          memo.value = old.value ∧ memo.changedAt = old.changedAt) ∧
      memo.reads = ((s.table.memo? key).map Memo.reads).getD [] := by
  simp only [setInput, eval_onTable] at h
  cases hset : s.table.setInput rules key value with
  | error e => simp [hset, Bind.bind, Except.bind] at h
  | ok t =>
      obtain ⟨hinput, hacc, memo, rfl, -, hmemo⟩ := Table.setInput_ok hset
      refine ⟨hinput, hacc, memo, ?_, hmemo, Table.reads_setInput hset (Table.memo?_put_self _ _ _)⟩
      simpa [hset, Bind.bind, Except.bind, Pure.pure, Except.pure] using h.symm

omit [DecidableEq K] in
theorem of_advance {keep : Bool} (hidle : s.table.active = [])
    (h : (Run.advance rules keep).eval s = (.ok (), s')) :
    s' = { s with table := s.table.advanced rules keep } := by
  simp only [Run.advance, eval_onTable, Table.advance_of_idle hidle] at h
  simpa [Bind.bind, Except.bind, Pure.pure, Except.pure] using h.symm

theorem of_sweep {dropped : List K} (hidle : s.table.active = [])
    (h : (Run.sweep rules).eval s = (.ok dropped, s')) :
    s.table.staleKeys rules = dropped ∧ s' = { s with table := s.table.swept rules } := by
  simp only [Run.sweep, eval_onTable, Table.sweep_of_idle hidle] at h
  exact (Prod.mk.inj h).imp Except.ok.inj Eq.symm

end Steps

/-- Between operations memos are in order, whatever bodies do. -/
theorem resting {inputs : K → Option V} {s : State K V W} (h : History rules inputs s) :
    Table.Resting rules s.table := by
  induction h with
  | start world => exact .empty rules
  | set h hstep ih =>
      obtain ⟨hinput, hacc, memo, rfl, -, hreads⟩ := of_set hstep
      exact ih.put_input hacc hinput hreads
  | advance h hstep ih =>
      obtain rfl := of_advance ih.idle hstep
      exact ih.advanced _
  | sweep h hstep ih =>
      obtain ⟨-, rfl⟩ := of_sweep ih.idle hstep
      exact ih.swept
  | fetch h hstep ih => exact ih.fetched hstep

theorem settled (hd : rules.Deterministic)
    (hend : ∀ inputs s, History rules inputs s → ¬ rules.EndlessDescent inputs)
    {inputs : K → Option V} {s : State K V W} (h : History rules inputs s) :
    Table.Settled rules inputs s.table := by
  -- One operation each. The table after a fetch is known for fuel enough, and more fuel changes nothing.
  induction h with
  | start world => exact .empty rules
  | set h hstep ih =>
      obtain ⟨hinput, hacc, memo, rfl, hmemo, hreads⟩ := of_set hstep
      exact ih.put_input hd hacc hinput hmemo hreads
  | advance h hstep ih =>
      obtain rfl := of_advance ih.idle hstep
      exact ih.advanced _
  | sweep h hstep ih =>
      obtain ⟨-, rfl⟩ := of_sweep ih.idle hstep
      exact ih.swept
  | fetch h hstep ih =>
      rename_i inputs s s' fuel key value
      obtain ⟨r, res, t', -, hfetch, hagree⟩ := ih.eventually_fetch hd (hend inputs s h) s.world key
      obtain ⟨n, hn, hle⟩ := (hfetch.and (eventually_ge_atTop fuel)).exists
      have hmore := fetch_eq_of_le hle hstep (by simp)
      obtain ⟨rfl, rfl⟩ : res = .ok value ∧ ⟨t', s.world⟩ = s' := by
        simpa using hn.symm.trans hmore
      cases hagree with
      | value hsettled => exact hsettled

/-- After any history, a fetch with fuel enough has the value that evaluation from nothing on the inputs
as they are set has, or is refused for the same cause. -/
theorem fetch_sameOutcome_scratch (hd : rules.Deterministic)
    (hend : ∀ inputs s, History rules inputs s → ¬ rules.EndlessDescent inputs)
    {inputs : K → Option V} {s : State K V W} (h : History rules inputs s) (key : K) :
    ∃ found result, (∀ᶠ n in atTop, rules.scratch inputs n [] key = some found) ∧
      (∀ᶠ n in atTop, ((Run.fetch rules n key).eval s).1 = result) ∧ SameOutcome found result := by
  obtain ⟨r, res, t', hscratch, hfetch, hagree⟩ :=
    (h.settled hd hend).eventually_fetch hd (hend inputs s h) s.world key
  refine ⟨r, res, hscratch, ?_, ?_⟩
  · filter_upwards [hfetch] with n hn
    rw [hn]
  · cases hagree with
    | value _ => rfl
    | fault hcause => exact hcause

/-- A number, its parity, and a query over the parity. -/
def parityRules : Rules (Fin 3) Nat Unit Unit where
  isInput k := k == 0
  kind _ := "number"
  same a b := a == b
  body k _ := if k = 1 then .read 0 fun n => .yield (n % 2) else .read 1 fun n => .yield (n + 10)

/-- The table after a fetch of query 2 and a new number of the same parity. -/
def parityTable : Table (Fin 3) Nat :=
  { revision := 2
    accepting := true
    memos := [(0, ⟨5, 2, 2, []⟩), (1, ⟨1, 1, 1, [0]⟩), (2, ⟨11, 1, 1, [1]⟩)]
    active := []
    stats := ⟨[("number", 2)], 1, 0, 0⟩ }

theorem parityRules_deterministic : parityRules.Deterministic where
  reading k old _ := by
    simp only [parityRules]
    split <;> exact fun _ => trivial
  oblivious _ _ _ := rfl
  same_iff _ _ := beq_iff_eq

theorem history_parityTable : ∃ inputs, inputs 0 = some 5 ∧ History parityRules inputs ⟨parityTable, ()⟩ := by
  have hset : History parityRules _ _ :=
    (start ()).set (show (setInput parityRules 0 3).eval _ = (.ok (), _) from rfl)
  have hfetch : History parityRules _ _ :=
    hset.fetch (show (Run.fetch parityRules 3 2).eval _ = (.ok 11, _) from rfl)
  have hadvance : History parityRules _ _ :=
    hfetch.advance (show (Run.advance parityRules true).eval _ = (.ok (), _) from rfl)
  exact ⟨_, rfl, hadvance.set (show (setInput parityRules 0 5).eval _ = (.ok (), _) from rfl)⟩

theorem fetch_sameOutcome_scratch_parity :
    parityRules.Deterministic ∧
      (∀ inputs s, History parityRules inputs s → ¬ parityRules.EndlessDescent inputs) ∧
      ∃ inputs, inputs 0 = some 5 ∧ History parityRules inputs ⟨parityTable, ()⟩ ∧
        ∃ found result, (∀ᶠ n in atTop, parityRules.scratch inputs n [] 2 = some found) ∧
          (∀ᶠ n in atTop, ((Run.fetch parityRules n 2).eval ⟨parityTable, ()⟩).1 = result) ∧
          SameOutcome found result := by
  have hend (inputs s) (_ : History parityRules inputs s) : ¬ parityRules.EndlessDescent inputs := by
    rintro ⟨keys, hinj, -⟩
    exact not_injective_infinite_finite keys hinj
  obtain ⟨inputs, hfive, hhistory⟩ := history_parityTable
  exact ⟨parityRules_deterministic, hend, inputs, hfive, hhistory,
    fetch_sameOutcome_scratch parityRules_deterministic hend hhistory 2⟩

end History
end Query
end Palimpsest
