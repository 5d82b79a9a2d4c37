import Mathlib.Logic.Relation
import Palimpsest.Proofs.Query.History
import Palimpsest.Proofs.Query.Logged

/-!
An answer step by step, seen from the table and the log. A body is started only if its query has no memo,
or one of which some read is not intact; what it comes to is stored, unless the value of before stays; and
a memo of which all reads are intact is marked current. Nothing else that an answer does touches memos.
-/

namespace Palimpsest
namespace Query

variable {K V W E : Type}

/-- Whether a query keeps its value of before when it is given another. -/
def Rules.keeps (rules : Rules K V W E) (key : K) (old new : V) : Bool :=
  if rules.isInput key then rules.same old new else rules.same new old

variable [DecidableEq K]

namespace Table

variable {rules : Rules K V W E} {t : Table K V} {key : K}

/-- `memo` is what a query has once it was given `value`. -/
def Takes (rules : Rules K V W E) (t : Table K V) (key : K) (value : V) (memo : Memo K V) : Prop :=
  match t.memo? key with
  | none => memo.changedAt = t.revision
  | some old => memo.changedAt = if rules.keeps key old.value value then old.changedAt else t.revision

theorem takes_setInput {t' : Table K V} {value : V} (h : t.setInput rules key value = .ok t') :
    ∃ memo, t' = t.put key memo ∧ Takes rules t key value memo := by
  have hinput := (setInput_ok h).1
  rw [setInput] at h
  simp only [hinput, (setInput_ok h).2.1, Bool.not_true, Bool.false_eq_true, ite_false] at h
  cases hold : t.memo? key with
  | none =>
      simp only [hold, Except.ok.injEq] at h
      exact ⟨_, h.symm, by simp [Takes, hold]⟩
  | some old =>
      simp only [hold] at h
      by_cases hsame : rules.same old.value value = true
      · simp only [hsame, ite_true, Except.ok.injEq] at h
        exact ⟨_, h.symm, by simp [Takes, hold, Rules.keeps, hinput, hsame]⟩
      · simp only [hsame, ite_false, Bool.false_eq_true, Except.ok.injEq] at h
        exact ⟨_, h.symm, by simp [Takes, hold, Rules.keeps, hinput, hsame]⟩

theorem takes_leave (rules : Rules K V W E) {t : Table K V} {key : K} {reads : List K} {outer : List (Frame K)} (hderived : rules.isInput key = false)
    (hactive : t.active = ⟨key, reads⟩ :: outer) (v : V) :
    ∃ memo stats, t.leave rules key (t.memo? key) v =
        (memo.value, { t with active := outer, stats }.put key memo) ∧
      memo.verifiedAt = t.revision ∧ memo.reads = reads ∧ Takes rules t key v memo := by
  unfold leave
  rw [hactive]
  cases hold : t.memo? key with
  | none => exact ⟨⟨v, t.revision, t.revision, reads⟩, _, rfl, rfl, rfl, by simp [Takes, hold]⟩
  | some old =>
      by_cases hsame : rules.same v old.value = true
      · simp only [hsame, ite_true]
        exact ⟨⟨old.value, old.changedAt, t.revision, reads⟩, _, rfl, rfl, rfl,
          by simp [Takes, hold, Rules.keeps, hderived, hsame]⟩
      · simp only [hsame, ite_false, Bool.false_eq_true]
        exact ⟨⟨v, t.revision, t.revision, reads⟩, _, rfl, rfl, rfl,
          by simp [Takes, hold, Rules.keeps, hderived, hsame]⟩

end Table

/-- One step of an answer. -/
inductive Step (rules : Rules K V W E) :
    Table K V × List (Event K V) → Table K V × List (Event K V) → Prop where
  /-- Memos stay, and so do the running queries. -/
  | rest {t u : Table K V} {log : List (Event K V)} (hrevision : u.revision = t.revision)
      (hmemos : u.memos = t.memos) (hactive : ∀ k, u.isActive k = t.isActive k) : Step rules (t, log) (u, log)
  /-- A body is started. -/
  | start {t : Table K V} {k : K} {log : List (Event K V)} (hderived : rules.isInput k = false)
      (hpending : t.current? rules k = none) (hidle : t.isActive k = false)
      (hcause : ∀ memo, t.memo? k = some memo → ∃ d ∈ memo.reads, t.isIntact memo.verifiedAt d = false) :
      Step rules (t, log) (t.enter k, log ++ [.started k (t.value? k)])
  /-- A body ends, and what it comes to is stored. -/
  | finish {t : Table K V} {k : K} {log : List (Event K V)} {outer : List (Frame K)} {stats : Stats}
      {memo : Memo K V} {v : V} (hactive : t.active = ⟨k, memo.reads⟩ :: outer)
      (htakes : t.Takes rules k v memo)
      (hmarked : Table.Marked rules { t with active := outer, stats } k memo) :
      Step rules (t, log) ({ t with active := outer, stats }.put k memo, log ++ [.given k (t.value? k) v])
  /-- A memo is marked current. -/
  | validate {t : Table K V} {k : K} {log : List (Event K V)} {memo : Memo K V}
      (hmemo : t.memo? k = some memo) (hmarked : t.Marked rules k { memo with verifiedAt := t.revision }) :
      Step rules (t, log) (t.validate k memo, log)

/-- Any number of steps. -/
abbrev Steps (rules : Rules K V W E) :
    Table K V × List (Event K V) → Table K V × List (Event K V) → Prop :=
  Relation.ReflTransGen (Step rules)

namespace Table

open Run

variable {rules : Rules K V W E} {t : Table K V} {w : W} {log : List (Event K V)} {path : List K} {k : K}
  {v : V} {s' : State K V (W × List (Event K V))} {n : Nat}

theorem Orderly.logged (h : Orderly rules t) : Orderly rules.logged t :=
  ⟨h.nodup, h.verified_le, h.closed, h.ordered⟩

/-- With so much fuel, every answer to a query that `path` waits for goes step by step. -/
def GoesByStep (rules : Rules K V W E) (n : Nat) (path : List K) : Prop :=
  ∀ ⦃t k w log v s'⦄, Orderly rules.logged t → t.accepting = false → Waiting rules.logged t path →
    Awaited rules.logged t path k → (refresh rules.logged n k).eval ⟨t, (w, log)⟩ = (.ok v, s') →
    Steps rules (t, log) (s'.table, s'.world.2)

theorem steps_recordRead {frame : Frame K} {outer : List (Frame K)} (h : t.active = frame :: outer)
    (d : K) (log : List (Event K V)) : Step rules (t, log) (t.recordRead d, log) := by
  have hrecord := recordRead_of_active h d
  exact .rest (by rw [hrecord]) (by rw [hrecord]) (isActive_recordRead h d)

/-- What a body does before it notes what it comes to. -/
theorem Busy.script_steps (hs : GoesByStep rules n (k :: path)) {outer : List (Frame K)} {seen : List K}
    (h : Busy rules.logged path k outer t seen) {note : V → Event K V} {s : Script K V W E}
    (heval : (script rules.logged (fetch rules.logged n) (s.logged note)).eval ⟨t, (w, log)⟩ = (.ok v, s')) :
    ∃ log', Steps rules (t, log) (s'.table, log') ∧ s'.world.2 = log' ++ [note v] := by
  induction s generalizing t w log seen with
  | yield value =>
      obtain ⟨hv, rfl⟩ := Prod.mk.inj heval
      obtain rfl := Except.ok.inj hv
      exact ⟨log, .refl, rfl⟩
  | fail _ => cases heval
  | read d next ih =>
      rw [Script.logged, script, eval_bind, eval_fetch] at heval
      rcases hrun : (refresh rules.logged n d).eval ⟨t, (w, log)⟩ with ⟨e | value, t₀, w₀, log₀⟩
      · simp [hrun] at heval
      · have hawaited := h.awaited d
        have hleft := leavesOrder n (k :: path) h.orderly h.accepting h.waiting hawaited hrun
        have hsteps := hs h.orderly h.accepting h.waiting hawaited hrun
        rw [hrun] at heval
        obtain ⟨log', hrest, hlog⟩ := ih value (h.read hleft).1 heval
        have hread : Step rules (t₀, log₀) (t₀.recordRead d, log₀) :=
          steps_recordRead (hleft.active.trans h.active) d log₀
        exact ⟨log', (hsteps.tail hread).trans hrest, hlog⟩
  | peek d next ih => exact ih _ h heval
  | running next ih => exact ih _ h heval
  | look next ih => exact ih _ h heval
  | change _ next ih => exact ih h heval
  | set d value next ih =>
      exact absurd heval (eval_bind_ne_ok (eval_setInput_closed rules.logged (w, log) h.accepting d value))
  | advance keep next ih =>
      exact absurd heval (eval_bind_ne_ok (eval_advance_busy rules.logged (w, log) h.active keep))
  | sweep next ih => exact absurd heval (eval_bind_ne_ok (eval_sweep_busy rules.logged (w, log) h.active))

theorem execute_steps (hs : GoesByStep rules n (k :: path)) (ht : Orderly rules.logged t)
    (hacc : t.accepting = false) (hp : Waiting rules.logged t (k :: path)) (hidle : t.isActive k = false)
    (hcause : ∀ memo, t.memo? k = some memo → ∃ d ∈ memo.reads, t.isIntact memo.verifiedAt d = false)
    (heval : (execute rules.logged (fetch rules.logged n) k).eval ⟨t, (w, log)⟩ = (.ok v, s')) :
    Steps rules (t, log) (s'.table, s'.world.2) := by
  have hderived := hp.derived k List.mem_cons_self
  have hstart : Step rules (t, log) (t.enter k, log ++ [.started k (t.value? k)]) :=
    .start hderived (hp.pending k List.mem_cons_self) hidle hcause
  have hbusy := Busy.start ht hacc hp
  rw [eval_execute] at heval
  -- The body as it goes on after it has noted that it was started.
  have hbody : (script rules.logged (fetch rules.logged n) (rules.logged.body k (t.value? k))).eval
      ⟨t.enter k, (w, log)⟩ = (script rules.logged (fetch rules.logged n)
        ((rules.body k (t.value? k)).logged (.given k (t.value? k)))).eval
        ⟨t.enter k, (w, log ++ [.started k (t.value? k)])⟩ := rfl
  rcases hrun : (script rules.logged (fetch rules.logged n) (rules.logged.body k (t.value? k))).eval
    ⟨t.enter k, (w, log)⟩ with ⟨e | value, t₁, w₁, log₁⟩
  · rw [← value?, hrun] at heval
    cases heval
  · obtain ⟨reads, hbusy', hkeeps⟩ := hbusy.eval_script (leavesOrder n (k :: path)) hrun
    obtain ⟨log', hsteps, hlog⟩ := hbusy.script_steps hs (hbody.symm.trans hrun)
    have hmemo : t₁.memo? k = t.memo? k := hkeeps.waiting k List.mem_cons_self
    have hvalue : t₁.value? k = t.value? k := by rw [value?, hmemo, value?]
    obtain ⟨memo, stats, hleave, hverified, hreads, htakes⟩ :=
      takes_leave rules.logged hderived hbusy'.active value
    rw [hmemo] at hleave
    rw [← value?, hrun] at heval
    simp only [hleave] at heval
    obtain ⟨-, rfl⟩ := Prod.mk.inj heval
    have hmarked : Marked rules { t₁ with active := t.active, stats } k memo :=
      { derived := hderived
        pending := hbusy'.waiting.pending k List.mem_cons_self
        verified := hverified
        reads := hreads ▸ hbusy'.current }
    have hfinish : Step rules (t₁, log') ({ t₁ with active := t.active, stats }.put k memo,
        log' ++ [.given k (t₁.value? k) value]) := .finish (hreads ▸ hbusy'.active) htakes hmarked
    rw [hvalue] at hfinish
    obtain rfl : log₁ = log' ++ [.given k (t.value? k) value] := hlog
    exact (hsteps.head hstart).tail hfinish

theorem hasChanged_steps (hs : GoesByStep rules n (k :: path)) {memo : Memo K V} {seen rest : List K}
    (h : Probing rules.logged path k memo t seen) {d : K} {changed : Bool}
    (hreads : memo.reads = seen ++ d :: rest)
    (heval : (hasChanged rules.logged (refresh rules.logged n) memo.verifiedAt d).eval ⟨t, (w, log)⟩ =
      (.ok changed, s')) :
    Steps rules (t, log) (s'.table, s'.world.2) ∧
      (changed = true → s'.table.isIntact memo.verifiedAt d = false) := by
  cases checks_of_eval heval with
  | missing hmemo => exact ⟨.refl, fun _ => by simp [isIntact, hmemo]⟩
  | input _ _ => exact ⟨.refl, by simp⟩
  | derived hmemo _ hrun => exact ⟨hs h.orderly h.accepting h.waiting (h.awaited hreads hmemo) hrun, by simp⟩

theorem areIntact_steps (hs : GoesByStep rules n (k :: path)) {memo : Memo K V} {seen rest : List K}
    {intact : Bool} (h : Probing rules.logged path k memo t seen) (hreads : memo.reads = seen ++ rest)
    (heval : (areIntact rules.logged (refresh rules.logged n) memo.verifiedAt rest).eval ⟨t, (w, log)⟩ =
      (.ok intact, s')) :
    Steps rules (t, log) (s'.table, s'.world.2) ∧
      (intact = false → ∃ d ∈ memo.reads, s'.table.isIntact memo.verifiedAt d = false) := by
  induction rest generalizing t w log seen with
  | nil =>
      obtain ⟨rfl, rfl⟩ : true = intact ∧ ⟨t, (w, log)⟩ = s' := by simpa [areIntact] using heval
      exact ⟨.refl, by simp⟩
  | cons d rest ih =>
      rw [eval_areIntact_cons] at heval
      rcases hrun : (hasChanged rules.logged (refresh rules.logged n) memo.verifiedAt d).eval
        ⟨t, (w, log)⟩ with ⟨e | _ | _, t₀, w₀, log₀⟩
      · simp [hrun] at heval
      · obtain ⟨hprobing, -, -⟩ := h.eval_hasChanged (leavesOrder n (k :: path)) hreads hrun
        obtain ⟨hsteps, -⟩ := hasChanged_steps hs h hreads hrun
        rw [hrun] at heval
        obtain ⟨hsteps', hfalse⟩ := ih hprobing (by simpa using hreads) heval
        exact ⟨hsteps.trans hsteps', hfalse⟩
      · obtain ⟨hsteps, hchanged⟩ := hasChanged_steps hs h hreads hrun
        obtain ⟨rfl, rfl⟩ : false = intact ∧ ⟨t₀, (w₀, log₀)⟩ = s' := by simpa [hrun] using heval
        exact ⟨hsteps, fun _ => ⟨d, by simp [hreads], hchanged rfl⟩⟩

theorem compute_steps (hs : GoesByStep rules n (k :: path)) (ht : Orderly rules.logged t)
    (hacc : t.accepting = false) (hp : Waiting rules.logged t (k :: path)) (hidle : t.isActive k = false)
    (heval : (refresh rules.logged (n + 1) k).eval ⟨t, (w, log)⟩ = (.ok v, s')) :
    Steps rules (t, log) (s'.table, s'.world.2) := by
  cases eval_computed (leavesOrder n (k :: path)) ht hacc hp hidle heval with
  | unknown hmemo hrun => exact execute_steps hs ht hacc hp hidle (by simp [hmemo]) hrun
  | intact hprobing hcheck hchecked _ _ =>
      refine (areIntact_steps hs hprobing rfl hcheck).1.tail (.validate hchecked.holds.2 ?_)
      exact ⟨hchecked.holds.1, hchecked.waiting.pending k List.mem_cons_self, rfl,
        fun d hd => (hchecked.intact d hd).1⟩
  | @outdated memo t₀ _ _ hprobing hcheck hchecked hactive _ hrun =>
      obtain ⟨hsteps, hfalse⟩ := areIntact_steps hs hprobing rfl hcheck
      have hidle' : t₀.isActive k = false := by rw [isActive_eq_of_active hactive, hidle]
      refine hsteps.trans (execute_steps hs hchecked.orderly hchecked.accepting hchecked.waiting hidle'
        (fun memo' hmemo' => ?_) hrun)
      obtain rfl : memo = memo' := Option.some.inj (hchecked.holds.2.symm.trans hmemo')
      exact hfalse rfl

/-- Every answer goes step by step. -/
theorem goesByStep (n : Nat) (path : List K) : GoesByStep rules n path := by
  induction n generalizing path with
  | zero =>
      intro t k w log v s' _ _ _ _ heval
      cases heval
  | succ n ih =>
      intro t k w log v s' ht hacc hp hk heval
      obtain ⟨hidle, hcases⟩ := refresh_cases ht hacc hp hk heval
      cases hcases with
      | inl hcurrent =>
          obtain ⟨-, rfl⟩ := hcurrent
          exact .single (.rest rfl rfl fun _ => rfl)
      | inr hpending => exact compute_steps (ih (k :: path)) ht hacc hpending.2 hidle heval

/-- A fetch between operations goes step by step. -/
theorem Resting.fetch_steps (hrest : Resting rules t)
    (hfetch : (fetch rules.logged n k).eval ⟨t, (w, log)⟩ = (.ok v, s')) :
    Steps rules (t, log) (s'.table, s'.world.2) := by
  rw [eval_fetch] at hfetch
  rcases hrun : (refresh rules.logged n k).eval ⟨t, (w, log)⟩ with ⟨e | value, s₁⟩
  · simp [hrun] at hfetch
  · cases n with
    | zero => cases hrun
    | succ n =>
        have horderly := (hrest.orderly.of_alike (alike_closeWindow t)).logged
        have hwaiting : Waiting rules.logged t.closeWindow [] := .nil hrest.idle
        have hawaited : Awaited rules.logged t.closeWindow [] k := fun o ho => absurd ho (by simp)
        rw [Resting.eval_refresh_open] at hrun
        have hsteps := goesByStep (n + 1) [] horderly rfl hwaiting hawaited hrun
        have hleft := leavesOrder (n + 1) [] horderly rfl hwaiting hawaited hrun
        simp only [Resting.eval_refresh_open, hrun, recordRead_of_idle (hleft.active.trans hrest.idle)] at hfetch
        obtain ⟨-, rfl⟩ := Prod.mk.inj hfetch
        have hopen : Step rules (t, log) (t.closeWindow, log) := .rest rfl rfl fun _ => rfl
        exact (Relation.ReflTransGen.single hopen).trans hsteps

end Table
end Query
end Palimpsest
