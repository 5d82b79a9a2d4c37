import Palimpsest.Proofs.Query.Steps

/-!
Answers that are cut short. What is done before a fault goes step by step, like what an answer does; the
bodies that it interrupts stay among the running ones, and of the queries that were under way each still
waits for the one inside it.
-/

namespace Palimpsest
namespace Query
namespace Table

open Filter Run

variable {K V W E : Type} [DecidableEq K] {rules : Rules K V W E} {t u : Table K V} {path : List K}

namespace Waiting

/-- Waiting is a matter of memos and running queries. -/
theorem of_memos (hp : Waiting rules t path) (hrev : u.revision = t.revision) (hmemos : u.memos = t.memos)
    (hactive : ∀ p, u.isActive p = t.isActive p) : Waiting rules u path := by
  have hkeeps : Keeps rules path t { u with accepting := t.accepting } := .of_memos path hrev rfl hmemos
  have hwaits := hp.extend hkeeps hactive
  exact ⟨hwaits.derived, hwaits.pending, hwaits.active, hwaits.waits, hwaits.nodup⟩

theorem of_alike (hp : Waiting rules t path) (h : Alike t u) : Waiting rules u path :=
  hp.of_memos h.revision h.memos h.isActive

/-- Without the innermost query, unless its body runs. -/
theorem tail {k : K} (hp : Waiting rules t (k :: path)) (hk : t.isActive k = false) : Waiting rules t path where
  derived p hmem := hp.derived p (List.mem_cons_of_mem k hmem)
  pending p hmem := hp.pending p (List.mem_cons_of_mem k hmem)
  active p hact := by
    cases List.mem_cons.mp (hp.active p hact) with
    | inl heq =>
        rw [heq, hk] at hact
        cases hact
    | inr hin => exact hin
  waits := hp.waits.tail
  nodup := (List.nodup_cons.mp hp.nodup).2

/-- From the innermost running query out, whatever is asked next is waited for. -/
theorem settle (hp : Waiting rules t path) : ∃ path', Waiting rules t path' ∧ ∀ k, Awaited rules t path' k := by
  induction path with
  | nil => exact ⟨[], hp, fun k outer ho => absurd ho (by simp)⟩
  | cons p rest ih =>
      cases hactive : t.isActive p with
      | false => exact ih (hp.tail hactive)
      | true =>
          refine ⟨p :: rest, hp, fun k outer ho => .inl ?_⟩
          obtain rfl : p = outer := by simpa using ho
          exact hactive

end Waiting

/-- What is left when an answer is cut short: steps lead there, the window is closed, and what was under way is
still waiting. -/
structure Halted (rules : Rules K V W E) (t : Table K V) (log : List (Event K V))
    (s' : State K V (W × List (Event K V))) : Prop where
  steps : Steps rules (t, log) (s'.table, s'.world.2)
  accepting : s'.table.accepting = false
  waiting : ∃ path, Waiting rules.logged s'.table path

/-- With so much fuel, every fault in an answer that `path` waits for comes after steps. -/
def HaltsByStep (rules : Rules K V W E) (n : Nat) (path : List K) : Prop :=
  ∀ ⦃t k w log f s'⦄, Orderly rules.logged t → t.accepting = false → Waiting rules.logged t path →
    Awaited rules.logged t path k →
    (refresh rules.logged n k).eval ⟨t, (w, log)⟩ = (.error (.fault f), s') → Halted rules t log s'

variable {w : W} {log log₀ : List (Event K V)} {t₀ : Table K V} {s' : State K V (W × List (Event K V))}
  {k : K} {n : Nat} {f : Fault K E} {outer : List (Frame K)} {seen : List K}

theorem Halted.at_once (hacc : t.accepting = false) (hp : Waiting rules.logged t path) :
    Halted rules t log ⟨t, (w, log)⟩ :=
  ⟨.refl, hacc, path, hp⟩

theorem Halted.after (hsteps : Steps rules (t, log) (t₀, log₀)) (h : Halted rules t₀ log₀ s') :
    Halted rules t log s' :=
  ⟨hsteps.trans h.steps, h.accepting, h.waiting⟩

/-- An operation that is refused without effect. -/
theorem Halted.of_refused {α β : Type} (hacc : t.accepting = false) (hp : Waiting rules.logged t path)
    {x : Run K V (W × List (Event K V)) E α} {g : α → Run K V (W × List (Event K V)) E β}
    (hrefused : ∃ e, x.eval ⟨t, (w, log)⟩ = (.error e, ⟨t, (w, log)⟩))
    (heval : (x >>= g).eval ⟨t, (w, log)⟩ = (.error (.fault f), s')) : Halted rules t log s' := by
  obtain ⟨e, herror⟩ := hrefused
  rw [eval_bind_error herror] at heval
  cases heval
  exact .at_once hacc hp

/-- A body halts where it gives up, at what it may not do, or at a read that halts. -/
theorem Busy.script_halts (hs : HaltsByStep rules n (k :: path)) (h : Busy rules.logged path k outer t seen)
    {note : V → Event K V} {s : Script K V W E}
    (heval : (script rules.logged (fetch rules.logged n) (s.logged note)).eval ⟨t, (w, log)⟩ =
      (.error (.fault f), s')) : Halted rules t log s' := by
  induction s generalizing t w log seen with
  | yield value => cases heval
  | fail reason =>
      cases heval
      exact .at_once h.accepting h.waiting
  | read d next ih =>
      have hawaited := h.awaited d
      rw [Script.logged, script, eval_bind, eval_fetch] at heval
      rcases hrun : (refresh rules.logged n d).eval ⟨t, (w, log)⟩ with ⟨e | value, t₀, w₀, log₀⟩
      · rw [hrun] at heval
        cases heval
        exact hs h.orderly h.accepting h.waiting hawaited hrun
      · have hleft := leavesOrder n (k :: path) h.orderly h.accepting h.waiting hawaited hrun
        have hsteps := goesByStep n (k :: path) h.orderly h.accepting h.waiting hawaited hrun
        have hread : Step rules (t₀, log₀) (t₀.recordRead d, log₀) :=
          steps_recordRead (hleft.active.trans h.active) d log₀
        rw [hrun] at heval
        exact (ih value (h.read hleft).1 heval).after (hsteps.tail hread)
  | peek d next ih => exact ih _ h heval
  | running next ih => exact ih _ h heval
  | look next ih => exact ih _ h heval
  | change _ next ih => exact ih h heval
  | set d value next ih =>
      exact .of_refused h.accepting h.waiting
        (eval_setInput_closed rules.logged (w, log) h.accepting d value) heval
  | advance keep next ih =>
      exact .of_refused h.accepting h.waiting (eval_advance_busy rules.logged (w, log) h.active keep) heval
  | sweep next ih => exact .of_refused h.accepting h.waiting (eval_sweep_busy rules.logged (w, log) h.active) heval

theorem execute_halts (hs : HaltsByStep rules n (k :: path)) (ht : Orderly rules.logged t)
    (hacc : t.accepting = false) (hp : Waiting rules.logged t (k :: path)) (hidle : t.isActive k = false)
    (hcause : ∀ memo, t.memo? k = some memo → ∃ d ∈ memo.reads, t.isIntact memo.verifiedAt d = false)
    (heval : (execute rules.logged (fetch rules.logged n) k).eval ⟨t, (w, log)⟩ = (.error (.fault f), s')) :
    Halted rules t log s' := by
  have hstart : Step rules (t, log) (t.enter k, log ++ [.started k (t.value? k)]) :=
    .start (hp.derived k List.mem_cons_self) (hp.pending k List.mem_cons_self) hidle hcause
  have hbusy := Busy.start ht hacc hp
  rw [eval_execute] at heval
  have hbody : (script rules.logged (fetch rules.logged n) (rules.logged.body k (t.value? k))).eval
      ⟨t.enter k, (w, log)⟩ = (script rules.logged (fetch rules.logged n)
        ((rules.body k (t.value? k)).logged (.given k (t.value? k)))).eval
        ⟨t.enter k, (w, log ++ [.started k (t.value? k)])⟩ := rfl
  rcases hrun : (script rules.logged (fetch rules.logged n) (rules.logged.body k (t.value? k))).eval
    ⟨t.enter k, (w, log)⟩ with ⟨e | value, s₁⟩
  · rw [← value?, hrun] at heval
    cases heval
    exact (hbusy.script_halts hs (hbody.symm.trans hrun)).after (.single hstart)
  · rw [← value?, hrun] at heval
    cases heval

theorem hasChanged_halts (hs : HaltsByStep rules n (k :: path)) {memo : Memo K V} {rest : List K}
    (h : Probing rules.logged path k memo t seen) {d : K} (hreads : memo.reads = seen ++ d :: rest)
    (heval : (hasChanged rules.logged (refresh rules.logged n) memo.verifiedAt d).eval ⟨t, (w, log)⟩ =
      (.error (.fault f), s')) : Halted rules t log s' := by
  cases checks_of_eval heval with
  | error hmemo _ hrun => exact hs h.orderly h.accepting h.waiting (h.awaited hreads hmemo) hrun

theorem areIntact_halts (hs : HaltsByStep rules n (k :: path)) {memo : Memo K V} {rest : List K}
    (h : Probing rules.logged path k memo t seen) (hreads : memo.reads = seen ++ rest)
    (heval : (areIntact rules.logged (refresh rules.logged n) memo.verifiedAt rest).eval ⟨t, (w, log)⟩ =
      (.error (.fault f), s')) : Halted rules t log s' := by
  induction rest generalizing t w log seen with
  | nil => cases heval
  | cons d rest ih =>
      rw [eval_areIntact_cons] at heval
      rcases hrun : (hasChanged rules.logged (refresh rules.logged n) memo.verifiedAt d).eval
        ⟨t, (w, log)⟩ with ⟨e | _ | _, t₀, w₀, log₀⟩
      · rw [hrun] at heval
        cases heval
        exact hasChanged_halts hs h hreads hrun
      · obtain ⟨hprobing, -, -⟩ := h.eval_hasChanged (leavesOrder n (k :: path)) hreads hrun
        obtain ⟨hsteps, -⟩ := hasChanged_steps (goesByStep n (k :: path)) h hreads hrun
        rw [hrun] at heval
        exact (ih hprobing (by simpa using hreads) heval).after hsteps
      · rw [hrun] at heval
        cases heval

theorem compute_halts (hs : HaltsByStep rules n (k :: path)) (ht : Orderly rules.logged t)
    (hacc : t.accepting = false) (hp : Waiting rules.logged t (k :: path)) (hidle : t.isActive k = false)
    (heval : (refresh rules.logged (n + 1) k).eval ⟨t, (w, log)⟩ = (.error (.fault f), s')) :
    Halted rules t log s' := by
  cases eval_computed (leavesOrder n (k :: path)) ht hacc hp hidle heval with
  | unknown hmemo hrun => exact execute_halts hs ht hacc hp hidle (by simp [hmemo]) hrun
  | stuck hprobing hcheck => exact areIntact_halts hs hprobing rfl hcheck
  | @outdated memo t₀ _ _ hprobing hcheck hchecked hactive _ hrun =>
      obtain ⟨hsteps, hfalse⟩ := areIntact_steps (goesByStep n (k :: path)) hprobing rfl hcheck
      have hidle' : t₀.isActive k = false := by rw [isActive_eq_of_active hactive, hidle]
      refine (execute_halts hs hchecked.orderly hchecked.accepting hchecked.waiting hidle'
        (fun memo' hmemo' => ?_) hrun).after hsteps
      obtain rfl : memo = memo' := Option.some.inj (hchecked.holds.2.symm.trans hmemo')
      exact hfalse rfl

/-- Every fault comes after steps. -/
theorem haltsByStep (n : Nat) (path : List K) : HaltsByStep rules n path := by
  induction n generalizing path with
  | zero =>
      intro t k w log f s' _ _ _ _ heval
      cases heval
  | succ n ih =>
      intro t k w log f s' ht hacc hp hk heval
      by_cases hmem : k ∈ path
      · -- Met again under way: with any fuel that ends in a fault it is the cycle that is found.
        obtain ⟨c, u, halike, haccu, hcycle⟩ := hp.eventually_cycle (w := (w, log)) ht hk hmem
        obtain ⟨m, hm, hle⟩ := (hcycle.and (eventually_ge_atTop (n + 1))).exists
        have hwithin : (refresh rules.logged (n + 1) k).Within (refresh rules.logged m k) := refresh_within hle k
        cases hwithin ⟨t, (w, log)⟩ with
        | inl hshort => simp [heval] at hshort
        | inr hsame =>
            obtain ⟨-, rfl⟩ := Prod.mk.inj ((heval.symm.trans hsame).trans hm)
            exact ⟨.single (.rest halike.revision halike.memos halike.isActive), haccu, path, hp.of_alike halike⟩
      · have hidle : t.isActive k = false := by
          by_contra hact
          exact hmem (hp.active k (by simpa using hact))
        cases hcurrent : t.current? rules.logged k with
        | some value =>
            rw [eval_refresh_current hcurrent hidle] at heval
            cases heval
        | none =>
            cases hinput : rules.logged.isInput k with
            | false => exact compute_halts (ih (k :: path)) ht hacc (hp.cons hk hmem hinput hcurrent) hidle heval
            | true =>
                have hmemo : t.memo? k = none := by
                  cases h : t.memo? k with
                  | none => rfl
                  | some memo => simp [current?_of_memo h (.inl hinput)] at hcurrent
                simp only [eval_refresh_succ, hidle, hmemo, hinput, closeWindow_eq hacc, ite_true,
                  Bool.false_eq_true, ite_false] at heval
                cases heval
                exact .at_once hacc hp

end Table
end Query
end Palimpsest
