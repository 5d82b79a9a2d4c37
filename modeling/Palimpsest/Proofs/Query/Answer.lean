import Palimpsest.Proofs.Query.Cycle

/-!
What an answer leaves behind, whatever the bodies of queries do and however deep they go. A body cannot
set inputs, advance or sweep, because the window is closed and it is itself running; so it changes the
table by what it reads only, and the memos stay in order.
-/

namespace Palimpsest
namespace Query
namespace Table

open Filter Run

variable {K V W E : Type} [DecidableEq K] {rules : Rules K V W E} {t u : Table K V} {w : W}
  {path : List K} {k : K} {v : V} {s' : State K V W}

/-- The table that the answer `v` to `k` leaves. -/
structure Left (rules : Rules K V W E) (path : List K) (t : Table K V) (k : K) (v : V)
    (t' : Table K V) : Prop where
  orderly : Orderly rules t'
  active : t'.active = t.active
  keeps : Keeps rules path t t'
  current : t'.current? rules k = some v

theorem Left.after {t₀ t' : Table K V} (hactive : t₀.active = t.active) (hkeeps : Keeps rules path t t₀)
    (h : Left rules path t₀ k v t') : Left rules path t k v t' :=
  ⟨h.orderly, h.active.trans hactive, hkeeps.trans h.keeps, h.current⟩

/-- With so much fuel, every query that `path` waits for leaves the table in order if it has an answer. -/
def LeavesOrder (rules : Rules K V W E) (n : Nat) (path : List K) : Prop :=
  ∀ ⦃t k w v s'⦄, Orderly rules t → t.accepting = false → Waiting rules t path →
    Awaited rules t path k → (refresh rules n k).eval ⟨t, w⟩ = (.ok v, s') →
    Left rules path t k v s'.table

theorem isActive_eq_of_active (h : u.active = t.active) (p : K) : u.isActive p = t.isActive p := by
  rw [isActive, h, isActive]

theorem isActive_cons {frame : Frame K} {outer : List (Frame K)} (h : t.active = frame :: outer) :
    t.isActive frame.key = true := by
  simp [isActive, h]

/-- Noting a read changes what a running query has read and nothing else. -/
theorem isActive_recordRead {frame : Frame K} {outer : List (Frame K)} (h : t.active = frame :: outer)
    (d p : K) : (t.recordRead d).isActive p = t.isActive p := by
  rw [recordRead_of_active h, isActive, isActive, h]
  simp

section Refused

variable (rules : Rules K V W E) (w : W)

theorem eval_setInput_closed (h : t.accepting = false) (key : K) (value : V) :
    ∃ e, (Run.setInput rules key value).eval ⟨t, w⟩ = (.error e, ⟨t, w⟩) := by
  rw [Run.setInput, eval_onTable, Table.setInput]
  by_cases hinput : rules.isInput key = true
  · simp only [hinput, h, Bool.not_true, Bool.not_false, Bool.false_eq_true, ite_false, ite_true]
    exact ⟨_, rfl⟩
  · simp only [hinput, Bool.not_false, ite_true]
    exact ⟨_, rfl⟩

variable {frame : Frame K} {outer : List (Frame K)}

omit [DecidableEq K] in
theorem eval_advance_busy (h : t.active = frame :: outer) (keep : Bool) :
    ∃ e, (Run.advance rules keep).eval ⟨t, w⟩ = (.error e, ⟨t, w⟩) := by
  have hbusy : t.requireIdle .advancing = (.error (.busy .advancing frame.key) : Except (Fault K E) Unit) := by
    rw [requireIdle, h]
  rw [Run.advance, eval_onTable, Table.advance, hbusy]
  exact ⟨_, rfl⟩

theorem eval_sweep_busy (h : t.active = frame :: outer) :
    ∃ e, (Run.sweep rules).eval ⟨t, w⟩ = (.error e, ⟨t, w⟩) := by
  have hbusy : t.requireIdle .sweeping = (.error (.busy .sweeping frame.key) : Except (Fault K E) Unit) := by
    rw [requireIdle, h]
  rw [Run.sweep, eval_onTable, Table.sweep, hbusy]
  exact ⟨_, rfl⟩

end Refused

section Script

/-- The body of `k` runs, and has read `seen`, all of which is current. -/
structure Busy (rules : Rules K V W E) (path : List K) (k : K) (outer : List (Frame K))
    (t : Table K V) (seen : List K) : Prop where
  orderly : Orderly rules t
  accepting : t.accepting = false
  waiting : Waiting rules t (k :: path)
  active : t.active = ⟨k, seen⟩ :: outer
  current : ∀ d ∈ seen, (t.current? rules d).isSome

variable {outer : List (Frame K)} {seen : List K} {n : Nat}

/-- A body has read nothing as it starts. -/
theorem Busy.start (ht : Orderly rules t) (hacc : t.accepting = false) (hp : Waiting rules t (k :: path)) :
    Busy rules path k t.active (t.enter k) [] where
  orderly := ht.of_memos rfl rfl
  accepting := hacc
  waiting := hp.enter
  active := rfl
  current := by simp

/-- Whatever a body reads is awaited by it. -/
theorem Busy.awaited (h : Busy rules path k outer t seen) (d : K) : Awaited rules t (k :: path) d := by
  intro o ho
  obtain rfl : k = o := by simpa using ho
  exact .inl (isActive_cons h.active)

theorem Busy.read (h : Busy rules path k outer t seen) {d : K} {t' : Table K V}
    (hd : Left rules (k :: path) t d v t') :
    Busy rules path k outer (t'.recordRead d) (noteRead seen d) ∧
      Keeps rules (k :: path) t (t'.recordRead d) := by
  have hactive' : t'.active = ⟨k, seen⟩ :: outer := hd.active.trans h.active
  have hrecord := recordRead_of_active hactive' d
  have hsame : Keeps rules (k :: path) t' (t'.recordRead d) := by
    rw [hrecord]
    exact .of_memos _ rfl rfl rfl
  have hkeeps := hd.keeps.trans hsame
  refine ⟨⟨?_, ?_, ?_, ?_, ?_⟩, hkeeps⟩
  · rw [hrecord]
    exact hd.orderly.of_memos rfl rfl
  · exact hkeeps.accepting.trans h.accepting
  · refine h.waiting.extend hkeeps fun p => ?_
    rw [isActive_recordRead hactive', isActive_eq_of_active hd.active]
  · rw [hrecord]
  · intro c hc
    rcases Script.mem_noteRead hc with hc | rfl
    · have hcurrent := h.current c hc
      rwa [hkeeps.current?_eq hcurrent]
    · rw [hsame.current?_eq (by simp [hd.current]), hd.current]
      rfl

/-- A body that yields has changed the table by its reads only. -/
theorem Busy.eval_script (hs : LeavesOrder rules n (k :: path)) {s : Script K V W E}
    (h : Busy rules path k outer t seen)
    (heval : (script rules (fetch rules n) s).eval ⟨t, w⟩ = (.ok v, s')) :
    ∃ reads, Busy rules path k outer s'.table reads ∧ Keeps rules (k :: path) t s'.table := by
  induction s generalizing t w seen with
  | yield _ =>
      obtain ⟨-, rfl⟩ := Prod.mk.inj heval
      exact ⟨seen, h, .refl _ t⟩
  | fail _ => cases heval
  | read d next ih =>
      rw [script, eval_bind, eval_fetch] at heval
      rcases hrun : (refresh rules n d).eval ⟨t, w⟩ with ⟨e | v', t₀, w₀⟩
      · simp [hrun] at heval
      · have hawaited := h.awaited d
        have hleft := hs h.orderly h.accepting h.waiting hawaited hrun
        obtain ⟨hbusy, hkeeps⟩ := h.read hleft
        rw [hrun] at heval
        obtain ⟨reads, hbusy', hkeeps'⟩ := ih v' hbusy heval
        exact ⟨reads, hbusy', hkeeps.trans hkeeps'⟩
  | peek d next ih => exact ih _ h heval
  | running next ih => exact ih _ h heval
  | look next ih => exact ih _ h heval
  | change _ next ih => exact ih h heval
  | set d value next ih =>
      exact absurd heval (eval_bind_ne_ok (eval_setInput_closed rules w h.accepting d value))
  | advance keep next ih => exact absurd heval (eval_bind_ne_ok (eval_advance_busy rules w h.active keep))
  | sweep next ih => exact absurd heval (eval_bind_ne_ok (eval_sweep_busy rules w h.active))

/-- A query that is not under way yet runs its body. -/
theorem eval_execute_left (hs : LeavesOrder rules n (k :: path)) (ht : Orderly rules t)
    (hacc : t.accepting = false) (hp : Waiting rules t (k :: path))
    (heval : (execute rules (fetch rules n) k).eval ⟨t, w⟩ = (.ok v, s')) :
    Left rules path t k v s'.table := by
  have hmem : k ∉ path := (List.nodup_cons.mp hp.nodup).1
  have hbusy := Busy.start ht hacc hp
  have henter : Keeps rules (k :: path) t (t.enter k) := .of_memos _ rfl rfl rfl
  rcases hrun : (script rules (fetch rules n) (rules.body k ((t.memo? k).map Memo.value))).eval
    ⟨t.enter k, w⟩ with ⟨e | v', t₁, w₁⟩
  · rw [eval_execute, hrun] at heval
    cases heval
  · obtain ⟨reads, hbusy', hkeeps⟩ := hbusy.eval_script hs hrun
    have hkeeps₀ := henter.trans hkeeps
    have hmemo : t₁.memo? k = t.memo? k := hkeeps₀.waiting k List.mem_cons_self
    obtain ⟨memo, stats, hexecute, hverified, hreads, -⟩ := eval_execute_ok hrun hbusy'.active hmemo
    obtain ⟨rfl, rfl⟩ : memo.value = v ∧ _ = s' := by simpa using hexecute.symm.trans heval
    -- The table as it is when the memo is stored.
    have hbase : Keeps rules (k :: path) t₁ { t₁ with active := t.active, stats } := .of_memos _ rfl rfl rfl
    have hmarked : Marked rules { t₁ with active := t.active, stats } k memo :=
      { derived := hp.derived k List.mem_cons_self
        pending := hbusy'.waiting.pending k List.mem_cons_self
        verified := hverified
        reads := hreads ▸ hbusy'.current }
    refine ⟨hmarked.orderly_put (hbusy'.orderly.of_memos rfl rfl), rfl, ?_, hmarked.current?_put_self⟩
    exact (hkeeps₀.trans hbase).tail.trans (.put hmarked hmem)

end Script

section Check

/-- The memo of `k` is checked, and of what it has read `seen` is current and has not changed. -/
structure Probing (rules : Rules K V W E) (path : List K) (k : K) (memo : Memo K V) (t : Table K V)
    (seen : List K) : Prop where
  orderly : Orderly rules t
  accepting : t.accepting = false
  waiting : Waiting rules t (k :: path)
  holds : t.Holds rules k memo
  intact : ∀ d ∈ seen, (t.current? rules d).isSome ∧ t.isIntact memo.verifiedAt d = true

variable {memo : Memo K V} {seen : List K} {n : Nat}

theorem Probing.extend (h : Probing rules path k memo t seen) {d : K} {t' : Table K V}
    (hd : Left rules (k :: path) t d v t') : Probing rules path k memo t' seen where
  orderly := hd.orderly
  accepting := hd.keeps.accepting.trans h.accepting
  waiting := h.waiting.extend hd.keeps (isActive_eq_of_active hd.active)
  holds := hd.keeps.holds List.mem_cons_self h.holds
  intact c hc := by
    obtain ⟨hcurrent, hintact⟩ := h.intact c hc
    exact ⟨by rwa [hd.keeps.current?_eq hcurrent], by rwa [hd.keeps.isIntact_eq hcurrent]⟩

/-- The check goes past a read that is current and has not changed. -/
theorem Probing.pass (h : Probing rules path k memo t seen) {d : K} (hd : (t.current? rules d).isSome)
    (hintact : t.isIntact memo.verifiedAt d = true) {later : List K}
    (hlater : ∀ c ∈ later, c ∈ seen ∨ c = d) : Probing rules path k memo t later :=
  { h with
    intact := fun c hc => by
      rcases hlater c hc with hc | rfl
      · exact h.intact c hc
      · exact ⟨hd, hintact⟩ }

theorem Probing.forget (h : Probing rules path k memo t seen) : Probing rules path k memo t [] :=
  { h with intact := by simp }

theorem Probing.awaited (h : Probing rules path k memo t seen) {d : K} {rest : List K}
    (hreads : memo.reads = seen ++ d :: rest) (hd : (t.memo? d).isSome) :
    Awaited rules t (k :: path) d := by
  intro o ho
  obtain rfl : k = o := by simpa using ho
  have hstale := h.holds.current?_eq_none.mp (h.waiting.pending k List.mem_cons_self)
  exact .inr ⟨memo, seen, rest, h.holds, hstale, hreads, h.intact, hd⟩

/-- Where a check stands after a read: past it, or at its end. -/
theorem Probing.decide (h : Probing rules path k memo t seen) {d : K} (hd : (t.current? rules d).isSome) :
    Probing rules path k memo t (if t.isIntact memo.verifiedAt d then seen ++ [d] else []) := by
  split
  · exact h.pass hd ‹_› (by simp)
  · exact h.forget

theorem Probing.eval_hasChanged (hs : LeavesOrder rules n (k :: path))
    (h : Probing rules path k memo t seen) {d : K} {rest : List K} {changed : Bool}
    (hreads : memo.reads = seen ++ d :: rest)
    (heval : (hasChanged rules (refresh rules n) memo.verifiedAt d).eval ⟨t, w⟩ = (.ok changed, s')) :
    Probing rules path k memo s'.table (if changed then [] else seen ++ [d]) ∧
      s'.table.active = t.active ∧ Keeps rules (k :: path) t s'.table := by
  cases checks_of_eval heval with
  | missing _ => exact ⟨h.forget, rfl, .refl _ t⟩
  | input hmemo hinput =>
      refine ⟨?_, rfl, .refl _ t⟩
      obtain ⟨read, hread⟩ := Option.isSome_iff_exists.mp hmemo
      have hnow := h.decide (d := d) (by simp [current?_of_memo hread (.inl hinput)])
      cases hintact : t.isIntact memo.verifiedAt d <;> simpa [hintact] using hnow
  | derived hmemo _ hrun =>
      have hleft := hs h.orderly h.accepting h.waiting (h.awaited hreads hmemo) hrun
      refine ⟨?_, hleft.active, hleft.keeps⟩
      have hnow := (h.extend hleft).decide (d := d) (by simp [hleft.current])
      cases hintact : s'.table.isIntact memo.verifiedAt d <;> simpa [hintact] using hnow

theorem Probing.eval_areIntact (hs : LeavesOrder rules n (k :: path)) {rest : List K} {intact : Bool}
    (h : Probing rules path k memo t seen) (hreads : memo.reads = seen ++ rest)
    (heval : (areIntact rules (refresh rules n) memo.verifiedAt rest).eval ⟨t, w⟩ = (.ok intact, s')) :
    Probing rules path k memo s'.table (if intact then memo.reads else []) ∧
      s'.table.active = t.active ∧ Keeps rules (k :: path) t s'.table := by
  induction rest generalizing t w seen with
  | nil =>
      obtain ⟨rfl, rfl⟩ : true = intact ∧ ⟨t, w⟩ = s' := by simpa [areIntact] using heval
      refine ⟨?_, rfl, .refl _ t⟩
      simpa [hreads] using h
  | cons d rest ih =>
      rw [eval_areIntact_cons] at heval
      rcases hrun : (hasChanged rules (refresh rules n) memo.verifiedAt d).eval ⟨t, w⟩ with
        ⟨e | _ | _, t₀, w₀⟩
      · simp [hrun] at heval
      · obtain ⟨hprobing, hactive, hkeeps⟩ := h.eval_hasChanged hs hreads hrun
        rw [hrun] at heval
        obtain ⟨hprobing', hactive', hkeeps'⟩ := ih hprobing (by simpa using hreads) heval
        exact ⟨hprobing', hactive'.trans hactive, hkeeps.trans hkeeps'⟩
      · obtain ⟨rfl, rfl⟩ : false = intact ∧ ⟨t₀, w₀⟩ = s' := by simpa [hrun] using heval
        exact h.eval_hasChanged hs hreads hrun

/-- A memo that was found current is marked so. -/
theorem Probing.validate (h : Probing rules path k memo t memo.reads) :
    Left rules path t k memo.value (t.validate k memo) := by
  have hmem : k ∉ path := (List.nodup_cons.mp h.waiting.nodup).1
  have hmarked : Marked rules t k { memo with verifiedAt := t.revision } :=
    { derived := h.holds.1
      pending := h.waiting.pending k List.mem_cons_self
      verified := rfl
      reads := fun d hd => (h.intact d hd).1 }
  refine ⟨(hmarked.orderly_put h.orderly).of_memos rfl rfl, rfl, ?_, hmarked.current?_put_self⟩
  exact (Keeps.put hmarked hmem).trans (.of_memos _ rfl rfl rfl)

/-- What comes of a query below `path` that is neither current nor under way: its memo is checked, and its body is
run unless the memo is intact. -/
inductive Computed (rules : Rules K V W E) (n : Nat) (path : List K) (k : K) (t : Table K V) (w : W) :
    Except (Stop K E) V × State K V W → Prop where
  | unknown {r : Except (Stop K E) V × State K V W} (hmemo : t.memo? k = none)
      (hrun : (execute rules (fetch rules n) k).eval ⟨t, w⟩ = r) : Computed rules n path k t w r
  | stuck {memo : Memo K V} {e : Stop K E} {s : State K V W} (hprobing : Probing rules path k memo t [])
      (hcheck : (areIntact rules (refresh rules n) memo.verifiedAt memo.reads).eval ⟨t, w⟩ = (.error e, s)) :
      Computed rules n path k t w (.error e, s)
  | intact {memo : Memo K V} {t₀ : Table K V} {w₀ : W} (hprobing : Probing rules path k memo t [])
      (hcheck : (areIntact rules (refresh rules n) memo.verifiedAt memo.reads).eval ⟨t, w⟩ = (.ok true, ⟨t₀, w₀⟩))
      (hchecked : Probing rules path k memo t₀ memo.reads) (hactive : t₀.active = t.active)
      (hkeeps : Keeps rules (k :: path) t t₀) :
      Computed rules n path k t w (.ok memo.value, ⟨t₀.validate k memo, w₀⟩)
  | outdated {memo : Memo K V} {t₀ : Table K V} {w₀ : W} {r : Except (Stop K E) V × State K V W}
      (hprobing : Probing rules path k memo t [])
      (hcheck : (areIntact rules (refresh rules n) memo.verifiedAt memo.reads).eval ⟨t, w⟩ = (.ok false, ⟨t₀, w₀⟩))
      (hchecked : Probing rules path k memo t₀ []) (hactive : t₀.active = t.active)
      (hkeeps : Keeps rules (k :: path) t t₀) (hrun : (execute rules (fetch rules n) k).eval ⟨t₀, w₀⟩ = r) :
      Computed rules n path k t w r

theorem eval_computed {n : Nat} (hs : LeavesOrder rules n (k :: path)) (ht : Orderly rules t)
    (hacc : t.accepting = false) (hp : Waiting rules t (k :: path)) (hidle : t.isActive k = false)
    {r : Except (Stop K E) V × State K V W} (heval : (refresh rules (n + 1) k).eval ⟨t, w⟩ = r) :
    Computed rules n path k t w r := by
  have hinput := hp.derived k List.mem_cons_self
  rw [eval_refresh_succ, closeWindow_eq hacc] at heval
  cases hmemo : t.memo? k with
  | none =>
      simp only [hidle, hmemo, hinput, Bool.false_eq_true, ite_false] at heval
      exact .unknown hmemo heval
  | some memo =>
      have hholds : t.Holds rules k memo := ⟨hinput, hmemo⟩
      have hprobing : Probing rules path k memo t [] := ⟨ht, hacc, hp, hholds, by simp⟩
      have hpast : (rules.isInput k || memo.verifiedAt == t.revision) = false := by
        simp [hinput, hholds.current?_eq_none.mp (hp.pending k List.mem_cons_self)]
      simp only [hidle, hmemo, hpast, Bool.false_eq_true, ite_false] at heval
      rcases hcheck : (areIntact rules (refresh rules n) memo.verifiedAt memo.reads).eval ⟨t, w⟩ with
        ⟨e | intact, t₀, w₀⟩
      · rw [hcheck] at heval
        subst heval
        exact .stuck hprobing hcheck
      · obtain ⟨hchecked, hactive, hkeeps⟩ := hprobing.eval_areIntact hs rfl hcheck
        rw [hcheck] at heval
        cases intact with
        | true =>
            simp only [hchecked.holds.2] at heval
            subst heval
            exact .intact hprobing hcheck hchecked hactive hkeeps
        | false => exact .outdated hprobing hcheck hchecked hactive hkeeps heval

end Check

theorem eval_compute_left {n : Nat} (hs : LeavesOrder rules n (k :: path)) (ht : Orderly rules t)
    (hacc : t.accepting = false) (hp : Waiting rules t (k :: path)) (hactive : t.isActive k = false)
    (heval : (refresh rules (n + 1) k).eval ⟨t, w⟩ = (.ok v, s')) : Left rules path t k v s'.table := by
  cases eval_computed hs ht hacc hp hactive heval with
  | unknown _ hrun => exact eval_execute_left hs ht hacc hp hrun
  | intact _ _ hchecked hactive' hkeeps => exact hchecked.validate.after hactive' hkeeps.tail
  | outdated _ _ hchecked hactive' hkeeps hrun =>
      have hleft := eval_execute_left hs hchecked.orderly hchecked.accepting hchecked.waiting hrun
      exact hleft.after hactive' hkeeps.tail

/-- Every answer leaves the table in order. -/
theorem leavesOrder (n : Nat) (path : List K) : LeavesOrder rules n path := by
  induction n generalizing path with
  | zero =>
      intro t k w v s' _ _ _ _ heval
      cases heval
  | succ n ih =>
      intro t k w v s' ht hacc hp hk heval
      have hclosed := closeWindow_eq hacc
      by_cases hmem : k ∈ path
      · -- A cycle is found with fuel enough, so that there is no answer with any.
        obtain ⟨c, u, -, -, hcycle⟩ := hp.eventually_cycle (w := w) ht hk hmem
        obtain ⟨m, hm, hle⟩ := (hcycle.and (eventually_ge_atTop (n + 1))).exists
        have hwithin : (refresh rules (n + 1) k).Within (refresh rules m k) := refresh_within hle k
        rcases hwithin ⟨t, w⟩ with hshort | hsame
        · simp [heval] at hshort
        · simp [heval, hm] at hsame
      · have hactive : t.isActive k = false := by
          by_contra hact
          exact hmem (hp.active k (by simpa using hact))
        cases hcurrent : t.current? rules k with
        | some value =>
            rw [eval_refresh_current hcurrent hactive, hclosed] at heval
            obtain ⟨rfl, rfl⟩ : value = v ∧ ⟨t.countHit, w⟩ = s' := by simpa using heval
            exact ⟨ht.of_memos rfl rfl, rfl, .of_memos _ rfl rfl rfl, hcurrent⟩
        | none =>
            by_cases hinput : rules.isInput k = true
            · have hmemo : t.memo? k = none := by
                cases h : t.memo? k with
                | none => rfl
                | some memo => simp [current?_of_memo h (.inl hinput)] at hcurrent
              simp [eval_refresh_succ, hactive, hmemo, hinput] at heval
            · have hp' := hp.cons hk hmem (by simpa using hinput) hcurrent
              exact eval_compute_left (ih (k :: path)) ht hacc hp' hactive heval

/-- An answer is that of a query that is current, or of one that is now under way itself. -/
theorem refresh_cases (ht : Orderly rules t) (hacc : t.accepting = false) (hp : Waiting rules t path)
    (hk : Awaited rules t path k) {n : Nat}
    (heval : (refresh rules (n + 1) k).eval ⟨t, w⟩ = (.ok v, s')) :
    t.isActive k = false ∧ (t.current? rules k = some v ∧ s' = ⟨t.countHit, w⟩ ∨
      t.current? rules k = none ∧ Waiting rules t (k :: path)) := by
  have hleft := leavesOrder (n + 1) path ht hacc hp hk heval
  have hidle : t.isActive k = false := by
    by_contra hact
    simp only [eval_refresh_succ, eq_true_of_ne_false hact, ite_true] at heval
    cases heval
  refine ⟨hidle, ?_⟩
  cases hcurrent : t.current? rules k with
  | some value =>
      rw [eval_refresh_current hcurrent hidle, closeWindow_eq hacc] at heval
      obtain ⟨hv, rfl⟩ := Prod.mk.inj heval
      exact .inl ⟨congrArg some (Except.ok.inj hv), rfl⟩
  | none =>
      have hmem : k ∉ path := by
        intro hmem
        -- The memo of a query under way stays as it is, but that of an answered one is current.
        have hpending := hleft.keeps.pending hmem
        rw [hleft.current, hcurrent] at hpending
        cases hpending
      have hderived : rules.isInput k = false := by
        by_contra hset
        have hinput : rules.isInput k = true := eq_true_of_ne_false hset
        have hmemo : t.memo? k = none := by
          cases h : t.memo? k with
          | none => rfl
          | some memo => simp [current?_of_memo h (.inl hinput)] at hcurrent
        simp [eval_refresh_succ, hidle, hmemo, hinput] at heval
      exact .inr ⟨rfl, hp.cons hk hmem hderived hcurrent⟩

end Table
end Query
end Palimpsest
