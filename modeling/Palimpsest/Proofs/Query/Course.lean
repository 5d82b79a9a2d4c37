import Palimpsest.Proofs.Query.Halted

/-!
A memo table whatever happens to it. Operations may be refused, bodies may do anything and be cut short in
the middle, and what they had done by then stays done; still memos stay in order, and the bodies that were
cut short wait for one another.
-/

namespace Palimpsest
namespace Query

open Run

variable {K V W E : Type} [DecidableEq K]

/-- The states that operations lead to, whatever comes of them; only that they come to an end is asked. The
world may be changed in between. -/
inductive Course (rules : Rules K V W E) : State K V W → Prop where
  | start (world : W) : Course rules ⟨.empty, world⟩
  | set {s s'} {key : K} {value : V} {r : Except (Stop K E) Unit} (h : Course rules s)
      (hstep : (Run.setInput rules key value).eval s = (r, s')) : Course rules s'
  | advance {s s'} {keep : Bool} {r : Except (Stop K E) Unit} (h : Course rules s)
      (hstep : (Run.advance rules keep).eval s = (r, s')) : Course rules s'
  | sweep {s s'} {r : Except (Stop K E) (List K)} (h : Course rules s)
      (hstep : (Run.sweep rules).eval s = (r, s')) : Course rules s'
  | fetch {s s'} {fuel : Nat} {key : K} {r : Except (Stop K E) V} (h : Course rules s)
      (hstep : (Run.fetch rules fuel key).eval s = (r, s')) (hends : r ≠ .error .outOfFuel) : Course rules s'
  | change {s} (world : W) (h : Course rules s) : Course rules ⟨s.table, world⟩

namespace Table

variable {rules : Rules K V W E} {t u : Table K V}

/-- Memos in order: their revisions too, and inputs are set without reading. -/
structure Filed (rules : Rules K V W E) (t : Table K V) : Prop where
  orderly : Orderly rules t
  stamped : ∀ k memo, t.memo? k = some memo → memo.changedAt ≤ memo.verifiedAt ∧ memo.verifiedAt ≤ t.revision
  unread : ∀ k memo, rules.isInput k = true → t.memo? k = some memo → memo.reads = []

namespace Filed

theorem of_memos (h : Filed rules t) (hrev : u.revision = t.revision) (hmemos : u.memos = t.memos) :
    Filed rules u := by
  have hmemo (k : K) : u.memo? k = t.memo? k := by rw [memo?, hmemos, memo?]
  refine ⟨h.orderly.of_memos hrev hmemos, fun k memo hk => ?_, fun k memo hinput hk => ?_⟩
  · rw [hrev]
    exact h.stamped k memo ((hmemo k).symm.trans hk)
  · exact h.unread k memo hinput ((hmemo k).symm.trans hk)

theorem put (h : Filed rules t) {k : K} {memo : Memo K V} (hmarked : Marked rules t k memo)
    (hchanged : memo.changedAt ≤ t.revision) : Filed rules (t.put k memo) := by
  refine ⟨hmarked.orderly_put h.orderly, fun j m hj => ?_, fun j m hinput hj => ?_⟩
  · rw [memo?_put] at hj
    split at hj
    · obtain rfl := Option.some.inj hj
      have hverified := hmarked.verified
      change memo.changedAt ≤ memo.verifiedAt ∧ memo.verifiedAt ≤ t.revision
      omega
    · exact h.stamped j m hj
  · have hne : j ≠ k := by
      intro heq
      rw [heq, hmarked.derived] at hinput
      cases hinput
    exact h.unread j m hinput ((memo?_put_of_ne t memo hne).symm.trans hj)

theorem takes_le (h : Filed rules t) {k : K} {v : V} {memo : Memo K V} (htakes : t.Takes rules k v memo) :
    memo.changedAt ≤ t.revision := by
  rw [Takes] at htakes
  cases hold : t.memo? k with
  | none =>
      rw [hold] at htakes
      exact htakes.le
  | some old =>
      simp only [hold] at htakes
      have hstamped := h.stamped k old hold
      split at htakes <;> omega

theorem step {p q : Table K V × List (Event K V)} (h : Filed rules p.1) (hstep : Step rules p q) :
    Filed rules q.1 := by
  cases hstep with
  | rest hrevision hmemos _ => exact h.of_memos hrevision hmemos
  | start _ _ _ _ => exact h.of_memos rfl rfl
  | @finish t k log outer stats memo v _ htakes hmarked =>
      have hbase : Filed rules { t with active := outer, stats } := h.of_memos rfl rfl
      exact hbase.put hmarked (h.takes_le htakes)
  | validate hmemo hmarked =>
      have hstamped := h.stamped _ _ hmemo
      exact (h.put hmarked (hstamped.1.trans hstamped.2)).of_memos rfl rfl

theorem steps {p q : Table K V × List (Event K V)} (h : Filed rules p.1) (hsteps : Steps rules p q) :
    Filed rules q.1 := by
  induction hsteps with
  | refl => exact h
  | tail _ hstep ih => exact ih.step hstep

end Filed

/-- How a table stands when nobody is at work on it, be it after a fault. While inputs may be set no body is
running, and nothing derived counts as current. -/
structure Standing (rules : Rules K V W E) (t : Table K V) : Prop extends Filed rules t where
  outdated : t.accepting = true → ∀ k memo, t.Holds rules k memo → memo.verifiedAt ≠ t.revision
  idle : t.accepting = true → t.active = []
  waiting : ∃ path, Waiting rules t path

namespace Standing

theorem empty (rules : Rules K V W E) : Standing rules (.empty : Table K V) where
  orderly := .empty rules
  stamped _ _ h := nomatch h
  unread _ _ _ h := nomatch h
  outdated _ _ _ h := nomatch h.2
  idle _ := rfl
  waiting := ⟨[], .nil rfl⟩

theorem resting (h : Standing rules t) (hidle : t.active = []) : Resting rules t :=
  ⟨h.orderly, hidle, h.outdated, h.unread⟩

theorem of_resting (h : Resting rules t)
    (hstamped : ∀ k memo, t.memo? k = some memo → memo.changedAt ≤ memo.verifiedAt ∧ memo.verifiedAt ≤ t.revision) :
    Standing rules t where
  orderly := h.orderly
  stamped := hstamped
  unread := h.unread
  outdated := h.outdated
  idle _ := h.idle
  waiting := ⟨[], .nil h.idle⟩

theorem setInput (h : Standing rules t) {key : K} {value : V} (hset : t.setInput rules key value = .ok u) :
    Standing rules u := by
  obtain ⟨hinput, hacc, memo, rfl, hverified, hmemo⟩ := setInput_ok hset
  have hreads := reads_setInput hset (memo?_put_self t key memo)
  refine .of_resting ((h.resting (h.idle hacc)).put_input hacc hinput hreads) ?_
  intro k m hk
  rw [memo?_put] at hk
  split at hk
  · obtain rfl := Option.some.inj hk
    change memo.changedAt ≤ memo.verifiedAt ∧ memo.verifiedAt ≤ t.revision
    obtain ⟨-, hchanged⟩ | ⟨old, hold, -, -, hchanged⟩ := hmemo
    · omega
    · have := h.stamped key old hold
      omega
  · exact h.stamped k m hk

theorem advanced (h : Standing rules t) (hidle : t.active = []) (keep : Bool) :
    Standing rules (t.advanced rules keep) := by
  refine .of_resting ((h.resting hidle).advanced keep) fun k memo hk => ?_
  obtain ⟨hchanged, hverified⟩ := h.stamped k memo (Resting.memo?_of_advanced hk)
  exact ⟨hchanged, hverified.trans (Nat.le_succ _)⟩

theorem swept (h : Standing rules t) (hidle : t.active = []) : Standing rules (t.swept rules) :=
  .of_resting (h.resting hidle).swept fun k memo hk => h.stamped k memo (memo?_of_swept hk).2

theorem of_halted (h : Standing rules t) {log : List (Event K V)} {s' : State K V (W × List (Event K V))}
    (hhalted : Halted rules t.closeWindow log s') : Standing rules s'.table where
  toFiled := (h.toFiled.of_memos (u := t.closeWindow) rfl rfl).steps hhalted.steps
  outdated hacc := absurd hacc (by simp [hhalted.accepting])
  idle hacc := absurd hacc (by simp [hhalted.accepting])
  waiting := by
    obtain ⟨path, hpath⟩ := hhalted.waiting
    exact ⟨path, hpath.derived, hpath.pending, hpath.active, hpath.waits, hpath.nodup⟩

/-- However a fetch ends, it ends after steps. -/
theorem fetch_halts (h : Standing rules t) {w : W} {log : List (Event K V)} {n : Nat} {key : K}
    {r : Except (Stop K E) V} {s' : State K V (W × List (Event K V))}
    (hfetch : (Run.fetch rules.logged n key).eval ⟨t, (w, log)⟩ = (r, s')) (hends : r ≠ .error .outOfFuel) :
    Halted rules t.closeWindow log s' := by
  obtain ⟨path, hpath⟩ := h.waiting
  have hlogged : Waiting rules.logged t.closeWindow path :=
    ⟨hpath.derived, hpath.pending, hpath.active, hpath.waits, hpath.nodup⟩
  obtain ⟨path, hwaiting, hawaited⟩ := hlogged.settle
  have horderly := (h.orderly.of_alike (alike_closeWindow t)).logged
  rw [eval_fetch] at hfetch
  cases n with
  | zero =>
      cases hfetch
      exact absurd rfl hends
  | succ n =>
      rw [Resting.eval_refresh_open] at hfetch
      rcases hrun : (refresh rules.logged (n + 1) key).eval ⟨t.closeWindow, (w, log)⟩ with ⟨(f | _) | v, s₁⟩
      · rw [hrun] at hfetch
        cases hfetch
        exact haltsByStep (n + 1) path horderly rfl hwaiting (hawaited key) hrun
      · rw [hrun] at hfetch
        cases hfetch
        exact absurd rfl hends
      · have hleft := leavesOrder (n + 1) path horderly rfl hwaiting (hawaited key) hrun
        have hsteps := goesByStep (n + 1) path horderly rfl hwaiting (hawaited key) hrun
        have hafter := hwaiting.extend hleft.keeps (isActive_eq_of_active hleft.active)
        rw [hrun] at hfetch
        cases hfetch
        -- A body that an earlier fault has cut short is told of the read.
        cases hactive : s₁.table.active with
        | nil =>
            simp only [recordRead_of_idle hactive]
            exact ⟨hsteps, hleft.keeps.accepting, path, hafter⟩
        | cons frame outer =>
            have hrecord := recordRead_of_active hactive key
            refine ⟨hsteps.tail (steps_recordRead hactive key s₁.world.2), ?_, path, ?_⟩
            · simp only [hrecord]
              exact hleft.keeps.accepting
            · exact hafter.of_memos (by simp only [hrecord]) (by simp only [hrecord]) (isActive_recordRead hactive key)

end Standing
end Table

namespace Course

variable {rules : Rules K V W E} {s s' : State K V W}

/-- Whatever comes of operations, the table stands. -/
theorem standing (h : Course rules s) : Table.Standing rules s.table := by
  induction h with
  | start world => exact .empty rules
  | @set s s' key value r h hstep ih =>
      rw [Run.setInput, eval_onTable] at hstep
      cases hset : s.table.setInput rules key value with
      | error e =>
          simp only [hset, Bind.bind, Except.bind] at hstep
          cases hstep
          exact ih
      | ok u =>
          simp only [hset, Bind.bind, Except.bind, Pure.pure, Except.pure] at hstep
          cases hstep
          exact ih.setInput hset
  | @advance s s' keep r h hstep ih =>
      cases hactive : s.table.active with
      | nil =>
          rw [Run.advance, eval_onTable, Table.advance_of_idle hactive] at hstep
          cases hstep
          exact ih.advanced hactive keep
      | cons frame outer =>
          obtain ⟨e, hbusy⟩ := Table.eval_advance_busy rules s.world hactive keep
          obtain ⟨-, rfl⟩ := Prod.mk.inj (hbusy.symm.trans hstep)
          exact ih
  | @sweep s s' r h hstep ih =>
      cases hactive : s.table.active with
      | nil =>
          rw [Run.sweep, eval_onTable, Table.sweep_of_idle hactive] at hstep
          cases hstep
          exact ih.swept hactive
      | cons frame outer =>
          obtain ⟨e, hbusy⟩ := Table.eval_sweep_busy rules s.world hactive
          obtain ⟨-, rfl⟩ := Prod.mk.inj (hbusy.symm.trans hstep)
          exact ih
  | fetch h hstep hends ih =>
      obtain ⟨events, hlogged⟩ := fetch_logged hstep []
      exact ih.of_halted (ih.fetch_halts hlogged hends)
  | change world h ih => exact ih

end Course
end Query
end Palimpsest
