import Palimpsest.Proofs.Query.Alarmed
import Palimpsest.Proofs.Query.Course

/-!
What memos have on record leads nowhere back. A read was verified no earlier than the memo that read it, and
reads of one revision are ordered by rank; so no memo is below itself, and checks of memos, which go down
along reads, come to an end unless a body is started on the way.
-/

namespace Palimpsest
namespace Query

open Run

variable {K V W E : Type} [DecidableEq K]

namespace Table

variable {rules : Rules K V W E} {t u : Table K V}

/-- The memo of `k` has `d` on record as read, and there is a memo of `d`. -/
def Records (t : Table K V) (k d : K) : Prop :=
  ∃ memo, t.memo? k = some memo ∧ d ∈ memo.reads ∧ (t.memo? d).isSome

/-- What comes to an end from `t` unless it starts a body: where it goes too deep, there an alarm goes off once
alarms stand in for the bodies. -/
def EndsAlone {α : Type} (t : Table K V) (x : Run K V W E α) (alarmed : Run K V W Unit α) : Prop :=
  ∀ w, (x.eval ⟨t, w⟩).1 = .error .outOfFuel → (alarmed.eval ⟨t, w⟩).1 = .error (.fault (.body ()))

structure Grounded (rules : Rules K V W E) (t : Table K V) : Prop where
  stamped : ∀ k memo, t.memo? k = some memo → memo.changedAt ≤ memo.verifiedAt ∧ memo.verifiedAt ≤ t.revision
  /-- Reads that have a memo were verified no earlier. -/
  later : ∀ k memo d read, t.memo? k = some memo → d ∈ memo.reads → rules.isInput d = false →
    t.memo? d = some read → memo.verifiedAt ≤ read.verifiedAt
  acyclic : ∀ k, ¬ Relation.TransGen t.Records k k
  /-- Checks go no deeper than there are memos. -/
  refresh_ends : ∀ n > t.memos.length, ∀ k, EndsAlone t (refresh rules n k) (refresh rules.alarmed n k)
  hasChanged_ends : ∀ n > t.memos.length, ∀ since read,
    EndsAlone t (hasChanged rules (refresh rules n) since read)
      (hasChanged rules.alarmed (refresh rules.alarmed n) since read)
  areIntact_ends : ∀ n > t.memos.length, ∀ since reads,
    EndsAlone t (areIntact rules (refresh rules n) since reads)
      (areIntact rules.alarmed (refresh rules.alarmed n) since reads)

namespace Filed

theorem derived_of_records (h : Filed rules t) {k d : K} (hrecords : t.Records k d) : rules.isInput k = false := by
  obtain ⟨memo, hmemo, hd, -⟩ := hrecords
  by_contra hinput
  rw [h.unread k memo (eq_true_of_ne_false hinput) hmemo] at hd
  cases hd

/-- Along records, memos were verified later and later, or in the same revision are of lower and lower rank. -/
theorem descends (h : Filed rules t) {rank : K → Nat} (hrank : t.Ordered rules rank) {x y : K}
    (hpath : Relation.TransGen t.Records x y) (hy : rules.isInput y = false) :
    ∃ mx my, t.memo? x = some mx ∧ t.memo? y = some my ∧
      (mx.verifiedAt < my.verifiedAt ∨ mx.verifiedAt = my.verifiedAt ∧ rank y < rank x) := by
  have hstep {a b : K} (hab : t.Records a b) (hb : rules.isInput b = false) :
      ∃ ma mb, t.memo? a = some ma ∧ t.memo? b = some mb ∧
        (ma.verifiedAt < mb.verifiedAt ∨ ma.verifiedAt = mb.verifiedAt ∧ rank b < rank a) := by
    have ha := h.derived_of_records hab
    obtain ⟨ma, hma, hread, hsome⟩ := hab
    obtain ⟨mb, hmb⟩ := Option.isSome_iff_exists.mp hsome
    have horder := hrank a ma b mb ⟨ha, hma⟩ hread ⟨hb, hmb⟩
    exact ⟨ma, mb, hma, hmb, by omega⟩
  induction hpath with
  | single hxy => exact hstep hxy hy
  | tail _ hyz ih =>
      obtain ⟨mx, my, hmx, hmy, hxy⟩ := ih (h.derived_of_records hyz)
      obtain ⟨my', mz, hmy', hmz, hyz⟩ := hstep hyz hy
      obtain rfl : my = my' := Option.some.inj (hmy.symm.trans hmy')
      exact ⟨mx, mz, hmx, hmz, by omega⟩

/-- No memo is on record below itself. -/
theorem acyclic (h : Filed rules t) (k : K) : ¬ Relation.TransGen t.Records k k := by
  intro hround
  obtain ⟨rank, hrank⟩ := h.orderly.ordered
  have hderived : rules.isInput k = false := by
    obtain ⟨d, hkd, -⟩ := Relation.TransGen.head'_iff.mp hround
    exact h.derived_of_records hkd
  obtain ⟨m, m', hm, hm', hlt⟩ := h.descends hrank hround hderived
  obtain rfl : m = m' := Option.some.inj (hm.symm.trans hm')
  omega

theorem later (h : Filed rules t) {k d : K} {memo read : Memo K V} (hmemo : t.memo? k = some memo)
    (hd : d ∈ memo.reads) (hderived : rules.isInput d = false) (hread : t.memo? d = some read) :
    memo.verifiedAt ≤ read.verifiedAt := by
  obtain ⟨rank, hrank⟩ := h.orderly.ordered
  have hk := h.derived_of_records ⟨memo, hmemo, hd, by simp [hread]⟩
  exact (hrank k memo d read ⟨hk, hmemo⟩ hd ⟨hderived, hread⟩).1

end Filed

/-- Memos are there for the same queries, and have the same reads on record. -/
def SameReads (t u : Table K V) : Prop := ∀ k, (u.memo? k).map Memo.reads = (t.memo? k).map Memo.reads

namespace SameReads

theorem isSome (h : SameReads t u) (k : K) : (u.memo? k).isSome = (t.memo? k).isSome := by
  have hk := congrArg Option.isSome (h k)
  rwa [Option.isSome_map, Option.isSome_map] at hk

theorem validate (h : SameReads t u) {k : K} {memo : Memo K V} (hmemo : u.memo? k = some memo) :
    SameReads t (u.validate k memo) := by
  intro j
  have hput : (u.validate k memo).memo? j = (u.put k { memo with verifiedAt := u.revision }).memo? j := rfl
  rw [hput, memo?_put]
  by_cases hj : j = k
  · rw [if_pos hj, ← h j, hj, hmemo]
    rfl
  · rw [if_neg hj, h j]

end SameReads

/-- What a check without bodies comes to: it has not gone too deep, and if nothing is in its way reads are as
they were. -/
inductive Shallow {α : Type} (t : Table K V) : Except (Stop K E) α × State K V W → Prop where
  | value {a : α} {s : State K V W} (h : SameReads t s.table) : Shallow t (.ok a, s)
  | fault {f : Fault K E} {s : State K V W} : Shallow t (.error (.fault f), s)

section Shallow

variable {f : K → Run K V W Unit V} {w : W}

theorem shallow_hasChanged {d : K} (since : Nat)
    (hd : (t.memo? d).isSome → ∀ u w, SameReads t u → Shallow t ((f d).eval ⟨u, w⟩)) (hu : SameReads t u) :
    Shallow t ((hasChanged rules.alarmed f since d).eval ⟨u, w⟩) := by
  generalize heval : (hasChanged rules.alarmed f since d).eval ⟨u, w⟩ = r
  cases checks_of_eval heval with
  | missing _ | input _ _ => exact .value hu
  | derived hmemo _ hrun =>
      have hanswer := hd (hu.isSome d ▸ hmemo) u w hu
      rw [hrun] at hanswer
      cases hanswer with
      | value h => exact .value h
  | error hmemo _ hrun =>
      have hanswer := hd (hu.isSome d ▸ hmemo) u w hu
      rw [hrun] at hanswer
      cases hanswer with
      | fault => exact .fault

theorem shallow_areIntact {reads : List K} (since : Nat)
    (hreads : ∀ d ∈ reads, (t.memo? d).isSome → ∀ u w, SameReads t u → Shallow t ((f d).eval ⟨u, w⟩))
    (hu : SameReads t u) : Shallow t ((areIntact rules.alarmed f since reads).eval ⟨u, w⟩) := by
  induction reads generalizing u w with
  | nil => exact .value hu
  | cons d rest ih =>
      have hchanged : Shallow t ((hasChanged rules.alarmed f since d).eval ⟨u, w⟩) :=
        shallow_hasChanged since (hreads d List.mem_cons_self) hu
      rw [eval_areIntact_cons]
      generalize (hasChanged rules.alarmed f since d).eval ⟨u, w⟩ = r at hchanged
      cases hchanged with
      | fault => exact .fault
      | @value changed s h =>
          cases changed with
          | true => exact .value h
          | false => exact ih (fun c hc => hreads c (List.mem_cons_of_mem d hc)) h

theorem shallow_execute (k : K) (s : State K V W) : Shallow t ((execute rules.alarmed f k).eval s) := by
  have halarm := eval_execute_alarmed rules f k s
  generalize (execute rules.alarmed f k).eval s = r at halarm
  obtain ⟨result, s'⟩ := r
  obtain rfl : result = .error (.fault (.body ())) := halarm
  exact .fault

/-- One level further up: a check is shallow if those of the reads are. -/
theorem shallow_refresh_succ {n : Nat} {k : K}
    (hdown : ∀ d, t.Records k d → ∀ u w, SameReads t u → Shallow t ((refresh rules.alarmed n d).eval ⟨u, w⟩))
    (hu : SameReads t u) : Shallow t ((refresh rules.alarmed (n + 1) k).eval ⟨u, w⟩) := by
  rw [eval_refresh_succ]
  split
  · exact .fault
  · cases hmemo : u.memo? k with
    | none =>
        simp only
        split
        · exact .fault
        · exact shallow_execute k _
    | some memo =>
        obtain ⟨old, hold, hsame⟩ : ∃ old, t.memo? k = some old ∧ old.reads = memo.reads := by
          have hk := hu k
          rw [hmemo, Option.map_some] at hk
          exact Option.map_eq_some_iff.mp hk.symm
        have hcheck : Shallow t ((areIntact rules.alarmed (refresh rules.alarmed n) memo.verifiedAt
            memo.reads).eval ⟨u.closeWindow, w⟩) :=
          shallow_areIntact memo.verifiedAt (fun d hd hsome => hdown d ⟨old, hold, hsame ▸ hd, hsome⟩) hu
        simp only
        split
        · exact .value hu
        · generalize (areIntact rules.alarmed (refresh rules.alarmed n) memo.verifiedAt memo.reads).eval
            ⟨u.closeWindow, w⟩ = r at hcheck
          cases hcheck with
          | fault => exact .fault
          | @value intact s h =>
              cases intact with
              | false => exact shallow_execute k s
              | true =>
                  simp only
                  cases hstored : s.table.memo? k with
                  | none => exact shallow_execute k s
                  | some stored => exact .value (h.validate hstored)

/-- A check that has come down through `visited` is within memos that it has not met, of which there is one
less at each step. -/
theorem shallow_refresh (hacyclic : ∀ k, ¬ Relation.TransGen t.Records k k) {n : Nat} {visited : List K} {k : K}
    (hnodup : visited.Nodup) (hthere : ∀ v ∈ visited, v ∈ t.keys)
    (habove : ∀ v ∈ visited, Relation.TransGen t.Records v k)
    (hfuel : t.memos.length < n + visited.length) (hu : SameReads t u) :
    Shallow t ((refresh rules.alarmed n k).eval ⟨u, w⟩) := by
  induction n generalizing visited k u w with
  | zero =>
      have hle : visited.length ≤ t.keys.length := (hnodup.subperm hthere).length_le
      rw [keys, List.length_map] at hle
      omega
  | succ n ih =>
      refine shallow_refresh_succ (fun d hrecords u w hu => ?_) hu
      have hfresh : k ∉ visited := fun hk => hacyclic k (habove k hk)
      have hkey : k ∈ t.keys := by
        obtain ⟨old, hold, -⟩ := hrecords
        obtain ⟨before, after, hsplit, -⟩ := List.lookup_eq_some_iff.mp hold
        rw [keys, hsplit]
        simp
      have hpaths : ∀ v ∈ k :: visited, Relation.TransGen t.Records v d :=
        List.forall_mem_cons.mpr ⟨.single hrecords, fun v hv => (habove v hv).tail hrecords⟩
      refine ih (List.nodup_cons.mpr ⟨hfresh, hnodup⟩) (List.forall_mem_cons.mpr ⟨hkey, hthere⟩) hpaths ?_ hu
      rw [List.length_cons]
      omega

end Shallow

/-- What is shallow without bodies ends alone. -/
theorem EndsAlone.of_shallow {α : Type} {x : Run K V W Unit α} {y : Run K V W E α} (hmimics : x.Mimics y)
    (hshallow : ∀ w, Shallow t (x.eval ⟨t, w⟩)) : EndsAlone t y x := by
  intro w hy
  refine (hmimics.outOfFuel hy).resolve_right fun hx => ?_
  have hs := hshallow w
  generalize x.eval ⟨t, w⟩ = r at hs hx
  cases hs with
  | value | fault => cases hx

theorem Filed.grounded (h : Filed rules t) : Grounded rules t := by
  have hsame : SameReads t t := fun _ => rfl
  have hnil : ([] : List K).Nodup := List.nodup_nil
  have hshallow {n : Nat} (hn : n > t.memos.length) (k : K) (u : Table K V) (w : W) (hu : SameReads t u) :
      Shallow t ((refresh rules.alarmed n k).eval ⟨u, w⟩) :=
    shallow_refresh h.acyclic hnil (by simp) (by simp) (by simpa using hn) hu
  exact
    { stamped := h.stamped
      later := fun k memo d read hmemo hd hderived hread => h.later hmemo hd hderived hread
      acyclic := h.acyclic
      refresh_ends := fun n hn k => .of_shallow (refresh_mimics rules n k) fun w => hshallow hn k t w hsame
      hasChanged_ends := fun n hn since read =>
        .of_shallow (hasChanged_mimics (refresh_mimics rules n) since read) fun w =>
          shallow_hasChanged since (fun _ => hshallow hn read) hsame
      areIntact_ends := fun n hn since reads =>
        .of_shallow (areIntact_mimics (refresh_mimics rules n) since reads) fun w =>
          shallow_areIntact since (fun d _ _ => hshallow hn d) hsame }

end Table

namespace Course

/-- Whatever was done to a table and whatever came of it, what its memos have on record is well-founded. -/
theorem stays_grounded {rules : Rules K V W E} {s : State K V W} (h : Course rules s) : s.table.Grounded rules :=
  h.standing.grounded

/-- A number, its parity, and queries that give up on odd numbers. -/
def brittleRules : Rules Nat Nat Unit Unit where
  isInput k := k == 0
  kind _ := "number"
  same a b := a == b
  body k _ := if k = 1 then .read 0 fun n => .yield (n % 2) else .read 1 fun n => if n = 0 then .yield 10 else .fail ()

/-- The table after query 2 was fetched for an even number, and given up for an odd one. -/
def brittleTable : Table Nat Nat :=
  { revision := 2
    accepting := false
    memos := [(0, ⟨5, 2, 2, []⟩), (1, ⟨1, 2, 2, [0]⟩), (2, ⟨10, 1, 1, [1]⟩)]
    active := [⟨2, [1]⟩]
    stats := ⟨[("number", 3)], 3, 0, 0⟩ }

theorem stays_grounded_brittle : Course brittleRules ⟨brittleTable, ()⟩ ∧ brittleTable.Grounded brittleRules := by
  have hset : Course brittleRules _ := (start ()).set (show (setInput brittleRules 0 4).eval _ = (.ok (), _) from rfl)
  have hfetch : Course brittleRules _ :=
    hset.fetch (show (Run.fetch brittleRules 3 2).eval _ = (.ok 10, _) from rfl) (by simp)
  have hadvance : Course brittleRules _ :=
    hfetch.advance (show (Run.advance brittleRules true).eval _ = (.ok (), _) from rfl)
  have hagain : Course brittleRules _ :=
    hadvance.set (show (setInput brittleRules 0 5).eval _ = (.ok (), _) from rfl)
  have hgivenUp : Course brittleRules _ :=
    hagain.fetch (show (Run.fetch brittleRules 3 2).eval _ = (.error (.fault (.body ())), _) from rfl) (by simp)
  have hrefused : Course brittleRules ⟨brittleTable, ()⟩ :=
    hgivenUp.advance (show (Run.advance brittleRules true).eval _ = (.error (.fault (.busy .advancing 2)), _) from rfl)
  exact ⟨hrefused, stays_grounded hrefused⟩

end Course
end Query
end Palimpsest
