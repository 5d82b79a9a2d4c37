import Palimpsest.Proofs.Query.History
import Palimpsest.Proofs.Query.Stats

/-!
Answers as derivations. An answer is a hit, or a check of what a memo records that ends in a mark, or a
body that runs after a check that failed. Whatever comes of queries with determined bodies has such a
derivation. It replaces only memos that are not current, and a body follows the values it is given.
-/

namespace Palimpsest
namespace Query

open Run

variable {K V W E : Type}

/-- Whatever the script finds in the world and in the table, it comes to what `core` comes to from the
values that it reads, if to anything at all. -/
def Script.Determined : Script K V W E → Script K V W E → Prop
  | .yield v, core => core = .yield v
  | .read key next, core => ∃ rest, core = .read key rest ∧ ∀ v, (next v).Determined (rest v)
  | .peek _ next, core => ∀ found, (next found).Determined core
  -- The one that asks is running itself.
  | .running next, core => (next true).Determined core
  | .look next, core => ∀ world, (next world).Determined core
  | .change _ next, core => next.Determined core
  -- These end the body without a value.
  | .fail _, _ | .set _ _ _, _ | .advance _ _, _ | .sweep _, _ => True

theorem Script.Reading.determined {s : Script K V W E} (h : s.Reading) : s.Determined s := by
  induction s with
  | yield v => rfl
  | read key next ih => exact ⟨next, rfl, fun v => ih v (h v)⟩
  | fail _ | peek _ _ _ | running _ _ | set _ _ _ _ | advance _ _ _ | sweep _ _ | look _ _
  | change _ _ _ => exact h.elim

/-- What the body of a derived query comes to is determined by the value of before and by what it reads. -/
def Rules.Determined (rules : Rules K V W E) : Prop :=
  ∃ bodies : K → Option V → Script K V W E,
    ∀ key old, rules.isInput key = false → (rules.body key old).Determined (bodies key old)

theorem Rules.Deterministic.determined {rules : Rules K V W E} (h : rules.Deterministic) :
    rules.Determined :=
  ⟨rules.body, fun key old hderived => (h.reading key old hderived).determined⟩

/-- The memo of before, if its value stays when a body yields `value`. -/
def Rules.kept? (rules : Rules K V W E) (old : Option (Memo K V)) (value : V) : Option (Memo K V) :=
  old.filter fun memo => rules.same value memo.value

/-- What is stored when a body has read `reads` and yields `value`. -/
def Rules.renewed (rules : Rules K V W E) (old : Option (Memo K V)) (revision : Nat) (reads : List K)
    (value : V) : Memo K V :=
  match rules.kept? old value with
  | some memo => ⟨memo.value, memo.changedAt, revision, reads⟩
  | none => ⟨value, revision, revision, reads⟩

theorem Rules.renewed_none (rules : Rules K V W E) (revision : Nat) (reads : List K) (value : V) :
    rules.renewed none revision reads value = ⟨value, revision, revision, reads⟩ := rfl

@[simp] theorem Rules.renewed_verifiedAt (rules : Rules K V W E) (old : Option (Memo K V)) (revision : Nat)
    (reads : List K) (value : V) : (rules.renewed old revision reads value).verifiedAt = revision := by
  rw [renewed]
  cases rules.kept? old value <;> rfl

variable [DecidableEq K]

namespace Script

variable {values other : K → Option V} {s : Script K V W E} {seen reads : List K} {v : V}

theorem Follows.mono (hvalues : ∀ k a, values k = some a → other k = some a)
    (h : s.Follows values seen reads v) : s.Follows other seen reads v := by
  induction s generalizing seen with
  | yield _ => exact h
  | read key next ih =>
      obtain ⟨a, ha, hnext⟩ := h
      exact ⟨a, hvalues key a ha, ih a hnext⟩
  | fail _ | peek _ _ _ | running _ _ | set _ _ _ _ | advance _ _ _ | sweep _ _ | look _ _
  | change _ _ _ => exact h.elim

theorem Follows.unique {reads' : List K} {v' : V} (h : s.Follows values seen reads v)
    (h' : s.Follows values seen reads' v') : reads = reads' ∧ v = v' := by
  induction s generalizing seen with
  | yield _ => exact ⟨h.1.symm.trans h'.1, h.2.symm.trans h'.2⟩
  | read key next ih =>
      obtain ⟨a, ha, hnext⟩ := h
      obtain ⟨a', ha', hnext'⟩ := h'
      obtain rfl : a = a' := Option.some.inj (ha.symm.trans ha')
      exact ih a hnext hnext'
  | fail _ | peek _ _ _ | running _ _ | set _ _ _ _ | advance _ _ _ | sweep _ _ | look _ _
  | change _ _ _ => exact h.elim

end Script

/-- A piece of the work on an answer, and what comes of it. -/
inductive Task (K V W E : Type) where
  | answer (key : K) (value : V)
  /-- A body that has read `seen` goes on until it has read `reads` and yields. -/
  | body (script : Script K V W E) (seen reads : List K) (value : V)
  /-- Something that a memo records is brought up to date. -/
  | probe (read : K)
  | check (since : Nat) (reads : List K) (intact : Bool)
  /-- What there is of before is checked. -/
  | review (old : Option (Memo K V)) (intact : Bool)

/-- The table once the body of `key` has read `reads` and yields `value`, with `outer` running still. -/
def Table.finish (rules : Rules K V W E) (t : Table K V) (key : K) (old : Option (Memo K V))
    (outer : List (Frame K)) (reads : List K) (value : V) : Table K V :=
  { t with
      active := outer
      stats := t.stats.ran (rules.kind key) (rules.kept? old value).isSome }.put key
    (rules.renewed old t.revision reads value)

/-- A task that is done from the first table to the second. -/
inductive Performs (rules : Rules K V W E) (bodies : K → Option V → Script K V W E) :
    Table K V → Task K V W E → Table K V → Prop where
  | hit {t : Table K V} {k : K} {v : V} (hcurrent : t.current? rules k = some v) :
      Performs rules bodies t (.answer k v) t.countHit
  | validate {t t' : Table K V} {k : K} {memo : Memo K V} (hholds : t.Holds rules k memo)
      (hpending : t.current? rules k = none)
      (hreview : Performs rules bodies t (.review (t.memo? k) true) t') (hsame : t'.memo? k = t.memo? k) :
      Performs rules bodies t (.answer k memo.value) (t'.validate k memo)
  | execute {t t₁ t₂ : Table K V} {k : K} {v : V} {reads : List K} (hderived : rules.isInput k = false)
      (hpending : t.current? rules k = none)
      (hreview : Performs rules bodies t (.review (t.memo? k) false) t₁)
      (hbody : Performs rules bodies (t₁.enter k) (.body (bodies k (t.value? k)) [] reads v) t₂)
      (hsame : t₂.memo? k = t.memo? k) :
      Performs rules bodies t (.answer k (rules.renewed (t.memo? k) t₂.revision reads v).value)
        (t₂.finish rules k (t.memo? k) t.active reads v)
  | yield {t : Table K V} {v : V} {seen : List K} : Performs rules bodies t (.body (.yield v) seen seen v) t
  | read {t t₁ t₂ : Table K V} {d : K} {a : V} {next : V → Script K V W E} {seen reads : List K} {v : V}
      (hanswer : Performs rules bodies t (.answer d a) t₁)
      (hnext : Performs rules bodies (t₁.recordRead d) (.body (next a) (Table.noteRead seen d) reads v) t₂) :
      Performs rules bodies t (.body (.read d next) seen reads v) t₂
  | given {t : Table K V} {d : K} (hinput : rules.isInput d = true) (hsome : (t.memo? d).isSome) :
      Performs rules bodies t (.probe d) t
  | refresh {t t' : Table K V} {d : K} {v : V} (hanswer : Performs rules bodies t (.answer d v) t') :
      Performs rules bodies t (.probe d) t'
  | intact {t : Table K V} {since : Nat} : Performs rules bodies t (.check since [] true) t
  | gone {t : Table K V} {since : Nat} {d : K} {rest : List K} (hgone : t.memo? d = none) :
      Performs rules bodies t (.check since (d :: rest) false) t
  | changed {t t' : Table K V} {since : Nat} {d : K} {rest : List K} (hsome : (t.memo? d).isSome)
      (hprobe : Performs rules bodies t (.probe d) t') (hchanged : t'.isIntact since d = false) :
      Performs rules bodies t (.check since (d :: rest) false) t'
  | pass {t t₁ t₂ : Table K V} {since : Nat} {d : K} {rest : List K} {b : Bool}
      (hsome : (t.memo? d).isSome) (hprobe : Performs rules bodies t (.probe d) t₁)
      (hintact : t₁.isIntact since d = true) (hrest : Performs rules bodies t₁ (.check since rest b) t₂) :
      Performs rules bodies t (.check since (d :: rest) b) t₂
  | unknown {t : Table K V} : Performs rules bodies t (.review none false) t
  | known {t t' : Table K V} {memo : Memo K V} {b : Bool}
      (hcheck : Performs rules bodies t (.check memo.verifiedAt memo.reads b) t') :
      Performs rules bodies t (.review (some memo) b) t'

namespace Table

variable {rules : Rules K V W E} {bodies : K → Option V → Script K V W E} {t t' u : Table K V} {w : W}
  {path : List K} {k : K} {v : V} {s' : State K V W} {n : Nat}

theorem leave_renewed (rules : Rules K V W E) {reads : List K} {outer : List (Frame K)}
    (hactive : t.active = ⟨k, reads⟩ :: outer) (old : Option (Memo K V)) (v : V) :
    t.leave rules k old v =
      ((rules.renewed old t.revision reads v).value, t.finish rules k old outer reads v) := by
  unfold leave finish
  rw [hactive]
  cases old with
  | none => rfl
  | some memo =>
      by_cases hsame : rules.same v memo.value = true
      · simp [Rules.renewed, Rules.kept?, Option.filter, Stats.ran, Stats.recordExecution, hsame]
      · simp [Rules.renewed, Rules.kept?, Option.filter, Stats.ran, Stats.recordExecution, hsame]

theorem memo?_validate (t : Table K V) (k j : K) (memo : Memo K V) :
    (t.validate k memo).memo? j =
      if j = k then some { memo with verifiedAt := t.revision } else t.memo? j :=
  memo?_put t k j _

theorem memo?_finish (rules : Rules K V W E) (t : Table K V) (k j : K) (old : Option (Memo K V))
    (outer : List (Frame K)) (reads : List K) (v : V) :
    (t.finish rules k old outer reads v).memo? j =
      if j = k then some (rules.renewed old t.revision reads v) else t.memo? j :=
  memo?_put _ k j _

section Carries

/-- Whatever is current in `t` is in `u` as well. -/
structure Carries (rules : Rules K V W E) (t u : Table K V) : Prop where
  revision : u.revision = t.revision
  memo? : ∀ k, (t.current? rules k).isSome → u.memo? k = t.memo? k

namespace Carries

theorem of_memos (hrev : u.revision = t.revision) (hmemos : u.memos = t.memos) : Carries rules t u :=
  ⟨hrev, fun k _ => by rw [Table.memo?, hmemos, Table.memo?]⟩

theorem refl (t : Table K V) : Carries rules t t := of_memos rfl rfl

theorem current?_eq (h : Carries rules t u) (hk : (t.current? rules k).isSome) :
    u.current? rules k = t.current? rules k :=
  current?_congr h.revision (h.memo? k hk)

theorem isSome (h : Carries rules t u) (hk : (t.current? rules k).isSome) :
    (u.current? rules k).isSome := by
  rwa [h.current?_eq hk]

theorem current? (h : Carries rules t u) {a : V} (hk : t.current? rules k = some a) :
    u.current? rules k = some a := by
  rw [h.current?_eq (by simp [hk]), hk]

theorem isIntact_eq (h : Carries rules t u) (hk : (t.current? rules k).isSome) (since : Nat) :
    u.isIntact since k = t.isIntact since k := by
  rw [isIntact, h.memo? k hk, isIntact]

theorem trans (h : Carries rules t t') (h' : Carries rules t' u) : Carries rules t u where
  revision := h'.revision.trans h.revision
  memo? k hk := (h'.memo? k (h.isSome hk)).trans (h.memo? k hk)

theorem follows (h : Carries rules t u) {s : Script K V W E} {seen reads : List K}
    (hs : s.Follows (t.current? rules) seen reads v) : s.Follows (u.current? rules) seen reads v :=
  hs.mono fun _ _ ha => h.current? ha

/-- The memo of one query may become another, as long as that query is not current. -/
theorem of_others (hpending : t.current? rules k = none) (hrev : u.revision = t.revision)
    (hothers : ∀ j, j ≠ k → u.memo? j = t.memo? j) : Carries rules t u := by
  refine ⟨hrev, fun j hj => hothers j ?_⟩
  intro heq
  simp [heq, hpending] at hj

/-- One more query may be current in both. -/
theorem extend (h : Carries rules t u) (t' : Table K V) (hrev : t'.revision = t.revision)
    (hothers : ∀ j, j ≠ k → t'.memo? j = t.memo? j) (hk : u.memo? k = t'.memo? k) : Carries rules t' u := by
  refine ⟨h.revision.trans hrev.symm, fun j hj => ?_⟩
  by_cases heq : j = k
  · rw [heq, hk]
  · rw [current?_congr hrev (hothers j heq)] at hj
    rw [h.memo? j hj, hothers j heq]

theorem validated (h : Carries rules t u) {memo : Memo K V}
    (hk : u.memo? k = some { memo with verifiedAt := u.revision }) : Carries rules (t.validate k memo) u := by
  apply h.extend (k := k) (t.validate k memo) rfl
  · intro j hj
    rw [memo?_validate, if_neg hj]
  · rw [hk, memo?_validate, if_pos rfl, h.revision]

theorem finished (h : Carries rules t u) {old : Option (Memo K V)} {reads : List K} {v : V}
    (hk : u.memo? k = some (rules.renewed old u.revision reads v)) (outer : List (Frame K)) :
    Carries rules (t.finish rules k old outer reads v) u := by
  apply h.extend (k := k) (t.finish rules k old outer reads v) rfl
  · intro j hj
    rw [memo?_finish, if_neg hj]
  · rw [hk, memo?_finish, if_pos rfl, h.revision]

theorem validate (hpending : t.current? rules k = none) (memo : Memo K V) :
    Carries rules t (t.validate k memo) :=
  .of_others hpending rfl fun j hj => by rw [memo?_validate, if_neg hj]

theorem finish (hpending : t.current? rules k = none) (old : Option (Memo K V)) (outer : List (Frame K))
    (reads : List K) (v : V) : Carries rules t (t.finish rules k old outer reads v) :=
  .of_others hpending rfl fun j hj => by rw [memo?_finish, if_neg hj]

end Carries
end Carries

/-- What a task that is done has brought about. -/
def Shows (rules : Rules K V W E) (t : Table K V) : Task K V W E → Prop
  | .answer k v => t.current? rules k = some v
  | .body s seen reads v => s.Follows (t.current? rules) seen reads v
  | .probe d => (t.current? rules d).isSome
  | .check _ _ _ | .review _ _ => True

theorem recordRead_eq (t : Table K V) (d : K) : ∃ active, t.recordRead d = { t with active } := by
  cases hactive : t.active with
  | nil => exact ⟨[], by rw [recordRead_of_idle hactive, ← hactive]⟩
  | cons frame outer => exact ⟨_, recordRead_of_active hactive d⟩

theorem carries_recordRead (t : Table K V) (d : K) : Carries rules t (t.recordRead d) := by
  obtain ⟨active, heq⟩ := recordRead_eq t d
  rw [heq]
  exact .of_memos rfl rfl

theorem performs_spec {task : Task K V W E} (h : Performs rules bodies t task t') :
    Carries rules t t' ∧ Shows rules t' task := by
  induction h with
  | hit hcurrent => exact ⟨.of_memos rfl rfl, hcurrent⟩
  | @validate t t' k memo hholds hpending hreview hsame ih =>
      have hpending' : t'.current? rules k = none := by
        rw [current?_congr ih.1.revision hsame, hpending]
      have hmemo : (t'.validate k memo).memo? k = some { memo with verifiedAt := t'.revision } := by
        rw [memo?_validate, if_pos rfl]
      exact ⟨ih.1.trans (.validate hpending' memo), current?_eq_some.mpr ⟨_, hmemo, rfl, .inr rfl⟩⟩
  | @execute t t₁ t₂ k v reads hderived hpending hreview hbody hsame ihreview ihbody =>
      have henter : Carries rules t₁ (t₁.enter k) := .of_memos rfl rfl
      have hcarries : Carries rules t t₂ := (ihreview.1.trans henter).trans ihbody.1
      have hpending' : t₂.current? rules k = none := by
        rw [current?_congr hcarries.revision hsame, hpending]
      refine ⟨hcarries.trans (.finish hpending' _ _ _ _), ?_⟩
      apply current?_of_memo (by rw [memo?_finish, if_pos rfl])
      exact .inr (Rules.renewed_verifiedAt rules _ _ _ _)
  | yield => exact ⟨.refl _, rfl, rfl⟩
  | @read t t₁ t₂ d a next seen reads v hanswer hnext ihanswer ihnext =>
      have hread := (carries_recordRead t₁ d).trans ihnext.1
      exact ⟨ihanswer.1.trans hread, a, hread.current? ihanswer.2, ihnext.2⟩
  | @given t d hinput hsome =>
      obtain ⟨memo, hmemo⟩ := Option.isSome_iff_exists.mp hsome
      refine ⟨.refl _, ?_⟩
      simp [Shows, current?_of_memo hmemo (.inl hinput)]
  | refresh hanswer ih =>
      refine ⟨ih.1, ?_⟩
      have hcurrent := ih.2
      simp only [Shows] at hcurrent ⊢
      simp [hcurrent]
  | intact | gone | unknown => exact ⟨.refl _, trivial⟩
  | changed hsome hprobe hchanged ih => exact ⟨ih.1, trivial⟩
  | pass hsome hprobe hintact hrest ihprobe ihrest => exact ⟨ihprobe.1.trans ihrest.1, trivial⟩
  | known hcheck ih => exact ⟨ih.1, trivial⟩

section Derived

/-- With so much fuel, every answer to a query that `path` waits for has a derivation. -/
def Derives (rules : Rules K V W E) (bodies : K → Option V → Script K V W E) (n : Nat) (path : List K) :
    Prop :=
  ∀ ⦃t k w v s'⦄, Orderly rules t → t.accepting = false → Waiting rules t path →
    Awaited rules t path k → (refresh rules n k).eval ⟨t, w⟩ = (.ok v, s') →
    Performs rules bodies t (.answer k v) s'.table

theorem Busy.performs (hs : Derives rules bodies n (k :: path)) {outer : List (Frame K)} {seen : List K}
    (h : Busy rules path k outer t seen) {s core : Script K V W E} (hcore : s.Determined core)
    (heval : (script rules (fetch rules n) s).eval ⟨t, w⟩ = (.ok v, s')) :
    ∃ reads, Performs rules bodies t (.body core seen reads v) s'.table ∧
      Busy rules path k outer s'.table reads ∧ Keeps rules (k :: path) t s'.table := by
  induction s generalizing t w seen core with
  | yield value =>
      obtain ⟨hv, rfl⟩ := Prod.mk.inj heval
      obtain rfl := Except.ok.inj hv
      obtain rfl : core = .yield value := hcore
      exact ⟨seen, .yield, h, .refl _ t⟩
  | fail _ => cases heval
  | read d next ih =>
      obtain ⟨rest, rfl, hrest⟩ := hcore
      rw [script, eval_bind, eval_fetch] at heval
      rcases hrun : (refresh rules n d).eval ⟨t, w⟩ with ⟨e | a, t₀, w₀⟩
      · simp [hrun] at heval
      · have hawaited := h.awaited d
        have hleft := leavesOrder n (k :: path) h.orderly h.accepting h.waiting hawaited hrun
        have hanswer := hs h.orderly h.accepting h.waiting hawaited hrun
        obtain ⟨hbusy, hkeeps⟩ := h.read hleft
        rw [hrun] at heval
        obtain ⟨reads, hnext, hbusy', hkeeps'⟩ := ih a hbusy (hrest a) heval
        exact ⟨reads, .read hanswer hnext, hbusy', hkeeps.trans hkeeps'⟩
  | peek d next ih => exact ih _ h (hcore _) heval
  | running next ih =>
      have hrunning : t.isRunning = true := by simp [isRunning, h.active]
      rw [script, eval_bind_ok (eval_table _), hrunning] at heval
      exact ih true h hcore heval
  | look next ih => exact ih _ h (hcore _) heval
  | change _ next ih => exact ih h hcore heval
  | set d value next ih =>
      exact absurd heval (eval_bind_ne_ok (eval_setInput_closed rules w h.accepting d value))
  | advance keep next ih => exact absurd heval (eval_bind_ne_ok (eval_advance_busy rules w h.active keep))
  | sweep next ih => exact absurd heval (eval_bind_ne_ok (eval_sweep_busy rules w h.active))

theorem Probing.performs_hasChanged (hs : Derives rules bodies n (k :: path)) {memo : Memo K V}
    {seen rest : List K} (h : Probing rules path k memo t seen) {d : K} {changed : Bool}
    (hreads : memo.reads = seen ++ d :: rest)
    (heval : (hasChanged rules (refresh rules n) memo.verifiedAt d).eval ⟨t, w⟩ = (.ok changed, s')) :
    t.memo? d = none ∧ changed = true ∧ s'.table = t ∨
      (t.memo? d).isSome ∧ Performs rules bodies t (.probe d) s'.table ∧
        s'.table.isIntact memo.verifiedAt d = !changed := by
  cases checks_of_eval heval with
  | missing hmemo => exact .inl ⟨hmemo, rfl, rfl⟩
  | input hmemo hinput => exact .inr ⟨hmemo, .given hinput hmemo, by simp⟩
  | derived hmemo _ hrun =>
      have hanswer := hs h.orderly h.accepting h.waiting (h.awaited hreads hmemo) hrun
      exact .inr ⟨hmemo, .refresh hanswer, by simp⟩

theorem Probing.performs_areIntact (hs : Derives rules bodies n (k :: path)) {memo : Memo K V}
    {seen rest : List K} {intact : Bool} (h : Probing rules path k memo t seen)
    (hreads : memo.reads = seen ++ rest)
    (heval : (areIntact rules (refresh rules n) memo.verifiedAt rest).eval ⟨t, w⟩ = (.ok intact, s')) :
    Performs rules bodies t (.check memo.verifiedAt rest intact) s'.table := by
  induction rest generalizing t w seen with
  | nil =>
      obtain ⟨rfl, rfl⟩ : true = intact ∧ ⟨t, w⟩ = s' := by simpa [areIntact] using heval
      exact .intact
  | cons d rest ih =>
      rw [eval_areIntact_cons] at heval
      rcases hrun : (hasChanged rules (refresh rules n) memo.verifiedAt d).eval ⟨t, w⟩ with
        ⟨e | changed, t₀, w₀⟩
      · simp [hrun] at heval
      · have hcases := h.performs_hasChanged hs hreads hrun
        obtain ⟨hprobing, -, -⟩ := h.eval_hasChanged (leavesOrder n (k :: path)) hreads hrun
        rw [hrun] at heval
        cases changed with
        | true =>
            obtain ⟨rfl, rfl⟩ : false = intact ∧ ⟨t₀, w₀⟩ = s' := by simpa using heval
            cases hcases with
            | inl hgone =>
                obtain ⟨hgone, -, hsame⟩ := hgone
                rw [hsame]
                exact .gone hgone
            | inr hprobe => exact .changed hprobe.1 hprobe.2.1 hprobe.2.2
        | false =>
            cases hcases with
            | inl hgone => cases hgone.2.1
            | inr hprobe =>
                exact .pass hprobe.1 hprobe.2.1 hprobe.2.2 (ih hprobing (by simpa using hreads) heval)

variable (hbodies : ∀ key old, rules.isInput key = false → (rules.body key old).Determined (bodies key old))

include hbodies

/-- A body that runs after the review of what there was in `t`. -/
theorem performs_execute (hs : Derives rules bodies n (k :: path)) {t₁ : Table K V}
    (ht : Orderly rules t₁) (hacc : t₁.accepting = false) (hp : Waiting rules t₁ (k :: path))
    (hpending : t.current? rules k = none) (hmemo : t₁.memo? k = t.memo? k) (hactive : t₁.active = t.active)
    (hreview : Performs rules bodies t (.review (t.memo? k) false) t₁)
    (heval : (execute rules (fetch rules n) k).eval ⟨t₁, w⟩ = (.ok v, s')) :
    Performs rules bodies t (.answer k v) s'.table := by
  have hderived := hp.derived k List.mem_cons_self
  have hbusy : Busy rules path k t.active (t₁.enter k) [] := hactive ▸ .start ht hacc hp
  rw [eval_execute, hmemo, ← value?] at heval
  rcases hrun : (script rules (fetch rules n) (rules.body k (t.value? k))).eval ⟨t₁.enter k, w⟩ with
    ⟨e | value, t₂, w₂⟩
  · simp [hrun] at heval
  · obtain ⟨reads, hbody, hbusy', hkeeps⟩ := hbusy.performs hs (hbodies k (t.value? k) hderived) hrun
    have hsame : t₂.memo? k = t.memo? k := (hkeeps.waiting k List.mem_cons_self).trans hmemo
    simp only [hrun, leave_renewed rules hbusy'.active] at heval
    obtain ⟨hv, rfl⟩ := Prod.mk.inj heval
    obtain rfl := Except.ok.inj hv
    exact .execute hderived hpending hreview hbody hsame

theorem performs_compute (hs : Derives rules bodies n (k :: path)) (ht : Orderly rules t)
    (hacc : t.accepting = false) (hp : Waiting rules t (k :: path)) (hidle : t.isActive k = false)
    (heval : (refresh rules (n + 1) k).eval ⟨t, w⟩ = (.ok v, s')) :
    Performs rules bodies t (.answer k v) s'.table := by
  have hpending := hp.pending k List.mem_cons_self
  have hreview {memo : Memo K V} {intact : Bool} {t₀ : Table K V} {w₀ : W} (hprobing : Probing rules path k memo t [])
      (hcheck : (areIntact rules (refresh rules n) memo.verifiedAt memo.reads).eval ⟨t, w⟩ = (.ok intact, ⟨t₀, w₀⟩)) :
      Performs rules bodies t (.review (t.memo? k) intact) t₀ := by
    rw [hprobing.holds.2]
    exact .known (hprobing.performs_areIntact hs rfl hcheck)
  cases eval_computed (leavesOrder n (k :: path)) ht hacc hp hidle heval with
  | unknown hmemo hrun =>
      apply performs_execute hbodies hs ht hacc hp hpending rfl rfl _ hrun
      rw [hmemo]
      exact .unknown
  | intact hprobing hcheck _ _ hkeeps =>
      exact .validate hprobing.holds hpending (hreview hprobing hcheck) (hkeeps.waiting k List.mem_cons_self)
  | outdated hprobing hcheck hchecked hactive hkeeps hrun =>
      exact performs_execute hbodies hs hchecked.orderly hchecked.accepting hchecked.waiting hpending
        (hkeeps.waiting k List.mem_cons_self) hactive (hreview hprobing hcheck) hrun

/-- Every answer has a derivation. -/
theorem derives (n : Nat) (path : List K) : Derives rules bodies n path := by
  induction n generalizing path with
  | zero =>
      intro t k w v s' _ _ _ _ heval
      cases heval
  | succ n ih =>
      intro t k w v s' ht hacc hp hk heval
      obtain ⟨hidle, hcases⟩ := refresh_cases ht hacc hp hk heval
      cases hcases with
      | inl hcurrent =>
          obtain ⟨hcurrent, rfl⟩ := hcurrent
          exact .hit hcurrent
      | inr hpending => exact performs_compute hbodies (ih (k :: path)) ht hacc hpending.2 hidle heval

/-- A fetch between operations closes the window and answers. -/
theorem Resting.performs_fetch (hrest : Resting rules t)
    (hfetch : (fetch rules n k).eval ⟨t, w⟩ = (.ok v, s')) :
    Performs rules bodies t.closeWindow (.answer k v) s'.table := by
  rw [eval_fetch] at hfetch
  rcases hrun : (refresh rules n k).eval ⟨t, w⟩ with ⟨e | value, s₁⟩
  · simp [hrun] at hfetch
  · cases n with
    | zero => cases hrun
    | succ n =>
        have horderly := hrest.orderly.of_alike (alike_closeWindow t)
        have hwaiting : Waiting rules t.closeWindow [] := .nil hrest.idle
        have hawaited : Awaited rules t.closeWindow [] k := fun o ho => absurd ho (by simp)
        rw [Resting.eval_refresh_open] at hrun
        have hleft := leavesOrder (n + 1) [] horderly rfl hwaiting hawaited hrun
        have hanswer := derives hbodies (n + 1) [] horderly rfl hwaiting hawaited hrun
        simp only [Resting.eval_refresh_open, hrun, recordRead_of_idle (hleft.active.trans hrest.idle)] at hfetch
        obtain ⟨hv, rfl⟩ := Prod.mk.inj hfetch
        obtain rfl := Except.ok.inj hv
        exact hanswer

end Derived

end Table
end Query
end Palimpsest
