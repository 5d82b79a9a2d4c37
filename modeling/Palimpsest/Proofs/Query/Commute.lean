import Palimpsest.Proofs.Query.Ledger

/-!
Fetches in any order. The reasons in a ledger leave no choice, so that two ledgers that start from one table
agree on every query which both of them have. Work whose result is in a finished ledger already comes to
that result, because its checks and bodies meet there what they met when the ledger was made.
-/

namespace Palimpsest
namespace Query

open Run

variable {K V W E : Type} [DecidableEq K]

namespace Table

variable {rules : Rules K V W E} {bodies : K → Option V → Script K V W E} {t t' u : Table K V} {k : K}

section Agreement

variable {t₀ : Table K V} {done finished : List (K × Outcome)}

/-- Two accounts of one check come to the same end if they agree about what is current. -/
theorem Verdict.unique {since : Nat} {reads : List K} {b b' : Bool} (h : Verdict rules t₀ t since reads b)
    (h' : Verdict rules t₀ u since reads b') (ht : Ledger rules bodies t₀ t done)
    (hu : Ledger rules bodies t₀ u finished) (hsame : Carries rules t u) (hsince : since < t₀.revision) :
    b = b' := by
  have hgone {x : Table K V} {d : K} {entries : List (K × Outcome)} (hx : Ledger rules bodies t₀ x entries)
      (hd : t₀.memo? d = none) (hintact : x.isIntact since d = true) : False := by
    rw [hx.changed_of_gone hd (hx.revision ▸ hsince)] at hintact
    cases hintact
  induction h with
  | intact =>
      cases h'
      rfl
  | gone hd =>
      cases h' with
      | gone _ | changed _ _ => rfl
      | pass _ hintact _ => exact (hgone hu hd hintact).elim
  | changed hcurrent hchanged =>
      cases h' with
      | gone _ | changed _ _ => rfl
      | pass _ hintact _ =>
          rw [hsame.isIntact_eq hcurrent, hchanged] at hintact
          cases hintact
  | pass hcurrent hintact _ ih =>
      cases h' with
      | gone hd => exact (hgone ht hd hintact).elim
      | changed _ hchanged =>
          rw [hsame.isIntact_eq hcurrent, hintact] at hchanged
          cases hchanged
      | pass _ _ hrest => exact ih hrest

theorem Judged.unique {b b' : Bool} (h : Judged rules t₀ t (t₀.memo? k) b)
    (h' : Judged rules t₀ u (t₀.memo? k) b') (ht : Ledger rules bodies t₀ t done)
    (hu : Ledger rules bodies t₀ u finished) (hsame : Carries rules t u)
    (hearlier : ∀ memo, t₀.memo? k = some memo → memo.verifiedAt < t₀.revision) : b = b' := by
  generalize hold : t₀.memo? k = old at h h'
  cases h with
  | unknown =>
      cases h'
      rfl
  | known hverdict =>
      cases h' with
      | known hverdict' => exact hverdict.unique hverdict' ht hu hsame (hearlier _ hold)

/-- A pending memo of a derived query was verified in an earlier revision. -/
theorem Orderly.earlier (h : Orderly rules t₀) (hderived : rules.isInput k = false)
    (hpending : t₀.current? rules k = none) {memo : Memo K V} (hmemo : t₀.memo? k = some memo) :
    memo.verifiedAt < t₀.revision := by
  have hholds : t₀.Holds rules k memo := ⟨hderived, hmemo⟩
  have hle := h.verified_le k memo hholds
  have hne := hholds.current?_eq_none.mp hpending
  omega

/-- A read that is still to be checked is current in a table that has an account of the check. -/
theorem Verdict.head {since : Nat} {d : K} {rest : List K} {b : Bool}
    (h : Verdict rules t₀ u since (d :: rest) b) (ht : Ledger rules bodies t₀ t done)
    (hsame : Carries rules t u) (hsome : (t.memo? d).isSome) : (u.current? rules d).isSome := by
  cases h with
  | changed hcurrent _ | pass hcurrent _ _ => exact hcurrent
  | gone hgone =>
      cases hcurrent : t.current? rules d with
      | some a => simp [hsame.current? hcurrent]
      | none =>
          rw [ht.memo?_eq hcurrent, hgone] at hsome
          cases hsome

theorem Verdict.tail {since : Nat} {d : K} {rest : List K} {b : Bool}
    (h : Verdict rules t₀ u since (d :: rest) b) (hu : Ledger rules bodies t₀ u finished)
    (hsince : since < t₀.revision) (hintact : u.isIntact since d = true) : Verdict rules t₀ u since rest b := by
  cases h with
  | pass _ _ hrest => exact hrest
  | changed _ hchanged =>
      rw [hintact] at hchanged
      cases hchanged
  | gone hgone =>
      rw [hu.changed_of_gone hgone (hu.revision ▸ hsince)] at hintact
      cases hintact

/-- What is asked for is in `u`, and so is whatever decides how a check of it ends. -/
def Decided (rules : Rules K V W E) (t u : Table K V) : Task K V W E → Prop
  | .answer k _ => (u.current? rules k).isSome
  | .body s seen _ _ => ∃ reads v, s.Follows (u.current? rules) seen reads v
  | .probe d => (u.current? rules d).isSome
  | .check since reads _ => since < t.revision ∧ ∃ b, Verdict rules t u since reads b
  | .review old _ => (∀ memo ∈ old, memo.verifiedAt < t.revision) ∧ ∃ b, Judged rules t u old b

/-- A review ends as the reason has it that the ledger gives. -/
theorem Ledger.reviewed (horderly : Orderly rules t₀) (ht : Ledger rules bodies t₀ t done)
    (hu : Ledger rules bodies t₀ u finished) (hderived : rules.isInput k = false)
    (hpending : t.current? rules k = none) (hcurrent : (u.current? rules k).isSome) {b : Bool}
    (hreview : Performs rules bodies t (.review (t.memo? k) b) t')
    (hsame : Decided rules t₀ u (.review (t.memo? k) b) → Carries rules t' u) :
    Carries rules t' u ∧ ∃ o, Explained rules bodies t₀ u k o ∧ b = !o.isExecution := by
  obtain ⟨o, ho⟩ := hu.entered hcurrent (ht.pending hpending)
  have hexplained : Explained rules bodies t₀ u k o := hu.explained _ ho
  have hmemo : t.memo? k = t₀.memo? k := ht.memo?_eq hpending
  have hearlier (memo : Memo K V) (h : t₀.memo? k = some memo) : memo.verifiedAt < t₀.revision :=
    horderly.earlier hderived (ht.pending hpending) h
  obtain ⟨hjudged, done', hdone⟩ := ht.performs hreview
  rw [hmemo] at hsame
  rw [Ends, hmemo] at hjudged
  have hsame' := hsame ⟨hearlier, _, hexplained.judged⟩
  exact ⟨hsame', o, hexplained, hjudged.unique hexplained.judged hdone hu hsame' hearlier⟩

/-- Work that is decided in a table with a ledger comes to what is in that table. -/
theorem Ledger.carries {task : Task K V W E} (h : Performs rules bodies t task t')
    (horderly : Orderly rules t₀) (ht : Ledger rules bodies t₀ t done)
    (hu : Ledger rules bodies t₀ u finished) (hsame : Carries rules t u)
    (hdecided : Decided rules t₀ u task) : Carries rules t' u := by
  induction h generalizing done with
  | hit _ => exact ⟨hsame.revision, hsame.memo?⟩
  | @validate t t' k memo hholds hpending hreview hkept ih =>
      obtain ⟨hsame', o, hexplained, hend⟩ :=
        ht.reviewed horderly hu hholds.1 hpending hdecided hreview (ih ht hsame)
      cases hexplained with
      | executed _ _ _ _ _ => cases hend
      | validated hholds' _ _ hnow =>
          have hmemo : t.memo? k = t₀.memo? k := ht.memo?_eq hpending
          obtain rfl := Option.some.inj (hholds.2.symm.trans (hmemo.trans hholds'.2))
          exact hsame'.validated hnow
  | @execute t t₁ t₂ k v reads hderived hpending hreview hbody hkept ihreview ihbody =>
      obtain ⟨hsame₁, o, hexplained, hend⟩ :=
        ht.reviewed horderly hu hderived hpending hdecided hreview (ihreview ht hsame)
      obtain ⟨-, done₁, hdone₁⟩ := ht.performs hreview
      have henter : Ledger rules bodies t₀ (t₁.enter k) done₁ := hdone₁.skip rfl rfl rfl rfl rfl
      have hmemo : t.memo? k = t₀.memo? k := ht.memo?_eq hpending
      cases hexplained with
      | validated _ _ _ _ => cases hend
      | executed _ _ _ hfollows hnow =>
          rw [value?, ← hmemo, ← value?] at hfollows
          rw [← hmemo] at hnow
          have hsame₂ : Carries rules t₂ u :=
            ihbody henter ⟨hsame₁.revision, hsame₁.memo?⟩ ⟨_, _, hfollows⟩
          -- Both bodies follow what is current in the table with the ledger.
          obtain ⟨rfl, rfl⟩ := (hsame₂.follows (performs_spec hbody).2).unique hfollows
          exact hsame₂.finished hnow t.active
  | yield => exact hsame
  | @read t t₁ t₂ d a next seen reads v hanswer hnext ihanswer ihnext =>
      obtain ⟨reads', v', a', ha', hfollows⟩ := hdecided
      have hsame₁ : Carries rules t₁ u := ihanswer ht hsame (by simp [Decided, ha'])
      obtain ⟨-, done₁, hdone₁⟩ := ht.performs hanswer
      have ha : t₁.current? rules d = some a := (performs_spec hanswer).2
      obtain rfl : a = a' := Option.some.inj ((hsame₁.current? ha).symm.trans ha')
      apply ihnext (hdone₁.recordRead d) _ ⟨reads', v', hfollows⟩
      obtain ⟨active, heq⟩ := recordRead_eq t₁ d
      rw [heq]
      exact ⟨hsame₁.revision, hsame₁.memo?⟩
  | given _ _ => exact hsame
  | refresh hanswer ih => exact ih ht hsame hdecided
  | intact | gone _ | unknown => exact hsame
  | changed hsome hprobe hchanged ih =>
      obtain ⟨-, b', hverdict⟩ := hdecided
      exact ih ht hsame (hverdict.head ht hsame hsome)
  | pass hsome hprobe hintact hrest ihprobe ihrest =>
      obtain ⟨hsince, b', hverdict⟩ := hdecided
      have hsame₁ := ihprobe ht hsame (hverdict.head ht hsame hsome)
      obtain ⟨-, done₁, hdone₁⟩ := ht.performs hprobe
      apply ihrest hdone₁ hsame₁
      refine ⟨hsince, b', hverdict.tail hu hsince ?_⟩
      rw [hsame₁.isIntact_eq (performs_spec hprobe).2, hintact]
  | known hcheck ih =>
      obtain ⟨hearlier, b', hjudged⟩ := hdecided
      cases hjudged with
      | known hverdict => exact ih ht hsame ⟨hearlier _ rfl, b', hverdict⟩

/-- The reason for a memo leaves no choice. -/
theorem Explained.unique {o o' : Outcome} (h : Explained rules bodies t₀ t k o)
    (h' : Explained rules bodies t₀ u k o') (horderly : Orderly rules t₀) (ht : Ledger rules bodies t₀ t done)
    (hu : Ledger rules bodies t₀ u finished) (hsame : Carries rules t u) : o = o' := by
  have hend := h.judged.unique h'.judged ht hu hsame fun _ => horderly.earlier h.derived h.pending
  cases h with
  | validated _ _ _ _ =>
      cases h' with
      | validated _ _ _ _ => rfl
      | executed _ _ _ _ _ => cases hend
  | executed _ _ _ hfollows _ =>
      cases h' with
      | validated _ _ _ _ => cases hend
      | executed _ _ _ hfollows' _ =>
          obtain ⟨-, rfl⟩ := (hsame.follows hfollows).unique hfollows'
          rfl

theorem Ledger.subset (horderly : Orderly rules t₀) (ht : Ledger rules bodies t₀ t done)
    (hu : Ledger rules bodies t₀ u finished) (hsame : Carries rules t u) : done ⊆ finished := by
  intro e he
  have hexplained := ht.explained e he
  obtain ⟨o, ho⟩ := hu.entered (hsame.isSome hexplained.current) hexplained.pending
  obtain rfl : e.2 = o := hexplained.unique (hu.explained _ ho) horderly ht hu hsame
  exact ho

/-- Tables that differ at most in the order of their memos and in what was counted as a hit. -/
structure EqualUpToHits (t u : Table K V) : Prop where
  revision : u.revision = t.revision
  memo? : ∀ k, u.memo? k = t.memo? k
  executions : ∀ kind, u.stats.executionsOf kind = t.stats.executionsOf kind
  validations : u.stats.validations = t.stats.validations
  backdates : u.stats.backdates = t.stats.backdates

theorem Ledger.equalUpToHits (horderly : Orderly rules t₀) (ht : Ledger rules bodies t₀ t done)
    (hu : Ledger rules bodies t₀ u finished) (hsame : Carries rules t u) (hsame' : Carries rules u t) :
    EqualUpToHits t u := by
  have hperm : done.Perm finished := by
    apply (List.perm_ext_iff_of_nodup ht.nodup.of_map hu.nodup.of_map).mpr
    intro e
    exact ⟨fun he => ht.subset horderly hu hsame he, fun he => hu.subset horderly ht hsame' he⟩
  refine ⟨hsame.revision, ?_, ?_, ?_, ?_⟩
  · intro k
    cases hcurrent : t.current? rules k with
    | some a => exact hsame.memo? k (by simp [hcurrent])
    | none =>
        cases hcurrent' : u.current? rules k with
        | some a => exact (hsame'.memo? k (by simp [hcurrent'])).symm
        | none => rw [ht.memo?_eq hcurrent, hu.memo?_eq hcurrent']
  · intro kind
    rw [ht.executions, hu.executions, hperm.countP_eq]
  · rw [ht.validations, hu.validations, hperm.countP_eq]
  · rw [ht.backdates, hu.backdates, hperm.countP_eq]

end Agreement

section Fetches

/-- Fetches one after the other, and their answers. -/
inductive Fetches (rules : Rules K V W E) (bodies : K → Option V → Script K V W E) :
    Table K V → List (K × V) → Table K V → Prop where
  | nil {t : Table K V} : Fetches rules bodies t [] t
  | cons {t t₁ t₂ : Table K V} {k : K} {v : V} {calls : List (K × V)}
      (hanswer : Performs rules bodies t.closeWindow (.answer k v) t₁)
      (hrest : Fetches rules bodies t₁ calls t₂) : Fetches rules bodies t ((k, v) :: calls) t₂

variable {t₀ : Table K V} {done finished : List (K × Outcome)} {calls : List (K × V)}

theorem Resting.fetches (hbodies : ∀ key old, rules.isInput key = false →
      (rules.body key old).Determined (bodies key old)) (hrest : Resting rules t) {n : Nat} {ks : List K}
    {vs : List V} {w : W} {s' : State K V W}
    (heval : (ks.mapM (fetch rules n)).eval ⟨t, w⟩ = (.ok vs, s')) :
    ∃ calls, Fetches rules bodies t calls s'.table ∧ calls.map Prod.fst = ks ∧ calls.map Prod.snd = vs := by
  induction ks generalizing t w vs with
  | nil =>
      obtain ⟨hvs, rfl⟩ := Prod.mk.inj heval
      obtain rfl : [] = vs := Except.ok.inj hvs
      exact ⟨[], .nil, rfl, rfl⟩
  | cons k ks ih =>
      rw [List.mapM_cons, eval_bind] at heval
      rcases hfetch : (fetch rules n k).eval ⟨t, w⟩ with ⟨e | v, t₁, w₁⟩
      · simp [hfetch] at heval
      · simp only [hfetch, eval_bind] at heval
        rcases hothers : (ks.mapM (fetch rules n)).eval ⟨t₁, w₁⟩ with ⟨e | others, s₂⟩
        · simp [hothers] at heval
        · obtain ⟨rfl, rfl⟩ : v :: others = vs ∧ s₂ = s' := by simpa [hothers] using heval
          obtain ⟨calls, hcalls, rfl, rfl⟩ := ih (hrest.fetched hfetch) hothers
          exact ⟨(k, v) :: calls, .cons (hrest.performs_fetch hbodies hfetch) hcalls, rfl, rfl⟩

theorem Fetches.spec (h : Fetches rules bodies t calls t') (ht : Ledger rules bodies t₀ t done) :
    Carries rules t t' ∧ (∀ e ∈ calls, t'.current? rules e.1 = some e.2) ∧
      ∃ done', Ledger rules bodies t₀ t' done' := by
  induction h generalizing done with
  | nil => exact ⟨.refl _, by simp, done, ht⟩
  | @cons t t₁ t₂ k v calls hanswer hrest ih =>
      have hclosed : Ledger rules bodies t₀ t.closeWindow done := ht.skip rfl rfl rfl rfl rfl
      obtain ⟨-, done₁, hdone₁⟩ := hclosed.performs hanswer
      obtain ⟨hcarries, hcurrent⟩ := performs_spec hanswer
      obtain ⟨hcarries', hall, hdone⟩ := ih hdone₁
      have hclose : Carries rules t t.closeWindow := .of_memos rfl rfl
      refine ⟨(hclose.trans hcarries).trans hcarries', ?_, hdone⟩
      intro e he
      cases List.mem_cons.mp he with
      | inl heq => exact heq ▸ hcarries'.current? hcurrent
      | inr hmem => exact hall e hmem

theorem Fetches.carries (h : Fetches rules bodies t calls t') (horderly : Orderly rules t₀)
    (ht : Ledger rules bodies t₀ t done) (hu : Ledger rules bodies t₀ u finished) (hsame : Carries rules t u)
    (hcurrent : ∀ e ∈ calls, (u.current? rules e.1).isSome) : Carries rules t' u := by
  induction h generalizing done with
  | nil => exact hsame
  | @cons t t₁ t₂ k v calls hanswer hrest ih =>
      have hclosed : Ledger rules bodies t₀ t.closeWindow done := ht.skip rfl rfl rfl rfl rfl
      obtain ⟨-, done₁, hdone₁⟩ := hclosed.performs hanswer
      have hsame₁ : Carries rules t₁ u :=
        hclosed.carries hanswer horderly hu ⟨hsame.revision, hsame.memo?⟩ (hcurrent _ List.mem_cons_self)
      exact ih hdone₁ hsame₁ fun e he => hcurrent e (List.mem_cons_of_mem _ he)

end Fetches

end Table

namespace History

variable {rules : Rules K V W E} {inputs : K → Option V} {s s₁ s₂ : State K V W}

/-- The counters of executions stay in order. -/
theorem ascending (hd : rules.Determined) (h : History rules inputs s) :
    Stats.Ascending s.table.stats.executions := by
  induction h with
  | start world => exact List.Pairwise.nil
  | set h hstep ih =>
      obtain ⟨-, -, memo, rfl, -, -⟩ := of_set hstep
      exact ih
  | advance h hstep ih =>
      obtain rfl := of_advance h.resting.idle hstep
      exact ih
  | sweep h hstep ih =>
      obtain ⟨-, rfl⟩ := of_sweep h.resting.idle hstep
      exact ih
  | @fetch inputs s s' fuel key value h hstep ih =>
      obtain ⟨bodies, hbodies⟩ := hd
      have hclosed : Table.Ledger rules bodies s.table s.table.closeWindow [] :=
        (Table.Ledger.refl ih).skip rfl rfl rfl rfl rfl
      obtain ⟨-, done, hdone⟩ := hclosed.performs (h.resting.performs_fetch hbodies hstep)
      exact hdone.ascending

/-- After any history, fetches give the same answers in whatever order they are made, and leave the same
memos and counters except that of hits. -/
theorem fetches_commute (hd : rules.Determined) (h : History rules inputs s) {ks ks' : List K}
    (hperm : ks.Perm ks') {n m : Nat} {vs vs' : List V}
    (hone : (ks.mapM (Run.fetch rules n)).eval s = (.ok vs, s₁))
    (hother : (ks'.mapM (Run.fetch rules m)).eval s = (.ok vs', s₂)) :
    (∃ answer : K → Option V, vs.map some = ks.map answer ∧ vs'.map some = ks'.map answer) ∧
      s₁.table.EqualUpToHits s₂.table := by
  obtain ⟨bodies, hbodies⟩ := id hd
  have hresting := h.resting
  have hstart : Table.Ledger rules bodies s.table s.table [] := .refl (h.ascending hd)
  obtain ⟨calls, hcalls, rfl, rfl⟩ := hresting.fetches hbodies hone
  obtain ⟨calls', hcalls', rfl, rfl⟩ := hresting.fetches hbodies hother
  obtain ⟨hgrown, hcurrent, done, hdone⟩ := hcalls.spec hstart
  obtain ⟨hgrown', hcurrent', done', hdone'⟩ := hcalls'.spec hstart
  -- What is asked for in one order is current after the other.
  have hasked (e : K × V) (he : e ∈ calls) : (s₂.table.current? rules e.1).isSome := by
    have hmem : e.1 ∈ calls'.map Prod.fst := hperm.subset (List.mem_map_of_mem he)
    obtain ⟨e', he', heq⟩ := List.mem_map.mp hmem
    simp [← heq, hcurrent' e' he']
  have hasked' (e : K × V) (he : e ∈ calls') : (s₁.table.current? rules e.1).isSome := by
    have hmem : e.1 ∈ calls.map Prod.fst := hperm.symm.subset (List.mem_map_of_mem he)
    obtain ⟨e', he', heq⟩ := List.mem_map.mp hmem
    simp [← heq, hcurrent e' he']
  have hsame := hcalls.carries hresting.orderly hstart hdone' hgrown' hasked
  have hsame' := hcalls'.carries hresting.orderly hstart hdone hgrown hasked'
  refine ⟨⟨s₂.table.current? rules, ?_, ?_⟩, hdone.equalUpToHits hresting.orderly hdone' hsame hsame'⟩
  · rw [List.map_map, List.map_map]
    apply List.map_congr_left
    intro e he
    exact (hsame.current? (hcurrent e he)).symm
  · rw [List.map_map, List.map_map]
    apply List.map_congr_left
    intro e he
    exact (hcurrent' e he).symm

/-- The parity is read by the query over it, and either of them may be fetched first. -/
theorem fetches_commute_parity :
    parityRules.Determined ∧ ∃ inputs, History parityRules inputs ⟨parityTable, ()⟩ ∧
      [(1 : Fin 3), 2].Perm [2, 1] ∧ ∃ s₁ s₂,
        ([1, 2].mapM (Run.fetch parityRules 3)).eval ⟨parityTable, ()⟩ = (.ok [1, 11], s₁) ∧
        ([2, 1].mapM (Run.fetch parityRules 4)).eval ⟨parityTable, ()⟩ = (.ok [11, 1], s₂) ∧
        (∃ answer : Fin 3 → Option Nat,
          [1, 11].map some = [1, 2].map answer ∧ [11, 1].map some = [2, 1].map answer) ∧
        s₁.table.EqualUpToHits s₂.table := by
  have hd : parityRules.Determined := parityRules_deterministic.determined
  obtain ⟨inputs, -, hhistory⟩ := history_parityTable
  have hperm : [(1 : Fin 3), 2].Perm [2, 1] := .swap 2 1 []
  have hone : ([1, 2].mapM (Run.fetch parityRules 3)).eval ⟨parityTable, ()⟩ = (.ok [1, 11], _) := rfl
  have hother : ([2, 1].mapM (Run.fetch parityRules 4)).eval ⟨parityTable, ()⟩ = (.ok [11, 1], _) := rfl
  exact ⟨hd, inputs, hhistory, hperm, _, _, hone, hother, fetches_commute hd hhistory hperm hone hother⟩

end History
end Query
end Palimpsest
