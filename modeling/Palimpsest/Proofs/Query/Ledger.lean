import Mathlib.Data.List.Nodup
import Palimpsest.Proofs.Query.Derivation

/-!
What has become current since some table, query by query. Each has a reason for the memo that it has now,
which refers to that table and to what is current: its memo of then was found intact, or it was not and the
body ran. Everything that an answer does goes into such a ledger, counters included.
-/

namespace Palimpsest
namespace Query

open Run

variable {K V W E : Type}

/-- How a query has become current. -/
inductive Outcome where
  | validated
  /-- Its body ran, and the value of before stayed or not. -/
  | executed (kept : Bool)
deriving DecidableEq

def Outcome.isExecution : Outcome → Bool
  | validated => false
  | executed _ => true

variable [DecidableEq K]

namespace Table

variable {rules : Rules K V W E} {bodies : K → Option V → Script K V W E} {t t' u : Table K V} {k : K}

/-- How a check of `reads` ends that started after `t`, told from what is current in `u`. -/
inductive Verdict (rules : Rules K V W E) (t u : Table K V) (since : Nat) : List K → Bool → Prop where
  | intact : Verdict rules t u since [] true
  | gone {d : K} {rest : List K} (hgone : t.memo? d = none) : Verdict rules t u since (d :: rest) false
  | changed {d : K} {rest : List K} (hcurrent : (u.current? rules d).isSome)
      (hchanged : u.isIntact since d = false) : Verdict rules t u since (d :: rest) false
  | pass {d : K} {rest : List K} {b : Bool} (hcurrent : (u.current? rules d).isSome)
      (hintact : u.isIntact since d = true) (hrest : Verdict rules t u since rest b) :
      Verdict rules t u since (d :: rest) b

inductive Judged (rules : Rules K V W E) (t u : Table K V) : Option (Memo K V) → Bool → Prop where
  | unknown : Judged rules t u none false
  | known {memo : Memo K V} {b : Bool} (h : Verdict rules t u memo.verifiedAt memo.reads b) :
      Judged rules t u (some memo) b

/-- Why `k`, which was not current in `t`, has the memo that it has in `u`. -/
inductive Explained (rules : Rules K V W E) (bodies : K → Option V → Script K V W E) (t u : Table K V)
    (k : K) : Outcome → Prop where
  | validated {memo : Memo K V} (hholds : t.Holds rules k memo) (hpending : t.current? rules k = none)
      (hjudged : Judged rules t u (t.memo? k) true)
      (hmemo : u.memo? k = some { memo with verifiedAt := u.revision }) :
      Explained rules bodies t u k .validated
  | executed {reads : List K} {v : V} (hderived : rules.isInput k = false)
      (hpending : t.current? rules k = none) (hjudged : Judged rules t u (t.memo? k) false)
      (hfollows : (bodies k (t.value? k)).Follows (u.current? rules) [] reads v)
      (hmemo : u.memo? k = some (rules.renewed (t.memo? k) u.revision reads v)) :
      Explained rules bodies t u k (.executed (rules.kept? (t.memo? k) v).isSome)

theorem Verdict.mono {since : Nat} {reads : List K} {b : Bool} (h : Verdict rules t t' since reads b)
    (hu : Carries rules t' u) : Verdict rules t u since reads b := by
  induction h with
  | intact => exact .intact
  | gone hgone => exact .gone hgone
  | changed hcurrent hchanged =>
      exact .changed (hu.isSome hcurrent) ((hu.isIntact_eq hcurrent since).trans hchanged)
  | pass hcurrent hintact _ ih =>
      exact .pass (hu.isSome hcurrent) ((hu.isIntact_eq hcurrent since).trans hintact) ih

theorem Judged.mono {old : Option (Memo K V)} {b : Bool} (h : Judged rules t t' old b)
    (hu : Carries rules t' u) : Judged rules t u old b := by
  cases h with
  | unknown => exact .unknown
  | known h => exact .known (h.mono hu)

namespace Explained

variable {o : Outcome}

theorem derived (h : Explained rules bodies t u k o) : rules.isInput k = false := by
  cases h with
  | validated hholds _ _ _ => exact hholds.1
  | executed hderived _ _ _ _ => exact hderived

theorem pending (h : Explained rules bodies t u k o) : t.current? rules k = none := by
  cases h <;> assumption

theorem current (h : Explained rules bodies t u k o) : (u.current? rules k).isSome := by
  cases h with
  | validated _ _ _ hmemo => simp [current?_of_memo hmemo (.inr rfl)]
  | executed _ _ _ _ hmemo =>
      simp [current?_of_memo hmemo (.inr (Rules.renewed_verifiedAt rules _ _ _ _))]

theorem judged (h : Explained rules bodies t u k o) : Judged rules t u (t.memo? k) (!o.isExecution) := by
  cases h <;> assumption

theorem mono (h : Explained rules bodies t t' k o) (hu : Carries rules t' u) :
    Explained rules bodies t u k o := by
  have hsame : u.memo? k = t'.memo? k := hu.memo? k h.current
  cases h with
  | validated hholds hpending hjudged hmemo =>
      exact .validated hholds hpending (hjudged.mono hu) (by rw [hsame, hmemo, hu.revision])
  | executed hderived hpending hjudged hfollows hmemo =>
      exact .executed hderived hpending (hjudged.mono hu) (hu.follows hfollows) (by rw [hsame, hmemo, hu.revision])

end Explained

/-- The queries that have become current from `t` to `u`, and what was counted meanwhile. -/
structure Ledger (rules : Rules K V W E) (bodies : K → Option V → Script K V W E) (t u : Table K V)
    (done : List (K × Outcome)) : Prop where
  revision : u.revision = t.revision
  nodup : (done.map Prod.fst).Nodup
  explained : ∀ e ∈ done, Explained rules bodies t u e.1 e.2
  untouched : ∀ k, k ∉ done.map Prod.fst → u.memo? k = t.memo? k
  ascending : Stats.Ascending u.stats.executions
  executions : ∀ kind, u.stats.executionsOf kind =
    t.stats.executionsOf kind + done.countP fun e => e.2.isExecution && rules.kind e.1 == kind
  validations : u.stats.validations = t.stats.validations + done.countP fun e => e.2 == .validated
  backdates : u.stats.backdates = t.stats.backdates + done.countP fun e => e.2 == .executed true

namespace Ledger

variable {done : List (K × Outcome)} {o : Outcome}

theorem refl (h : Stats.Ascending t.stats.executions) : Ledger rules bodies t t [] where
  revision := rfl
  nodup := List.nodup_nil
  explained _ he := nomatch he
  untouched _ _ := rfl
  ascending := h
  executions _ := rfl
  validations := rfl
  backdates := rfl

/-- Nothing is entered for what changes neither memos nor the counters in question. -/
theorem skip (h : Ledger rules bodies t t' done) (hrev : u.revision = t'.revision)
    (hmemos : u.memos = t'.memos) (hexecutions : u.stats.executions = t'.stats.executions)
    (hvalidations : u.stats.validations = t'.stats.validations)
    (hbackdates : u.stats.backdates = t'.stats.backdates) : Ledger rules bodies t u done where
  revision := hrev.trans h.revision
  nodup := h.nodup
  explained e he := (h.explained e he).mono (.of_memos hrev hmemos)
  untouched k hk := by rw [← h.untouched k hk, memo?, hmemos, memo?]
  ascending := hexecutions ▸ h.ascending
  executions kind := by rw [← h.executions kind, Stats.executionsOf, hexecutions, Stats.executionsOf]
  validations := hvalidations.trans h.validations
  backdates := hbackdates.trans h.backdates

theorem recordRead (h : Ledger rules bodies t t' done) (d : K) :
    Ledger rules bodies t (t'.recordRead d) done := by
  obtain ⟨active, heq⟩ := recordRead_eq t' d
  rw [heq]
  exact h.skip rfl rfl rfl rfl rfl

section Entries

variable (h : Ledger rules bodies t u done)

include h

theorem not_mem (hk : u.current? rules k = none) : k ∉ done.map Prod.fst := by
  intro hmem
  obtain ⟨e, he, rfl⟩ := List.mem_map.mp hmem
  have hcurrent := (h.explained e he).current
  simp [hk] at hcurrent

theorem memo?_eq (hk : u.current? rules k = none) : u.memo? k = t.memo? k := h.untouched k (h.not_mem hk)

theorem pending (hk : u.current? rules k = none) : t.current? rules k = none := by
  rw [← hk, current?_congr h.revision (h.memo?_eq hk)]

theorem gone (hk : u.memo? k = none) : t.memo? k = none := by
  have hpending : u.current? rules k = none := by rw [current?, hk]
  rw [← h.memo?_eq hpending, hk]

theorem entered (hcurrent : (u.current? rules k).isSome) (hpending : t.current? rules k = none) :
    ∃ o, (k, o) ∈ done := by
  by_contra hnone
  have hmem : k ∉ done.map Prod.fst := by
    intro hmem
    obtain ⟨e, he, rfl⟩ := List.mem_map.mp hmem
    exact hnone ⟨e.2, he⟩
  rw [current?_congr h.revision (h.untouched k hmem), hpending] at hcurrent
  cases hcurrent

/-- A query without a memo has at best one that is new. -/
theorem changed_of_gone (hgone : t.memo? k = none) {since : Nat} (hsince : since < u.revision) :
    u.isIntact since k = false := by
  have hpending : t.current? rules k = none := by rw [current?, hgone]
  cases hcurrent : u.current? rules k with
  | none => rw [isIntact, h.memo?_eq hcurrent, hgone]
  | some a =>
      obtain ⟨o, ho⟩ := h.entered (by simp [hcurrent]) hpending
      have hexplained : Explained rules bodies t u k o := h.explained _ ho
      cases hexplained with
      | validated hholds _ _ _ =>
          rw [hholds.2] at hgone
          cases hgone
      | executed _ _ _ _ hmemo =>
          rw [hgone, Rules.renewed_none] at hmemo
          rw [isIntact, hmemo]
          simpa using hsince

end Entries

/-- One more query becomes current. -/
theorem add (h : Ledger rules bodies t t' done) (hpending : t'.current? rules k = none)
    (hrev : u.revision = t'.revision) (hothers : ∀ j, j ≠ k → u.memo? j = t'.memo? j)
    (hexplained : Explained rules bodies t u k o) (hascending : Stats.Ascending u.stats.executions)
    (hexecutions : ∀ kind, u.stats.executionsOf kind =
      t'.stats.executionsOf kind + if o.isExecution && rules.kind k == kind then 1 else 0)
    (hvalidations : u.stats.validations = t'.stats.validations + if o == .validated then 1 else 0)
    (hbackdates : u.stats.backdates = t'.stats.backdates + if o == .executed true then 1 else 0) :
    Ledger rules bodies t u ((k, o) :: done) where
  revision := hrev.trans h.revision
  nodup := List.nodup_cons.mpr ⟨h.not_mem hpending, h.nodup⟩
  explained e he := by
    cases List.mem_cons.mp he with
    | inl heq => exact heq ▸ hexplained
    | inr hmem => exact (h.explained e hmem).mono (.of_others hpending hrev hothers)
  untouched j hj := by
    obtain ⟨hne, hmem⟩ := not_or.mp (List.mem_cons.not.mp hj)
    rw [hothers j hne, h.untouched j hmem]
  ascending := hascending
  executions kind := by rw [hexecutions, h.executions, List.countP_cons, Nat.add_assoc]
  validations := by rw [hvalidations, h.validations, List.countP_cons, Nat.add_assoc]
  backdates := by rw [hbackdates, h.backdates, List.countP_cons, Nat.add_assoc]

theorem validate (h : Ledger rules bodies t t' done) {memo : Memo K V} (hholds : t'.Holds rules k memo)
    (hpending : t'.current? rules k = none) (hjudged : Judged rules t t' (some memo) true) :
    Ledger rules bodies t (t'.validate k memo) ((k, .validated) :: done) := by
  have hsame : t'.memo? k = t.memo? k := h.memo?_eq hpending
  have hothers (j : K) (hj : j ≠ k) : (t'.validate k memo).memo? j = t'.memo? j := by
    rw [memo?_validate, if_neg hj]
  have hexplained : Explained rules bodies t (t'.validate k memo) k .validated := by
    apply Explained.validated (hholds.of_memo? hsame.symm) (h.pending hpending)
    · rw [← hsame, hholds.2]
      exact hjudged.mono (.validate hpending memo)
    · rw [memo?_validate, if_pos rfl]
      rfl
  exact h.add hpending rfl hothers hexplained h.ascending (fun _ => rfl) rfl rfl

theorem execute (h : Ledger rules bodies t t' done) (hderived : rules.isInput k = false)
    (hpending : t'.current? rules k = none)
    {old : Option (Memo K V)} (hold : t'.memo? k = old) (hjudged : Judged rules t t' old false)
    {reads : List K} {v : V}
    (hfollows : (bodies k (old.map Memo.value)).Follows (t'.current? rules) [] reads v)
    (outer : List (Frame K)) :
    Ledger rules bodies t (t'.finish rules k old outer reads v)
      ((k, .executed (rules.kept? old v).isSome) :: done) := by
  obtain rfl : t.memo? k = old := (h.memo?_eq hpending).symm.trans hold
  have hcarries := Carries.finish hpending (t.memo? k) outer reads v
  have hothers (j : K) (hj : j ≠ k) :
      (t'.finish rules k (t.memo? k) outer reads v).memo? j = t'.memo? j := by
    rw [memo?_finish, if_neg hj]
  have hexplained : Explained rules bodies t (t'.finish rules k (t.memo? k) outer reads v) k
      (.executed (rules.kept? (t.memo? k) v).isSome) := by
    apply Explained.executed hderived (h.pending hpending) (hjudged.mono hcarries) (hcarries.follows hfollows)
    rw [memo?_finish, if_pos rfl]
    rfl
  have hexecutions := Stats.executionsOf_ran h.ascending (rules.kind k) (rules.kept? (t.memo? k) v).isSome
  refine h.add hpending rfl hothers hexplained (h.ascending.bump _) hexecutions rfl ?_
  cases hkept : (rules.kept? (t.memo? k) v).isSome <;> simp [Table.finish, put, Stats.ran, hkept]

end Ledger

/-- How the checks among the tasks have ended, as it can be told from `u`. -/
def Ends (rules : Rules K V W E) (t u : Table K V) : Task K V W E → Prop
  | .check since reads b => Verdict rules t u since reads b
  | .review old b => Judged rules t u old b
  | _ => True

/-- What is done goes into the ledger. -/
theorem Ledger.performs {task : Task K V W E} {t₀ : Table K V} (h : Performs rules bodies t task t')
    {done : List (K × Outcome)} (ht : Ledger rules bodies t₀ t done) :
    Ends rules t₀ t' task ∧ ∃ done', Ledger rules bodies t₀ t' done' := by
  induction h generalizing done with
  | hit _ => exact ⟨trivial, done, ht.skip rfl rfl rfl rfl rfl⟩
  | @validate t t' k memo hholds hpending hreview hsame ih =>
      obtain ⟨hjudged, done', hdone⟩ := ih ht
      have hpending' : t'.current? rules k = none := by
        rw [current?_congr (performs_spec hreview).1.revision hsame, hpending]
      rw [hholds.2] at hjudged
      exact ⟨trivial, _, hdone.validate (hholds.of_memo? hsame) hpending' hjudged⟩
  | @execute t t₁ t₂ k v reads hderived hpending hreview hbody hsame ihreview ihbody =>
      obtain ⟨hjudged, done₁, hdone₁⟩ := ihreview ht
      have henter : Ledger rules bodies t₀ (t₁.enter k) done₁ := hdone₁.skip rfl rfl rfl rfl rfl
      obtain ⟨-, done₂, hdone₂⟩ := ihbody henter
      obtain ⟨hcarries, hfollows⟩ := performs_spec hbody
      have hopen : Carries rules t₁ (t₁.enter k) := .of_memos rfl rfl
      have hcarries₁ : Carries rules t₁ t₂ := hopen.trans hcarries
      have hpending' : t₂.current? rules k = none := by
        have hrev := hcarries₁.revision.trans (performs_spec hreview).1.revision
        rw [current?_congr hrev hsame, hpending]
      exact ⟨trivial, _, hdone₂.execute hderived hpending' hsame (hjudged.mono hcarries₁) hfollows t.active⟩
  | yield => exact ⟨trivial, done, ht⟩
  | read hanswer hnext ihanswer ihnext =>
      obtain ⟨-, done₁, hdone₁⟩ := ihanswer ht
      exact ihnext (hdone₁.recordRead _)
  | given hinput hsome => exact ⟨trivial, done, ht⟩
  | refresh hanswer ih => exact ⟨trivial, (ih ht).2⟩
  | intact => exact ⟨.intact, done, ht⟩
  | gone hgone => exact ⟨.gone (ht.gone hgone), done, ht⟩
  | changed hsome hprobe hchanged ih =>
      exact ⟨.changed (performs_spec hprobe).2 hchanged, (ih ht).2⟩
  | pass hsome hprobe hintact hrest ihprobe ihrest =>
      obtain ⟨-, done₁, hdone₁⟩ := ihprobe ht
      obtain ⟨hverdict, hdone₂⟩ := ihrest hdone₁
      have hcurrent := (performs_spec hprobe).2
      have hcarries := (performs_spec hrest).1
      refine ⟨.pass (hcarries.isSome hcurrent) ?_ hverdict, hdone₂⟩
      rw [hcarries.isIntact_eq hcurrent, hintact]
  | unknown => exact ⟨.unknown, done, ht⟩
  | known hcheck ih =>
      obtain ⟨hverdict, hdone⟩ := ih ht
      exact ⟨.known hverdict, hdone⟩

end Table
end Query
end Palimpsest
