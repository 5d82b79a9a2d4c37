import Palimpsest.Proofs.Query.Steps
import Palimpsest.Proofs.Query.SweepExact

/-!
How much is done to answer a query. Over a history everything that happens to queries is put on a log. A
body is started at most once in a revision, and only if its query has no memo, or if something that was read
for it has since been given a value for which it did not keep the one of before.
-/

namespace Palimpsest
namespace Query

variable {K V W E : Type}

/-- What happened to queries and in which revisions, in order. -/
abbrev Log (K V : Type) := List (Nat × Event K V)

namespace Log

/-- The bodies that were started. -/
def starts (log : Log K V) : List (Nat × K) :=
  log.filterMap fun
    | (revision, .started key _) => some (revision, key)
    | (_, .given _ _ _) => none

/-- After the revision `since` the query lost the value that it had. -/
def Changes (rules : Rules K V W E) (log : Log K V) (since : Nat) (key : K) : Prop :=
  ∃ revision old new, since < revision ∧ (revision, .given key (some old) new) ∈ log ∧
    rules.keeps key old new = false

@[simp] theorem starts_append (log more : Log K V) : (log ++ more).starts = log.starts ++ more.starts :=
  List.filterMap_append

@[simp] theorem starts_started (revision : Nat) (key : K) (old : Option V) :
    starts [(revision, .started key old)] = [(revision, key)] := rfl

@[simp] theorem starts_given (revision : Nat) (key : K) (old : Option V) (value : V) :
    starts [(revision, .given key old value)] = [] := rfl

theorem mem_starts {log : Log K V} {e : Nat × K} (h : e ∈ log.starts) :
    ∃ old, (e.1, .started e.2 old) ∈ log := by
  obtain ⟨⟨revision, event⟩, hmem, he⟩ := List.mem_filterMap.mp h
  cases event with
  | started key old =>
      obtain rfl := Option.some.inj he
      exact ⟨old, hmem⟩
  | given key old value => cases he

theorem append_tagged (past : Log K V) {revision now : Nat} (h : now = revision) (events : List (Event K V))
    (event : Event K V) :
    past ++ (events ++ [event]).map (Prod.mk revision) =
      (past ++ events.map (Prod.mk revision)) ++ [(now, event)] := by
  simp [h]

variable {rules : Rules K V W E} {log more : Log K V} {since : Nat} {key : K}

theorem Changes.of_subset (h : log.Changes rules since key) (hsub : log ⊆ more) :
    more.Changes rules since key := by
  obtain ⟨revision, old, new, hlt, hmem, hkeeps⟩ := h
  exact ⟨revision, old, new, hlt, hsub hmem, hkeeps⟩

end Log

/-- Why a body is started, given its query's memo: there is none, or something that was read for it has
changed since it was verified. -/
def Caused (rules : Rules K V W E) (log : Log K V) : Option (Memo K V) → Prop
  | none => True
  | some memo => ∃ d ∈ memo.reads, log.Changes rules memo.verifiedAt d

variable [DecidableEq K]

/-- The log tells of every change that makes a memo out of date. -/
structure Told (rules : Rules K V W E) (log : Log K V) (t : Table K V) : Prop where
  present : ∀ k memo, t.Holds rules k memo → ∀ d ∈ memo.reads, (t.memo? d).isSome
  changed_le : ∀ k memo, t.memo? k = some memo → memo.changedAt ≤ t.revision
  told : ∀ k memo d read, t.Holds rules k memo → d ∈ memo.reads → t.memo? d = some read →
    memo.verifiedAt < read.changedAt → log.Changes rules memo.verifiedAt d

/-- The log tells of every body that was started in this revision. -/
structure Ran (rules : Rules K V W E) (log : Log K V) (t : Table K V) : Prop where
  past : ∀ e ∈ log, e.1 ≤ t.revision
  ran : ∀ k, (t.revision, k) ∈ log.starts → (t.current? rules k).isSome ∨ t.isActive k = true
  once : log.starts.Nodup

section Tables

open Table

variable {rules : Rules K V W E} {log : Log K V} {t u : Table K V} {key : K} {memo : Memo K V} {value : V}

theorem Table.Takes.changed_le (h : Takes rules t key value memo)
    (hle : ∀ old, t.memo? key = some old → old.changedAt ≤ t.revision) : memo.changedAt ≤ t.revision := by
  rw [Takes] at h
  cases hold : t.memo? key with
  | none =>
      simp only [hold] at h
      exact Nat.le_of_eq h
  | some old =>
      simp only [hold] at h
      have := hle old hold
      split at h <;> omega

/-- A memo that was put over another changed when that one did, or it tells of a change now. -/
theorem Table.Takes.changed (h : Takes rules t key value memo) {old : Memo K V} (hold : t.memo? key = some old) :
    memo.changedAt = old.changedAt ∨ memo.changedAt = t.revision ∧ rules.keeps key old.value value = false := by
  simp only [Takes, hold] at h
  by_cases hkeeps : rules.keeps key old.value value = true
  · exact .inl (by simpa [hkeeps] using h)
  · exact .inr ⟨by simpa [hkeeps] using h, by simpa using hkeeps⟩

namespace Told

theorem of_memos (h : Told rules log t) (hrevision : t.revision ≤ u.revision)
    (hholds : ∀ k m, u.memo? k = some m → t.memo? k = some m)
    (hpresent : ∀ k m, u.Holds rules k m → ∀ d ∈ m.reads, (u.memo? d).isSome) : Told rules log u where
  present := hpresent
  changed_le k m hm := (h.changed_le k m (hholds k m hm)).trans hrevision
  told k m d read hk hd hread := h.told k m d read ⟨hk.1, hholds k m hk.2⟩ hd (hholds d read hread)

theorem of_same (h : Told rules log t) (hrevision : u.revision = t.revision) (hmemos : u.memos = t.memos) :
    Told rules log u := by
  have hmemo (k : K) : u.memo? k = t.memo? k := by rw [memo?, hmemos, memo?]
  refine h.of_memos hrevision.ge (fun k m hm => (hmemo k).symm.trans hm) fun k m hk d hd => ?_
  rw [hmemo]
  exact h.present k m (hk.of_memo? (hmemo k).symm) d hd

theorem of_subset (h : Told rules log t) {more : Log K V} (hsub : log ⊆ more) : Told rules more t :=
  { h with told := fun k m d read hk hd hread hlt => (h.told k m d read hk hd hread hlt).of_subset hsub }

/-- A memo is put that changed when the one of before did, or whose change the log tells of. -/
theorem put (h : Told rules log t) (hle : memo.changedAt ≤ t.revision)
    (hreads : rules.isInput key = true ∨ memo.verifiedAt = t.revision ∧ ∀ d ∈ memo.reads, (t.memo? d).isSome)
    (hchanged : ∀ old, t.memo? key = some old → memo.changedAt = old.changedAt ∨
      ∀ since < memo.changedAt, log.Changes rules since key) : Told rules log (t.put key memo) where
  present k m hk d hd := by
    rw [memo?_put]
    split
    · rfl
    · rcases hreads with hinput | ⟨-, hreads⟩
      · exact h.present k m (holds_put_input hinput hk).2 d hd
      · by_cases hkey : k = key
        · obtain rfl : memo = m := by simpa [hkey] using hk.2
          exact hreads d hd
        · exact h.present k m ⟨hk.1, (memo?_put_of_ne t memo hkey).symm.trans hk.2⟩ d hd
  changed_le k m hm := by
    rw [memo?_put] at hm
    split at hm
    · obtain rfl := Option.some.inj hm
      exact hle
    · exact h.changed_le k m hm
  told k m d read hk hd hread hlt := by
    have hread_le : read.changedAt ≤ t.revision := by
      rw [memo?_put] at hread
      split at hread
      · obtain rfl := Option.some.inj hread
        exact hle
      · exact h.changed_le d read hread
    -- The memo that was put has been verified now, if it is not that of an input.
    have hkey : k ≠ key := by
      rintro rfl
      obtain rfl : memo = m := by simpa using hk.2
      rcases hreads with hinput | ⟨hverified, -⟩
      · simp [hk.1] at hinput
      · omega
    have hk' : t.Holds rules k m := ⟨hk.1, (memo?_put_of_ne t memo hkey).symm.trans hk.2⟩
    by_cases hd' : d = key
    · subst hd'
      obtain rfl : memo = read := by simpa using hread
      obtain ⟨old, hold⟩ := Option.isSome_iff_exists.mp (h.present k m hk' d hd)
      rcases hchanged old hold with hsame | hnew
      · exact h.told k m d old hk' hd hold (hsame ▸ hlt)
      · exact hnew _ hlt
    · exact h.told k m d read hk' hd ((memo?_put_of_ne t memo hd').symm.trans hread) hlt

theorem take (h : Told rules log t) (htakes : Takes rules t key value memo)
    (hreads : rules.isInput key = true ∨ memo.verifiedAt = t.revision ∧ ∀ d ∈ memo.reads, (t.memo? d).isSome) :
    Told rules (log ++ [(t.revision, .given key (t.value? key) value)]) (t.put key memo) := by
  refine (h.of_subset (List.subset_append_left log _)).put ?_ hreads fun old hold => ?_
  · exact htakes.changed_le (h.changed_le key)
  · refine (htakes.changed hold).imp id fun ⟨hnow, hkeeps⟩ since hsince => ?_
    exact ⟨t.revision, old.value, value, hnow ▸ hsince, by simp [value?, hold], hkeeps⟩

/-- What makes a memo out of date is on the log. -/
theorem caused (h : Told rules log t) (hderived : rules.isInput key = false)
    (hcause : ∀ m, t.memo? key = some m → ∃ d ∈ m.reads, t.isIntact m.verifiedAt d = false) :
    Caused rules log (t.memo? key) := by
  cases hmemo : t.memo? key with
  | none => trivial
  | some m =>
      obtain ⟨d, hd, hintact⟩ := hcause m hmemo
      obtain ⟨read, hread⟩ := Option.isSome_iff_exists.mp (h.present key m ⟨hderived, hmemo⟩ d hd)
      have hlt : m.verifiedAt < read.changedAt := by simpa [isIntact, hread] using hintact
      exact ⟨d, hd, h.told key m d read ⟨hderived, hmemo⟩ hd hread hlt⟩

theorem advanced (h : Told rules log t) (keep : Bool) : Told rules log (t.advanced rules keep) := by
  refine h.of_memos (Nat.le_succ _) (fun _ _ => Resting.memo?_of_advanced) fun k m hk d hd => ?_
  have hthere := h.present k m ⟨hk.1, Resting.memo?_of_advanced hk.2⟩ d hd
  have hkept := hk.2
  simp only [memo?_advanced, hk.1, Bool.or_false] at hkept ⊢
  cases keep with
  | true => simpa using hthere
  | false => simp at hkept

/-- A memo that is not stale was made from memos that are not. -/
theorem swept (h : Told rules log t) (horderly : Orderly rules t) : Told rules log (t.swept rules) := by
  refine h.of_memos le_rfl (fun _ _ hm => (memo?_of_swept hm).2) fun k m hk d hd => ?_
  obtain ⟨hfresh, hmemo⟩ := memo?_of_swept hk.2
  obtain ⟨hthere, hread⟩ := horderly.reads_of_not_stale ⟨hk.1, hmemo⟩ hfresh hd
  rwa [memo?_swept_of_not_stale hread]

end Told

namespace Ran

theorem of_current (h : Ran rules log t) (hrevision : u.revision = t.revision)
    (hran : ∀ k, (t.current? rules k).isSome ∨ t.isActive k = true →
      (u.current? rules k).isSome ∨ u.isActive k = true) : Ran rules log u where
  past := hrevision ▸ h.past
  ran k hk := hran k (h.ran k (hrevision ▸ hk))
  once := h.once

theorem given (h : Ran rules log t) (old : Option V) :
    Ran rules (log ++ [(t.revision, .given key old value)]) t where
  past e he := by
    rcases List.mem_append.mp he with he | he
    · exact h.past e he
    · obtain rfl := List.mem_singleton.mp he
      exact le_rfl
  ran k hk := h.ran k (by simpa using hk)
  once := by simpa using h.once

theorem start (h : Ran rules log t) (hpending : t.current? rules key = none)
    (hidle : t.isActive key = false) (old : Option V) :
    Ran rules (log ++ [(t.revision, .started key old)]) (t.enter key) where
  past e he := by
    rcases List.mem_append.mp he with he | he
    · exact h.past e he
    · obtain rfl := List.mem_singleton.mp he
      exact le_rfl
  ran k hk := by
    simp only [Log.starts_append, Log.starts_started, List.mem_append, List.mem_singleton] at hk
    rcases hk with hk | hk
    · refine (h.ran k hk).imp id fun hact => ?_
      simp only [isActive, Table.enter, List.any_cons, Bool.or_eq_true]
      exact .inr hact
    · obtain ⟨-, rfl⟩ := Prod.mk.inj hk
      exact .inr (by simp [isActive, Table.enter])
  once := by
    have hnew : (t.revision, key) ∉ log.starts := fun hmem => by
      rcases h.ran key hmem with hcurrent | hactive
      · simp [hpending] at hcurrent
      · simp [hidle] at hactive
    simpa [List.nodup_append] using ⟨h.once, fun r k hk hr hkey => hnew (hr ▸ hkey ▸ hk)⟩

theorem put (h : Ran rules log t) (hmarked : Marked rules t key memo) : Ran rules log (t.put key memo) := by
  refine h.of_current rfl fun k => Or.imp (fun hcurrent => ?_) id
  rwa [hmarked.current?_put hcurrent]

theorem take (h : Ran rules log t) (hinput : rules.isInput key = true) (memo : Memo K V) :
    Ran rules (log ++ [(t.revision, .given key (t.value? key) value)]) (t.put key memo) := by
  refine (h.given _).of_current rfl fun k => Or.imp (fun hcurrent => ?_) id
  by_cases hk : k = key
  · subst hk
    simp [current?_of_memo (memo?_put_self t k memo) (.inl hinput)]
  · rwa [Marked.current?_put_of_ne t memo hk]

/-- In a new revision nothing has run yet. -/
theorem advanced (h : Ran rules log t) (keep : Bool) : Ran rules log (t.advanced rules keep) where
  past e he := (h.past e he).trans (Nat.le_succ _)
  ran k hk := by
    obtain ⟨old, hmem⟩ := Log.mem_starts hk
    exact absurd (h.past _ hmem) (Nat.not_succ_le_self _)
  once := h.once

theorem swept (h : Ran rules log t) (hnodup : t.keys.Nodup) : Ran rules log (t.swept rules) := by
  refine h.of_current rfl fun k => ?_
  rw [current?_swept hnodup]
  exact id

end Ran
end Tables

/-- How table and log stand while a query is answered that was asked for at `t₀`. -/
structure Midway (rules : Rules K V W E) (past : Log K V) (t₀ : Table K V)
    (p : Table K V × List (Event K V)) : Prop where
  told : Told rules (past ++ p.2.map (Prod.mk t₀.revision)) p.1
  ran : Ran rules (past ++ p.2.map (Prod.mk t₀.revision)) p.1
  revision : p.1.revision = t₀.revision
  touched : ∀ k, p.1.memo? k = t₀.memo? k ∨ (p.1.current? rules k).isSome
  caused : ∀ before k old after, p.2 = before ++ .started k old :: after → rules.isInput k = false ∧
    Caused rules (past ++ before.map (Prod.mk t₀.revision)) (t₀.memo? k)

namespace Midway

variable {rules : Rules K V W E} {past : Log K V} {t₀ : Table K V} {p q : Table K V × List (Event K V)}

/-- The last event is the only new one that has to have a cause. -/
theorem caused_append (h : Midway rules past t₀ p) {event : Event K V}
    (hevent : ∀ k old, event = .started k old → rules.isInput k = false ∧
      Caused rules (past ++ p.2.map (Prod.mk t₀.revision)) (t₀.memo? k)) :
    ∀ before k old after, p.2 ++ [event] = before ++ .started k old :: after → rules.isInput k = false ∧
      Caused rules (past ++ before.map (Prod.mk t₀.revision)) (t₀.memo? k) := by
  intro before k old after heq
  rcases List.eq_nil_or_concat after with rfl | ⟨after', last, rfl⟩
  · obtain ⟨rfl, hlast⟩ := List.append_inj' heq rfl
    exact hevent k old (List.singleton_inj.mp hlast)
  · have heq' : p.2 ++ [event] = (before ++ .started k old :: after') ++ [last] := by simpa using heq
    exact h.caused before k old after' (List.append_inj' heq' rfl).1

/-- A memo that is put is current, and the others are as they were. -/
theorem touched_put (h : Midway rules past t₀ p) {t : Table K V} {k : K} {memo : Memo K V}
    (hmarked : Table.Marked rules t k memo) (hrevision : t.revision = p.1.revision)
    (hmemos : t.memos = p.1.memos) (j : K) :
    (t.put k memo).memo? j = t₀.memo? j ∨ ((t.put k memo).current? rules j).isSome := by
  have hmemo : t.memo? j = p.1.memo? j := by rw [Table.memo?, hmemos, Table.memo?]
  by_cases hj : j = k
  · subst hj
    exact .inr (by simp [hmarked.current?_put_self])
  · rw [Table.Marked.current?_put_of_ne _ memo hj, Table.memo?_put_of_ne _ memo hj,
      Table.current?_congr hrevision hmemo, hmemo]
    exact h.touched j

theorem step (h : Midway rules past t₀ p) (hstep : Step rules p q) : Midway rules past t₀ q := by
  cases hstep with
  | @rest t u log hrevision hmemos hactive =>
      have hmemo (k : K) : u.memo? k = t.memo? k := by rw [Table.memo?, hmemos, Table.memo?]
      have hcurrent (k : K) : u.current? rules k = t.current? rules k :=
        Table.current?_congr hrevision (hmemo k)
      refine ⟨h.told.of_same hrevision hmemos, ?_, hrevision.trans h.revision, fun k => ?_, h.caused⟩
      · exact h.ran.of_current hrevision fun k => by rw [hcurrent, hactive]; exact id
      · rw [hmemo, hcurrent]
        exact h.touched k
  | @start t k log hderived hpending hidle hcause =>
      have hsame : t.memo? k = t₀.memo? k := (h.touched k).resolve_right (by simp [hpending])
      have hlog := past.append_tagged h.revision log (.started k (t.value? k))
      refine ⟨?_, ?_, h.revision, h.touched, h.caused_append ?_⟩
      · rw [hlog]
        exact (h.told.of_subset (List.subset_append_left _ _)).of_same rfl rfl
      · rw [hlog]
        exact h.ran.start hpending hidle _
      · rintro k' old he
        obtain ⟨rfl, -⟩ := Event.started.inj he
        rw [← hsame]
        exact ⟨hderived, h.told.caused hderived hcause⟩
  | @finish t k log outer stats memo v hactive htakes hmarked =>
      have hlog := past.append_tagged h.revision log (.given k (t.value? k) v)
      have hpresent (d : K) (hd : d ∈ memo.reads) : (t.memo? d).isSome := by
        obtain ⟨value, hvalue⟩ := Option.isSome_iff_exists.mp (hmarked.reads d hd)
        obtain ⟨read, hread, -⟩ := Table.current?_eq_some.mp hvalue
        exact Option.isSome_iff_exists.mpr ⟨read, hread⟩
      refine ⟨?_, ?_, h.revision, h.touched_put hmarked rfl rfl, h.caused_append (by simp)⟩
      · rw [hlog]
        exact (h.told.take htakes (.inr ⟨hmarked.verified, hpresent⟩)).of_same rfl rfl
      · rw [hlog]
        refine (h.ran.given _).of_current rfl fun j hj => ?_
        by_cases hjk : j = k
        · subst hjk
          exact .inl (by simp [hmarked.current?_put_self])
        · refine hj.imp (fun hcurrent => ?_) fun hact => ?_
          · rwa [Table.Marked.current?_put_of_ne _ memo hjk]
          · simp only [Table.isActive, hactive, List.any_cons, Bool.or_eq_true, beq_iff_eq] at hact
            exact hact.resolve_left fun he => hjk he.symm
  | @validate t k log memo hmemo hmarked =>
      refine ⟨?_, ?_, h.revision, h.touched_put hmarked rfl rfl, h.caused⟩
      · have hput : Told rules _ (t.put k { memo with verifiedAt := t.revision }) :=
          h.told.put (h.told.changed_le k memo hmemo)
            (.inr ⟨rfl, h.told.present k memo ⟨hmarked.derived, hmemo⟩⟩)
            fun old hold => .inl (by rw [Option.some.inj (hmemo.symm.trans hold)])
        exact hput.of_same rfl rfl
      · exact (h.ran.put hmarked).of_current rfl fun _ => id

theorem steps (h : Midway rules past t₀ p) (hsteps : Steps rules p q) : Midway rules past t₀ q := by
  induction hsteps with
  | refl => exact h
  | tail _ hstep ih => exact ih.step hstep

end Midway

open Run

/-- The states that come about without a refusal, each with the log of what happened on the way. -/
inductive Chronicle (rules : Rules K V W E) : Log K V → State K V W → Prop where
  | start (world : W) : Chronicle rules [] ⟨.empty, world⟩
  | set {log s s'} {key : K} {value : V} (h : Chronicle rules log s)
      (hstep : (setInput rules key value).eval s = (.ok (), s')) :
      Chronicle rules (log ++ [(s.table.revision, .given key (s.table.value? key) value)]) s'
  | advance {log s s'} {keep : Bool} (h : Chronicle rules log s)
      (hstep : (Run.advance rules keep).eval s = (.ok (), s')) : Chronicle rules log s'
  | sweep {log s s'} {dropped : List K} (h : Chronicle rules log s)
      (hstep : (Run.sweep rules).eval s = (.ok dropped, s')) : Chronicle rules log s'
  | fetch {log s s'} {fuel : Nat} {key : K} {value : V} (h : Chronicle rules log s)
      (hstep : (Run.fetch rules.logged fuel key).eval ⟨s.table, (s.world, [])⟩ = (.ok value, s')) :
      Chronicle rules (log ++ s'.world.2.map (Prod.mk s.table.revision)) s'.unlogged

namespace Chronicle

variable {rules : Rules K V W E} {log : Log K V} {s : State K V W}

/-- The log leaves out no history. -/
theorem of_history {inputs : K → Option V} (h : History rules inputs s) : ∃ log, Chronicle rules log s := by
  induction h with
  | start world => exact ⟨[], .start world⟩
  | set _ hstep ih =>
      obtain ⟨log, h⟩ := ih
      exact ⟨_, h.set hstep⟩
  | advance _ hstep ih =>
      obtain ⟨log, h⟩ := ih
      exact ⟨_, h.advance hstep⟩
  | sweep _ hstep ih =>
      obtain ⟨log, h⟩ := ih
      exact ⟨_, h.sweep hstep⟩
  | fetch _ hstep ih =>
      obtain ⟨log, h⟩ := ih
      obtain ⟨events, hlogged⟩ := Run.fetch_logged hstep []
      exact ⟨_, h.fetch hlogged⟩

theorem history (h : Chronicle rules log s) : ∃ inputs, History rules inputs s := by
  induction h with
  | start world => exact ⟨_, .start world⟩
  | set _ hstep ih =>
      obtain ⟨inputs, h⟩ := ih
      exact ⟨_, h.set hstep⟩
  | advance _ hstep ih =>
      obtain ⟨inputs, h⟩ := ih
      exact ⟨_, h.advance hstep⟩
  | sweep _ hstep ih =>
      obtain ⟨inputs, h⟩ := ih
      exact ⟨_, h.sweep hstep⟩
  | @fetch log s s' fuel key value _ hstep ih =>
      obtain ⟨inputs, h⟩ := ih
      have hshows := fetch_shows rules fuel key ⟨s.table, (s.world, [])⟩
      rw [hstep] at hshows
      exact ⟨_, h.fetch hshows⟩

theorem resting (h : Chronicle rules log s) : Table.Resting rules s.table := by
  obtain ⟨inputs, hhistory⟩ := h.history
  exact hhistory.resting

theorem midway (hrest : Table.Resting rules s.table) (htold : Told rules log s.table)
    (hran : Ran rules log s.table) {fuel : Nat} {key : K} {v : V} {s' : State K V (W × List (Event K V))}
    (hfetch : (Run.fetch rules.logged fuel key).eval ⟨s.table, (s.world, [])⟩ = (.ok v, s')) :
    Midway rules log s.table (s'.table, s'.world.2) := by
  have hstart : Midway rules log s.table (s.table, []) :=
    { told := by simpa using htold
      ran := by simpa using hran
      revision := rfl
      touched := fun _ => .inl rfl
      caused := fun before k old after heq => by simp at heq }
  exact hstart.steps (hrest.fetch_steps hfetch)

theorem told_and_ran (h : Chronicle rules log s) : Told rules log s.table ∧ Ran rules log s.table := by
  induction h with
  | start world =>
      refine ⟨⟨fun k memo hk => ?_, fun k memo hm => ?_, fun k memo d read hk => ?_⟩,
        ⟨by simp, fun _ hk => by simp [Log.starts] at hk, List.nodup_nil⟩⟩
      · cases hk.2
      · cases hm
      · cases hk.2
  | @set log s s' key value h hstep ih =>
      obtain ⟨htold, hran⟩ := ih
      obtain ⟨hinput, -, -⟩ := History.of_set hstep
      simp only [setInput, eval_onTable] at hstep
      cases hset : s.table.setInput rules key value with
      | error e => simp [hset, Bind.bind, Except.bind] at hstep
      | ok t =>
          obtain rfl : { s with table := t } = s' := by
            simpa [hset, Bind.bind, Except.bind, Pure.pure, Except.pure] using hstep
          obtain ⟨memo, rfl, htakes⟩ := Table.takes_setInput hset
          exact ⟨htold.take htakes (.inl hinput), hran.take hinput memo⟩
  | @advance log s s' keep h hstep ih =>
      obtain ⟨htold, hran⟩ := ih
      obtain rfl := History.of_advance h.resting.idle hstep
      exact ⟨htold.advanced keep, hran.advanced keep⟩
  | @sweep log s s' dropped h hstep ih =>
      obtain ⟨htold, hran⟩ := ih
      obtain ⟨-, rfl⟩ := History.of_sweep h.resting.idle hstep
      exact ⟨htold.swept h.resting.orderly, hran.swept h.resting.orderly.nodup⟩
  | @fetch log s s' fuel key value h hstep ih =>
      obtain ⟨htold, hran⟩ := ih
      have hmidway := midway h.resting htold hran hstep
      exact ⟨hmidway.told, hmidway.ran⟩

end Chronicle

/-- What `events` leave out, which happen while a query is answered after the log `log`. -/
structure Spares (rules : Rules K V W E) (log : Log K V) (t : Table K V) (events : List (Event K V)) : Prop where
  /-- No body is started twice in a revision. -/
  once : (log ++ events.map (Prod.mk t.revision)).starts.Nodup
  derived : ∀ k old, .started k old ∈ events → rules.isInput k = false
  /-- A body is only started where there is no memo, or something that was read for it has changed since. -/
  caused : ∀ before k old after, events = before ++ .started k old :: after → t.memo? k = none ∨
    ∃ memo, t.memo? k = some memo ∧
      ∃ d ∈ memo.reads, (log ++ before.map (Prod.mk t.revision)).Changes rules memo.verifiedAt d
  /-- Where everything that was read keeps its value, no body is started. -/
  spared : ∀ k memo, t.memo? k = some memo →
    (∀ d ∈ memo.reads, ¬ (log ++ events.map (Prod.mk t.revision)).Changes rules memo.verifiedAt d) →
    ∀ old, .started k old ∉ events

namespace Chronicle

open History (parityRules parityTable)

variable {rules : Rules K V W E} {log : Log K V} {s : State K V W}

/-- After any history, a fetch starts a body at most once in a revision, and only where it cannot be spared. -/
theorem fetch_spares (h : Chronicle rules log s) {fuel : Nat} {key : K} {v : V} {s' : State K V W}
    (hfetch : (Run.fetch rules fuel key).eval s = (.ok v, s')) :
    ∃ events, (Run.fetch rules.logged fuel key).eval ⟨s.table, (s.world, [])⟩ =
        (.ok v, ⟨s'.table, (s'.world, events)⟩) ∧ Spares rules log s.table events := by
  obtain ⟨events, hlogged⟩ := Run.fetch_logged hfetch []
  obtain ⟨htold, hran⟩ := h.told_and_ran
  have hmidway := midway h.resting htold hran hlogged
  refine ⟨events, hlogged, hmidway.ran.once, ?_, ?_, ?_⟩
  · intro k old hmem
    obtain ⟨before, after, heq⟩ := List.append_of_mem hmem
    exact (hmidway.caused before k old after heq).1
  · intro before k old after heq
    obtain ⟨-, hcaused⟩ := hmidway.caused before k old after heq
    cases hmemo : s.table.memo? k with
    | none => exact .inl rfl
    | some memo =>
        rw [hmemo] at hcaused
        exact .inr ⟨memo, rfl, hcaused⟩
  · intro k memo hmemo hkept old hmem
    obtain ⟨before, after, heq⟩ := List.append_of_mem hmem
    obtain ⟨-, hcaused⟩ := hmidway.caused before k old after heq
    rw [hmemo] at hcaused
    obtain ⟨d, hd, hchanges⟩ := hcaused
    have hbefore : before ⊆ events := heq ▸ List.subset_append_left before _
    refine hkept d hd (hchanges.of_subset (List.append_subset.mpr ⟨List.subset_append_left _ _, ?_⟩))
    exact List.Subset.trans (List.map_subset _ hbefore) (List.subset_append_right _ _)

/-- The number is another one of the same parity, so that only the parity is worked out again. -/
theorem fetch_spares_parity :
    ∃ log s', Chronicle parityRules log ⟨parityTable, ()⟩ ∧
      (Run.fetch parityRules 3 2).eval ⟨parityTable, ()⟩ = (.ok 11, s') ∧
      ∃ events, (Run.fetch parityRules.logged 3 2).eval ⟨parityTable, ((), [])⟩ =
          (.ok 11, ⟨s'.table, (s'.world, events)⟩) ∧
        Spares parityRules log parityTable events ∧
        events = [.started 1 (some 1), .given 1 (some 1) 1] := by
  have hset : Chronicle parityRules _ _ :=
    (Chronicle.start ()).set (show (setInput parityRules 0 3).eval _ = (.ok (), _) from rfl)
  have hfetch : Chronicle parityRules _ _ :=
    hset.fetch (show (Run.fetch parityRules.logged 3 2).eval _ = (.ok 11, _) from rfl)
  have hadvance : Chronicle parityRules _ _ :=
    hfetch.advance (show (Run.advance parityRules true).eval _ = (.ok (), _) from rfl)
  have hagain : Chronicle parityRules _ ⟨parityTable, ()⟩ :=
    hadvance.set (show (setInput parityRules 0 5).eval _ = (.ok (), _) from rfl)
  have hrun : (Run.fetch parityRules 3 2).eval ⟨parityTable, ()⟩ = (.ok 11, _) := rfl
  obtain ⟨events, hlogged, hspares⟩ := hagain.fetch_spares hrun
  refine ⟨_, _, hagain, hrun, events, hlogged, hspares, ?_⟩
  exact congrArg (fun r => r.2.world.2) hlogged.symm

end Chronicle

end Query
end Palimpsest
