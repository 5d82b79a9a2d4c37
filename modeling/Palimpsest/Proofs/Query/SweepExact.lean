import Mathlib.Order.Filter.Finite
import Palimpsest.Proofs.Query.Alarmed
import Palimpsest.Proofs.Query.History

/-!
A sweep drops just those memos that could not be answered without running a body. To tell whether an
answer takes a body, all bodies are replaced by alarms; as long as none goes off, queries are answered as
with the bodies. The sweep follows reads backwards from what is out of date by itself, an answer goes down
them; that both find the same comes from the order in which memos were verified.
-/

namespace Palimpsest
namespace Query

open Filter Run

variable {K V W E : Type} [DecidableEq K]

/-- To fetch `key` a body has to be started, its own or that of a query that it reads. -/
def StartsBody (rules : Rules K V W E) (s : State K V W) (key : K) : Prop :=
  ∃ n, ((Run.fetch rules.alarmed n key).eval s).1 = .error (.fault (.body ()))

namespace Table

variable {rules : Rules K V W E} {t u : Table K V} {w : W} {k : K} {memo : Memo K V}

/-- Induction along what memos have on record as read. -/
theorem Orderly.induction_reads (h : Orderly rules t) {p : K → Prop}
    (step : ∀ k memo, t.Holds rules k memo →
      (∀ d ∈ memo.reads, ∀ read, t.Holds rules d read → p d) → p k)
    (hk : t.Holds rules k memo) : p k := by
  obtain ⟨rank, hrank⟩ := h.ordered
  -- A read was verified later than the memo, or in the same revision and is of lower rank.
  have hwf : WellFounded (InvImage (Prod.Lex (· < ·) (· < ·)) fun e : K × Memo K V =>
      (t.revision - e.2.verifiedAt, rank e.1)) :=
    InvImage.wf _ (WellFounded.prod_lex wellFounded_lt wellFounded_lt)
  have hall (e : K × Memo K V) : t.Holds rules e.1 e.2 → p e.1 := by
    induction e using hwf.induction with
    | _ e ih =>
        intro he
        refine step e.1 e.2 he fun d hd read hread => ih (d, read) ?_ hread
        obtain ⟨hle, hlt⟩ := hrank e.1 e.2 d read he hd hread
        have := h.verified_le d read hread
        rcases Nat.lt_or_eq_of_le hle with hlater | hsame
        · exact .left _ _ (by simp only; omega)
        · have hstep := hlt hsame.symm
          simp only [InvImage, hsame]
          exact .right _ hstep
  exact hall (k, memo) hk

section Stale

theorem Stale.holds (hnodup : t.keys.Nodup) (h : t.Stale rules k) :
    ∃ memo, t.Holds rules k memo ∧ memo.verifiedAt ≠ t.revision := by
  obtain ⟨memo, hmem, hun⟩ := h.unverified
  simp only [isUnverified, Bool.and_eq_true, Bool.not_eq_true', bne_iff_ne] at hun
  exact ⟨memo, ⟨hun.1, (memo?_eq_some_iff hnodup).mpr hmem⟩, hun.2⟩

/-- A memo that is not known to be current is stale by what it has read. -/
theorem Holds.stale_iff (hnodup : t.keys.Nodup) (hk : t.Holds rules k memo)
    (hne : memo.verifiedAt ≠ t.revision) :
    t.Stale rules k ↔ ∃ d ∈ memo.reads, t.isIntact memo.verifiedAt d = false ∨ t.Stale rules d := by
  have hmem : (k, memo) ∈ t.memos := (memo?_eq_some_iff hnodup).mp hk.2
  have hun : t.isUnverified rules (k, memo) = true := by simp [isUnverified, hk.1, hne]
  have hunique {other : Memo K V} (h : (k, other) ∈ t.memos) : other = memo := by
    have := (memo?_eq_some_iff hnodup).mpr h
    exact Option.some.inj (this.symm.trans hk.2)
  constructor
  · rintro ⟨r, hr, path⟩
    cases path with
    | refl =>
        obtain ⟨other, hother, -, d, hd, hintact⟩ := mem_staleSeeds.mp hr
        obtain rfl := hunique hother
        exact ⟨d, hd, .inl hintact⟩
    | tail path edge =>
        rename_i d
        obtain ⟨other, hother, -, hd, -⟩ := mem_dependents.mp edge
        obtain rfl := hunique hother
        exact ⟨d, hd, .inr ⟨r, hr, path⟩⟩
  · rintro ⟨d, hd, h⟩
    by_cases hintact : t.isIntact memo.verifiedAt d = true
    · have hstale : t.Stale rules d := h.resolve_left (by simp [hintact])
      exact hstale.step (mem_dependents.mpr ⟨memo, hmem, hun, hd, hintact⟩)
    · exact .root (mem_staleSeeds.mpr ⟨memo, hmem, hun, d, hd, by simpa using hintact⟩)

theorem not_stale_of_current (hnodup : t.keys.Nodup) (h : (t.current? rules k).isSome) :
    ¬ t.Stale rules k := by
  intro hstale
  simp [hstale.not_current hnodup] at h

/-- What a memo that is not stale has read is there, and has a memo that is not stale. -/
theorem Orderly.reads_of_not_stale (h : Orderly rules t) (hk : t.Holds rules k memo)
    (hstale : ¬ t.Stale rules k) {d : K} (hd : d ∈ memo.reads) :
    (t.memo? d).isSome ∧ ¬ t.Stale rules d := by
  by_cases hv : memo.verifiedAt = t.revision
  · have hcurrent := h.closed k memo hk hv d hd
    refine ⟨?_, not_stale_of_current h.nodup hcurrent⟩
    obtain ⟨v, hv⟩ := Option.isSome_iff_exists.mp hcurrent
    obtain ⟨read, hread, -⟩ := current?_eq_some.mp hv
    simp [hread]
  · have hnone := mt (hk.stale_iff h.nodup hv).mpr hstale
    push Not at hnone
    obtain ⟨hintact, hd'⟩ := hnone d hd
    refine ⟨?_, hd'⟩
    cases hread : t.memo? d with
    | none => simp [isIntact, hread] at hintact
    | some read => rfl

end Stale

/-- `u` is `t` with some memos marked as current that are not stale. -/
structure Revalidated (rules : Rules K V W E) (t u : Table K V) : Prop where
  revision : u.revision = t.revision
  active : u.active = t.active
  executions : u.stats.executions = t.stats.executions
  memo : ∀ k, u.memo? k = t.memo? k ∨ ¬ t.Stale rules k ∧
    ∃ memo, t.memo? k = some memo ∧ u.memo? k = some { memo with verifiedAt := t.revision }

namespace Revalidated

theorem refl (rules : Rules K V W E) (t : Table K V) : Revalidated rules t t :=
  ⟨rfl, rfl, rfl, fun _ => .inl rfl⟩

theorem closeWindow (h : Revalidated rules t u) : Revalidated rules t u.closeWindow :=
  ⟨h.revision, h.active, h.executions, h.memo⟩

theorem countHit (h : Revalidated rules t u) : Revalidated rules t u.countHit :=
  ⟨h.revision, h.active, h.executions, h.memo⟩

theorem memo?_isNone (h : Revalidated rules t u) (d : K) : (u.memo? d).isNone = (t.memo? d).isNone := by
  rcases h.memo d with hsame | ⟨-, memo, ht, hu⟩
  · rw [hsame]
  · simp [ht, hu]

/-- The memo of `t`, with a revision at which it was verified. -/
theorem memo?_eq (h : Revalidated rules t u) (hk : t.memo? k = some memo) :
    u.memo? k = some memo ∨ ¬ t.Stale rules k ∧ u.memo? k = some { memo with verifiedAt := t.revision } := by
  rcases h.memo k with hsame | ⟨hstale, memo', ht, hu⟩
  · exact .inl (hsame.trans hk)
  · obtain rfl : memo' = memo := Option.some.inj (ht.symm.trans hk)
    exact .inr ⟨hstale, hu⟩

theorem isIntact_eq (h : Revalidated rules t u) (since : Nat) (d : K) :
    u.isIntact since d = t.isIntact since d := by
  rcases h.memo d with hsame | ⟨-, memo, ht, hu⟩
  · rw [isIntact, hsame, isIntact]
  · simp [isIntact, ht, hu]

theorem validate (h : Revalidated rules t u) (hk : t.memo? k = some memo) (hstale : ¬ t.Stale rules k)
    {v : Nat} : Revalidated rules t (u.validate k { memo with verifiedAt := v }) where
  revision := h.revision
  active := h.active
  executions := h.executions
  memo j := by
    have hput : (u.validate k { memo with verifiedAt := v }).memo? j =
        (u.put k { memo with verifiedAt := u.revision }).memo? j := rfl
    rw [hput, memo?_put, h.revision]
    by_cases hj : j = k
    · subst hj
      exact .inr ⟨hstale, memo, hk, if_pos rfl⟩
    · rw [if_neg hj]
      exact h.memo j

end Revalidated

/-- What an answer comes to with alarms for bodies: the stored value, or an alarm if the memo is stale. -/
inductive Settles (rules : Rules K V W E) (t : Table K V) (w : W) (k : K) :
    Except (Stop K Unit) V × State K V W → Prop where
  | kept {memo : Memo K V} {u : Table K V} (hmemo : t.memo? k = some memo) (hstale : ¬ t.Stale rules k)
      (hu : Revalidated rules t u) : Settles rules t w k (.ok memo.value, ⟨u, w⟩)
  | alarm {s : State K V W} (hstale : t.Stale rules k) :
      Settles rules t w k (.error (.fault (.body ())), s)

theorem settles_execute (hstale : t.Stale rules k) (f : K → Run K V W Unit V) (s : State K V W) :
    Settles rules t w k ((execute rules.alarmed f k).eval s) := by
  have halarm := eval_execute_alarmed rules f k s
  rcases hrun : (execute rules.alarmed f k).eval s with ⟨res, s'⟩
  obtain rfl : res = .error (.fault (.body ())) := by simpa [hrun] using halarm
  exact .alarm hstale

/-- What a check of reads comes to with alarms for bodies. -/
inductive Sifts (rules : Rules K V W E) (t : Table K V) (w : W) (since : Nat) (reads : List K) :
    Except (Stop K Unit) Bool × State K V W → Prop where
  | intact {u : Table K V} (hreads : ∀ d ∈ reads, t.isIntact since d = true ∧ ¬ t.Stale rules d)
      (hu : Revalidated rules t u) : Sifts rules t w since reads (.ok true, ⟨u, w⟩)
  | outdated {s : State K V W} (hreads : ∃ d ∈ reads, t.isIntact since d = false ∨ t.Stale rules d) :
      Sifts rules t w since reads (.ok false, s)
  | alarm {s : State K V W} (hreads : ∃ d ∈ reads, t.isIntact since d = false ∨ t.Stale rules d) :
      Sifts rules t w since reads (.error (.fault (.body ())), s)

theorem Sifts.cons {since : Nat} {d : K} {rest : List K} {x : Except (Stop K Unit) Bool × State K V W}
    (hintact : t.isIntact since d = true) (hstale : ¬ t.Stale rules d)
    (h : Sifts rules t w since rest x) : Sifts rules t w since (d :: rest) x := by
  have onward (hreads : ∃ c ∈ rest, t.isIntact since c = false ∨ t.Stale rules c) :
      ∃ c ∈ d :: rest, t.isIntact since c = false ∨ t.Stale rules c :=
    hreads.imp fun c hc => ⟨List.mem_cons_of_mem d hc.1, hc.2⟩
  cases h with
  | intact hreads hu => exact .intact (List.forall_mem_cons.mpr ⟨⟨hintact, hstale⟩, hreads⟩) hu
  | outdated hreads => exact .outdated (onward hreads)
  | alarm hreads => exact .alarm (onward hreads)

/-- Reads are checked one after the other, down to the first that has changed or takes a body. -/
theorem sifts_areIntact (hnodup : t.keys.Nodup) {n since : Nat} {reads : List K}
    (ih : ∀ d ∈ reads, (∃ read, t.Holds rules d read) → ∀ u, Revalidated rules t u →
      Settles rules t w d ((refresh rules.alarmed n d).eval ⟨u, w⟩)) (hu : Revalidated rules t u) :
    Sifts rules t w since reads
      ((areIntact rules.alarmed (refresh rules.alarmed n) since reads).eval ⟨u, w⟩) := by
  induction reads generalizing u with
  | nil => exact .intact (by simp) hu
  | cons d rest ihreads =>
      obtain ⟨hd, hrest⟩ := List.forall_mem_cons.mp ih
      have hsame := hu.memo?_isNone d
      cases hmemo : t.memo? d with
      | none =>
          have hgone : t.isIntact since d = false := by simp [isIntact, hmemo]
          rw [eval_areIntact_missing (by simpa [hmemo] using hsame)]
          exact .outdated ⟨d, List.mem_cons_self, .inl hgone⟩
      | some read =>
          have hthere : (u.memo? d).isSome := by simpa [hmemo] using hsame
          cases hinput : rules.isInput d with
          | true =>
              have hfresh : ¬ t.Stale rules d :=
                not_stale_of_current hnodup (by simp [current?_of_memo hmemo (.inl hinput)])
              have halarmed : rules.alarmed.isInput d = true := hinput
              rw [eval_areIntact_input hthere halarmed, hu.isIntact_eq]
              cases hintact : t.isIntact since d with
              | false => exact .outdated ⟨d, List.mem_cons_self, .inl hintact⟩
              | true => exact (ihreads hrest hu).cons hintact hfresh
          | false =>
              have halarmed : rules.alarmed.isInput d = false := hinput
              have hsettles := hd ⟨read, hinput, hmemo⟩ u hu
              rcases hrun : (refresh rules.alarmed n d).eval ⟨u, w⟩ with ⟨res, s⟩
              rw [hrun] at hsettles
              cases hsettles with
              | alarm hstale =>
                  rw [eval_areIntact_error hthere halarmed hrun]
                  exact .alarm ⟨d, List.mem_cons_self, .inr hstale⟩
              | kept _ hfresh hu' =>
                  rw [eval_areIntact_derived hthere halarmed hrun, hu'.isIntact_eq]
                  cases hintact : t.isIntact since d with
                  | false => exact .outdated ⟨d, List.mem_cons_self, .inl hintact⟩
                  | true => exact (ihreads hrest hu').cons hintact hfresh

/-- One level further up: a memo is answered as its reads are. -/
theorem settles_refresh_succ (hnodup : t.keys.Nodup) (hidle : t.active = []) {n : Nat}
    (hk : t.Holds rules k memo)
    (ih : ∀ d ∈ memo.reads, (∃ read, t.Holds rules d read) → ∀ u, Revalidated rules t u →
      Settles rules t w d ((refresh rules.alarmed n d).eval ⟨u, w⟩)) (hu : Revalidated rules t u) :
    Settles rules t w k ((refresh rules.alarmed (n + 1) k).eval ⟨u, w⟩) := by
  have hactive : u.isActive k = false := by simp [isActive, hu.active, hidle]
  by_cases hcurrent : (u.current? rules.alarmed k).isSome
  · obtain ⟨v, hv⟩ := Option.isSome_iff_exists.mp hcurrent
    rw [eval_refresh_current hv hactive]
    obtain ⟨stored, hstored, rfl, hc⟩ := current?_eq_some.mp hv
    have hverified : stored.verifiedAt = t.revision := by
      simpa [Rules.alarmed, hk.1, hu.revision] using hc
    rcases hu.memo?_eq hk.2 with hsame | ⟨hfresh, hmarked⟩
    · obtain rfl : stored = memo := Option.some.inj (hstored.symm.trans hsame)
      have hfresh : ¬ t.Stale rules k :=
        not_stale_of_current hnodup (by simp [current?_of_memo hk.2 (.inr hverified)])
      exact .kept hk.2 hfresh hu.closeWindow.countHit
    · obtain rfl := Option.some.inj (hstored.symm.trans hmarked)
      exact (Settles.kept hk.2 hfresh hu.closeWindow.countHit :)
  · have hmemo : u.memo? k = some memo := by
      refine (hu.memo?_eq hk.2).resolve_right ?_
      rintro ⟨-, hmarked⟩
      exact hcurrent (by simp [current?_of_memo hmarked (.inr hu.revision.symm)])
    have hne : memo.verifiedAt ≠ t.revision := by
      intro hv
      exact hcurrent (by simp [current?_of_memo hmemo (.inr (hv.trans hu.revision.symm))])
    have hstale := hk.stale_iff hnodup hne
    have hpast : (rules.alarmed.isInput k || memo.verifiedAt == u.revision) = false := by
      simpa [Rules.alarmed, hk.1, hu.revision] using hne
    have hcheck : Sifts rules t w memo.verifiedAt memo.reads _ := sifts_areIntact hnodup ih hu.closeWindow
    simp only [eval_refresh_succ, hactive, hmemo, hpast, Bool.false_eq_true, ite_false]
    rcases hrun : (areIntact rules.alarmed (refresh rules.alarmed n) memo.verifiedAt memo.reads).eval
      ⟨u.closeWindow, w⟩ with ⟨res, s⟩
    rw [hrun] at hcheck
    cases hcheck with
    | outdated hreads => exact settles_execute (hstale.mpr hreads) _ _
    | alarm hreads => exact .alarm (hstale.mpr hreads)
    | intact hreads hu' =>
        rename_i u'
        have hfresh : ¬ t.Stale rules k := by
          intro h
          obtain ⟨d, hd, hd'⟩ := hstale.mp h
          obtain ⟨hintact, hfresh⟩ := hreads d hd
          exact hd'.elim (by simp [hintact]) hfresh
        obtain ⟨v, hv⟩ : ∃ v, u'.memo? k = some { memo with verifiedAt := v } := by
          rcases hu'.memo?_eq hk.2 with hsame | ⟨-, hmarked⟩
          · exact ⟨memo.verifiedAt, hsame⟩
          · exact ⟨t.revision, hmarked⟩
        simp only [hv]
        exact (Settles.kept hk.2 hfresh (hu'.validate hk.2 hfresh) :)

/-- Whatever has a memo is answered from it, unless the memo is stale. -/
theorem Orderly.eventually_settles (h : Orderly rules t) (hidle : t.active = [])
    (hk : t.memo? k = some memo) :
    ∀ᶠ n in atTop, ∀ u, Revalidated rules t u →
      Settles rules t w k ((refresh rules.alarmed n k).eval ⟨u, w⟩) := by
  by_cases hinput : rules.isInput k = true
  · refine eventually_of_succ fun n u hu => ?_
    have hfresh : ¬ t.Stale rules k :=
      not_stale_of_current h.nodup (by simp [current?_of_memo hk (.inl hinput)])
    have hcurrent : u.current? rules.alarmed k = some memo.value := by
      rcases hu.memo?_eq hk with hsame | ⟨-, hmarked⟩
      · exact current?_of_memo hsame (.inl hinput)
      · exact (current?_of_memo hmarked (.inl hinput) :)
    have hactive : u.isActive k = false := by simp [isActive, hu.active, hidle]
    rw [eval_refresh_current hcurrent hactive]
    exact .kept hk hfresh hu.closeWindow.countHit
  · have hholds : t.Holds rules k memo := ⟨by simpa using hinput, hk⟩
    refine h.induction_reads (p := fun k => ∀ᶠ n in atTop, ∀ u, Revalidated rules t u →
      Settles rules t w k ((refresh rules.alarmed n k).eval ⟨u, w⟩)) ?_ hholds
    intro k memo hk ih
    -- What is fuel enough for each of the reads is enough for all of them, as there are finitely many.
    have hreads : ∀ᶠ n in atTop, ∀ d ∈ {d | d ∈ memo.reads}, (∃ read, t.Holds rules d read) →
        ∀ u, Revalidated rules t u →
          Settles rules t w d ((refresh rules.alarmed n d).eval ⟨u, w⟩) := by
      refine (eventually_all_finite (List.finite_toSet memo.reads)).mpr fun d hd => ?_
      by_cases hex : ∃ read, t.Holds rules d read
      · obtain ⟨read, hread⟩ := hex
        filter_upwards [ih d hd read hread] with n hn _
        exact hn
      · exact .of_forall fun n h => absurd h hex
    refine eventually_succ hreads fun n hn u hu => ?_
    exact settles_refresh_succ h.nodup hidle hk hn hu

/-- A memo that is not stale is answered from, whatever bodies there are. -/
theorem Orderly.eventually_fetch_kept (h : Orderly rules t) (hidle : t.active = [])
    (hk : t.memo? k = some memo) (hfresh : ¬ t.Stale rules k) :
    ∀ᶠ n in atTop, ∀ u, Revalidated rules t u → ∃ u', Revalidated rules t u' ∧
      (Run.fetch rules.alarmed n k).eval ⟨u, w⟩ = (.ok memo.value, ⟨u', w⟩) ∧
      (Run.fetch rules n k).eval ⟨u, w⟩ = (.ok memo.value, ⟨u', w⟩) := by
  filter_upwards [h.eventually_settles (w := w) hidle hk] with n hn u hu
  have hsettles := hn u hu
  rcases hrun : (refresh rules.alarmed n k).eval ⟨u, w⟩ with ⟨res, s⟩
  rw [hrun] at hsettles
  cases hsettles with
  | alarm hstale => exact absurd hstale hfresh
  | @kept memo' u' hmemo _ hu' =>
      obtain rfl : memo' = memo := Option.some.inj (hmemo.symm.trans hk)
      have hfetch : (Run.fetch rules.alarmed n k).eval ⟨u, w⟩ = (.ok memo'.value, ⟨u', w⟩) := by
        rw [eval_fetch, hrun]
        simp only [recordRead_of_idle (hu'.active.trans hidle)]
      exact ⟨u', hu', hfetch, fetch_of_alarmed hfetch⟩

theorem Orderly.eventually_fetch_all (h : Orderly rules t) (hidle : t.active = [])
    {memos : List (K × Memo K V)}
    (hmemos : ∀ e ∈ memos, t.memo? e.1 = some e.2 ∧ ¬ t.Stale rules e.1) :
    ∀ᶠ n in atTop, ∀ u, Revalidated rules t u → ∃ u', Revalidated rules t u' ∧
      ((memos.map Prod.fst).mapM (Run.fetch rules n)).eval ⟨u, w⟩ =
        (.ok (memos.map fun e => e.2.value), ⟨u', w⟩) := by
  induction memos with
  | nil => exact .of_forall fun n u hu => ⟨u, hu, rfl⟩
  | cons e rest ih =>
      obtain ⟨⟨he, hfresh⟩, hrest⟩ := List.forall_mem_cons.mp hmemos
      filter_upwards [h.eventually_fetch_kept (w := w) hidle he hfresh, ih hrest] with n hn hrest u hu
      obtain ⟨u₁, hu₁, -, hfetch⟩ := hn u hu
      obtain ⟨u', hu', heval⟩ := hrest u₁ hu₁
      refine ⟨u', hu', ?_⟩
      rw [List.map_cons, List.mapM_cons, eval_bind_ok hfetch, eval_bind_ok heval]
      rfl

/-- A body is started for a memo just if the memo is stale. -/
theorem Orderly.startsBody_iff (h : Orderly rules t) (hidle : t.active = [])
    (hk : t.memo? k = some memo) : StartsBody rules ⟨t, w⟩ k ↔ t.Stale rules k := by
  constructor
  · rintro ⟨n, hn⟩
    by_contra hfresh
    obtain ⟨m, hkept, hle⟩ :=
      ((h.eventually_fetch_kept (w := w) hidle hk hfresh).and (eventually_ge_atTop n)).exists
    obtain ⟨u', -, hfetch, -⟩ := hkept t (.refl rules t)
    have hwithin : (Run.fetch rules.alarmed n k).Within (Run.fetch rules.alarmed m k) := fetch_within hle k
    rcases hwithin ⟨t, w⟩ with hshort | hsame
    · simp [hn] at hshort
    · simp [hsame, hfetch] at hn
  · intro hstale
    obtain ⟨n, hn⟩ := (h.eventually_settles (w := w) hidle hk).exists
    refine ⟨n, ?_⟩
    have hsettles := hn t (.refl rules t)
    rw [eval_fetch]
    rcases hrun : (refresh rules.alarmed n k).eval ⟨t, w⟩ with ⟨res, s⟩
    rw [hrun] at hsettles
    cases hsettles with
    | alarm _ => rfl
    | kept _ hfresh _ => exact absurd hstale hfresh

end Table

/-- What a sweep does that drops the memos of `dropped`, and what it is good for. -/
structure SweepsExactly (rules : Rules K V W E) (s : State K V W) (dropped : List K) (s' : State K V W) :
    Prop where
  nodup : dropped.Nodup
  dropped_iff : ∀ k, k ∈ dropped ↔ (∃ memo, s.table.Holds rules k memo) ∧ StartsBody rules s k
  rest : s' = { s with table := { s.table with memos := s.table.memos.filter fun e => e.1 ∉ dropped } }
  kept : ∀ k memo, s'.table.memo? k = some memo → ¬ StartsBody rules s' k
  /-- What is left can be fetched one after the other, and no body runs for it. -/
  fetched : ∀ memos ⊆ s'.table.memos, ∀ᶠ n in atTop, ∃ t,
    ((memos.map Prod.fst).mapM (Run.fetch rules n)).eval s' =
      (.ok (memos.map fun e => e.2.value), ⟨t, s'.world⟩) ∧
    t.stats.executions = s'.table.stats.executions
  closed : ∀ k memo, s'.table.memo? k = some memo → ∀ d ∈ memo.reads, (s'.table.memo? d).isSome

namespace History

variable {rules : Rules K V W E}

/-- After any history, whatever bodies do, a sweep drops exactly the derived memos for which a body would be
started. -/
theorem sweep_sweepsExactly {inputs : K → Option V} {s : State K V W} (h : History rules inputs s) :
    ∃ dropped s', (Run.sweep rules).eval s = (.ok dropped, s') ∧ SweepsExactly rules s dropped s' := by
  obtain ⟨t, w⟩ := s
  have hresting : Table.Resting rules t := h.resting
  have hswept := hresting.swept
  refine ⟨t.staleKeys rules, ⟨t.swept rules, w⟩, ?_, ?_, ?_, ?_, ?_, ?_, ?_⟩
  · simp only [Run.sweep, eval_onTable, Table.sweep_of_idle hresting.idle]
  · exact (Table.staleKeys_spec rules t).1
  · intro k
    rw [Table.mem_staleKeys]
    constructor
    · intro hstale
      obtain ⟨memo, hholds, -⟩ := hstale.holds hresting.orderly.nodup
      exact ⟨⟨memo, hholds⟩, (hresting.orderly.startsBody_iff hresting.idle hholds.2).mpr hstale⟩
    · rintro ⟨⟨memo, hholds⟩, hbody⟩
      exact (hresting.orderly.startsBody_iff hresting.idle hholds.2).mp hbody
  · simp [Table.swept]
  · intro k memo hk hbody
    exact Table.not_stale_swept k ((hswept.orderly.startsBody_iff hswept.idle hk).mp hbody)
  · intro memos hsub
    have hmemos : ∀ e ∈ memos,
        (t.swept rules).memo? e.1 = some e.2 ∧ ¬ (t.swept rules).Stale rules e.1 := fun e he =>
      ⟨(Table.memo?_eq_some_iff hswept.orderly.nodup).mpr (hsub he), Table.not_stale_swept e.1⟩
    filter_upwards [hswept.orderly.eventually_fetch_all (w := w) hswept.idle hmemos] with n hn
    obtain ⟨u, hu, heval⟩ := hn _ (.refl rules _)
    exact ⟨u, heval, hu.executions⟩
  · intro k memo hk d hdep
    by_cases hinput : rules.isInput k = true
    · simp [hswept.unread k memo hinput hk] at hdep
    · have hholds : (t.swept rules).Holds rules k memo := ⟨by simpa using hinput, hk⟩
      exact (hswept.orderly.reads_of_not_stale hholds (Table.not_stale_swept k) hdep).1

/-- Two numbers, and a query over each. -/
def pairRules : Rules (Fin 4) Nat Unit Unit where
  isInput k := k < 2
  kind _ := "number"
  same a b := a == b
  body k _ := .read (k - 2) fun n => .yield (n + 10)

/-- The table after fetches of both queries and a change of the first number. -/
def pairTable : Table (Fin 4) Nat :=
  { revision := 2
    accepting := true
    memos := [(0, ⟨5, 2, 2, []⟩), (1, ⟨4, 1, 1, []⟩), (2, ⟨13, 1, 1, [0]⟩), (3, ⟨14, 1, 1, [1]⟩)]
    active := []
    stats := ⟨[("number", 2)], 2, 0, 0⟩ }

theorem sweep_sweepsExactly_pair :
    ∃ inputs, History pairRules inputs ⟨pairTable, ()⟩ ∧
      ∃ s', (Run.sweep pairRules).eval ⟨pairTable, ()⟩ = (.ok [2], s') ∧
        SweepsExactly pairRules ⟨pairTable, ()⟩ [2] s' := by
  have hset : History pairRules _ _ :=
    (start ()).set (show (setInput pairRules 0 3).eval _ = (.ok (), _) from rfl)
  have hboth : History pairRules _ _ :=
    hset.set (show (setInput pairRules 1 4).eval _ = (.ok (), _) from rfl)
  have hfetch : History pairRules _ _ :=
    hboth.fetch (show (Run.fetch pairRules 2 2).eval _ = (.ok 13, _) from rfl)
  have hfetch' : History pairRules _ _ :=
    hfetch.fetch (show (Run.fetch pairRules 2 3).eval _ = (.ok 14, _) from rfl)
  have hadvance : History pairRules _ _ :=
    hfetch'.advance (show (Run.advance pairRules true).eval _ = (.ok (), _) from rfl)
  have hagain : History pairRules _ ⟨pairTable, ()⟩ :=
    hadvance.set (show (setInput pairRules 0 5).eval _ = (.ok (), _) from rfl)
  obtain ⟨dropped, s', heval, hexact⟩ := sweep_sweepsExactly hagain
  obtain rfl : [2] = dropped := Except.ok.inj (congrArg Prod.fst heval)
  exact ⟨_, hagain, s', heval, hexact⟩

end History
end Query
end Palimpsest
