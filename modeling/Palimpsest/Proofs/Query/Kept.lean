import Palimpsest.Proofs.Query.Steps
import Palimpsest.Proofs.Query.SweepExact

/-!
Queries that are left alone while queries are answered: their bodies are not started and their memos at most
marked current. Those are the queries with memos that are not stale, and those for which nothing was read
that has changed once all answers are there.
-/

namespace Palimpsest
namespace Query

variable {K V W E : Type}

/-- The memo, which may have been marked current in `revision`. -/
def Memo.Marks (m : Memo K V) (revision : Nat) (m' : Memo K V) : Prop :=
  m' = m ∨ m' = { m with verifiedAt := revision }

namespace Memo.Marks

variable {m m' : Memo K V} {revision : Nat}

theorem value_eq (h : m.Marks revision m') : m'.value = m.value := by
  rcases h with rfl | rfl <;> rfl

theorem changedAt_eq (h : m.Marks revision m') : m'.changedAt = m.changedAt := by
  rcases h with rfl | rfl <;> rfl

theorem reads_eq (h : m.Marks revision m') : m'.reads = m.reads := by
  rcases h with rfl | rfl <;> rfl

theorem verifiedAt_eq (h : m.Marks revision m') :
    m'.verifiedAt = m.verifiedAt ∨ m'.verifiedAt = revision := by
  rcases h with rfl | rfl
  · exact .inl rfl
  · exact .inr rfl

/-- Marking twice in a revision is marking once. -/
theorem mark (h : m.Marks revision m') : m.Marks revision { m' with verifiedAt := revision } := by
  rcases h with rfl | rfl <;> exact .inr rfl

end Memo.Marks

variable [DecidableEq K] {rules : Rules K V W E} {t t₀ : Table K V} {p q : Table K V × List (Event K V)}
  {k : K} {m : Memo K V}

theorem Step.revision_eq (h : Step rules p q) : q.1.revision = p.1.revision := by
  cases h with
  | rest hrevision _ _ => exact hrevision
  | start _ _ _ _ | finish _ _ _ | validate _ _ => rfl

/-- What has changed since an earlier revision has still done so after a step. -/
theorem Step.isIntact_of (h : Step rules p q) {since : Nat} (hsince : since < p.1.revision) {d : K}
    (hintact : q.1.isIntact since d = true) : p.1.isIntact since d = true := by
  cases h with
  | rest _ hmemos _ => simpa [Table.isIntact, Table.memo?, hmemos] using hintact
  | start _ _ _ _ => exact hintact
  | @finish t k log outer stats memo v _ htakes _ =>
      have hsince : since < t.revision := hsince
      by_cases hd : d = k
      · subst hd
        have hle : memo.changedAt ≤ since := by simpa [Table.isIntact] using hintact
        rw [Table.Takes] at htakes
        cases hold : t.memo? d with
        | none =>
            simp only [hold] at htakes
            omega
        | some old =>
            simp only [hold] at htakes
            split at htakes
            · simpa [Table.isIntact, hold, ← htakes] using hle
            · omega
      · rwa [Table.isIntact, Table.memo?_put_of_ne _ memo hd] at hintact
  | @validate t k log memo hmemo _ =>
      have hput (j : K) : (t.validate k memo).memo? j = (t.put k { memo with verifiedAt := t.revision }).memo? j := rfl
      by_cases hd : d = k
      · subst hd
        rw [Table.isIntact, hput, Table.memo?_put_self] at hintact
        rwa [Table.isIntact, hmemo]
      · rwa [Table.isIntact, hput, Table.memo?_put_of_ne t _ hd] at hintact

/-- The body of the query is not started, and its memo at most marked current. -/
structure Alone (t : Table K V) (k : K) (m : Memo K V) (p : Table K V × List (Event K V)) : Prop where
  memo : ∃ m', p.1.memo? k = some m' ∧ m.Marks t.revision m'
  idle : p.1.isActive k = false
  spared : ∀ old, .started k old ∉ p.2

/-- The memo is outdated in the table, by a read that has changed. -/
structure Disturbed (t : Table K V) (m : Memo K V) (u : Table K V) : Prop where
  past : m.verifiedAt < t.revision
  changed : ∃ d ∈ m.reads, u.isIntact m.verifiedAt d = false

namespace Alone

theorem start (hidle : t.active = []) (hm : t.memo? k = some m) : Alone t k m (t, []) where
  memo := ⟨m, hm, .inl rfl⟩
  idle := by simp [Table.isActive, hidle]
  spared _ := List.not_mem_nil

/-- A step leaves a query alone, or something that was read for it has changed. -/
theorem step (h : Alone t k m p) (hrevision : p.1.revision = t.revision)
    (hverified : rules.isInput k = false → m.verifiedAt ≤ t.revision) (hstep : Step rules p q) :
    Alone t k m q ∨ rules.isInput k = false ∧ Disturbed t m p.1 := by
  obtain ⟨m', hm', hmarks⟩ := h.memo
  have hidle := h.idle
  cases hstep with
  | @rest t u log hrevision hmemos hactive =>
      refine .inl ⟨⟨m', ?_, hmarks⟩, (hactive k).trans hidle, h.spared⟩
      rw [Table.memo?, hmemos]
      exact hm'
  | @start t j log hderived hpending _ hcause =>
      by_cases hj : j = k
      · subst hj
        have hholds : t.Holds rules j m' := ⟨hderived, hm'⟩
        have hpast := hholds.current?_eq_none.mp hpending
        obtain rfl : m' = m := hmarks.resolve_right fun he => hpast (by rw [he]; exact hrevision.symm)
        refine .inr ⟨hderived, ?_, hcause m' hm'⟩
        exact Nat.lt_of_le_of_ne (hverified hderived) (hrevision ▸ hpast)
      · refine .inl ⟨⟨m', hm', hmarks⟩, ?_, fun old hmem => ?_⟩
        · simp only [Table.isActive, Table.enter, List.any_cons, Bool.or_eq_false_iff] at hidle ⊢
          exact ⟨beq_false_of_ne hj, hidle⟩
        · cases List.mem_append.mp hmem with
          | inl hmem => exact h.spared old hmem
          | inr hmem => exact hj (Event.started.inj (List.mem_singleton.mp hmem)).1.symm
  | @finish t j log outer stats memo v hactive _ _ =>
      have hne : k ≠ j := by
        rintro rfl
        simp [Table.isActive_cons hactive] at hidle
      refine .inl ⟨⟨m', (Table.memo?_put_of_ne _ memo hne).trans hm', hmarks⟩, ?_, fun old hmem => ?_⟩
      · simp only [Table.isActive, hactive, List.any_cons, Bool.or_eq_false_iff] at hidle
        exact hidle.2
      · cases List.mem_append.mp hmem with
        | inl hmem => exact h.spared old hmem
        | inr hmem => cases List.mem_singleton.mp hmem
  | @validate t j log memo hmemo _ =>
      refine .inl ⟨?_, hidle, h.spared⟩
      by_cases hkj : k = j
      · subst hkj
        obtain rfl : memo = m' := Option.some.inj (hmemo.symm.trans hm')
        exact ⟨_, Table.memo?_put_self t k _, hrevision ▸ hmarks.mark⟩
      · exact ⟨m', (Table.memo?_put_of_ne t _ hkj).trans hm', hmarks⟩

end Alone

theorem Steps.revision_eq (h : Steps rules p q) : q.1.revision = p.1.revision := by
  induction h with
  | refl => rfl
  | tail _ hstep ih => exact hstep.revision_eq.trans ih

/-- Where all that was read for a query is intact in the end, the query was left alone. -/
theorem Steps.alone (ht : Table.Orderly rules t) (hidle : t.active = []) (hm : t.memo? k = some m)
    (hsteps : Steps rules (t, []) q) (hintact : ∀ d ∈ m.reads, q.1.isIntact m.verifiedAt d = true) :
    Alone t k m q := by
  have hverified (hderived : rules.isInput k = false) := ht.verified_le k m ⟨hderived, hm⟩
  have halone : Alone t k m q ∨ Disturbed t m q.1 := by
    clear hintact
    induction hsteps with
    | refl => exact .inl (.start hidle hm)
    | @tail p q hsteps hstep ih =>
        have hrevision : p.1.revision = t.revision := Steps.revision_eq hsteps
        -- A read that has changed by now does not change back.
        have hlater (h : Disturbed t m p.1) : Disturbed t m q.1 := by
          obtain ⟨hpast, d, hd, hchanged⟩ := h
          refine ⟨hpast, d, hd, ?_⟩
          by_contra hnot
          have hbefore := hstep.isIntact_of (hrevision ▸ hpast) (eq_true_of_ne_false hnot)
          simp [hchanged] at hbefore
        cases ih with
        | inr hdisturbed => exact .inr (hlater hdisturbed)
        | inl halone => exact (halone.step hrevision hverified hstep).imp id fun h => hlater h.2
  refine halone.resolve_right fun hdisturbed => ?_
  obtain ⟨d, hd, hchanged⟩ := hdisturbed.changed
  simp [hintact d hd] at hchanged

/-- The query has a memo that is not stale. -/
def Table.Stands (rules : Rules K V W E) (t : Table K V) (k : K) (m : Memo K V) : Prop :=
  t.memo? k = some m ∧ ¬ t.Stale rules k

/-- What stood at `t₀` is left alone. -/
structure Keeping (rules : Rules K V W E) (t₀ : Table K V) (p : Table K V × List (Event K V)) : Prop where
  revision : p.1.revision = t₀.revision
  alone : ∀ k m, t₀.Stands rules k m → Alone t₀ k m p

namespace Keeping

theorem start (rules : Rules K V W E) {t₀ : Table K V} (hidle : t₀.active = []) : Keeping rules t₀ (t₀, []) where
  revision := rfl
  alone _ _ hk := .start hidle hk.1

theorem isIntact_eq (h : Keeping rules t₀ p) (hk : t₀.Stands rules k m) (since : Nat) :
    p.1.isIntact since k = t₀.isIntact since k := by
  obtain ⟨m', hmemo, hmarks⟩ := (h.alone k m hk).memo
  rw [Table.isIntact, hmemo, Table.isIntact, hk.1]
  simp only [hmarks.changedAt_eq]

/-- Nothing that was read for a query that stood has changed. -/
theorem not_disturbed (h : Keeping rules t₀ p) (ht : Table.Orderly rules t₀) (hk : t₀.Stands rules k m)
    (hderived : rules.isInput k = false) : ¬ Disturbed t₀ m p.1 := by
  rintro ⟨hpast, d, hd, hchanged⟩
  have hholds : t₀.Holds rules k m := ⟨hderived, hk.1⟩
  obtain ⟨hthere, hfresh⟩ := ht.reads_of_not_stale hholds hk.2 hd
  obtain ⟨read, hread⟩ := Option.isSome_iff_exists.mp hthere
  rw [h.isIntact_eq ⟨hread, hfresh⟩] at hchanged
  exact hk.2 ((hholds.stale_iff ht.nodup (Nat.ne_of_lt hpast)).mpr ⟨d, hd, .inl hchanged⟩)

theorem step (h : Keeping rules t₀ p) (ht : Table.Orderly rules t₀) (hstep : Step rules p q) :
    Keeping rules t₀ q := by
  refine ⟨hstep.revision_eq.trans h.revision, fun k m hk => ?_⟩
  have hverified (hderived : rules.isInput k = false) := ht.verified_le k m ⟨hderived, hk.1⟩
  refine ((h.alone k m hk).step h.revision hverified hstep).resolve_right fun hdisturbed => ?_
  exact h.not_disturbed ht hk hdisturbed.1 hdisturbed.2

theorem steps (h : Keeping rules t₀ p) (ht : Table.Orderly rules t₀) (hsteps : Steps rules p q) :
    Keeping rules t₀ q := by
  induction hsteps with
  | refl => exact h
  | tail _ hstep ih => exact ih.step ht hstep

end Keeping

theorem Table.setInput_of_same {u : Table K V} {value : V} {old : Memo K V} (h : t.setInput rules k value = .ok u)
    (hold : t.memo? k = some old) (hsame : rules.same old.value value = true) :
    u = t.put k { old with verifiedAt := t.revision } := by
  obtain ⟨hinput, hopen, -⟩ := setInput_ok h
  simpa [setInput, hinput, hopen, hold, hsame] using h.symm

/-- The queries of `S` have the very values that they have at `t₀`, and nothing that was read for them has
changed since they were verified. -/
structure Table.Upholds (S : K → Prop) (t₀ t : Table K V) : Prop where
  same : ∀ k, S k → ∃ m₀ m, t₀.memo? k = some m₀ ∧ t.memo? k = some m ∧ m.value = m₀.value ∧
    m.changedAt = m₀.changedAt
  reads : ∀ k m, S k → t.memo? k = some m → ∀ d ∈ m.reads, S d ∧ t.isIntact m.verifiedAt d = true

namespace Table.Upholds

variable {S : K → Prop} {u : Table K V}

/-- Whatever stands does so over what stands. -/
theorem of_stands (hrest : Resting rules t) (hchanged : ∀ k m, t.memo? k = some m → m.changedAt ≤ t.revision)
    (hstands : ∀ k, S k → ∃ m, t.Stands rules k m)
    (hreads : ∀ k m d read, S k → t.Holds rules k m → d ∈ m.reads → t.Stands rules d read → S d) :
    Upholds S t t where
  same k hk := by
    obtain ⟨m, hm, -⟩ := hstands k hk
    exact ⟨m, m, hm, hm, rfl, rfl⟩
  reads k m hk hm d hd := by
    have hderived : rules.isInput k = false := by
      by_contra hinput
      rw [hrest.unread k m (by simpa using hinput) hm] at hd
      cases hd
    have hholds : t.Holds rules k m := ⟨hderived, hm⟩
    obtain ⟨m', hm', hfresh⟩ := hstands k hk
    obtain ⟨hthere, hfresh'⟩ := hrest.orderly.reads_of_not_stale hholds hfresh hd
    obtain ⟨read, hread⟩ := Option.isSome_iff_exists.mp hthere
    refine ⟨hreads k m d read hk hholds hd ⟨hread, hfresh'⟩, ?_⟩
    by_cases hverified : m.verifiedAt = t.revision
    · rw [isIntact, hread, hverified]
      simpa using hchanged d read hread
    · by_contra hintact
      refine hfresh ((hholds.stale_iff hrest.orderly.nodup hverified).mpr ⟨d, hd, .inl ?_⟩)
      simpa using hintact

theorem not_stale (h : Upholds S t₀ t) (hnodup : t.keys.Nodup) (hk : S k) : ¬ t.Stale rules k := by
  intro hstale
  refine Reach.Reachable.of_closed (p := fun k => ¬ S k) ?_ ?_ hstale hk
  · intro k hseed hk
    obtain ⟨m, hmem, -, d, hd, hchanged⟩ := mem_staleSeeds.mp hseed
    obtain ⟨-, hintact⟩ := h.reads k m hk ((memo?_eq_some_iff hnodup).mpr hmem) d hd
    simp [hchanged] at hintact
  · intro d hd k hdependent hk
    obtain ⟨m, hmem, -, hread, -⟩ := mem_dependents.mp hdependent
    exact hd (h.reads k m hk ((memo?_eq_some_iff hnodup).mpr hmem) d hread).1

theorem stands (rules : Rules K V W E) (h : Upholds S t₀ t) (hnodup : t.keys.Nodup) (hk : S k) :
    ∃ m, t.Stands rules k m := by
  obtain ⟨_, m, -, hm, -⟩ := h.same k hk
  exact ⟨m, hm, h.not_stale hnodup hk⟩

theorem of_memos (h : Upholds S t₀ t) (hmemo : ∀ k, S k → u.memo? k = t.memo? k) : Upholds S t₀ u where
  same k hk := by
    rw [hmemo k hk]
    exact h.same k hk
  reads k m hk hm d hd := by
    obtain ⟨hS, hintact⟩ := h.reads k m hk ((hmemo k hk).symm.trans hm) d hd
    refine ⟨hS, ?_⟩
    rwa [isIntact, hmemo d hS]

theorem swept (h : Upholds S t₀ t) (hnodup : t.keys.Nodup) : Upholds S t₀ (t.swept rules) :=
  h.of_memos fun _ hk => memo?_swept_of_not_stale (h.not_stale hnodup hk)

/-- An input of `S` is set to the value that it has, or another input is set. -/
theorem setInput (h : Upholds S t₀ t) (hrest : Resting rules t) {key : K} {value : V}
    (hset : t.setInput rules key value = .ok u)
    (hsame : S key → ∀ m, t.memo? key = some m → rules.same m.value value = true) : Upholds S t₀ u := by
  obtain ⟨hinput, hopen, memo, hu, -⟩ := setInput_ok hset
  have hother {k : K} (hk : k ≠ key) : u.memo? k = t.memo? k := by
    rw [hu]
    exact memo?_put_of_ne t memo hk
  by_cases hkey : S key
  · obtain ⟨m₀, old, hbefore, hold, hvalue, hchanged⟩ := h.same key hkey
    have hmemo : u.memo? key = some { old with verifiedAt := t.revision } := by
      rw [setInput_of_same hset hold (hsame hkey old hold), memo?_put_self]
    have hintact (since : Nat) (d : K) : u.isIntact since d = t.isIntact since d := by
      by_cases hd : d = key
      · rw [hd, isIntact, hmemo, isIntact, hold]
      · rw [isIntact, hother hd, isIntact]
    constructor
    · intro k hk
      by_cases hkk : k = key
      · rw [hkk]
        exact ⟨m₀, _, hbefore, hmemo, hvalue, hchanged⟩
      · rw [hother hkk]
        exact h.same k hk
    · intro k m hk hm d hd
      rw [hintact]
      by_cases hkk : k = key
      · obtain rfl : _ = m := Option.some.inj (hmemo.symm.trans (hkk ▸ hm))
        simp [hrest.unread key old hinput hold] at hd
      · exact h.reads k m hk ((hother hkk).symm.trans hm) d hd
  · exact h.of_memos fun k hk => hother fun he => hkey (he ▸ hk)

/-- Answering queries starts no body of `S`. -/
theorem steps (h : Upholds S t₀ t) (hrest : Resting rules t) {events : List (Event K V)}
    (hsteps : Steps rules (t, []) (u, events)) :
    Upholds S t₀ u ∧ ∀ k, S k → ∀ old, .started k old ∉ events := by
  have hnodup := hrest.orderly.nodup
  have hkeeping := (Keeping.start rules hrest.idle).steps hrest.orderly hsteps
  have hmarks {k : K} (hk : S k) : ∃ m m', t.memo? k = some m ∧ u.memo? k = some m' ∧ m.Marks t.revision m' := by
    obtain ⟨m, hstands⟩ := h.stands rules hnodup hk
    obtain ⟨m', hm', hmarks⟩ := (hkeeping.alone k m hstands).memo
    exact ⟨m, m', hstands.1, hm', hmarks⟩
  refine ⟨⟨fun k hk => ?_, fun k m' hk hm' d hd => ?_⟩, fun k hk => ?_⟩
  · obtain ⟨m₀, m, hm₀, hm, hvalue, hchanged⟩ := h.same k hk
    obtain ⟨n, m', hn, hm', hmarks⟩ := hmarks hk
    obtain rfl := Option.some.inj (hm.symm.trans hn)
    exact ⟨m₀, m', hm₀, hm', hmarks.value_eq.trans hvalue, hmarks.changedAt_eq.trans hchanged⟩
  · obtain ⟨m, n, hm, hn, hmarks⟩ := hmarks hk
    obtain rfl := Option.some.inj (hm'.symm.trans hn)
    obtain ⟨hS, hintact⟩ := h.reads k m hk hm d (hmarks.reads_eq ▸ hd)
    obtain ⟨read, hstands⟩ := h.stands rules hnodup hS
    refine ⟨hS, ?_⟩
    have hsame : u.isIntact m'.verifiedAt d = t.isIntact m'.verifiedAt d := hkeeping.isIntact_eq hstands _
    rw [hsame]
    -- Only what is derived has read anything.
    have hderived : rules.isInput k = false := by
      by_contra hinput
      have hnone := hrest.unread k m (by simpa using hinput) hm
      rw [hmarks.reads_eq, hnone] at hd
      cases hd
    have hle := hrest.orderly.verified_le k m ⟨hderived, hm⟩
    rw [isIntact, hstands.1] at hintact ⊢
    simp only [decide_eq_true_eq] at hintact ⊢
    rcases hmarks.verifiedAt_eq with he | he <;> omega
  · obtain ⟨m, hstands⟩ := h.stands rules hnodup hk
    exact (hkeeping.alone k m hstands).spared

end Table.Upholds

end Query
end Palimpsest
