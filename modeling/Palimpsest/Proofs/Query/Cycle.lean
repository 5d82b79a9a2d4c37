import Palimpsest.Proofs.Query.Underway

/-!
Meeting a query that is under way. Checks of memos are repeated from there on, and as everything that
they have been through is current by now, they lead straight to a query whose body runs.
-/

namespace Palimpsest
namespace Query
namespace Table

open Filter Run

variable {K V W E : Type} [DecidableEq K] {rules : Rules K V W E} {inputs : K → Option V}
  {t u : Table K V} {w : W} {path : List K}

theorem eval_refresh_active {k : K} (h : t.isActive k = true) (n : Nat) :
    (refresh rules (n + 1) k).eval ⟨t, w⟩ = (.error (.fault (.cycle k)), ⟨t.closeWindow, w⟩) := by
  rw [eval_refresh_succ, if_pos h]

theorem eval_refresh_current {k : K} {v : V} (hk : t.current? rules k = some v)
    (hactive : t.isActive k = false) (n : Nat) :
    (refresh rules (n + 1) k).eval ⟨t, w⟩ = (.ok v, ⟨t.closeWindow.countHit, w⟩) := by
  obtain ⟨memo, hmemo, rfl, hc⟩ := current?_eq_some.mp hk
  have hc' : (rules.isInput k || memo.verifiedAt == t.revision) = true := by simpa using hc
  simp [eval_refresh_succ, hactive, hmemo, hc']

theorem eval_areIntact_current (hidle : ∀ p, t.isActive p = true → t.current? rules p = none)
    {since : Nat} {before : List K} (rest : List K)
    (hbefore : ∀ d ∈ before, (t.current? rules d).isSome ∧ t.isIntact since d = true)
    (hu : Alike t u) :
    ∃ u', Alike t u' ∧ ∀ n, (areIntact rules (refresh rules (n + 1)) since (before ++ rest)).eval ⟨u, w⟩ =
      (areIntact rules (refresh rules (n + 1)) since rest).eval ⟨u', w⟩ := by
  induction before generalizing u with
  | nil => exact ⟨u, hu, fun n => rfl⟩
  | cons d ds ih =>
      obtain ⟨hcurrent, hintact⟩ := hbefore d List.mem_cons_self
      obtain ⟨v, hv⟩ := Option.isSome_iff_exists.mp hcurrent
      have hds := fun d' hd' => hbefore d' (List.mem_cons_of_mem d hd')
      have hmemo : (u.memo? d).isSome := by
        obtain ⟨memo, hmemo, -⟩ := current?_eq_some.mp hv
        simp [hu.memo?, hmemo]
      cases hinput : rules.isInput d with
      | true =>
          obtain ⟨u', hu', heval⟩ := ih hds hu
          refine ⟨u', hu', fun n => ?_⟩
          rw [List.cons_append, eval_areIntact_input hmemo hinput, hu.isIntact, if_pos hintact]
          exact heval n
      | false =>
          have hcurrent' : u.current? rules d = some v := by
            rw [← hv]
            exact current?_congr hu.revision (hu.memo? d)
          have hactive : u.isActive d = false := by
            rw [hu.isActive]
            by_contra hact
            simp [hidle d (by simpa using hact)] at hv
          have hu₁ : Alike t u.closeWindow.countHit :=
            hu.trans ((alike_closeWindow u).trans (alike_countHit _))
          obtain ⟨u', hu', heval⟩ := ih hds hu₁
          refine ⟨u', hu', fun n => ?_⟩
          rw [List.cons_append, eval_areIntact_derived hmemo hinput (eval_refresh_current hcurrent' hactive n),
            hu₁.isIntact, if_pos hintact]
          exact heval n

/-- A query that waits, over any number of others, for one whose body runs leads into a cycle, and no memo is
touched on the way. -/
theorem eventually_cycle (hidle : ∀ p, t.isActive p = true → t.current? rules p = none)
    (inner : List K) : ∀ k, (k :: inner).IsChain (t.Waits rules) →
      (∃ z ∈ k :: inner, t.isActive z = true) → (∀ y ∈ inner, rules.isInput y = false) →
      ∃ c, ∀ u, Alike t u → ∃ u', Alike t u' ∧ u'.accepting = false ∧ ∀ᶠ n in atTop,
        (refresh rules n k).eval ⟨u, w⟩ = (.error (.fault (.cycle c)), ⟨u', w⟩) := by
  have running {k : K} (hk : t.isActive k = true) : ∃ c, ∀ u, Alike t u →
      ∃ u', Alike t u' ∧ u'.accepting = false ∧ ∀ᶠ n in atTop,
        (refresh rules n k).eval ⟨u, w⟩ = (.error (.fault (.cycle c)), ⟨u', w⟩) :=
    ⟨k, fun u hu => ⟨u.closeWindow, hu.trans (alike_closeWindow u), rfl, eventually_of_succ fun n =>
      eval_refresh_active ((hu.isActive k).trans hk) n⟩⟩
  induction inner with
  | nil =>
      rintro k - ⟨z, hz, hact⟩ -
      obtain rfl := List.mem_singleton.mp hz
      exact running hact
  | cons y inner ih =>
      intro k hchain hz hinput
      by_cases hactive : t.isActive k = true
      · exact running hactive
      · obtain ⟨hwaits, hchain'⟩ := List.isChain_cons_cons.mp hchain
        obtain ⟨memo, before, after, hk, hne, hreads, hbefore, hsome⟩ := hwaits.resolve_left hactive
        obtain ⟨z, hz, hact⟩ := hz
        have hz' : z ∈ y :: inner := by
          rcases List.mem_cons.mp hz with rfl | hz
          · exact absurd hact hactive
          · exact hz
        obtain ⟨c, hc⟩ := ih y hchain' ⟨z, hz', hact⟩ fun y' hy' => hinput y' (List.mem_cons_of_mem y hy')
        refine ⟨c, fun u hu => ?_⟩
        -- What was read before `y` is current and is passed over, so that the check comes to `y` and ends with it.
        obtain ⟨u₁, hu₁, hskip⟩ := eval_areIntact_current (w := w) hidle (y :: after) hbefore
          (hu.trans (alike_closeWindow u))
        obtain ⟨u₂, hu₂, hacc₂, hy⟩ := hc u₁ hu₁
        refine ⟨u₂, hu₂, hacc₂, eventually_succ (p := fun n => (refresh rules n y).eval ⟨u₁, w⟩ = _ ∧ 0 < n)
          (hy.and (eventually_gt_atTop 0)) ?_⟩
        rintro n ⟨hn, hpos⟩
        obtain ⟨n, rfl⟩ : ∃ m, n = m + 1 := ⟨n - 1, by omega⟩
        have hthere : (u₁.memo? y).isSome := (hu₁.memo? y).symm ▸ hsome
        have hstale : (rules.isInput k || memo.verifiedAt == u.revision) = false := by
          simpa [hk.1, hu.revision] using hne
        rw [eval_refresh_succ]
        simp only [hu.isActive, hactive, hu.memo?, hk.2, hstale, hreads, hskip n,
          eval_areIntact_error hthere (hinput y List.mem_cons_self) hn, ite_false, Bool.false_eq_true]

namespace Waiting

/-- Of the queries between two meetings with the same one, the body of some runs: memos alone do not
lead from a query back to itself. -/
theorem exists_active (hp : Waiting rules t path) (ht : Orderly rules t) {k : K}
    {inner : List K} (hsub : ∀ p ∈ k :: inner, p ∈ path)
    (hchain : (k :: (inner ++ [k])).IsChain (t.Waits rules)) :
    ∃ z ∈ k :: inner, t.isActive z = true := by
  by_contra hnone
  obtain ⟨rank, hrank⟩ := ht.ordered
  have hmem {p : K} (h : p ∈ k :: (inner ++ [k])) : p ∈ k :: inner := by
    simp only [List.mem_cons, List.mem_append, List.not_mem_nil, or_false] at h ⊢
    tauto
  let Below (x y : K) : Prop := ∃ mx my, t.Holds rules x mx ∧ t.Holds rules y my ∧
    (mx.verifiedAt < my.verifiedAt ∨ mx.verifiedAt = my.verifiedAt ∧ rank y < rank x)
  have htrans : Trans Below Below Below := by
    refine ⟨?_⟩
    rintro x y z ⟨mx, my, hx, hy, hxy⟩ ⟨my', mz, hy', hz, hyz⟩
    obtain rfl : my = my' := by simpa [hy.2] using hy'.2
    exact ⟨mx, mz, hx, hz, by omega⟩
  have hbelow : (k :: (inner ++ [k])).IsChain Below := by
    refine hchain.imp_of_mem_imp fun x y hx hy hw => ?_
    obtain ⟨memo, before, after, hm, -, hreads, -, hsome⟩ :=
      hw.resolve_left fun hact => hnone ⟨x, hmem hx, hact⟩
    obtain ⟨read, hread⟩ := Option.isSome_iff_exists.mp hsome
    have hy' : t.Holds rules y read := ⟨hp.derived y (hsub y (hmem hy)), hread⟩
    have := hrank x memo y read hm (by simp [hreads]) hy'
    exact ⟨memo, read, hm, hy', by omega⟩
  obtain ⟨m, m', hm, hm', hlt⟩ := hbelow.rel_cons (b := k) (by simp)
  obtain rfl : m = m' := by simpa [hm.2] using hm'.2
  omega

/-- Wanting a query that is under way ends in a cycle, with memos and running queries as they were. -/
theorem eventually_cycle (hp : Waiting rules t path) (ht : Orderly rules t) {k : K}
    (hk : Awaited rules t path k) (hmem : k ∈ path) :
    ∃ c u, Alike t u ∧ u.accepting = false ∧
      ∀ᶠ n in atTop, (refresh rules n k).eval ⟨t, w⟩ = (.error (.fault (.cycle c)), ⟨u, w⟩) := by
  obtain ⟨inner, outer, rfl⟩ := List.append_of_mem hmem
  have hchain : (k :: (inner ++ k :: outer)).IsChain fun i o => t.Waits rules o i :=
    hp.waits.cons hk
  -- The path is told from the inside out, and a query is refreshed the other way round.
  have hround : (k :: (inner ++ [k])).IsChain fun i o => t.Waits rules o i := by
    have heq : k :: (inner ++ k :: outer) = (k :: (inner ++ [k])) ++ outer := by simp
    rw [heq] at hchain
    exact hchain.left_of_append
  have houtward : (k :: (inner.reverse ++ [k])).IsChain (t.Waits rules) := by
    simpa using List.isChain_reverse.mpr hround
  have hsub : ∀ p ∈ k :: inner.reverse, p ∈ inner ++ k :: outer := by
    intro p hmem
    simp only [List.mem_cons, List.mem_reverse, List.mem_append] at hmem ⊢
    tauto
  have hidle : ∀ p, t.isActive p = true → t.current? rules p = none := fun p hact =>
    hp.pending p (hp.active p hact)
  have hpart : (k :: inner.reverse).IsChain (t.Waits rules) := by
    have h := houtward
    rw [← List.cons_append] at h
    exact h.left_of_append
  obtain ⟨c, hc⟩ := Table.eventually_cycle (w := w) hidle inner.reverse k hpart
    (hp.exists_active ht hsub houtward)
    fun y hy => hp.derived y (hsub y (List.mem_cons_of_mem k hy))
  obtain ⟨u, hu⟩ := hc t ⟨rfl, rfl, rfl⟩
  exact ⟨c, u, hu⟩

end Waiting
end Table
end Query
end Palimpsest
