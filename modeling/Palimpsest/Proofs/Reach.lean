import Mathlib.Data.List.Perm.Subperm
import Mathlib.Data.Set.Finite.Basic
import Mathlib.Logic.Relation
import Mathlib.Order.Bounds.Basic
import Palimpsest.Reach

/-!
The tracer marks what can be reached and nothing else, and asks each marked item once. The items pending and the items
asked for their successors together are the marked ones, each once; that carries the loop to its end.
-/

namespace Palimpsest
namespace Reach

variable {α : Type}

/-- What one of the roots leads to by some number of edges. -/
def Reachable (next : α → List α) (roots : List α) (x : α) : Prop :=
  ∃ r ∈ roots, Relation.ReflTransGen (fun a b => b ∈ next a) r x

namespace Reachable

variable {next : α → List α} {roots : List α}

theorem root {r : α} (h : r ∈ roots) : Reachable next roots r := ⟨r, h, .refl⟩

theorem step {x y : α} (h : Reachable next roots x) (hy : y ∈ next x) : Reachable next roots y := by
  obtain ⟨r, hr, path⟩ := h
  exact ⟨r, hr, path.tail hy⟩

/-- A set that holds the roots and is closed under edges holds all that is reachable. -/
theorem of_closed {p : α → Prop} (hroots : ∀ r ∈ roots, p r)
    (hnext : ∀ x, p x → ∀ y ∈ next x, p y) {x : α} (h : Reachable next roots x) : p x := by
  obtain ⟨r, hr, path⟩ := h
  induction path with
  | refl => exact hroots r hr
  | tail _ edge ih => exact hnext _ ih _ edge

theorem congr {other : α → List α} (h : ∀ x, Reachable next roots x → next x = other x) (x : α) :
    Reachable next roots x ↔ Reachable other roots x := by
  constructor
  · intro hx
    refine (of_closed (p := fun x => Reachable next roots x ∧ Reachable other roots x)
      (fun r hr => ⟨root hr, root hr⟩) ?_ hx).2
    intro x hx y hy
    exact ⟨hx.1.step hy, hx.2.step (h x hx.1 ▸ hy)⟩
  · apply of_closed (fun r hr => root hr)
    intro x hx y hy
    exact hx.step (h x hx ▸ hy)

end Reachable

/-- How marking stands between two items: `pending` are marked and not yet asked. -/
structure Marking (next : α → List α) (roots pending : List α) (t : Trace α) : Prop where
  nodup : t.marked.Nodup
  perm : t.marked.Perm (pending ++ t.asked)
  sound : ∀ x ∈ t.marked, Reachable next roots x
  closed : ∀ x ∈ t.asked, ∀ y ∈ next x, y ∈ t.marked
  roots : ∀ r ∈ roots, r ∈ t.marked

namespace Marking

variable {next : α → List α} {roots pending : List α} {t : Trace α}

theorem asked_length_le {domain : List α} (h : Marking next roots pending t)
    (hu : ∀ x, Reachable next roots x → x ∈ domain) :
    pending.length + t.asked.length ≤ domain.length := by
  have hsub : t.marked ⊆ domain := fun x hx => hu x (h.sound x hx)
  have hle := (List.subperm_of_subset h.nodup hsub).length_le
  rwa [h.perm.length_eq, List.length_append] at hle

/-- With nothing pending, the marked items are the reachable ones. -/
theorem mem_marked_iff (h : Marking next roots [] t) (x : α) :
    x ∈ t.marked ↔ Reachable next roots x := by
  refine ⟨h.sound x, ?_⟩
  apply Reachable.of_closed h.roots
  intro y hy z hz
  exact h.closed y (h.perm.mem_iff.mp hy) z hz

theorem isLeast_marked (h : Marking next roots [] t) :
    IsLeast {s : Set α | (∀ r ∈ roots, r ∈ s) ∧ ∀ x ∈ s, ∀ y ∈ next x, y ∈ s} {x | x ∈ t.marked} := by
  refine ⟨⟨h.roots, fun x hx => h.closed x (h.perm.mem_iff.mp hx)⟩, ?_⟩
  intro s hs x hx
  exact (h.sound x hx).of_closed hs.1 hs.2

end Marking

variable [DecidableEq α]

theorem mark_eq (items pending marked : List α) :
    ∃ fresh : List α, mark items pending marked = (fresh.reverse ++ pending, marked ++ fresh) ∧
      fresh.Nodup ∧ ∀ x, x ∈ fresh ↔ x ∈ items ∧ x ∉ marked := by
  induction items generalizing pending marked with
  | nil => exact ⟨[], by simp [mark], List.nodup_nil, by simp⟩
  | cons y ys ih =>
      by_cases hy : y ∈ marked
      · obtain ⟨fresh, heq, hnodup, hmem⟩ := ih pending marked
        refine ⟨fresh, by simpa [mark, hy] using heq, hnodup, ?_⟩
        intro x
        rw [hmem]
        constructor
        · rintro ⟨hx, hm⟩
          exact ⟨List.mem_cons_of_mem _ hx, hm⟩
        · rintro ⟨hx, hm⟩
          rcases List.mem_cons.mp hx with rfl | hx
          · exact absurd hy hm
          · exact ⟨hx, hm⟩
      · obtain ⟨fresh, heq, hnodup, hmem⟩ := ih (y :: pending) (marked ++ [y])
        refine ⟨y :: fresh, by simpa [mark, hy] using heq, ?_, ?_⟩
        · refine List.nodup_cons.mpr ⟨?_, hnodup⟩
          intro h
          exact ((hmem y).mp h).2 (by simp)
        · intro x
          have := hmem x
          by_cases hx : x = y <;> simp_all

namespace Marking

variable {next : α → List α} {roots pending : List α} {t : Trace α}

theorem start (next : α → List α) (roots : List α) :
    Marking next roots (mark roots [] []).1 { marked := (mark roots [] []).2, asked := [] } := by
  obtain ⟨fresh, heq, hnodup, hmem⟩ := mark_eq roots [] []
  rw [heq]
  refine ⟨by simpa using hnodup, by simp, ?_, by simp, ?_⟩
  · intro x hx
    exact .root ((hmem x).mp (by simpa using hx)).1
  · intro r hr
    simpa using (hmem r).mpr ⟨hr, by simp⟩

theorem ask {x : α} (h : Marking next roots (x :: pending) t) :
    Marking next roots (mark (next x) pending t.marked).1
      { marked := (mark (next x) pending t.marked).2, asked := t.asked ++ [x] } := by
  obtain ⟨fresh, heq, hnodup, hmem⟩ := mark_eq (next x) pending t.marked
  have hx : x ∈ t.marked := h.perm.mem_iff.mpr (by simp)
  rw [heq]
  refine ⟨?_, ?_, ?_, ?_, fun r hr => List.mem_append_left _ (h.roots r hr)⟩
  · refine List.nodup_append.mpr ⟨h.nodup, hnodup, ?_⟩
    rintro a ha b hb rfl
    exact ((hmem a).mp hb).2 ha
  · have hreorder : (x :: pending ++ t.asked).Perm (pending ++ (t.asked ++ [x])) := by
      rw [← List.append_assoc]
      exact (List.perm_append_singleton x _).symm
    calc (t.marked ++ fresh).Perm (fresh ++ t.marked) := List.perm_append_comm
      (fresh ++ t.marked).Perm (fresh.reverse ++ t.marked) :=
        (List.reverse_perm fresh).symm.append_right _
      (fresh.reverse ++ t.marked).Perm (fresh.reverse ++ (pending ++ (t.asked ++ [x]))) :=
        (h.perm.trans hreorder).append_left _
      _ = fresh.reverse ++ pending ++ (t.asked ++ [x]) := (List.append_assoc ..).symm
  · intro y hy
    rcases List.mem_append.mp hy with hy | hy
    · exact h.sound y hy
    · exact (h.sound x hx).step ((hmem y).mp hy).1
  · intro y hy z hz
    refine List.mem_append.mpr ?_
    by_cases hm : z ∈ t.marked
    · exact .inl hm
    · rcases List.mem_append.mp hy with hy | hy
      · exact .inl (h.closed y hy z hz)
      · obtain rfl := List.mem_singleton.mp hy
        exact .inr ((hmem z).mpr ⟨hz, hm⟩)

end Marking

variable {m : Type → Type} [Monad m]

theorem loop_nil (successors : α → m (List α)) (limit : Nat) (t : Trace α) :
    loop successors limit [] t = pure t := by
  cases limit <;> rfl

variable [LawfulMonad m]

/-- The loop ends with nothing pending if the limit allows for every reachable item, and a higher limit changes
nothing. What a call does besides answering, `touch`, is done for the items asked, in their order. -/
theorem loop_marking {successors : α → m (List α)} {touch : α → m Unit} {next : α → List α} {roots domain : List α}
    (hnext : ∀ x, Reachable next roots x → successors x = do touch x; return next x)
    (hu : ∀ x, Reachable next roots x → x ∈ domain) (bound : Nat) (pending : List α) (t : Trace α)
    (h : Marking next roots pending t) (hbound : domain.length ≤ bound + t.asked.length) :
    ∃ later t', t'.asked = t.asked ++ later ∧ Marking next roots [] t' ∧
      ∀ limit, bound ≤ limit → loop successors limit pending t = do later.forM touch; return t' := by
  -- With every item that is asked the bound gets lower, and the list of those asked longer.
  induction bound generalizing pending t with
  | zero =>
      have hle := h.asked_length_le hu
      obtain rfl : pending = [] := List.length_eq_zero_iff.mp (by omega)
      exact ⟨[], t, by simp, h, fun limit _ => by simp [loop_nil]⟩
  | succ n ih =>
      cases pending with
      | nil => exact ⟨[], t, by simp, h, fun limit _ => by simp [loop_nil]⟩
      | cons x pending =>
          have hx : x ∈ t.marked := h.perm.mem_iff.mpr (by simp)
          have hfewer : domain.length ≤ n + (t.asked ++ [x]).length := by
            rw [List.length_append, List.length_singleton]
            omega
          obtain ⟨later, t', hasked, hend, hrun⟩ := ih _ _ h.ask hfewer
          refine ⟨x :: later, t', by simpa using hasked, hend, fun limit hlimit => ?_⟩
          obtain ⟨limit, rfl⟩ : ∃ n, limit = n + 1 := ⟨limit - 1, by omega⟩
          rw [loop, hnext x (h.sound x hx), List.forM_eq_forM, List.forM_cons]
          simp only [bind_assoc, pure_bind]
          rw [hrun limit (by omega), List.forM_eq_forM]

theorem trace_marking (touch : α → m Unit) {successors : α → m (List α)} {next : α → List α} {roots domain : List α}
    (hnext : ∀ x, Reachable next roots x → successors x = do touch x; return next x)
    (hu : ∀ x, Reachable next roots x → x ∈ domain) : ∃ t, Marking next roots [] t ∧
      ∀ limit, domain.length ≤ limit → trace successors limit roots = do t.asked.forM touch; return t := by
  obtain ⟨later, t, hasked, hend, hrun⟩ := loop_marking hnext hu domain.length _ _ (.start next roots) (by simp)
  obtain rfl : t.asked = later := hasked
  exact ⟨t, hend, hrun⟩

/-- Tracing marks exactly the reachable items, each once, and asks each of them once. -/
theorem trace_eq {successors : α → m (List α)} {next : α → List α} {roots domain : List α}
    {limit : Nat} (hnext : ∀ x, Reachable next roots x → successors x = pure (next x))
    (hu : ∀ x, Reachable next roots x → x ∈ domain) (hlimit : domain.length ≤ limit) :
    ∃ t : Trace α, trace successors limit roots = pure t ∧ t.marked.Nodup ∧
      t.asked.Perm t.marked ∧ ∀ x, x ∈ t.marked ↔ Reachable next roots x := by
  obtain ⟨t, h, hrun⟩ := trace_marking (fun _ => pure ())
    (fun x hx => (hnext x hx).trans (pure_bind () fun _ => pure (next x)).symm) hu
  have hnothing (asked : List α) : asked.forM (fun _ => pure ()) = (pure () : m Unit) := by
    induction asked with
    | nil => rfl
    | cons x asked ih => rw [List.forM_eq_forM, List.forM_cons, pure_bind, ← List.forM_eq_forM, ih]
  refine ⟨t, ?_, h.nodup, by simpa using h.perm.symm, h.mem_marked_iff⟩
  rw [hrun limit hlimit, hnothing, pure_bind]

/-- What tracing comes to: the least set that holds the roots and is closed under edges, from one call for each item
of it. A call answers with the edges of the item, `next`, and may do more than that, `touch`. -/
structure Spans (touch : α → m Unit) (next : α → List α) (roots : List α) (t : Trace α) : Prop where
  /-- The limit stops nothing once it allows for as many calls as there are items. -/
  run_eq : ∀ limit, t.marked.length ≤ limit →
    trace (fun x => do touch x; return next x) limit roots = do t.asked.forM touch; return t
  asked_perm : t.asked.Perm t.marked
  marked_nodup : t.marked.Nodup
  mem_marked_iff : ∀ x, x ∈ t.marked ↔ Reachable next roots x
  least : IsLeast {s : Set α | (∀ r ∈ roots, r ∈ s) ∧ ∀ x ∈ s, ∀ y ∈ next x, y ∈ s} {x | x ∈ t.marked}

/-- Where finitely many items can be reached, tracing ends, and marks them with one call for each. -/
theorem trace_spans (touch : α → m Unit) (next : α → List α) (roots : List α)
    (hfinite : {x | Reachable next roots x}.Finite) : ∃ t : Trace α, Spans touch next roots t := by
  have hmem (x : α) : x ∈ hfinite.toFinset.toList ↔ Reachable next roots x := by simp
  obtain ⟨t, h, hrun⟩ := trace_marking touch (fun _ _ => rfl) fun x hx => (hmem x).mpr hx
  have hlength : hfinite.toFinset.toList.length ≤ t.marked.length := by
    apply List.Subperm.length_le (List.subperm_of_subset hfinite.toFinset.nodup_toList _)
    intro x hx
    exact (h.mem_marked_iff x).mpr ((hmem x).mp hx)
  exact
    ⟨t,
      { run_eq := fun limit hlimit => hrun limit (hlength.trans hlimit)
        asked_perm := by simpa using h.perm.symm
        marked_nodup := h.nodup
        mem_marked_iff := h.mem_marked_iff
        least := h.isLeast_marked }⟩

/-- Two items that lead to each other, one of them to itself too; from any other an endless way leads on. -/
def roundabout : Nat → List Nat
  | 1 => [2, 2]
  | 2 => [1, 2]
  | n => [n + 1]

theorem trace_spans_roundabout :
    {x | Reachable roundabout [1, 1, 2] x}.Finite ∧
      ∃ t, Spans (m := StateM (List Nat)) (fun x => modify (· ++ [x])) roundabout [1, 1, 2] t ∧
        t = ⟨[1, 2], [2, 1]⟩ := by
  have hreached (x : Nat) (hx : Reachable roundabout [1, 1, 2] x) : x ∈ [1, 2] := by
    apply hx.of_closed
    · decide
    · decide
  have hfinite : {x | Reachable roundabout [1, 1, 2] x}.Finite := (List.finite_toSet [1, 2]).subset hreached
  obtain ⟨t, ht⟩ := trace_spans (m := StateM (List Nat)) (fun x => modify (· ++ [x])) roundabout [1, 1, 2] hfinite
  have hlength : t.marked.length ≤ 2 :=
    (List.subperm_of_subset ht.marked_nodup fun x hx => hreached x ((ht.mem_marked_iff x).mp hx)).length_le
  have hrun := congrArg (fun run => (run.run []).1) (ht.run_eq 2 hlength)
  exact ⟨hfinite, t, ht, hrun.symm⟩

end Reach
end Palimpsest
