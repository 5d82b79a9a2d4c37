import Mathlib.Order.Filter.AtTopBot.Basic
import Palimpsest.Query.Table

/-!
Evaluation from nothing: no memos, only inputs and bodies. Queries whose evaluation is under way are
kept at hand, and reading one of them again is a cycle. This is what the memo table is measured against.
-/

namespace Palimpsest
namespace Query

open Filter

variable {K V W E : Type}

/-- What a body that only reads comes to when its reads are answered by `read`; no answer to a read, or a
step that is no read, leaves it without one. -/
def Script.answer (read : K → Option (Except (Fault K E) V)) :
    Script K V W E → Option (Except (Fault K E) V)
  | .yield v => some (.ok v)
  | .fail reason => some (.error (.body reason))
  | .read key next =>
    match read key with
    | some (.ok v) => (next v).answer read
    | stopped => stopped
  | _ => none

/-- The value of a query from nothing, with nestings of at most `fuel` queries; `above` are the queries
under way. -/
def Rules.scratch [DecidableEq K] (rules : Rules K V W E) (inputs : K → Option V) :
    (fuel : Nat) → (above : List K) → K → Option (Except (Fault K E) V)
  | 0, _, _ => none
  | fuel + 1, above, key =>
    if key ∈ above then some (.error (.cycle key))
    else if rules.isInput key then
      match inputs key with
      | some v => some (.ok v)
      | none => some (.error (.unset key))
    else (rules.body key none).answer (rules.scratch inputs fuel (key :: above))

/-- Bodies do nothing but read and take no notice of the value of before; values are the same only if
they are equal. -/
structure Rules.Deterministic (rules : Rules K V W E) : Prop where
  reading : ∀ key old, rules.isInput key = false → (rules.body key old).Reading
  oblivious : ∀ key old, rules.isInput key = false → rules.body key old = rules.body key none
  same_iff : ∀ a b, rules.same a b = true ↔ a = b

/-- Whether a script reads `key` when its reads so far have values. -/
def Script.Asks (hasValue : K → V → Prop) : Script K V W E → K → Prop
  | .read k next, key => key = k ∨ ∃ v, hasValue k v ∧ (next v).Asks hasValue key
  | _, _ => False

namespace Rules

variable [DecidableEq K] (rules : Rules K V W E) (inputs : K → Option V)

def HasValue (key : K) (v : V) : Prop :=
  ∀ᶠ fuel in atTop, rules.scratch inputs fuel [] key = some (.ok v)

/-- Whether the evaluation of `key` from nothing comes to read `other`. -/
def Asks (key other : K) : Prop :=
  rules.isInput key = false ∧ (rules.body key none).Asks (rules.HasValue inputs) other

/-- Evaluation from nothing can go down for ever without reading any query a second time. -/
def EndlessDescent : Prop :=
  ∃ keys : Nat → K, keys.Injective ∧ ∀ n, rules.Asks inputs (keys n) (keys (n + 1))

end Rules

/-- A property from some fuel on, one level further up. -/
theorem eventually_succ {p q : Nat → Prop} (h : ∀ᶠ n in atTop, p n) (hq : ∀ n, p n → q (n + 1)) :
    ∀ᶠ n in atTop, q n := by
  obtain ⟨n, hn⟩ := eventually_atTop.mp h
  refine eventually_atTop.mpr ⟨n + 1, fun m hm => ?_⟩
  obtain ⟨k, rfl⟩ : ∃ k, m = k + 1 := ⟨m - 1, by omega⟩
  exact hq k (hn k (by omega))

theorem eventually_of_succ {q : Nat → Prop} (hq : ∀ n, q (n + 1)) : ∀ᶠ n in atTop, q n :=
  eventually_succ (Eventually.of_forall fun _ => trivial) fun n _ => hq n

namespace Script

variable {read read' : K → Option (Except (Fault K E) V)}

theorem answer_mono (h : ∀ k r, read k = some r → read' k = some r) {s : Script K V W E}
    {r : Except (Fault K E) V} (hr : s.answer read = some r) : s.answer read' = some r := by
  induction s with
  | yield _ | fail _ => exact hr
  | read key next ih =>
      simp only [answer] at hr ⊢
      rcases hk : read key with _ | e | v
      · simp [hk] at hr
      · rw [hk] at hr
        rw [h key _ hk]
        exact hr
      · rw [hk] at hr
        rw [h key _ hk]
        exact ih v hr
  | peek _ _ _ | running _ _ | set _ _ _ _ | advance _ _ _ | sweep _ _ | look _ _ | change _ _ _ =>
      simp [answer] at hr

/-- A value only hangs on the values of what is read. -/
theorem answer_ok_mono (h : ∀ k v, read k = some (.ok v) → read' k = some (.ok v))
    {s : Script K V W E} {v : V} (hv : s.answer read = some (.ok v)) :
    s.answer read' = some (.ok v) := by
  induction s with
  | yield _ => exact hv
  | fail _ => simp [answer] at hv
  | read key next ih =>
      simp only [answer] at hv ⊢
      rcases hk : read key with _ | e | w
      · simp [hk] at hv
      · simp [hk] at hv
      · rw [hk] at hv
        rw [h key _ hk]
        exact ih w hv
  | peek _ _ _ | running _ _ | set _ _ _ _ | advance _ _ _ | sweep _ _ | look _ _ | change _ _ _ =>
      simp [answer] at hv

end Script

namespace Rules

variable [DecidableEq K] {rules : Rules K V W E} {inputs : K → Option V}

theorem scratch_succ_eq {fuel : Nat} {above : List K} {key : K} {r : Except (Fault K E) V}
    (h : rules.scratch inputs fuel above key = some r) :
    rules.scratch inputs (fuel + 1) above key = some r := by
  induction fuel generalizing above key r with
  | zero => simp [scratch] at h
  | succ n ih =>
      rw [scratch] at h ⊢
      by_cases hmem : key ∈ above
      · simpa only [hmem, ite_true] using h
      · by_cases hinput : rules.isInput key
        · simpa only [hmem, hinput, ite_true, ite_false] using h
        · simp only [hmem, hinput, ite_false, Bool.false_eq_true] at h ⊢
          exact Script.answer_mono (fun k r hk => ih hk) h

theorem scratch_eq_of_le {fuel more : Nat} (hle : fuel ≤ more) {above : List K} {key : K}
    {r : Except (Fault K E) V} (h : rules.scratch inputs fuel above key = some r) :
    rules.scratch inputs more above key = some r := by
  induction hle with
  | refl => exact h
  | step _ ih => exact scratch_succ_eq ih

theorem eventually_scratch {fuel : Nat} {above : List K} {key : K} {r : Except (Fault K E) V}
    (h : rules.scratch inputs fuel above key = some r) :
    ∀ᶠ n in atTop, rules.scratch inputs n above key = some r :=
  eventually_atTop.mpr ⟨fuel, fun _ hle => scratch_eq_of_le hle h⟩

/-- A value found below some queries is found below fewer of them. -/
theorem scratch_ok_of_subset {fuel : Nat} {above fewer : List K} {key : K} {v : V}
    (hsub : fewer ⊆ above) (h : rules.scratch inputs fuel above key = some (.ok v)) :
    rules.scratch inputs fuel fewer key = some (.ok v) := by
  induction fuel generalizing above fewer key v with
  | zero => simp [scratch] at h
  | succ n ih =>
      rw [scratch] at h ⊢
      by_cases hmem : key ∈ above
      · simp [hmem] at h
      · have hfewer : key ∉ fewer := fun hf => hmem (hsub hf)
        by_cases hinput : rules.isInput key
        · simpa only [hmem, hfewer, hinput, ite_true, ite_false] using h
        · simp only [hmem, hfewer, hinput, ite_false, Bool.false_eq_true] at h ⊢
          exact Script.answer_ok_mono (fun k v hk => ih (List.cons_subset_cons key hsub) hk) h

theorem hasValue_of_eventually {above : List K} {key : K} {v : V}
    (h : ∀ᶠ n in atTop, rules.scratch inputs n above key = some (.ok v)) :
    rules.HasValue inputs key v :=
  h.mono fun _ hn => scratch_ok_of_subset (List.nil_subset above) hn

end Rules
end Query
end Palimpsest
