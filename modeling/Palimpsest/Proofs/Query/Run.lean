import Palimpsest.Proofs.Query.Table
import Palimpsest.Query.Fetch

/-!
What a computation on queries gives from a state. Fuel only bounds the nesting of queries: an answer that
has come with some fuel comes with more fuel too, and from the same state to the same state.
-/

namespace Palimpsest
namespace Query
namespace Run

variable {K V W E : Type}

/-- The result of a computation that starts in `s`, and the state in which it stops. -/
def eval {α : Type} (x : Run K V W E α) (s : State K V W) : Except (Stop K E) α × State K V W :=
  (x.run.run s).run

section Steps

variable {α β : Type} (s : State K V W)

@[simp] theorem eval_pure (a : α) : (pure a : Run K V W E α).eval s = (.ok a, s) := rfl

@[simp] theorem eval_throw (e : Stop K E) : (throw e : Run K V W E α).eval s = (.error e, s) := rfl

@[simp] theorem eval_get : (get : Run K V W E (State K V W)).eval s = (.ok s, s) := rfl

@[simp] theorem eval_modify (f : State K V W → State K V W) :
    (modify f : Run K V W E PUnit).eval s = (.ok ⟨⟩, f s) := rfl

theorem eval_bind (x : Run K V W E α) (f : α → Run K V W E β) :
    (x >>= f).eval s =
      match x.eval s with
      | (.ok a, s') => (f a).eval s'
      | (.error e, s') => (.error e, s') := by
  change ((x >>= f).run.run s).run = match (x.run.run s).run with
    | (.ok a, s') => ((f a).run.run s').run
    | (.error e, s') => (.error e, s')
  simp only [ExceptT.run_bind, StateT.run_bind, Id.run_bind]
  rcases (x.run.run s).run with ⟨e | a, s'⟩ <;> rfl

variable {s}

theorem eval_bind_ok {x : Run K V W E α} {f : α → Run K V W E β} {a : α} {s' : State K V W}
    (h : x.eval s = (.ok a, s')) : (x >>= f).eval s = (f a).eval s' := by
  rw [eval_bind, h]

theorem eval_bind_error {x : Run K V W E α} {f : α → Run K V W E β} {e : Stop K E} {s' : State K V W}
    (h : x.eval s = (.error e, s')) : (x >>= f).eval s = (.error e, s') := by
  rw [eval_bind, h]

theorem eval_bind_ne_ok {x : Run K V W E α} {f : α → Run K V W E β} {b : β} {s' : State K V W}
    (h : ∃ e, x.eval s = (.error e, s)) : (x >>= f).eval s ≠ (.ok b, s') := by
  obtain ⟨e, herror⟩ := h
  rw [eval_bind_error herror]
  exact fun heq => nomatch heq

variable (s)

@[simp] theorem eval_table : (table : Run K V W E (Table K V)).eval s = (.ok s.table, s) := rfl

@[simp] theorem eval_modifyTable (f : Table K V → Table K V) :
    (modifyTable f : Run K V W E Unit).eval s = (.ok (), { s with table := f s.table }) := rfl

theorem eval_onTable (f : Table K V → Except (Fault K E) (α × Table K V)) :
    (onTable f).eval s =
      match f s.table with
      | .ok (a, t) => (.ok a, { s with table := t })
      | .error e => (.error (.fault e), s) := by
  rw [onTable, eval_bind_ok (eval_table s)]
  rcases f s.table with e | ⟨a, t⟩ <;> rfl

end Steps

section Answering

variable [DecidableEq K] (rules : Rules K V W E) (f : K → Run K V W E V) (t : Table K V) (w : W)

theorem eval_fetch (fuel : Nat) (key : K) (s : State K V W) :
    (fetch rules fuel key).eval s =
      match (refresh rules fuel key).eval s with
      | (.ok v, s') => (.ok v, { s' with table := s'.table.recordRead key })
      | (.error e, s') => (.error e, s') := by
  rw [fetch, eval_bind]
  rcases (refresh rules fuel key).eval s with ⟨e | v, s'⟩ <;> rfl

theorem eval_hasChanged (since : Nat) (read : K) :
    (hasChanged rules f since read).eval ⟨t, w⟩ =
      if (t.memo? read).isNone then (.ok true, ⟨t, w⟩)
      else if rules.isInput read then (.ok (!t.isIntact since read), ⟨t, w⟩)
      else match (f read).eval ⟨t, w⟩ with
        | (.ok _, s) => (.ok (!s.table.isIntact since read), s)
        | (.error e, s) => (.error e, s) := by
  rw [hasChanged, eval_bind_ok (eval_table _)]
  by_cases hmemo : (t.memo? read).isNone
  · simp only [hmemo, ite_true]
    rfl
  · by_cases hinput : rules.isInput read
    · simp only [hmemo, hinput, ite_true, Bool.not_true, Bool.false_eq_true, ite_false]
      rfl
    · simp only [hmemo, hinput, ite_false, Bool.not_false, ite_true, Bool.false_eq_true]
      rw [eval_bind]
      rcases (f read).eval ⟨t, w⟩ with ⟨e | v, s⟩ <;> rfl

/-- How one read is checked, by what the table has of it. -/
inductive Checks (since : Nat) (d : K) : Except (Stop K E) Bool × State K V W → Prop where
  | missing (hmemo : t.memo? d = none) : Checks since d (.ok true, ⟨t, w⟩)
  | input (hmemo : (t.memo? d).isSome) (hinput : rules.isInput d = true) :
      Checks since d (.ok !t.isIntact since d, ⟨t, w⟩)
  | derived {v : V} {s : State K V W} (hmemo : (t.memo? d).isSome) (hderived : rules.isInput d = false)
      (hrun : (f d).eval ⟨t, w⟩ = (.ok v, s)) : Checks since d (.ok !s.table.isIntact since d, s)
  | error {e : Stop K E} {s : State K V W} (hmemo : (t.memo? d).isSome) (hderived : rules.isInput d = false)
      (hrun : (f d).eval ⟨t, w⟩ = (.error e, s)) : Checks since d (.error e, s)

variable {rules f t w} in
theorem checks_of_eval {since : Nat} {d : K} {r : Except (Stop K E) Bool × State K V W}
    (heval : (hasChanged rules f since d).eval ⟨t, w⟩ = r) : Checks rules f t w since d r := by
  subst heval
  rw [eval_hasChanged]
  cases hmemo : t.memo? d with
  | none => exact .missing hmemo
  | some read =>
      have hsome : (t.memo? d).isSome := by simp [hmemo]
      cases hinput : rules.isInput d with
      | true => exact .input hsome hinput
      | false =>
          rcases hrun : (f d).eval ⟨t, w⟩ with ⟨e | v, s⟩
          · exact .error hsome hinput hrun
          · exact .derived hsome hinput hrun

theorem eval_areIntact_cons (since : Nat) (read : K) (rest : List K) (s : State K V W) :
    (areIntact rules f since (read :: rest)).eval s =
      match (hasChanged rules f since read).eval s with
      | (.ok true, s') => (.ok false, s')
      | (.ok false, s') => (areIntact rules f since rest).eval s'
      | (.error e, s') => (.error e, s') := by
  rw [areIntact, eval_bind]
  rcases (hasChanged rules f since read).eval s with ⟨e | _ | _, s'⟩ <;> rfl

section Check

variable {rules f t w} {d : K} {since : Nat}

theorem eval_areIntact_missing (hmemo : t.memo? d = none) (rest : List K) :
    (areIntact rules f since (d :: rest)).eval ⟨t, w⟩ = (.ok false, ⟨t, w⟩) := by
  rw [eval_areIntact_cons, eval_hasChanged, hmemo]
  rfl

theorem eval_areIntact_input (hmemo : (t.memo? d).isSome) (hinput : rules.isInput d = true) (rest : List K) :
    (areIntact rules f since (d :: rest)).eval ⟨t, w⟩ =
      if t.isIntact since d then (areIntact rules f since rest).eval ⟨t, w⟩ else (.ok false, ⟨t, w⟩) := by
  have hthere : (t.memo? d).isNone = false := Option.isNone_eq_false_iff.mpr hmemo
  rw [eval_areIntact_cons, eval_hasChanged, hthere, hinput]
  cases hintact : t.isIntact since d with
  | true | false => rfl

/-- What was derived is brought up to date before it is looked at. -/
theorem eval_areIntact_derived {v : V} {s : State K V W} (hmemo : (t.memo? d).isSome)
    (hderived : rules.isInput d = false) (heval : (f d).eval ⟨t, w⟩ = (.ok v, s)) (rest : List K) :
    (areIntact rules f since (d :: rest)).eval ⟨t, w⟩ =
      if s.table.isIntact since d then (areIntact rules f since rest).eval s else (.ok false, s) := by
  have hthere : (t.memo? d).isNone = false := Option.isNone_eq_false_iff.mpr hmemo
  rw [eval_areIntact_cons, eval_hasChanged, hthere, hderived, heval]
  cases hintact : s.table.isIntact since d with
  | true | false => simp [hintact]

theorem eval_areIntact_error {e : Stop K E} {s : State K V W} (hmemo : (t.memo? d).isSome)
    (hderived : rules.isInput d = false) (heval : (f d).eval ⟨t, w⟩ = (.error e, s)) (rest : List K) :
    (areIntact rules f since (d :: rest)).eval ⟨t, w⟩ = (.error e, s) := by
  have hthere : (t.memo? d).isNone = false := Option.isNone_eq_false_iff.mpr hmemo
  rw [eval_areIntact_cons, eval_hasChanged, hthere, hderived, heval]
  rfl

end Check

theorem eval_execute (key : K) :
    (execute rules f key).eval ⟨t, w⟩ =
      match (script rules f (rules.body key ((t.memo? key).map Memo.value))).eval ⟨t.enter key, w⟩ with
      | (.ok v, s) =>
        (.ok (s.table.leave rules key (t.memo? key) v).1,
          { s with table := (s.table.leave rules key (t.memo? key) v).2 })
      | (.error e, s) => (.error e, s) := by
  rw [execute, eval_bind_ok (eval_table _), eval_bind_ok (eval_modifyTable _ _), eval_bind]
  rcases (script rules f (rules.body key ((t.memo? key).map Memo.value))).eval ⟨t.enter key, w⟩ with
    ⟨e | v, s⟩ <;> rfl

variable {rules f t w} in
theorem eval_execute_ok {key : K} {v : V} {u : Table K V} {w' : W} {reads : List K}
    {outer : List (Frame K)}
    (hscript : (script rules f (rules.body key ((t.memo? key).map Memo.value))).eval ⟨t.enter key, w⟩ =
      (.ok v, ⟨u, w'⟩))
    (hactive : u.active = ⟨key, reads⟩ :: outer) (hmemo : u.memo? key = t.memo? key) :
    ∃ memo stats, (execute rules f key).eval ⟨t, w⟩ =
        (.ok memo.value, ⟨{ u with active := outer, stats }.put key memo, w'⟩) ∧
      memo.verifiedAt = u.revision ∧ memo.reads = reads ∧
      (memo.value = v ∧ memo.changedAt = u.revision ∨
        ∃ old, t.memo? key = some old ∧ rules.same v old.value = true ∧ memo.value = old.value ∧
          memo.changedAt = old.changedAt) ∧
      ∀ old, t.memo? key = some old → rules.same v old.value = true →
        memo.value = old.value ∧ memo.changedAt = old.changedAt := by
  obtain ⟨memo, stats, hleave, hspec⟩ := Table.leave_eq rules hactive v
  rw [hmemo] at hleave hspec
  refine ⟨memo, stats, ?_, hspec⟩
  rw [eval_execute, hscript]
  simp only [hleave]

theorem eval_refresh_succ (n : Nat) (key : K) :
    (refresh rules (n + 1) key).eval ⟨t, w⟩ =
      if t.isActive key then (.error (.fault (.cycle key)), ⟨t.closeWindow, w⟩)
      else match t.memo? key with
        | none =>
          if rules.isInput key then (.error (.fault (.unset key)), ⟨t.closeWindow, w⟩)
          else (execute rules (fetch rules n) key).eval ⟨t.closeWindow, w⟩
        | some memo =>
          if rules.isInput key || memo.verifiedAt == t.revision then
            (.ok memo.value, ⟨t.closeWindow.countHit, w⟩)
          else match (areIntact rules (refresh rules n) memo.verifiedAt memo.reads).eval
              ⟨t.closeWindow, w⟩ with
            | (.ok true, s) =>
              match s.table.memo? key with
              | some memo => (.ok memo.value, { s with table := s.table.validate key memo })
              | none => (execute rules (fetch rules n) key).eval s
            | (.ok false, s) => (execute rules (fetch rules n) key).eval s
            | (.error e, s) => (.error e, s) := by
  rw [refresh, eval_bind_ok (eval_modifyTable _ _), eval_bind_ok (eval_table _)]
  change Run.eval (if t.isActive key then _ else _) _ = _
  by_cases hactive : t.isActive key
  · simp only [hactive, ite_true]
    rfl
  · simp only [hactive, ite_false, Bool.false_eq_true]
    change Run.eval (match t.memo? key with | none => _ | some memo => _) _ = _
    rcases t.memo? key with _ | memo
    · by_cases hinput : rules.isInput key
      · simp only [hinput, ite_true]
        rfl
      · simp only [hinput, ite_false, Bool.false_eq_true]
        rfl
    · by_cases hcurrent : (rules.isInput key || memo.verifiedAt == t.revision) = true
      · simp only [hcurrent, ite_true]
        change Run.eval (if (rules.isInput key || memo.verifiedAt == t.revision) then _ else _) _ = _
        rw [if_pos hcurrent]
        rfl
      · simp only [hcurrent, ite_false, Bool.false_eq_true]
        change Run.eval (if (rules.isInput key || memo.verifiedAt == t.revision) then _ else _) _ = _
        rw [if_neg hcurrent, eval_bind]
        rcases (areIntact rules (refresh rules n) memo.verifiedAt memo.reads).eval ⟨t.closeWindow, w⟩ with
          ⟨e | _ | _, s⟩
        · rfl
        · rfl
        · simp only [ite_true]
          rw [eval_bind_ok (eval_table _)]
          rcases s.table.memo? key with _ | memo <;> rfl

end Answering

/-- Whatever comes of `x` comes of `y` too, unless `x` ran out of fuel. -/
def Within {α : Type} (x y : Run K V W E α) : Prop :=
  ∀ s, (x.eval s).1 = .error .outOfFuel ∨ x.eval s = y.eval s

namespace Within

variable {α β : Type}

theorem refl (x : Run K V W E α) : x.Within x := fun _ => .inr rfl

theorem trans {x y z : Run K V W E α} (h : x.Within y) (h' : y.Within z) : x.Within z := by
  intro s
  rcases h s with hx | hx
  · exact .inl hx
  · rw [hx]
    exact h' s

theorem bind {x y : Run K V W E α} {f g : α → Run K V W E β} (h : x.Within y)
    (hf : ∀ a, (f a).Within (g a)) : (x >>= f).Within (y >>= g) := by
  intro s
  rcases hx : x.eval s with ⟨e | a, s'⟩
  · rcases h s with hs | hs
    · rw [hx] at hs
      obtain rfl : e = .outOfFuel := by simpa using hs
      exact .inl (by rw [eval_bind_error hx])
    · exact .inr (by rw [eval_bind_error hx, eval_bind_error (hs ▸ hx)])
  · rcases h s with hs | hs
    · simp [hx] at hs
    · rw [eval_bind_ok hx, eval_bind_ok (hs ▸ hx)]
      exact hf a s'

theorem bind_left {x y : Run K V W E α} (h : x.Within y) (f : α → Run K V W E β) :
    (x >>= f).Within (y >>= f) :=
  h.bind fun a => refl (f a)

theorem ite {c : Prop} [Decidable c] {x y x' y' : Run K V W E α} (h : x.Within y) (h' : x'.Within y') :
    (if c then x else x').Within (if c then y else y') := by
  split
  · exact h
  · exact h'

theorem throw (e : Stop K E) (f g : α → Run K V W E β) :
    ((MonadExcept.throw e : Run K V W E α) >>= f).Within (MonadExcept.throw e >>= g) := fun s =>
  .inr ((eval_bind_error (eval_throw s e)).trans (eval_bind_error (eval_throw s e)).symm)

theorem bind_right (x : Run K V W E α) {f g : α → Run K V W E β} (hf : ∀ a, (f a).Within (g a)) :
    (x >>= f).Within (x >>= g) :=
  (refl x).bind hf

end Within

variable [DecidableEq K] {rules : Rules K V W E}

theorem script_within {f g : K → Run K V W E V} (h : ∀ k, (f k).Within (g k)) (s : Script K V W E) :
    (script rules f s).Within (script rules g s) := by
  induction s with
  | yield _ | fail _ => exact .refl _
  | read key next ih => exact (h key).bind ih
  | peek key next ih | running next ih | sweep next ih | look next ih =>
      exact .bind_right _ fun _ => ih _
  | set _ _ next ih | advance _ next ih | change _ next ih => exact .bind_right _ fun _ => ih

theorem hasChanged_within {f g : K → Run K V W E V} (h : ∀ k, (f k).Within (g k)) (since : Nat)
    (read : K) : (hasChanged rules f since read).Within (hasChanged rules g since read) := by
  rw [hasChanged]
  refine .bind_right _ fun t => ?_
  refine .ite (.refl _) (.ite ((h read).bind_left _) (.refl _))

theorem areIntact_within {f g : K → Run K V W E V} (h : ∀ k, (f k).Within (g k)) (since : Nat)
    (reads : List K) : (areIntact rules f since reads).Within (areIntact rules g since reads) := by
  induction reads with
  | nil => exact .refl _
  | cons read rest ih =>
      refine (hasChanged_within h since read).bind fun changed => ?_
      cases changed with
      | false => exact ih
      | true => exact .refl _

theorem execute_within {f g : K → Run K V W E V} (h : ∀ k, (f k).Within (g k)) (key : K) :
    (execute rules f key).Within (execute rules g key) :=
  .bind_right _ fun _ => .bind_right _ fun _ => (script_within h _).bind_left _

/-- One more level of nesting changes no answer. -/
theorem refresh_within_succ (rules : Rules K V W E) (fuel : Nat) (key : K) :
    (refresh rules fuel key).Within (refresh rules (fuel + 1) key) := by
  induction fuel generalizing key with
  | zero => exact fun _ => .inl rfl
  | succ n ih =>
      have hfetch (k : K) : (do let v ← refresh rules n k; modifyTable (·.recordRead k); return v).Within
          (do let v ← refresh rules (n + 1) k; modifyTable (·.recordRead k); return v) :=
        (ih k).bind_left _
      rw [refresh]
      refine .bind_right _ fun _ => .bind_right _ fun t => ?_
      by_cases hactive : t.isActive key
      · simp only [hactive, ite_true]
        exact .throw _ _ _
      · simp only [hactive, ite_false, Bool.false_eq_true]
        rcases t.memo? key with _ | memo
        · exact .ite (.refl _) (execute_within hfetch key)
        · refine .ite (.refl _) ((areIntact_within ih _ _).bind fun intact => .ite ?_ ?_)
          · refine .bind_right _ fun t => ?_
            rcases t.memo? key with _ | memo
            · exact execute_within hfetch key
            · exact .refl _
          · exact execute_within hfetch key

theorem refresh_within {fuel more : Nat} (h : fuel ≤ more) (key : K) :
    (refresh rules fuel key).Within (refresh rules more key) := by
  induction h with
  | refl => exact .refl _
  | step _ ih => exact ih.trans (refresh_within_succ rules _ key)

theorem fetch_within {fuel more : Nat} (h : fuel ≤ more) (key : K) :
    (fetch rules fuel key).Within (fetch rules more key) := by
  rw [fetch]
  exact (refresh_within h key).bind_left _

/-- An answer that came with some fuel comes with more. -/
theorem fetch_eq_of_le {fuel more : Nat} (h : fuel ≤ more) {key : K} {s s' : State K V W}
    {r : Except (Stop K E) V} (hr : (fetch rules fuel key).eval s = (r, s')) (hne : r ≠ .error .outOfFuel) :
    (fetch rules more key).eval s = (r, s') := by
  rcases fetch_within h key s with hs | hs
  · rw [hr] at hs
    exact absurd hs hne
  · rw [← hs, hr]

end Run
end Query
end Palimpsest
