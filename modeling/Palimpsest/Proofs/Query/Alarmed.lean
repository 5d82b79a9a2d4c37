import Palimpsest.Proofs.Query.Run

/-!
Queries with alarms for bodies. As long as no alarm goes off everything is answered, or refused, as it is
with the bodies; so an alarm tells that a body is started.
-/

namespace Palimpsest
namespace Query

open Run

variable {K V W E : Type}

/-- The same queries, with bodies that only raise an alarm. -/
def Rules.alarmed (rules : Rules K V W E) : Rules K V W Unit where
  isInput := rules.isInput
  kind := rules.kind
  same := rules.same
  body _ _ := .fail ()

@[simp] theorem Rules.alarmed_isInput (rules : Rules K V W E) : rules.alarmed.isInput = rules.isInput := rfl

namespace Run

/-- With alarms for bodies an alarm goes off, or all is as with the bodies. -/
inductive Echoes {α : Type} : Except (Stop K Unit) α × State K V W → Except (Stop K E) α × State K V W → Prop where
  | alarm {s : State K V W} {y : Except (Stop K E) α × State K V W} : Echoes (.error (.fault (.body ())), s) y
  | value (a : α) (s : State K V W) : Echoes (.ok a, s) (.ok a, s)
  | cycle (k : K) (s : State K V W) : Echoes (.error (.fault (.cycle k)), s) (.error (.fault (.cycle k)), s)
  | unset (k : K) (s : State K V W) : Echoes (.error (.fault (.unset k)), s) (.error (.fault (.unset k)), s)
  | outOfFuel (s : State K V W) : Echoes (.error .outOfFuel, s) (.error .outOfFuel, s)

/-- `x` echoes `y` from wherever they start. -/
def Mimics {α : Type} (x : Run K V W Unit α) (y : Run K V W E α) : Prop := ∀ s, Echoes (x.eval s) (y.eval s)

namespace Mimics

variable {α β : Type}

theorem pure (a : α) : (Pure.pure a : Run K V W Unit α).Mimics (Pure.pure a : Run K V W E α) :=
  fun s => .value a s

theorem bind {x : Run K V W Unit α} {y : Run K V W E α} {f : α → Run K V W Unit β} {g : α → Run K V W E β}
    (h : x.Mimics y) (hf : ∀ a, (f a).Mimics (g a)) : (x >>= f).Mimics (y >>= g) := by
  intro s
  have hs := h s
  rw [eval_bind, eval_bind]
  generalize x.eval s = rx at hs
  generalize y.eval s = ry at hs
  cases hs with
  | alarm => exact .alarm
  | value a s' => exact hf a s'
  | cycle k s' => exact .cycle k s'
  | unset k s' => exact .unset k s'
  | outOfFuel s' => exact .outOfFuel s'

theorem ite {c : Prop} [Decidable c] {x x' : Run K V W Unit α} {y y' : Run K V W E α} (h : x.Mimics y)
    (h' : x'.Mimics y') : (if c then x else x').Mimics (if c then y else y') := by
  split
  · exact h
  · exact h'

theorem table : (Run.table : Run K V W Unit (Table K V)).Mimics (Run.table : Run K V W E (Table K V)) :=
  fun s => .value s.table s

theorem modifyTable (f : Table K V → Table K V) :
    (Run.modifyTable f : Run K V W Unit Unit).Mimics (Run.modifyTable f : Run K V W E Unit) :=
  fun s => .value () { s with table := f s.table }

/-- What goes too deep with the bodies does so without them, unless one of them is started. -/
theorem outOfFuel {α : Type} {x : Run K V W Unit α} {y : Run K V W E α} (h : x.Mimics y) {s : State K V W}
    (hy : (y.eval s).1 = .error .outOfFuel) :
    (x.eval s).1 = .error (.fault (.body ())) ∨ (x.eval s).1 = .error .outOfFuel := by
  have hs := h s
  generalize x.eval s = rx at hs ⊢
  generalize y.eval s = ry at hs hy
  cases hs with
  | alarm => exact .inl rfl
  | value _ _ | cycle _ _ | unset _ _ => cases hy
  | outOfFuel _ => exact .inr rfl

end Mimics

variable [DecidableEq K] {rules : Rules K V W E}

theorem eval_execute_alarmed (rules : Rules K V W E) (f : K → Run K V W Unit V) (k : K) (s : State K V W) :
    ((execute rules.alarmed f k).eval s).1 = .error (.fault (.body ())) := by
  rw [eval_execute]
  rfl

theorem execute_mimics (rules : Rules K V W E) (f : K → Run K V W Unit V) (k : K) (y : Run K V W E V) :
    (execute rules.alarmed f k).Mimics y := by
  intro s
  have halarm := eval_execute_alarmed rules f k s
  rcases hrun : (execute rules.alarmed f k).eval s with ⟨r, s'⟩
  obtain rfl : r = .error (.fault (.body ())) := by rw [← halarm, hrun]
  exact .alarm

theorem hasChanged_mimics {f : K → Run K V W Unit V} {g : K → Run K V W E V} (h : ∀ k, (f k).Mimics (g k))
    (since : Nat) (read : K) : (hasChanged rules.alarmed f since read).Mimics (hasChanged rules g since read) :=
  .bind .table fun _ => .ite (.pure _) (.ite
    (.bind (h read) fun _ => .bind .table fun _ => .pure _) (.bind .table fun _ => .pure _))

theorem areIntact_mimics {f : K → Run K V W Unit V} {g : K → Run K V W E V} (h : ∀ k, (f k).Mimics (g k))
    (since : Nat) (reads : List K) :
    (areIntact rules.alarmed f since reads).Mimics (areIntact rules g since reads) := by
  induction reads with
  | nil => exact .pure true
  | cons read rest ih => exact .bind (hasChanged_mimics h since read) fun _ => .ite (.pure false) ih

theorem refresh_mimics (rules : Rules K V W E) (n : Nat) (k : K) :
    (refresh rules.alarmed n k).Mimics (refresh rules n k) := by
  induction n generalizing k with
  | zero => exact fun s => .outOfFuel s
  | succ n ih =>
      refine .bind (.modifyTable _) fun _ => .bind .table fun t => ?_
      by_cases hactive : t.isActive k
      · simp only [hactive, ite_true]
        intro s
        rw [eval_bind_error (eval_throw s _), eval_bind_error (eval_throw s _)]
        exact .cycle k s
      · simp only [hactive, ite_false, Bool.false_eq_true]
        cases t.memo? k with
        | none => exact .ite (fun s => .unset k s) (execute_mimics rules _ k _)
        | some memo =>
            refine .ite (.bind (.modifyTable _) fun _ => .pure _) (.bind (areIntact_mimics ih _ _) fun intact => ?_)
            refine .ite (.bind .table fun t => ?_) (execute_mimics rules _ k _)
            cases t.memo? k with
            | none => exact execute_mimics rules _ k _
            | some memo => exact .bind (.modifyTable _) fun _ => .pure _

theorem fetch_mimics (rules : Rules K V W E) (n : Nat) (k : K) :
    (fetch rules.alarmed n k).Mimics (fetch rules n k) :=
  (refresh_mimics rules n k).bind fun _ => .bind (.modifyTable _) fun _ => .pure _

/-- Where no alarm goes off, queries are answered as they are with their bodies. -/
theorem fetch_of_alarmed {n : Nat} {k : K} {v : V} {s s' : State K V W}
    (h : (fetch rules.alarmed n k).eval s = (.ok v, s')) : (fetch rules n k).eval s = (.ok v, s') := by
  have hechoes := fetch_mimics rules n k s
  rw [h] at hechoes
  generalize (fetch rules n k).eval s = y at hechoes
  cases hechoes with
  | value v s' => rfl

end Run
end Query
end Palimpsest
