import Palimpsest.Proofs.Query.Run

/-!
Bodies that keep a log. Beside the world that they work on, logged bodies have a list of events, to which
they add that they were started and what they came to. Nothing else about an answer is different, so that
the log tells which bodies an answer runs, and in which order.
-/

namespace Palimpsest
namespace Query

/-- What happens to a query: its body is started, or it is given a value. Either comes with the value of
before. -/
inductive Event (K V : Type) where
  | started (key : K) (old : Option V)
  | given (key : K) (old : Option V) (value : V)
deriving DecidableEq

variable {K V W E : Type}

/-- The script that notes at its end what it comes to. -/
def Script.logged (note : V → Event K V) : Script K V W E → Script K V (W × List (Event K V)) E
  | .yield v => .look fun w => .change (w.1, w.2 ++ [note v]) (.yield v)
  | .fail reason => .fail reason
  | .read key next => .read key fun v => (next v).logged note
  | .peek key next => .peek key fun v => (next v).logged note
  | .running next => .running fun b => (next b).logged note
  | .set key value next => .set key value (next.logged note)
  | .advance keep next => .advance keep (next.logged note)
  | .sweep next => .sweep fun dropped => (next dropped).logged note
  | .look next => .look fun w => (next w.1).logged note
  | .change world next => .look fun w => .change (world, w.2) (next.logged note)

/-- The same queries, with bodies that keep a log. -/
def Rules.logged (rules : Rules K V W E) : Rules K V (W × List (Event K V)) E where
  isInput := rules.isInput
  kind := rules.kind
  same := rules.same
  body key old := .look fun w =>
    .change (w.1, w.2 ++ [.started key old]) ((rules.body key old).logged (.given key old))

/-- The state without the log. -/
def State.unlogged (s : State K V (W × List (Event K V))) : State K V W := ⟨s.table, s.world.1⟩

namespace Run

/-- `x` does what `y` does, and keeps a log or not. -/
def Shows {α : Type} (x : Run K V (W × List (Event K V)) E α) (y : Run K V W E α) : Prop :=
  ∀ s, y.eval s.unlogged = ((x.eval s).1, (x.eval s).2.unlogged)

namespace Shows

variable {α β : Type}

theorem pure (a : α) : (Pure.pure a : Run K V (W × List (Event K V)) E α).Shows (Pure.pure a) := fun _ => rfl

theorem throw (e : Stop K E) :
    (MonadExcept.throw e : Run K V (W × List (Event K V)) E α).Shows (MonadExcept.throw e) := fun _ => rfl

theorem table : (Run.table : Run K V (W × List (Event K V)) E (Table K V)).Shows Run.table := fun _ => rfl

theorem modifyTable (f : Table K V → Table K V) :
    (Run.modifyTable f : Run K V (W × List (Event K V)) E Unit).Shows (Run.modifyTable f) := fun _ => rfl

theorem onTable (f : Table K V → Except (Fault K E) (α × Table K V)) :
    (Run.onTable f : Run K V (W × List (Event K V)) E α).Shows (Run.onTable f) := by
  intro s
  simp only [eval_onTable]
  have hsame : s.unlogged.table = s.table := rfl
  rw [hsame]
  cases f s.table <;> rfl

theorem bind {x : Run K V (W × List (Event K V)) E α} {y : Run K V W E α}
    {f : α → Run K V (W × List (Event K V)) E β} {g : α → Run K V W E β} (h : x.Shows y)
    (hf : ∀ a, (f a).Shows (g a)) : (x >>= f).Shows (y >>= g) := by
  intro s
  rw [eval_bind, eval_bind, h s]
  rcases x.eval s with ⟨e | a, s'⟩
  · rfl
  · exact hf a s'

theorem throw_bind (e : Stop K E) (f : α → Run K V (W × List (Event K V)) E β) (g : α → Run K V W E β) :
    ((MonadExcept.throw e : Run K V (W × List (Event K V)) E α) >>= f).Shows (MonadExcept.throw e >>= g) := by
  intro s
  rw [eval_bind_error (eval_throw _ e), eval_bind_error (eval_throw _ e)]

theorem ite {c : Prop} [Decidable c] {x x' : Run K V (W × List (Event K V)) E α} {y y' : Run K V W E α}
    (h : x.Shows y) (h' : x'.Shows y') : (if c then x else x').Shows (if c then y else y') := by
  split
  · exact h
  · exact h'

end Shows

variable [DecidableEq K] {rules : Rules K V W E}

theorem script_shows (rules : Rules K V W E) {f : K → Run K V (W × List (Event K V)) E V} {g : K → Run K V W E V}
    (h : ∀ k, (f k).Shows (g k)) (note : V → Event K V) (s : Script K V W E) :
    (script rules.logged f (s.logged note)).Shows (script rules g s) := by
  induction s with
  | yield _ | fail _ => exact fun _ => rfl
  | read key next ih => exact (h key).bind ih
  | peek key next ih | running next ih => exact .bind .table fun _ => ih _
  | set key value next ih | advance keep next ih => exact .bind (.onTable _) fun _ => ih
  | sweep next ih => exact .bind (.onTable _) ih
  | look next ih => exact fun s => ih s.world.1 s
  | change world next ih => exact fun s => ih ⟨s.table, (world, s.world.2)⟩

theorem hasChanged_shows {f : K → Run K V (W × List (Event K V)) E V} {g : K → Run K V W E V}
    (h : ∀ k, (f k).Shows (g k)) (since : Nat) (read : K) :
    (hasChanged rules.logged f since read).Shows (hasChanged rules g since read) :=
  .bind .table fun _ => .ite (.pure _) (.ite
    (.bind (h read) fun _ => .bind .table fun _ => .pure _) (.bind .table fun _ => .pure _))

theorem areIntact_shows {f : K → Run K V (W × List (Event K V)) E V} {g : K → Run K V W E V}
    (h : ∀ k, (f k).Shows (g k)) (since : Nat) (reads : List K) :
    (areIntact rules.logged f since reads).Shows (areIntact rules g since reads) := by
  induction reads with
  | nil => exact .pure true
  | cons read rest ih => exact .bind (hasChanged_shows h since read) fun _ => .ite (.pure false) ih

theorem execute_shows (rules : Rules K V W E) {f : K → Run K V (W × List (Event K V)) E V} {g : K → Run K V W E V}
    (h : ∀ k, (f k).Shows (g k)) (key : K) :
    (execute rules.logged f key).Shows (execute rules g key) := by
  refine .bind .table fun t => .bind (.modifyTable _) fun _ => ?_
  refine .bind (fun s => ?_) fun v => .bind .table fun _ => .bind (.modifyTable _) fun _ => .pure _
  -- The body first notes that it was started.
  have hbody := script_shows rules h (.given key ((t.memo? key).map Memo.value))
    (rules.body key ((t.memo? key).map Memo.value))
  exact hbody ⟨s.table, (s.world.1, s.world.2 ++ [.started key ((t.memo? key).map Memo.value)])⟩

theorem refresh_shows (rules : Rules K V W E) (n : Nat) (key : K) :
    (refresh rules.logged n key).Shows (refresh rules n key) := by
  induction n generalizing key with
  | zero => exact .throw _
  | succ n ih =>
      have hfetch (k : K) :
          (do let v ← refresh rules.logged n k; modifyTable (·.recordRead k); return v).Shows
            (do let v ← refresh rules n k; modifyTable (·.recordRead k); return v) :=
        (ih k).bind fun _ => .bind (.modifyTable _) fun _ => .pure _
      have hexecute := execute_shows rules hfetch key
      refine .bind (.modifyTable _) fun _ => .bind .table fun t => ?_
      by_cases hactive : t.isActive key
      · simp only [hactive, ite_true]
        exact .throw_bind _ _ _
      · simp only [hactive, ite_false, Bool.false_eq_true]
        rcases t.memo? key with _ | memo
        · exact .ite (.throw _) hexecute
        · refine .ite (.bind (.modifyTable _) fun _ => .pure _) (.bind (areIntact_shows ih _ _) fun intact => ?_)
          refine .ite (.bind .table fun t => ?_) hexecute
          rcases t.memo? key with _ | memo
          · exact hexecute
          · exact .bind (.modifyTable _) fun _ => .pure _

/-- With bodies that keep a log a fetch gives what it gives without, and leaves the same. -/
theorem fetch_shows (rules : Rules K V W E) (n : Nat) (key : K) :
    (fetch rules.logged n key).Shows (fetch rules n key) :=
  (refresh_shows rules n key).bind fun _ => .bind (.modifyTable _) fun _ => .pure _

theorem fetch_logged {fuel : Nat} {key : K} {s s' : State K V W} {r : Except (Stop K E) V}
    (h : (fetch rules fuel key).eval s = (r, s')) (events : List (Event K V)) :
    ∃ events', (fetch rules.logged fuel key).eval ⟨s.table, (s.world, events)⟩ =
      (r, ⟨s'.table, (s'.world, events')⟩) := by
  have hshows := fetch_shows rules fuel key ⟨s.table, (s.world, events)⟩
  rcases hrun : (fetch rules.logged fuel key).eval ⟨s.table, (s.world, events)⟩ with ⟨r', t', w', events'⟩
  rw [hrun] at hshows
  obtain ⟨rfl, rfl⟩ := Prod.mk.inj (h.symm.trans hshows)
  exact ⟨events', rfl⟩

end Run
end Query
end Palimpsest
