import Palimpsest.Proofs.Query.Run
import Palimpsest.Proofs.Session.Answer
import Palimpsest.Session.Context

/-!
What an operation gives in a session, and the session that it leaves, be it refused or not.
-/

namespace Palimpsest
namespace Context

open Session

/-- The session under another ledger of names. -/
def withNames (c : Context) (names : Interner) : Context :=
  { c with state := { c.state with world := { c.state.world with names } } }

def withTable (c : Context) (table : Query.Table Key Value) : Context :=
  { c with state := { c.state with table } }

def withState (c : Context) (state : Query.State Key Value World) : Context := { c with state }

def withPins (c : Context) (pins : List (NodeId × Nat)) : Context := { c with pins }

namespace Act

/-- The result of an operation on `c`, and the session that it leaves. -/
def eval {α : Type} (x : Act α) (c : Context) : Except Violation α × Context := (x.run.run c).run

section Steps

variable {α β : Type} (c : Context)

@[simp] theorem eval_pure (a : α) : (pure a : Act α).eval c = (.ok a, c) := rfl

@[simp] theorem eval_throw (e : Violation) : (throw e : Act α).eval c = (.error e, c) := rfl

@[simp] theorem eval_get : (get : Act Context).eval c = (.ok c, c) := rfl

@[simp] theorem eval_modify (f : Context → Context) : (modify f : Act PUnit).eval c = (.ok ⟨⟩, f c) := rfl

theorem eval_bind (x : Act α) (f : α → Act β) :
    (x >>= f).eval c =
      match x.eval c with
      | (.ok a, c') => (f a).eval c'
      | (.error e, c') => (.error e, c') := by
  change ((x >>= f).run.run c).run = match (x.run.run c).run with
    | (.ok a, c') => ((f a).run.run c').run
    | (.error e, c') => (.error e, c')
  simp only [ExceptT.run_bind, StateT.run_bind, Id.run_bind]
  rcases (x.run.run c).run with ⟨e | a, c'⟩ <;> rfl

variable {c}

theorem eval_bind_ok {x : Act α} {f : α → Act β} {a : α} {c' : Context} (h : x.eval c = (.ok a, c')) :
    (x >>= f).eval c = (f a).eval c' := by
  rw [eval_bind, h]

theorem eval_bind_error {x : Act α} {f : α → Act β} {e : Violation} {c' : Context}
    (h : x.eval c = (.error e, c')) : (x >>= f).eval c = (.error e, c') := by
  rw [eval_bind, h]

variable (c)

theorem eval_ofFreed (x : Except FreedNode α) : (ofFreed x).eval c = (x.mapError .freed, c) := by
  cases x <;> rfl

theorem eval_ofRun (r : Query.Run Key Value World BodyFault α) :
    (ofRun r).eval c =
      match r.eval c.state with
      | (.ok a, s) => (.ok a, c.withState s)
      | (.error (.fault f), s) => (.error (.query f), c.withState s)
      | (.error .outOfFuel, s) => (.error .tooDeep, c.withState s) := by
  have hstate : r.run.run c.state = r.eval c.state := rfl
  rw [ofRun, eval_bind_ok (eval_get c), hstate]
  rcases r.eval c.state with ⟨(f | _) | a, s⟩ <;> rfl

variable {c}

theorem eval_ofFreed_ok {x : Except FreedNode α} {a : α} (h : x = .ok a) : (ofFreed x).eval c = (.ok a, c) := by
  rw [eval_ofFreed, h]
  rfl

theorem eval_ofRun_ok {r : Query.Run Key Value World BodyFault α} {a : α}
    {s : Query.State Key Value World} (h : r.eval c.state = (.ok a, s)) :
    (ofRun r).eval c = (.ok a, c.withState s) := by
  rw [eval_ofRun, h]

end Steps

end Act

section Texts

variable (c : Context) (path : String)

theorem eval_intern (s : String) :
    (intern s).eval c = (.ok (c.names.intern s).1, c.withNames (c.names.add s)) := rfl

theorem eval_setText (text : String) :
    (setText path text).eval c =
      match c.table.setInput rules (.fileText path) (.text (.ofString text)) with
      | .ok table => (.ok (), (c.withNames (c.names.add path)).withTable table)
      | .error e => (.error (.query e), c.withNames (c.names.add path)) := by
  rw [setText, Act.eval_bind_ok (eval_intern c path), Act.eval_ofRun, Query.Run.setInput,
    Query.Run.eval_onTable]
  have hsame : (c.withNames (c.names.add path)).state.table = c.table := rfl
  rw [hsame]
  cases c.table.setInput rules (.fileText path) (.text (.ofString text)) <;> rfl

theorem eval_requireText :
    (requireText path).eval c =
      match c.table.value? (.fileText path) with
      | some _ => (.ok (), c.withNames (c.names.add path))
      | none => (.error (.noText path), c.withNames (c.names.add path)) := by
  rw [requireText, Act.eval_bind_ok (eval_intern c path), Act.eval_bind_ok (Act.eval_get _)]
  have hsame : (c.withNames (c.names.add path)).table = c.table := rfl
  rw [hsame]
  cases c.table.value? (.fileText path) <;> rfl

theorem eval_load (files : Files) :
    (load files path).eval c =
      match files.read path with
      | .ok text =>
        match (setText path text).eval c with
        | (.ok (), c') => (.ok (.ok ()), c')
        | (.error e, c') => (.error e, c')
      | .error reason => (.ok (.error { path, reason }), c) := by
  rw [load]
  cases files.read path with
  | error reason => rfl
  | ok text =>
      change (setText path text >>= fun u => pure (Except.ok u)).eval c = _
      rw [Act.eval_bind]
      dsimp only
      rcases (setText path text).eval c with ⟨_ | _, _⟩ <;> rfl

/-- A file that cannot be read leaves the session alone. -/
theorem eval_load_snd (files : Files) :
    ((load files path).eval c).2 =
      match files.read path with
      | .ok text => ((setText path text).eval c).2
      | .error _ => c := by
  rw [eval_load]
  cases files.read path with
  | error reason => rfl
  | ok text =>
      dsimp only
      rcases (setText path text).eval c with ⟨_ | _, _⟩ <;> rfl

variable {c}

theorem eval_query_noText {key : Key} (h : c.table.value? (.fileText key.path) = none) :
    (query key).eval c = (.error (.noText key.path), c.withNames (c.names.add key.path)) := by
  have hrequire := eval_requireText c key.path
  rw [h] at hrequire
  rw [query, Act.eval_bind_error hrequire]

theorem eval_query_ok {key : Key} {value v : Value} {memo : Query.Memo Key Value}
    {table : Query.Table Key Value} {world : World} (h : c.table.value? (.fileText key.path) = some value)
    (hfetch : (Query.Run.fetch rules queryDepth key).eval (c.withNames (c.names.add key.path)).state =
      (.ok v, ⟨table, world⟩)) (hmemo : table.memo? key = some memo) :
    (query key).eval c =
      (.ok ⟨v, memo.changedAt⟩, (c.withNames (c.names.add key.path)).withState ⟨table, world⟩) := by
  have hrequire := eval_requireText c key.path
  rw [h] at hrequire
  rw [query, Act.eval_bind_ok hrequire, Act.eval_bind_ok (Act.eval_ofRun_ok hfetch),
    Act.eval_bind_ok (Act.eval_get _)]
  have hthere : ((c.withNames (c.names.add key.path)).withState ⟨table, world⟩).table.memo? key = some memo :=
    hmemo
  rw [hthere]
  rfl

end Texts

section Nodes

variable (c : Context) (id : NodeId)

theorem eval_node : (node id).eval c = ((c.forest.get id).mapError .freed, c) := by
  rw [node, Act.eval_bind_ok (Act.eval_get c), Act.eval_ofFreed]

theorem eval_dump : (dump id).eval c = ((c.forest.dump c.locations id).mapError .freed, c) := by
  rw [dump, Act.eval_bind_ok (Act.eval_get c), Act.eval_ofFreed]

theorem eval_locate :
    (locate id).eval c =
      (match c.forest.get id, c.locations.get? id with
        | .ok _, some l => .ok l
        | .ok _, none => .error (.notPlaced id)
        | .error e, _ => .error (.freed e), c) := by
  have hnode := eval_node c id
  cases hget : c.forest.get id with
  | error e =>
      rw [hget] at hnode
      exact Act.eval_bind_error hnode
  | ok n =>
      rw [hget] at hnode
      rw [locate, Act.eval_bind_ok hnode, Act.eval_bind_ok (Act.eval_get c)]
      cases c.locations.get? id <;> rfl

theorem eval_pin :
    (pin id).eval c =
      match c.forest.get id with
      | .ok _ => (.ok (), c.withPins (addPin id c.pins))
      | .error e => (.error (.freed e), c) := by
  rw [pin, Act.eval_bind, eval_node]
  cases c.forest.get id <;> rfl

theorem eval_unpin :
    (unpin id).eval c =
      match c.pins.lookup id with
      | some _ => (.ok (), c.withPins (dropPin id c.pins))
      | none => (.error (.notPinned id), c) := by
  rw [unpin, Act.eval_bind_ok (Act.eval_get c)]
  cases h : c.pins.lookup id <;> rfl

end Nodes
end Context
end Palimpsest
