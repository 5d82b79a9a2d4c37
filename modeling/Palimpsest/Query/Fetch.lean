import Palimpsest.Query.Table

/-!
Answering a query. A memo that is not known to be current is verified by way of what was read for it;
its body runs only if some of that has changed or is gone. What a run has done before it is refused stays
done: the frames of bodies that were cut short stay among the running ones.
-/

namespace Palimpsest
namespace Query

/-- The memo table, and the world that bodies work on. -/
structure State (K V W : Type) where
  table : Table K V
  world : W
deriving Repr, Inhabited

/-- Why an answer does not come: a refusal, or a nesting deeper than was allowed for. -/
inductive Stop (K E : Type) where
  | fault (f : Fault K E)
  | outOfFuel
deriving DecidableEq, Repr, Inhabited

/-- Computations that keep their state when they stop. -/
abbrev Run (K V W E : Type) := ExceptT (Stop K E) (StateM (State K V W))

variable {K V W E : Type} [DecidableEq K]

namespace Run

def table : Run K V W E (Table K V) := return (← get).table

def modifyTable (f : Table K V → Table K V) : Run K V W E Unit :=
  modify fun s => { s with table := f s.table }

/-- An operation on the table that is refused without effect or changes it. -/
def onTable {α : Type} (f : Table K V → Except (Fault K E) (α × Table K V)) : Run K V W E α := do
  match f (← table) with
  | .ok (a, t) =>
    modifyTable fun _ => t
    return a
  | .error e => throw (.fault e)

def setInput (rules : Rules K V W E) (key : K) (value : V) : Run K V W E Unit :=
  onTable fun t => return ((), ← t.setInput rules key value)

def advance (rules : Rules K V W E) (keep : Bool) : Run K V W E Unit :=
  onTable fun t => return ((), ← t.advance rules keep)

def sweep (rules : Rules K V W E) : Run K V W E (List K) := onTable (Table.sweep rules)

/-- Runs a body whose reads are answered by `fetch`. -/
def script (rules : Rules K V W E) (fetch : K → Run K V W E V) : Script K V W E → Run K V W E V
  | .yield v => return v
  | .fail reason => throw (.fault (.body reason))
  | .read key next => do script rules fetch (next (← fetch key))
  | .peek key next => do script rules fetch (next ((← table).value? key))
  | .running next => do script rules fetch (next (← table).isRunning)
  | .set key value next => do
    setInput rules key value
    script rules fetch next
  | .advance keep next => do
    advance rules keep
    script rules fetch next
  | .sweep next => do script rules fetch (next (← sweep rules))
  | .look next => do script rules fetch (next (← get).world)
  | .change world next => do
    modify fun s => { s with world }
    script rules fetch next

/-- Whether something read is gone or has changed since `verifiedAt`, once `refresh` has seen to it. -/
def hasChanged (rules : Rules K V W E) (refresh : K → Run K V W E V) (verifiedAt : Nat) (read : K) :
    Run K V W E Bool := do
  if ((← table).memo? read).isNone then return true
  if !rules.isInput read then
    let _ ← refresh read
  return !(← table).isIntact verifiedAt read

/-- Whether nothing of what was read has changed; the first that has ends the search. -/
def areIntact (rules : Rules K V W E) (refresh : K → Run K V W E V) (verifiedAt : Nat) :
    List K → Run K V W E Bool
  | [] => return true
  | read :: rest => do
    if ← hasChanged rules refresh verifiedAt read then return false
    else areIntact rules refresh verifiedAt rest

/-- Runs the body of a query and stores what it gives. -/
def execute (rules : Rules K V W E) (fetch : K → Run K V W E V) (key : K) : Run K V W E V := do
  let old := (← table).memo? key
  modifyTable (·.enter key)
  let value ← script rules fetch (rules.body key (old.map Memo.value))
  let (value, t) := (← table).leave rules key old value
  modifyTable fun _ => t
  return value

/-- The current value of a query, with nestings of at most `fuel` queries. -/
def refresh (rules : Rules K V W E) : (fuel : Nat) → K → Run K V W E V
  | 0, _ => throw .outOfFuel
  | fuel + 1, key => do
    let fetch (k : K) : Run K V W E V := do
      let value ← refresh rules fuel k
      modifyTable (·.recordRead k)
      return value
    modifyTable Table.closeWindow
    let t ← table
    if t.isActive key then throw (.fault (.cycle key))
    match t.memo? key with
    | none => if rules.isInput key then throw (.fault (.unset key)) else execute rules fetch key
    | some memo =>
      if rules.isInput key || memo.verifiedAt == t.revision then
        modifyTable Table.countHit
        return memo.value
      else if ← areIntact rules (refresh rules fuel) memo.verifiedAt memo.reads then
        match (← table).memo? key with
        | some memo =>
          modifyTable (·.validate key memo)
          return memo.value
        | none => execute rules fetch key
      else execute rules fetch key

/-- The current value of a query. If a body is running, it has now read it. -/
def fetch (rules : Rules K V W E) (fuel : Nat) (key : K) : Run K V W E V := do
  let value ← refresh rules fuel key
  modifyTable (·.recordRead key)
  return value

end Run
end Query
end Palimpsest
