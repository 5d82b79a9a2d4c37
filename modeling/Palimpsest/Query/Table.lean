import Palimpsest.Query.Script
import Palimpsest.Query.Stats
import Palimpsest.Reach

/-!
The memo table. Each value is kept with the revision at which it last changed, the revision at which it
was last known to be current, and the queries that were read for it. Inputs may be set from a revision's
start to its first read.
-/

namespace Palimpsest
namespace Query

structure Memo (K V : Type) where
  value : V
  changedAt : Nat
  verifiedAt : Nat
  reads : List K
deriving DecidableEq, Repr, Inhabited

/-- A query whose body is running, and what it has read so far. -/
structure Frame (K : Type) where
  key : K
  reads : List K
deriving DecidableEq, Repr, Inhabited

structure Table (K V : Type) where
  revision : Nat
  /-- Whether inputs may be set. -/
  accepting : Bool
  memos : List (K × Memo K V)
  /-- The running queries, the innermost first. -/
  active : List (Frame K)
  stats : Stats
deriving DecidableEq, Repr, Inhabited

/-- What is only done between queries. -/
inductive Chore where
  | advancing
  | sweeping
deriving DecidableEq, Repr, Inhabited

/-- Why an operation on queries is refused. -/
inductive Fault (K E : Type) where
  | derived (key : K)
  | windowClosed (key : K) (revision : Nat)
  | busy (chore : Chore) (running : K)
  | cycle (key : K)
  | unset (key : K)
  /-- A body gave up. -/
  | body (reason : E)
deriving DecidableEq, Repr, Inhabited

def Chore.describe : Chore → String
  | advancing => "advancing the revision"
  | sweeping => "sweeping stale results"

def revisionName (n : Nat) : String := "r" ++ toString n

/-- The text of a fault, given the names of keys; a body's own reason has none here. -/
def Fault.message? {K E : Type} (label : K → String) : Fault K E → Option String
  | derived k => some ("contract violation: " ++ label k ++ " is a derived query and cannot be set")
  | windowClosed k r => some ("contract violation: " ++ label k ++ " set outside an input window at "
      ++ revisionName r ++ "; advance the revision first")
  | busy chore k => some ("contract violation: " ++ chore.describe ++ " while " ++ label k ++ " is executing")
  | cycle k => some ("contract violation: cycle detected while computing " ++ label k)
  | unset k => some ("contract violation: no value has been set for " ++ label k)
  | body _ => none

namespace Table

variable {K V W E : Type} [DecidableEq K]

def empty : Table K V := ⟨1, true, [], [], .zero⟩

def memo? (t : Table K V) (key : K) : Option (Memo K V) := t.memos.lookup key

def value? (t : Table K V) (key : K) : Option V := (t.memo? key).map Memo.value

def isRunning (t : Table K V) : Bool := !t.active.isEmpty

def isActive (t : Table K V) (key : K) : Bool := t.active.any (·.key == key)

/-- Replaces an entry where it stands, or adds it at the end. -/
def putMemo (key : K) (memo : Memo K V) : List (K × Memo K V) → List (K × Memo K V)
  | [] => [(key, memo)]
  | e :: rest => if e.1 = key then (key, memo) :: rest else e :: putMemo key memo rest

def put (t : Table K V) (key : K) (memo : Memo K V) : Table K V :=
  { t with memos := putMemo key memo t.memos }

/-- Sets an input. A value that is the same as the one it has is no change, and the old one stays. -/
def setInput (rules : Rules K V W E) (t : Table K V) (key : K) (value : V) :
    Except (Fault K E) (Table K V) :=
  if !rules.isInput key then .error (.derived key)
  else if !t.accepting then .error (.windowClosed key t.revision)
  else match t.memo? key with
    | some memo =>
      if rules.same memo.value value then .ok (t.put key { memo with verifiedAt := t.revision })
      else .ok (t.put key { memo with value, changedAt := t.revision, verifiedAt := t.revision })
    | none => .ok (t.put key ⟨value, t.revision, t.revision, []⟩)

/-- Refuses a chore while a body is running. -/
def requireIdle (t : Table K V) (chore : Chore) : Except (Fault K E) Unit :=
  match t.active with
  | [] => .ok ()
  | frame :: _ => .error (.busy chore frame.key)

/-- Starts the next revision. Unless results are kept, only inputs stay in the table. -/
def advance (rules : Rules K V W E) (t : Table K V) (keep : Bool) : Except (Fault K E) (Table K V) := do
  t.requireIdle .advancing
  let memos := if keep then t.memos else t.memos.filter fun e => rules.isInput e.1
  return { t with revision := t.revision + 1, accepting := true, memos }

/-- Whether a memo has still to be shown current at this revision. -/
def isUnverified (rules : Rules K V W E) (t : Table K V) (e : K × Memo K V) : Bool :=
  !rules.isInput e.1 && e.2.verifiedAt != t.revision

/-- Whether something read is there and has not changed since `verifiedAt`. -/
def isIntact (t : Table K V) (verifiedAt : Nat) (read : K) : Bool :=
  match t.memo? read with
  | some memo => memo.changedAt ≤ verifiedAt
  | none => false

/-- The unverified memos that are out of date by themselves: something they read is gone or has changed. -/
def staleSeeds (rules : Rules K V W E) (t : Table K V) : List K :=
  (t.memos.filter fun e => t.isUnverified rules e && !e.2.reads.all (t.isIntact e.2.verifiedAt)).map Prod.fst

/-- The unverified memos that read `key` while its value was the one it has. -/
def dependents (rules : Rules K V W E) (t : Table K V) (key : K) : List K :=
  (t.memos.filter fun e =>
    t.isUnverified rules e && e.2.reads.contains key && t.isIntact e.2.verifiedAt key).map Prod.fst

/-- The memos that cannot be shown current without running a body. -/
def staleKeys (rules : Rules K V W E) (t : Table K V) : List K :=
  let successors (key : K) : Id (List K) := t.dependents rules key
  (Reach.trace successors t.memos.length (t.staleSeeds rules)).run.marked

/-- Drops what cannot be shown current without running a body. -/
def sweep (rules : Rules K V W E) (t : Table K V) : Except (Fault K E) (List K × Table K V) := do
  t.requireIdle .sweeping
  let stale := t.staleKeys rules
  return (stale, { t with memos := t.memos.filter fun e => !stale.contains e.1 })

def closeWindow (t : Table K V) : Table K V := { t with accepting := false }

def countHit (t : Table K V) : Table K V := { t with stats := { t.stats with hits := t.stats.hits + 1 } }

/-- Marks a memo as current. -/
def validate (t : Table K V) (key : K) (memo : Memo K V) : Table K V :=
  { t.put key { memo with verifiedAt := t.revision } with
    stats := { t.stats with validations := t.stats.validations + 1 } }

/-- Notes that the innermost running query read `key`. -/
def recordRead (t : Table K V) (key : K) : Table K V :=
  match t.active with
  | [] => t
  | frame :: outer =>
    if frame.reads.contains key then t
    else { t with active := { frame with reads := frame.reads ++ [key] } :: outer }

def enter (t : Table K V) (key : K) : Table K V := { t with active := ⟨key, []⟩ :: t.active }

/-- Leaves the innermost running query, whose body gave `value`. A value that is the same as the one of
before leaves that one and its change revision in place. -/
def leave (rules : Rules K V W E) (t : Table K V) (key : K) (old : Option (Memo K V)) (value : V) :
    V × Table K V :=
  let reads := (t.active.head?.map Frame.reads).getD []
  let stats := t.stats.recordExecution (rules.kind key)
  let t := { t with active := t.active.tail, stats }
  match old with
  | some memo =>
    if rules.same value memo.value then
      let stats := { t.stats with backdates := t.stats.backdates + 1 }
      (memo.value, { t with stats }.put key ⟨memo.value, memo.changedAt, t.revision, reads⟩)
    else (value, t.put key ⟨value, t.revision, t.revision, reads⟩)
  | none => (value, t.put key ⟨value, t.revision, t.revision, reads⟩)

end Table
end Query
end Palimpsest
