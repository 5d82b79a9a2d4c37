import Palimpsest.Files
import Palimpsest.Forest.Collect
import Palimpsest.Forest.Dump
import Palimpsest.Session.Bodies

/-!
A session: texts that come in revisions, the results computed from them, and the nodes that the results
are made of. Texts are set between an advance and the first query after it. A handle stays good until a
collection finds its node neither below a current result nor below a pin.
-/

namespace Palimpsest

structure Context where
  state : Query.State Session.Key Session.Value Session.World
  tuning : Tuning
  /-- Pinned nodes, and how often each is. -/
  pins : List (NodeId × Nat)
  advances : Nat

namespace Context

open Session

/-- Why an operation is refused. -/
inductive Violation where
  | query (fault : Query.Fault Key BodyFault)
  | noText (path : String)
  | freed (node : FreedNode)
  | notPinned (node : NodeId)
  | notPlaced (node : NodeId)
  /-- A query was nested deeper than queries are. -/
  | tooDeep
deriving DecidableEq, Repr, Inhabited

def Violation.message? (names : Interner) : Violation → Option String
  | query f => f.message? (Key.label names)
  | noText path => some ("contract violation: no text has been set for " ++ path)
  | freed e => some e.message
  | notPinned id => some ("contract violation: " ++ id.display ++ " is not pinned")
  | notPlaced id => some ("contract violation: no location recorded for " ++ id.display)
  | tooDeep => none

/-- A value, and the revision at which it took the place of another. As long as that stays the same it is
the very same value. -/
structure Versioned (α : Type) where
  value : α
  since : Nat
deriving Repr, Inhabited

/-- What a collection did. -/
structure GcStats where
  entriesDropped : Nat
  nodesFreed : Nat
  nodesLive : Nat
deriving DecidableEq, Repr, Inhabited

def GcStats.display (s : GcStats) : String :=
  "dropped " ++ toString s.entriesDropped ++ " results, freed " ++ toString s.nodesFreed ++ " nodes, "
    ++ toString s.nodesLive ++ " live"

def fresh (tuning : Tuning) : Context :=
  { state := ⟨.empty, default⟩, tuning, pins := [], advances := 0 }

instance : Inhabited Context := ⟨fresh .standard⟩

def table (c : Context) : Query.Table Key Value := c.state.table

def names (c : Context) : Interner := c.state.world.names

def forest (c : Context) : Forest := c.state.world.forest

def locations (c : Context) : Locations := c.state.world.locations

def revision (c : Context) : Nat := c.table.revision

/-- Operations on a session. One that is refused may have done something before. -/
abbrev Act := ExceptT Violation (StateM Context)

def Act.ofFreed {α : Type} (x : Except FreedNode α) : Act α :=
  match x with
  | .ok a => return a
  | .error e => throw (.freed e)

/-- Work on the query state. -/
def Act.ofRun {α : Type} (r : Query.Run Key Value World BodyFault α) : Act α := do
  let c ← get
  let (result, state) := r.run.run c.state
  set { c with state }
  match result with
  | .ok a => return a
  | .error (.fault f) => throw (.query f)
  | .error .outOfFuel => throw .tooDeep

def modifyWorld (f : World → World) : Act Unit :=
  modify fun c => { c with state := { c.state with world := f c.state.world } }

/-- The number of a string. -/
def intern (s : String) : Act Nat := do
  let (id, names) := (← get).names.intern s
  modifyWorld fun w => { w with names }
  return id

/-- Sets the text of a file for this revision. -/
def setText (path text : String) : Act Unit := do
  let _ ← intern path
  Act.ofRun (Query.Run.setInput rules (.fileText path) (.text (.ofString text)))

/-- Refuses a path without a text. -/
def requireText (path : String) : Act Unit := do
  let _ ← intern path
  if ((← get).table.value? (.fileText path)).isNone then throw (.noText path)

/-- The current value of a query about a file that has a text. -/
def query (key : Key) : Act (Versioned Value) := do
  requireText key.path
  let value ← Act.ofRun (Query.Run.fetch rules queryDepth key)
  return { value, since := (((← get).table.memo? key).map (·.changedAt)).getD 0 }

def wrongKind {α : Type} : Act α := throw (.query (.body .wrongKind))

/-- The text of a file. -/
def fileText (path : String) : Act (Versioned SourceText) := do
  let v ← query (.fileText path)
  match v.value with
  | .text t => return { v with value := t }
  | _ => wrongKind

/-- The tree of a file. -/
def parse (path : String) : Act (Versioned ParsedFile) := do
  let v ← query (.parse path)
  match v.value with
  | .parsed p => return { v with value := p }
  | _ => wrongKind

/-- The symbols that the modules of a file declare. -/
def moduleSymbols (path : String) : Act (Versioned (List ModuleEntry)) := do
  let v ← query (.moduleSymbols path)
  match v.value with
  | .symbols entries => return { v with value := entries }
  | _ => wrongKind

/-- Drops the results that cannot be shown current, and frees the nodes that neither the others nor pins
hold. -/
def collectGarbage : Act GcStats := do
  let dropped ← Act.ofRun (Query.Run.sweep rules)
  let c ← get
  let roots := c.pins.map Prod.fst ++ c.table.memos.flatMap fun e => e.2.value.roots
  let (freed, forest, locations) ← Act.ofFreed (c.forest.collect c.locations roots)
  modifyWorld fun w => { w with forest, locations }
  return { entriesDropped := dropped.length, nodesFreed := freed.length, nodesLive := forest.live }

/-- Starts the next revision; garbage is collected before it when it is time to. -/
def advance (keepOldResults : Bool) : Act Unit := do
  modify fun c => { c with advances := c.advances + 1 }
  let c ← get
  if c.tuning.gcEvery > 0 ∧ c.advances % c.tuning.gcEvery = 0 then
    let _ ← collectGarbage
  Act.ofRun (Query.Run.advance rules keepOldResults)

def node (id : NodeId) : Act Node := do Act.ofFreed ((← get).forest.get id)

/-- Where a node was read when it was made. -/
def locate (id : NodeId) : Act Location := do
  let _ ← node id
  match (← get).locations.get? id with
  | some l => return l
  | none => throw (.notPlaced id)

/-- The printed tree below a node. -/
def dump (id : NodeId) : Act String := do
  let c ← get
  Act.ofFreed (c.forest.dump c.locations id)

/-- Adds one to the count of a node, from zero. -/
def addPin (id : NodeId) : List (NodeId × Nat) → List (NodeId × Nat)
  | [] => [(id, 1)]
  | (p, n) :: rest => if p = id then (p, n + 1) :: rest else (p, n) :: addPin id rest

/-- Takes one from the count of a node, which goes with the last. -/
def dropPin (id : NodeId) : List (NodeId × Nat) → List (NodeId × Nat)
  | [] => []
  | (p, n) :: rest =>
    if p = id then (if n > 1 then (p, n - 1) :: rest else rest) else (p, n) :: dropPin id rest

/-- Keeps a node, and what is below it, until it has been unpinned as often. -/
def pin (id : NodeId) : Act Unit := do
  let _ ← node id
  modify fun c => { c with pins := addPin id c.pins }

def unpin (id : NodeId) : Act Unit := do
  if ((← get).pins.lookup id).isNone then throw (.notPinned id)
  modify fun c => { c with pins := dropPin id c.pins }

/-- A file that could not be read. -/
structure LoadError where
  path : String
  reason : FileError
deriving DecidableEq, Repr, Inhabited

def LoadError.message (e : LoadError) : String :=
  "failed to read " ++ e.path ++ ": " ++ e.reason.message

/-- Reads a file and sets its text; a file that cannot be read changes nothing. -/
def load (files : Files) (path : String) : Act (Except LoadError Unit) := do
  match files.read path with
  | .ok text => return .ok (← setText path text)
  | .error reason => return .error { path, reason }

end Context
end Palimpsest
