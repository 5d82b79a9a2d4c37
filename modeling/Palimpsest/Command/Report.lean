import Palimpsest.Json
import Palimpsest.Session.Context

/-!
The lines that jobs print about modules and revisions.
-/

namespace Palimpsest
namespace Command

/-- A module of a file. -/
structure ModuleSummary where
  path : String
  name : Option String
  statements : Nat
  symbols : List NodeId
  /-- The names of those of its symbols that have one. -/
  symbolNames : List String
deriving DecidableEq, Repr, Inhabited

namespace ModuleSummary

def ofEntry (forest : Forest) (path : String) (entry : Session.ModuleEntry) : Except FreedNode ModuleSummary := do
  let module_ ← forest.get entry.module_
  let symbols ← entry.symbols.mapM forest.get
  return {
    path, name := module_.kind.symbolName?, statements := module_.stmtCount, symbols := entry.symbols,
    symbolNames := symbols.filterMap (·.kind.symbolName?) }

def display (m : ModuleSummary) : String :=
  m.path ++ ": module " ++ m.name.getD "?" ++ " (" ++ toString m.statements ++ " statements, "
    ++ toString m.symbols.length ++ " symbols)"

def toJson (m : ModuleSummary) : Json :=
  .record
    [("path", .str m.path), ("module", (m.name.map .str).getD .null), ("statements", .num m.statements),
     ("symbols", .arr (m.symbolNames.map .str))]

end ModuleSummary

/-- A revision of a replayed file. -/
structure RevisionSummary where
  revision : Nat
  file : String
  unchanged : Bool
  reuse : Reconcile.Stats
  symbols : Nat
  diagnostics : Nat
  gc : Context.GcStats
deriving DecidableEq, Repr, Inhabited

namespace RevisionSummary

/-- What became of the tree before. -/
def outcome (r : RevisionSummary) : String :=
  if r.unchanged then "unchanged"
  else
    toString r.reuse.freshNodes ++ " fresh, " ++ toString r.reuse.reusedNodes ++ " reused in "
      ++ toString r.reuse.reusedSubtrees ++ " subtrees"

def display (r : RevisionSummary) : String :=
  Query.revisionName r.revision ++ " " ++ r.file ++ ": " ++ r.outcome ++ "; " ++ toString r.symbols
    ++ " symbols, " ++ toString r.diagnostics ++ " diagnostics; " ++ r.gc.display

def toJson (r : RevisionSummary) : Json :=
  .record
    [("revision", .num r.revision), ("file", .str r.file), ("unchanged", .bool r.unchanged),
     ("reuse", .record
       [("fresh_nodes", .num r.reuse.freshNodes), ("reused_subtrees", .num r.reuse.reusedSubtrees),
        ("reused_nodes", .num r.reuse.reusedNodes)]),
     ("symbols", .num r.symbols), ("diagnostics", .num r.diagnostics),
     ("gc", .record
       [("entries_dropped", .num r.gc.entriesDropped), ("nodes_freed", .num r.gc.nodesFreed),
        ("nodes_live", .num r.gc.nodesLive)])]

end RevisionSummary
end Command
end Palimpsest
