import Palimpsest.Diagnostic.Basic
import Palimpsest.Json
import Palimpsest.Text.Location

/-!
Where reports go: into a collector, and to another program as one JSON object to a line. Taking the reports
out of a collector leaves the count of errors as it was: the count is of everything ever emitted.
-/

namespace Palimpsest

/-- Reports not yet taken, in order of emission, and the number of errors so far. -/
structure Sink where
  pending : List Diagnostic
  errors : Nat
deriving DecidableEq, Repr, Inhabited

namespace Sink

def empty : Sink := ⟨[], 0⟩

def emit (s : Sink) (d : Diagnostic) : Sink :=
  { pending := s.pending ++ [d], errors := if d.isError then s.errors + 1 else s.errors }

def ofList (ds : List Diagnostic) : Sink := ds.foldl emit empty

def hasErrors (s : Sink) : Bool := 0 < s.errors

/-- Empties the collector; the reports come out in text order. -/
def takeAll (s : Sink) : List Diagnostic × Sink :=
  (Diagnostic.inTextOrder s.pending, { s with pending := [] })

end Sink

def Span.toJson (s : Span) : Json := .record [("start", .num s.start), ("end", .num s.stop)]

def LabelStyle.name : LabelStyle → String
  | primary => "Primary"
  | secondary => "Secondary"

def Label.toJson (l : Label) : Json :=
  .record [("span", l.span.toJson), ("message", .str l.message), ("style", .str l.style.name)]

namespace Diagnostic

/-- The line and the column of the primary span, if it has any. -/
def positionJson (d : Diagnostic) (text : SourceText) : Json :=
  if d.primary.isDummy then .null
  else
    let (line, column) := text.lineCol d.primary.start
    .record [("line", .num line), ("column", .num column)]

def toJson (d : Diagnostic) (path : String) (text : SourceText) : Json :=
  .record
    [("path", .str path), ("severity", .str d.severity.name), ("code", .str d.code.display),
     ("message", .str d.message), ("span", d.primary.toJson), ("position", d.positionJson text),
     ("labels", .arr (d.labels.map Label.toJson)), ("notes", .arr (d.notes.map .str))]

def renderJson (d : Diagnostic) (path : String) (text : SourceText) : String :=
  (d.toJson path text).render ++ "\n"

end Diagnostic

end Palimpsest
