import Palimpsest.Diagnostic.Code
import Palimpsest.Text.Span

/-!
Reports about a text: a message at a primary span, further labelled spans, and notes.
-/

namespace Palimpsest

inductive LabelStyle where
  | primary
  | secondary
deriving DecidableEq, Repr, Inhabited

/-- The character a label is underlined with. -/
def LabelStyle.underline : LabelStyle → Char
  | primary => '^'
  | secondary => '-'

/-- A remark on a span of the text. -/
structure Label where
  span : Span
  message : String
  style : LabelStyle
deriving DecidableEq, Repr, Inhabited

structure Diagnostic where
  severity : Severity
  code : Code
  message : String
  primary : Span
  labels : List Label
  notes : List String
deriving DecidableEq, Repr, Inhabited

namespace Diagnostic

def error (code : Code) (message : String) (span : Span) : Diagnostic :=
  { severity := .error, code, message, primary := span, labels := [], notes := [] }

def warning (code : Code) (message : String) (span : Span) : Diagnostic :=
  { severity := .warning, code, message, primary := span, labels := [], notes := [] }

def withLabel (d : Diagnostic) (span : Span) (message : String) : Diagnostic :=
  { d with labels := d.labels ++ [⟨span, message, .secondary⟩] }

def withNote (d : Diagnostic) (note : String) : Diagnostic :=
  { d with notes := d.notes ++ [note] }

def isError (d : Diagnostic) : Bool := d.severity.isError

/-- The order of report: by where the primary span starts, ties as they were emitted. -/
def inTextOrder (ds : List Diagnostic) : List Diagnostic :=
  ds.mergeSort fun a b => a.primary.start ≤ b.primary.start

/-- How many of the reports are errors. -/
def errorCount (ds : List Diagnostic) : Nat := ds.countP isError

end Diagnostic
end Palimpsest
