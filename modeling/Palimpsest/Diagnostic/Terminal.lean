import Palimpsest.Diagnostic.Basic
import Palimpsest.Text.Location

/-!
Reports for a reader at a terminal: a header, the place, and each labelled line of the text with an
underline. Columns are counted in bytes, as everywhere else.
-/

namespace Palimpsest
namespace Diagnostic
namespace Terminal

/-- The escape sequence that switches to the colour of a severity. -/
def colorOf : Severity → String
  | .note => "\x1b[1;36m"
  | .warning => "\x1b[1;33m"
  | .error => "\x1b[1;31m"

def header (color : Bool) (d : Diagnostic) : String :=
  if color then
    colorOf d.severity ++ d.severity.name ++ "[" ++ d.code.display ++ "]\x1b[0m\x1b[1m: " ++ d.message
      ++ "\x1b[0m"
  else
    d.severity.name ++ "[" ++ d.code.display ++ "]: " ++ d.message

def spaces (n : Nat) : String := "".pushn ' ' n

/-- `s` with spaces in front up to `width` characters. -/
def padLeft (width : Nat) (s : String) : String := spaces (width - s.length) ++ s

/-- The line a span starts on, and below it the part of the span on that line underlined; a span has at
least one mark. -/
def excerpt (text : SourceText) (span : Span) (mark : Char) (message : String) (gutter : Nat) :
    List String :=
  let (line, col) := text.lineCol span.start
  let shown := (text.lineText? line).getD ""
  let width := max (min span.length (shown.utf8ByteSize - (col - 1))) 1
  let remark := if message.isEmpty then "" else " " ++ message
  [padLeft gutter (toString line) ++ " | " ++ shown,
   spaces gutter ++ " | " ++ spaces (col - 1) ++ "".pushn mark width ++ remark]

/-- The width that every line number of a report fits into. -/
def gutterWidth (d : Diagnostic) (text : SourceText) : Nat :=
  let lines := (d.labels.filter (!·.span.isDummy)).map fun l => (text.lineCol l.span.start).1
  let widest := lines.foldl max (text.lineCol d.primary.start).1
  (toString widest).length

/-- The place and the excerpts of a report that has a position. -/
def body (d : Diagnostic) (path : String) (text : SourceText) : List String :=
  let (line, col) := text.lineCol d.primary.start
  let gutter := gutterWidth d text
  let edge := spaces gutter
  let remark := ((d.labels.find? (·.span == d.primary)).map (·.message)).getD ""
  let others := d.labels.filter fun l => l.span != d.primary && !l.span.isDummy
  [edge ++ "--> " ++ path ++ ":" ++ toString line ++ ":" ++ toString col, edge ++ " |"]
    ++ excerpt text d.primary '^' remark gutter
    ++ others.flatMap (fun l => excerpt text l.span l.style.underline l.message gutter)
    ++ (if d.notes.isEmpty then [] else [edge ++ " |"])

def lines (color : Bool) (d : Diagnostic) (path : String) (text : SourceText) : List String :=
  [header color d]
    ++ (if d.primary.isDummy then [] else body d path text)
    ++ d.notes.map ("   = note: " ++ ·)

/-- The lines of a report, each ended by a line feed. -/
def render (color : Bool) (d : Diagnostic) (path : String) (text : SourceText) : String :=
  String.join ((lines color d path text).map (· ++ "\n"))

end Terminal
end Diagnostic
end Palimpsest
