import Palimpsest.Command.Line
import Palimpsest.Command.Report
import Palimpsest.Config
import Palimpsest.Diagnostic.Sink
import Palimpsest.Diagnostic.Terminal
import Palimpsest.Session.Context

/-!
Running a job over files: what it prints, and the code it ends with.
-/

namespace Palimpsest
namespace Command

inductive Stream where
  | output
  | errors
deriving DecidableEq, Repr, Inhabited

/-- A piece of what was printed. -/
structure Printed where
  stream : Stream
  text : String
deriving DecidableEq, Repr, Inhabited

/-- Why a job ends early. -/
inductive Failure where
  | config (e : ConfigError)
  | load (e : Context.LoadError)
  | refused (v : Context.Violation) (names : Interner)

def Failure.message : Failure → String
  | config e => e.message
  | load e => e.message
  | refused v names => (v.message? names).getD "queries are nested too deep"

/-- A session, and what was printed on its way. -/
structure Desk where
  context : Context
  printed : List Printed

abbrev Work := ExceptT Failure (StateM Desk)

namespace Work

def print (stream : Stream) (text : String) : Work Unit :=
  modify fun d => { d with printed := d.printed ++ [⟨stream, text⟩] }

def printLine (stream : Stream) (text : String) : Work Unit := print stream (text ++ "\n")

/-- Prints when a condition holds. -/
def printLineIf (condition : Bool) (stream : Stream) (text : String) : Work Unit :=
  if condition then printLine stream text else pure ()

/-- An operation on the session. -/
def ofAct {α : Type} (act : Context.Act α) : Work α := do
  let d ← get
  let (result, context) := act.run.run d.context
  set { d with context }
  match result with
  | .ok a => return a
  | .error v => throw (.refused v context.names)

def ofFreed {α : Type} (x : Except FreedNode α) : Work α := ofAct (Context.Act.ofFreed x)

end Work

/-- What a job is run with. -/
structure Setting where
  files : Files
  config : Config
  quiet : Bool
  colored : Bool

/-- Sets the text of a file that is read. -/
def loadFile (files : Files) (path : String) : Work Unit := do
  match ← Work.ofAct (Context.load files path) with
  | .ok _ => return ()
  | .error e => throw (.load e)

/-- Prints the modules of a file as they are asked for. -/
def printModules (s : Setting) (dump : Bool) (format : Format) (path : String) (roots : List NodeId)
    (entries : List Session.ModuleEntry) : Work Unit := do
  match format with
  | .json =>
    entries.forM fun entry => do
      let m ← Work.ofFreed (ModuleSummary.ofEntry (← get).context.forest path entry)
      Work.printLineIf (!s.quiet) .output m.toJson.render
  | .text =>
    if !s.quiet then
      (roots.zip entries).forM fun (root, entry) => do
        if dump then Work.print .output (← Work.ofAct (Context.dump root))
        else
          let m ← Work.ofFreed (ModuleSummary.ofEntry (← get).context.forest path entry)
          Work.printLine .output m.display

/-- Prints reports, with a blank line behind each. -/
def printDiagnostics (s : Setting) (format : Format) (path : String) (text : SourceText)
    (ds : List Diagnostic) : Work Unit :=
  ds.forM fun d =>
    match format with
    | .text => Work.printLine .errors (Diagnostic.Terminal.render s.colored d path text)
    | .json => Work.printLine .output (d.renderJson path text)

/-- Parses a loaded file; its reports are what counts in the end. -/
def parseFile (s : Setting) (dump : Bool) (format : Format) (path : String) : Work (List Diagnostic) := do
  let parsed ← Work.ofAct (Context.parse path)
  let symbols ← Work.ofAct (Context.moduleSymbols path)
  let text ← Work.ofAct (Context.fileText path)
  printModules s dump format path parsed.value.modules symbols.value
  printDiagnostics s format path text.value parsed.value.diagnostics
  return parsed.value.diagnostics

def parseFiles (s : Setting) (files : List String) (dump : Bool) (format : Format) : Work Nat := do
  files.forM (loadFile s.files)
  let ds := (← files.mapM (parseFile s dump format)).flatten
  let errors := Diagnostic.errorCount ds
  let warnings := ds.countP (·.severity = .warning)
  Work.printLineIf (!s.quiet && format = .text) .errors
    ("   Result: " ++ toString errors ++ " error(s), " ++ toString warnings ++ " warning(s)")
  return if errors > 0 then 1 else 0

/-- Parses the next revision of a path. `before` is the tree of the revision before, if there was one. -/
def replayRevision (s : Setting) (path : String) (format : Format)
    (before : Option (Context.Versioned Session.ParsedFile)) (file : String) :
    Work (Option (Context.Versioned Session.ParsedFile)) := do
  match s.files.read file with
  | .error reason => throw (.load { path := file, reason })
  | .ok text =>
    if before.isSome then Work.ofAct (Context.advance s.config.engine.keepOldResults)
    Work.ofAct (Context.setText path text)
    let parsed ← Work.ofAct (Context.parse path)
    let symbols ← Work.ofAct (Context.moduleSymbols path)
    let gc ← Work.ofAct Context.collectGarbage
    let summary : RevisionSummary := {
      revision := (← get).context.revision, file, unchanged := before.map (·.since) = some parsed.since,
      reuse := parsed.value.reuse, symbols := (Session.ModuleEntry.allSymbols symbols.value).length,
      diagnostics := parsed.value.diagnostics.length, gc }
    match format with
    | .text => Work.printLineIf (!s.quiet) .output summary.display
    | .json => Work.printLine .output summary.toJson.render
    return some parsed

def replayRevisions (s : Setting) (path : String) (revisions : List String) (format : Format) : Work Nat := do
  let last ← revisions.foldlM (replayRevision s path format) none
  Work.printLineIf (!s.quiet && format = .text) .errors
    ("   Queries: " ++ (← get).context.table.stats.display)
  return if (last.map (·.value.hasErrors)).getD false then 1 else 0

/-- Runs a job to the code it ends with. -/
def Job.run (s : Setting) : Job → Work Nat
  | .parse files dump format => parseFiles s files dump format
  | .replay path revisions format => replayRevisions s path revisions format

/-- What is left of a job when it has ended. -/
structure Ending where
  code : Nat
  printed : List Printed
deriving DecidableEq, Repr, Inhabited

namespace Ending

/-- All that went to a stream. -/
def printedTo (e : Ending) (stream : Stream) : String :=
  String.join ((e.printed.filter (·.stream = stream)).map (·.text))

/-- The end of a job that failed. -/
def ofFailure (printed : List Printed) (f : Failure) : Ending :=
  ⟨1, printed ++ [⟨.errors, "error: " ++ f.message ++ "\n"⟩]⟩

end Ending

/-- The settings that a job runs with: of the file it names, or of the working directory. -/
def Manner.settings (m : Manner) (files : Files) : Except ConfigError Config :=
  match m.config with
  | some path => Config.ofFile files path
  | none => Config.ofDirectory files "."

/-- Runs a job. `onTerminal` says whether errors go to a terminal. -/
def runJob (files : Files) (onTerminal : Bool) (m : Manner) (job : Job) : Ending :=
  match m.settings files with
  | .error e => .ofFailure [] (.config e)
  | .ok config =>
    let setting : Setting := { files, config, quiet := m.quiet, colored := m.color.isOn onTerminal }
    match (job.run setting).run.run { context := .fresh config.engine, printed := [] } with
    | (.ok code, desk) => ⟨code, desk.printed⟩
    | (.error f, desk) => .ofFailure desk.printed f

def usage : String :=
  "Usage: [SWITCHES] parse [--dump] [-f text|json] FILE...\n"
    ++ "       [SWITCHES] replay [-f text|json] PATH REVISION...\n"
    ++ "Switches: -q, --quiet; -v, --verbose; --color auto|always|never; --config FILE; -h, --help; -V, --version\n"

/-- What comes of a command line. -/
def run (files : Files) (onTerminal : Bool) (words : List String) : Ending :=
  match Request.ofWords? words with
  | none => ⟨2, [⟨.errors, usage⟩]⟩
  | some .help => ⟨0, [⟨.output, usage⟩]⟩
  | some .version => ⟨0, [⟨.output, "strata 0.1.0\n"⟩]⟩
  | some (.run manner job) => runJob files onTerminal manner job

end Command
end Palimpsest
