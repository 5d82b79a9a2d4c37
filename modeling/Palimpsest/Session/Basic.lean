import Palimpsest.Interner
import Palimpsest.Query.Fetch
import Palimpsest.Reconcile

/-!
The queries of a session: the text of a file, its tree, and the symbols that its modules declare. The
world that they work on is the forest with its places, and the ledger of names.
-/

namespace Palimpsest

/-- When results are dropped and nodes are freed. -/
structure Tuning where
  /-- Whether results of a revision stay for the next. -/
  keepOldResults : Bool
  /-- Garbage is collected before every so many advances; never, if zero. -/
  gcEvery : Nat
deriving DecidableEq, Repr

def Tuning.standard : Tuning := ⟨true, 1⟩

instance : Inhabited Tuning := ⟨.standard⟩

namespace Session

inductive Key where
  | fileText (path : String)
  | parse (path : String)
  | moduleSymbols (path : String)
deriving DecidableEq, Repr, Inhabited

namespace Key

def kind : Key → String
  | fileText _ => "file_text"
  | parse _ => "parse"
  | moduleSymbols _ => "module_symbols"

def isInput : Key → Bool
  | fileText _ => true
  | _ => false

def path : Key → String
  | fileText p | parse p | moduleSymbols p => p

/-- A key as messages name it: paths go by their numbers. -/
def label (names : Interner) (k : Key) : String :=
  let number := "(Ident(" ++ toString ((names.number? k.path).getD 0) ++ "))"
  match k with
  | fileText _ => "FileText" ++ number
  | parse _ => "Parse" ++ number
  | moduleSymbols _ => "ModuleSymbols" ++ number

end Key

/-- The tree of a file, by the roots of its modules, and what was reported. -/
structure ParsedFile where
  modules : List NodeId
  diagnostics : List Diagnostic
  /-- What was reused when this result was made. -/
  reuse : Reconcile.Stats
deriving DecidableEq, Repr, Inhabited

def ParsedFile.hasErrors (p : ParsedFile) : Bool := p.diagnostics.any Diagnostic.isError

/-- A module and the symbols that its own statements declare. -/
structure ModuleEntry where
  module_ : NodeId
  symbols : List NodeId
deriving DecidableEq, Repr, Inhabited

/-- The symbols of all modules in order. -/
def ModuleEntry.allSymbols (entries : List ModuleEntry) : List NodeId := entries.flatMap symbols

inductive Value where
  | text (t : SourceText)
  | parsed (p : ParsedFile)
  | symbols (entries : List ModuleEntry)
deriving DecidableEq, Inhabited

namespace Value

/-- The nodes a value refers to. -/
def roots : Value → List NodeId
  | text _ => []
  | parsed p => p.modules
  | symbols entries => entries.flatMap fun e => e.module_ :: e.symbols

/-- Whether readers can tell the values apart; how a tree came about does not count. -/
def same : Value → Value → Bool
  | text a, text b => a == b
  | parsed a, parsed b => a.modules == b.modules && a.diagnostics == b.diagnostics
  | symbols a, symbols b => a == b
  | _, _ => false

end Value

structure World where
  names : Interner
  forest : Forest
  locations : Locations

instance : Inhabited World := ⟨⟨.empty, .empty, .empty⟩⟩

/-- Why a body gives up. -/
inductive BodyFault where
  | freed (node : FreedNode)
  | misnumbered (draft : Nat)
  /-- A query gave a value of another query's kind. -/
  | wrongKind
deriving DecidableEq, Repr, Inhabited

end Session
end Palimpsest
