import Palimpsest.Node.Fingerprint
import Palimpsest.Node.SymbolKey

/-!
Drafts: a tree that has its content and its fingerprints, but no identities yet. Drafts are numbered in
the order in which they are made, children before parents. In the drafts of a parsed file a declaration becomes
two drafts, one that holds its visibility and below it the symbol. A file of modules has one root per module; any
other file is the body of one module, which is named by the caller.
-/

namespace Palimpsest

structure Draft where
  kind : NodeKind Nat
  fingerprint : ContentHash
  span : Span
  /-- The number of drafts of the subtree. -/
  size : Nat
deriving DecidableEq, Repr, Inhabited

/-- Drafts by number, and the numbers of the roots. -/
structure DraftTree where
  drafts : Array Draft
  roots : List Nat
deriving DecidableEq, Repr, Inhabited

namespace DraftTree

/-- An absent draft reads as a leaf. -/
def kindOf (t : DraftTree) (i : Nat) : NodeKind Nat := ((t.drafts[i]?).map Draft.kind).getD .erroneous

def sizeOf (t : DraftTree) (i : Nat) : Nat := ((t.drafts[i]?).map Draft.size).getD 1

def view (t : DraftTree) : TreeView Id Nat := ⟨t.kindOf, t.sizeOf⟩

end DraftTree

namespace Draft

/-- Making drafts: each step appends, and nothing made is ever changed. -/
abbrev Make := StateM (Array Draft)

/-- The number of a new draft over drafts that are there. -/
def make (kind : NodeKind Nat) (span : Span) : Make Nat := fun drafts =>
  let childPrint (i : Nat) : ContentHash := ((drafts[i]?).map Draft.fingerprint).getD default
  let childSize (i : Nat) : Nat := ((drafts[i]?).map Draft.size).getD 0
  let fingerprint := (kind.map childPrint).fingerprint
  let size := 1 + (kind.children.map childSize).foldr (· + ·) 0
  (drafts.size, drafts.push { kind, fingerprint, span, size })

open Surface

def ofExpr : Expr → Make Nat
  | .identifier name span => make (.identifier name) span
  | .int value span => make (.intLiteral value) span
  | .str value span => make (.stringLiteral value) span
  | .bad span => make .erroneous span

def ofInit : Option Expr → Make (Option Nat)
  | none => return none
  | some e => return some (← ofExpr e)

def ofFormal (f : Formal) : Make Nat := make (.formal f.name f.intent) f.span

mutual

def ofStmt : Stmt → Make Nat
  | .comment text span => make (.comment text) span
  | .moduleDecl visibility name body span => do
    let stmts ← ofStmts body
    let symbol ← make (.module_ name stmts) span
    make (.moduleDecl visibility symbol) span
  | .procDecl visibility name formals body bodySpan span => do
    let formals ← formals.mapM ofFormal
    let stmts ← ofStmts body
    let block ← make (.block stmts) bodySpan
    let symbol ← make (.function name formals block) span
    make (.functionDecl visibility symbol) span
  | .varDecl visibility kind name init span => do
    let init ← ofInit init
    let symbol ← make (.variable_ name kind init) span
    make (.variableDecl visibility symbol) span
  | .block body span => do
    let stmts ← ofStmts body
    make (.block stmts) span
  | .foreign code span => make (.foreignBlock code) span
  | .expr e _ => ofExpr e
  | .bad span => make .erroneous span

def ofStmts : List Stmt → Make (List Nat)
  | [] => return []
  | s :: rest => do
    let first ← ofStmt s
    return first :: (← ofStmts rest)

end

def isModule : Stmt → Bool
  | .moduleDecl .. => true
  | _ => false

/-- The roots of a file. -/
def ofFile (f : File) (implicitName : String) : Make (List Nat) := do
  if f.onlyModules then ofStmts (f.stmts.filter isModule)
  else
    let stmts ← ofStmts f.stmts
    let symbol ← make (.module_ implicitName stmts) f.span
    return [← make (.moduleDecl .plain symbol) f.span]

end Draft

/-- The drafts of a file, whose module is called `implicitName` unless it declares modules. -/
def DraftTree.ofFile (f : Surface.File) (implicitName : String) : DraftTree :=
  let (roots, drafts) := (Draft.ofFile f implicitName).run #[]
  { drafts, roots }

end Palimpsest
