import Palimpsest.Token.Stream

/-!
Parsed files. Every construct carries the span it was read from; what could not be understood stands in
the tree as `bad`. A name that was missing is written `missingName`.
-/

namespace Palimpsest

/-- Declared visibility of a module, a procedure or a variable. -/
inductive Visibility where
  | plain
  | pub
  | priv
deriving DecidableEq, Repr, Inhabited

namespace Visibility

def tag : Visibility → Nat
  | plain => 0
  | pub => 1
  | priv => 2

/-- The word that declares it; there is none for plain visibility. -/
def keyword : Visibility → String
  | plain => ""
  | pub => "public"
  | priv => "private"

end Visibility

/-- How a variable is declared. -/
inductive VariableKind where
  | var
  | const
  | constRef
  | ref
  | param
  | type
deriving DecidableEq, Repr, Inhabited

namespace VariableKind

def tag : VariableKind → Nat
  | var => 0
  | const => 1
  | constRef => 2
  | ref => 3
  | param => 4
  | type => 5

def display : VariableKind → String
  | var => "var"
  | const => "const"
  | constRef => "const ref"
  | ref => "ref"
  | param => "param"
  | type => "type"

end VariableKind

/-- How a formal parameter passes its argument. -/
inductive Intent where
  | plain
  | const
  | constRef
  | constIn
  | ref
  | param
  | type
  | input
  | output
  | inout
deriving DecidableEq, Repr, Inhabited

namespace Intent

def tag : Intent → Nat
  | plain => 0
  | const => 1
  | constRef => 2
  | constIn => 3
  | ref => 4
  | param => 5
  | type => 6
  | input => 7
  | output => 8
  | inout => 9

def display : Intent → String
  | plain => "default"
  | const => "const"
  | constRef => "const ref"
  | constIn => "const in"
  | ref => "ref"
  | param => "param"
  | type => "type"
  | input => "in"
  | output => "out"
  | inout => "inout"

end Intent

namespace Surface

inductive Expr where
  | identifier (name : String) (span : Span)
  | int (value : UInt64) (span : Span)
  | str (value : String) (span : Span)
  | bad (span : Span)
deriving DecidableEq, Repr, Inhabited

def Expr.span : Expr → Span
  | identifier _ s | int _ s | str _ s | bad s => s

/-- A formal parameter. -/
structure Formal where
  intent : Intent
  name : String
  span : Span
deriving DecidableEq, Repr, Inhabited

inductive Stmt where
  | comment (text : String) (span : Span)
  | moduleDecl (visibility : Visibility) (name : String) (body : List Stmt) (span : Span)
  | procDecl (visibility : Visibility) (name : String) (formals : List Formal) (body : List Stmt)
      (bodySpan : Span) (span : Span)
  | varDecl (visibility : Visibility) (kind : VariableKind) (name : String) (init : Option Expr)
      (span : Span)
  | block (body : List Stmt) (span : Span)
  | foreign (code : String) (span : Span)
  | expr (e : Expr) (span : Span)
  | bad (span : Span)
deriving Repr, Inhabited

def Stmt.span : Stmt → Span
  | comment _ s | moduleDecl _ _ _ s | procDecl _ _ _ _ _ s | varDecl _ _ _ _ s | block _ s
  | foreign _ s | expr _ s | bad s => s

def Stmt.ofComment (c : Comment) : Stmt := .comment c.text c.span

/-- The statements of a text, which covers `span`. -/
structure File where
  stmts : List Stmt
  span : Span
deriving Repr, Inhabited

/-- At least one module and nothing else but comments. -/
def File.onlyModules (f : File) : Bool :=
  f.stmts.any (fun | .moduleDecl .. => true | _ => false) &&
    f.stmts.all (fun | .moduleDecl .. | .comment .. => true | _ => false)

/-- Stands for a name that is not there. -/
def missingName : String := "<missing>"

def Expr.names : Expr → List String
  | identifier name _ => [name]
  | _ => []

mutual

/-- The names of a statement in the order in which they are read. -/
def Stmt.names : Stmt → List String
  | .moduleDecl _ name body _ => name :: namesOfList body
  | .procDecl _ name formals body _ _ => name :: (formals.map Formal.name ++ namesOfList body)
  | .varDecl _ _ name init _ => name :: (init.map Expr.names).getD []
  | .block body _ => namesOfList body
  | .expr e _ => e.names
  | .comment .. | .foreign .. | .bad _ => []

def namesOfList : List Stmt → List String
  | [] => []
  | s :: rest => s.names ++ namesOfList rest

end

def File.names (f : File) : List String := namesOfList f.stmts

end Surface
end Palimpsest
