import Palimpsest.Surface.Basic

/-!
The kinds of node of a program tree. A kind is generic in what refers to a child: a handle, an index of
a draft, or a pair of the two. Children come in the order of the fields.
-/

namespace Palimpsest

inductive NodeTag where
  | moduleDecl
  | module_
  | comment
  | identifier
  | intLiteral
  | stringLiteral
  | block
  | variableDecl
  | variable_
  | functionDecl
  | function
  | formal
  | foreignBlock
  | erroneous
deriving DecidableEq, Repr, Inhabited

namespace NodeTag

def number : NodeTag → Nat
  | moduleDecl => 0
  | module_ => 1
  | comment => 2
  | identifier => 3
  | intLiteral => 4
  | stringLiteral => 5
  | block => 6
  | variableDecl => 7
  | variable_ => 8
  | functionDecl => 9
  | function => 10
  | formal => 11
  | foreignBlock => 12
  | erroneous => 13

def name : NodeTag → String
  | moduleDecl => "ModuleDecl"
  | module_ => "Module"
  | comment => "Comment"
  | identifier => "Identifier"
  | intLiteral => "IntLiteral"
  | stringLiteral => "StringLiteral"
  | block => "Block"
  | variableDecl => "VariableDecl"
  | variable_ => "Variable"
  | functionDecl => "FunctionDecl"
  | function => "Function"
  | formal => "Formal"
  | foreignBlock => "ExternBlock"
  | erroneous => "Erroneous"

/-- Whether nodes with this tag are symbols: they have a name of their own. -/
def isSymbol : NodeTag → Bool
  | module_ | variable_ | function | formal => true
  | _ => false

end NodeTag

/-- A node's own fields, with children of type `C`. A declaration wraps the symbol it declares. -/
inductive NodeKind (C : Type) where
  | moduleDecl (visibility : Visibility) (symbol : C)
  | module_ (name : String) (stmts : List C)
  | comment (text : String)
  | identifier (name : String)
  | intLiteral (value : UInt64)
  | stringLiteral (value : String)
  | block (stmts : List C)
  | variableDecl (visibility : Visibility) (symbol : C)
  | variable_ (name : String) (kind : VariableKind) (init : Option C)
  | functionDecl (visibility : Visibility) (symbol : C)
  | function (name : String) (formals : List C) (body : C)
  | formal (name : String) (intent : Intent)
  | foreignBlock (code : String)
  | erroneous
deriving DecidableEq, Repr, Inhabited

namespace NodeKind

variable {C D : Type}

def tag : NodeKind C → NodeTag
  | moduleDecl .. => .moduleDecl
  | module_ .. => .module_
  | comment _ => .comment
  | identifier _ => .identifier
  | intLiteral _ => .intLiteral
  | stringLiteral _ => .stringLiteral
  | block _ => .block
  | variableDecl .. => .variableDecl
  | variable_ .. => .variable_
  | functionDecl .. => .functionDecl
  | function .. => .function
  | formal .. => .formal
  | foreignBlock _ => .foreignBlock
  | erroneous => .erroneous

def children : NodeKind C → List C
  | moduleDecl _ c | variableDecl _ c | functionDecl _ c => [c]
  | module_ _ stmts | block stmts => stmts
  | variable_ _ _ init => init.toList
  | function _ formals body => formals ++ [body]
  | comment _ | identifier _ | intLiteral _ | stringLiteral _ | formal .. | foreignBlock _
  | erroneous => []

/-- Goes to each child in turn. -/
def forM {m : Type → Type} [Monad m] (visit : C → m Unit) : NodeKind C → m Unit
  | moduleDecl _ c | variableDecl _ c | functionDecl _ c => visit c
  | module_ _ stmts | block stmts => stmts.forM visit
  | variable_ _ _ none => return ()
  | variable_ _ _ (some c) => visit c
  | function _ formals body => do
    formals.forM visit
    visit body
  | comment _ | identifier _ | intLiteral _ | stringLiteral _ | formal .. | foreignBlock _
  | erroneous => return ()

/-- The same node over new children, each made from an old one, in order. -/
def traverse {m : Type → Type} [Monad m] (f : C → m D) : NodeKind C → m (NodeKind D)
  | moduleDecl v c => return moduleDecl v (← f c)
  | module_ name stmts => return module_ name (← stmts.mapM f)
  | comment text => return comment text
  | identifier name => return identifier name
  | intLiteral value => return intLiteral value
  | stringLiteral value => return stringLiteral value
  | block stmts => return block (← stmts.mapM f)
  | variableDecl v c => return variableDecl v (← f c)
  | variable_ name kind none => return variable_ name kind none
  | variable_ name kind (some c) => return variable_ name kind (some (← f c))
  | functionDecl v c => return functionDecl v (← f c)
  | function name formals body => do
    let formals ← formals.mapM f
    return function name formals (← f body)
  | formal name intent => return formal name intent
  | foreignBlock code => return foreignBlock code
  | erroneous => return erroneous

def map (f : C → D) : NodeKind C → NodeKind D
  | moduleDecl v c => moduleDecl v (f c)
  | module_ name stmts => module_ name (stmts.map f)
  | comment text => comment text
  | identifier name => identifier name
  | intLiteral value => intLiteral value
  | stringLiteral value => stringLiteral value
  | block stmts => block (stmts.map f)
  | variableDecl v c => variableDecl v (f c)
  | variable_ name kind init => variable_ name kind (init.map f)
  | functionDecl v c => functionDecl v (f c)
  | function name formals body => function name (formals.map f) (f body)
  | formal name intent => formal name intent
  | foreignBlock code => foreignBlock code
  | erroneous => erroneous

/-- The items of `new`, each with the item of `old` at the same index, if there is one. -/
def alignLists : List C → List D → List (C × Option D)
  | [], _ => []
  | c :: cs, [] => (c, none) :: alignLists cs []
  | c :: cs, d :: ds => (c, some d) :: alignLists cs ds

/-- Each child with the child in the same field, at the same index, of an old node with the same tag. -/
def align : NodeKind C → Option (NodeKind D) → NodeKind (C × Option D)
  | moduleDecl v c, some (moduleDecl _ d) => moduleDecl v (c, some d)
  | variableDecl v c, some (variableDecl _ d) => variableDecl v (c, some d)
  | functionDecl v c, some (functionDecl _ d) => functionDecl v (c, some d)
  | module_ name cs, some (module_ _ ds) => module_ name (alignLists cs ds)
  | block cs, some (block ds) => block (alignLists cs ds)
  | variable_ name kind init, some (variable_ _ _ old) => variable_ name kind (init.map fun c => (c, old))
  | function name cs body, some (function _ ds old) => function name (alignLists cs ds) (body, some old)
  | k, _ => k.map fun c => (c, none)

def symbolName? : NodeKind C → Option String
  | module_ name _ | variable_ name _ _ | function name _ _ | formal name _ => some name
  | _ => none

/-- Whether the names inside are in the scope of this symbol. -/
def opensScope : NodeKind C → Bool
  | module_ .. | function .. => true
  | _ => false

def declared? : NodeKind C → Option C
  | moduleDecl _ c | variableDecl _ c | functionDecl _ c => some c
  | _ => none

def stmts? : NodeKind C → Option (List C)
  | module_ _ stmts | block stmts => some stmts
  | _ => none

end NodeKind
end Palimpsest
