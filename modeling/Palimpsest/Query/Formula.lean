import Palimpsest.Query.Fetch

/-!
A small family of queries over numbers: each derived query is a formula over others, named by name. A
name without a formula is an input. Besides arithmetic there are formulas that meddle with the table
while they run, all of which are refused.
-/

namespace Palimpsest
namespace Query

inductive Operation where
  | sum
  | max
  | rem
  | cond
  | const
  | bump
  | peek
  | advance
  | sweep
  | set
  | executing
deriving DecidableEq, Repr, Inhabited

def Operation.name : Operation → String
  | sum => "sum"
  | max => "max"
  | rem => "rem"
  | cond => "cond"
  | const => "const"
  | bump => "bump"
  | peek => "peek"
  | advance => "advance"
  | sweep => "sweep"
  | set => "set"
  | executing => "executing"

/-- An operation on named arguments, with a constant of its own. -/
structure Formula where
  operation : Operation
  args : List String
  k : Int64
deriving DecidableEq, Repr, Inhabited

/-- Why a formula has no value. -/
inductive Undefined where
  | missingArgument
  | division
deriving DecidableEq, Repr, Inhabited

abbrev Formula.Step := Script String Int64 Unit Undefined

namespace Formula

/-- Goes on with an argument by its place. -/
def withArg (f : Formula) (i : Nat) (next : String → Step) : Step :=
  match f.args[i]? with
  | some name => next name
  | none => .fail .missingArgument

/-- The remainder that is not negative; there is none where the quotient has no word. -/
def remainder? (a k : Int64) : Option Int64 :=
  if k = 0 ∨ (a = Int64.minValue ∧ k = -1) then none else some (Int64.ofInt (a.toInt % k.toInt))

def body (f : Formula) (old : Option Int64) : Step :=
  match f.operation with
  | .sum => .readAll f.args fun vs => .yield (vs.foldl (· + ·) f.k)
  | .max => .readAll f.args fun vs => .yield (vs.foldl Max.max f.k)
  | .rem => f.withArg 0 fun a => .read a fun v =>
    match remainder? v f.k with
    | some r => .yield r
    | none => .fail .division
  | .cond => f.withArg 0 fun a => .read a fun v => f.withArg (if v = 0 then 2 else 1) fun b => .read b .yield
  | .const => .yield f.k
  | .bump => .readAll f.args fun _ => .yield ((old.map (· + 1)).getD f.k)
  | .peek => f.withArg 0 fun a => .peek a fun v => .yield (v.getD f.k)
  | .advance => .advance true (.yield f.k)
  | .sweep => .sweep fun dropped => .yield (Int64.ofNat dropped.length)
  | .set => f.withArg 0 fun a => .set a f.k (.yield f.k)
  | .executing => .running fun b => .yield (if b then 1 else 0)

end Formula

/-- The formulas by name. -/
abbrev FormulaBook := List (String × Formula)

namespace FormulaBook

def kind (book : FormulaBook) (name : String) : String :=
  match book.lookup name with
  | some f => f.operation.name
  | none => "input"

def label (book : FormulaBook) (name : String) : String := book.kind name ++ ":" ++ name

def rules (book : FormulaBook) : Rules String Int64 Unit Undefined where
  isInput name := (book.lookup name).isNone
  kind := book.kind
  same a b := a == b
  body name old :=
    match book.lookup name with
    | some f => f.body old
    | none => .fail .missingArgument

/-- A depth of nesting that no query of the book exceeds: between two queries that run, each query is
verified once at most. -/
def depth (book : FormulaBook) : Nat := (book.length + 2) * (book.length + 2)

end FormulaBook
end Query
end Palimpsest
