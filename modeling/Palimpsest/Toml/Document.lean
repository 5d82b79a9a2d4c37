import Palimpsest.Toml.Scalar
import Palimpsest.Toml.Text

/-!
Reading a document: lines that open a table or give a key its value, with comments between them. Values
nest to a fixed depth.
-/

namespace Palimpsest
namespace Toml

/-- A reader takes characters off the front, or refuses. -/
abbrev Reader := StateT (List Char) Option

namespace Reader

def refuse {α : Type} : Reader α := fun _ => none

def peek : Reader (Option Char) := return (← get).head?

def remaining : Reader Nat := return (← get).length

def skip (n : Nat) : Reader Unit := modify (·.drop n)

def expect (c : Char) : Reader Unit := do
  if (← peek) = some c then skip 1 else refuse

def takeWhile (p : Char → Bool) : Reader (List Char) := do
  let cs ← get
  set (cs.dropWhile p)
  return cs.takeWhile p

def blanks : Reader Unit := do
  let _ ← takeWhile Text.isIndent

def ofResult (f : List Char → Text.Result) : Reader String := fun cs =>
  (f cs).map fun (s, rest) => (String.ofList s, rest)

/-- A comment, if there is one. -/
def comment : Reader Unit := do
  if (← peek) = some '#' then
    let _ ← takeWhile Text.isPlain

/-- A newline, if there is one. -/
def newline : Reader Bool := do
  match Text.afterNewline? (← get) with
  | some rest =>
    set rest
    return true
  | none => return false

/-- The end of a line: nothing but blanks and a comment. -/
def lineEnd : Reader Unit := do
  blanks
  comment
  if (← remaining) = 0 then return ()
  if !(← newline) then refuse

/-- Blanks, newlines and comments. -/
def gaps : (steps : Nat) → Reader Unit
  | 0 => return ()
  | n + 1 => do
    blanks
    comment
    if ← newline then gaps n

def isBare (c : Char) : Bool := c.isAlphanum || c == '_' || c == '-'

def simpleKey : Reader String := do
  match ← peek with
  | some '"' | some '\'' => ofResult Text.line?
  | _ =>
    let cs ← takeWhile isBare
    if cs.isEmpty then refuse else return String.ofList cs

/-- The parts of a dotted key. -/
def keyParts : (steps : Nat) → Reader (List String)
  | 0 => refuse
  | n + 1 => do
    blanks
    let first ← simpleKey
    blanks
    if (← peek) = some '.' then
      skip 1
      return first :: (← keyParts n)
    else return [first]

/-- How deep values may nest, and how many parts a key may have. -/
def nestingLimit : Nat := 79

/-- A dotted key: the way to the table, and the name in it. -/
def key : Reader (List String × String) := do
  let parts ← keyParts nestingLimit
  match parts.getLast? with
  | some last => return (parts.dropLast, last)
  | none => refuse

def isScalarPart (c : Char) : Bool := c.isAlphanum || c == '_' || c == '+' || c == '-' || c == '.' || c == ':'

/-- A number, a truth value or a date. A blank may stand between a day and its time. -/
def scalar : Reader Value := do
  let front ← takeWhile isScalarPart
  let cs ← match ← get with
    | ' ' :: a :: b :: ':' :: _ =>
      if Scalar.isDate front ∧ a.isDigit ∧ b.isDigit then
        skip 1
        pure (front ++ ' ' :: (← takeWhile isScalarPart))
      else pure front
    | _ => pure front
  match Scalar.ofChars? cs with
  | some v => return v
  | none => refuse

/-- The items of an array after its bracket. -/
def items (item : Reader Value) : (steps : Nat) → Reader (List Value)
  | 0 => refuse
  | n + 1 => do
    gaps (← remaining)
    if (← peek) = some ']' then
      skip 1
      return []
    let first ← item
    gaps (← remaining)
    match ← peek with
    | some ',' =>
      skip 1
      return first :: (← items item n)
    | some ']' =>
      skip 1
      return [first]
    | _ => refuse

def inlineMember (item : Reader Value) (m : Members) : Reader Members := do
  let (path, last) ← key
  expect '='
  blanks
  let v ← item
  blanks
  match m.insert path last v with
  | some m => return m
  | none => refuse

/-- The members of an inline table after its first, up to the brace. -/
def inlineMembers (item : Reader Value) : (steps : Nat) → Members → Reader Members
  | 0, _ => refuse
  | n + 1, m => do
    let m ← inlineMember item m
    match ← peek with
    | some ',' =>
      skip 1
      inlineMembers item n m
    | some '\x7d' =>
      skip 1
      return m
    | _ => refuse

def inlineTable (item : Reader Value) : Reader Value := do
  skip 1
  blanks
  if (← peek) = some '\x7d' then
    skip 1
    return .table .inline []
  else return .table .inline (← inlineMembers item (← remaining) [])

/-- A value inside which `levels` more may nest. -/
def value : (levels : Nat) → Reader Value
  | 0 => do
    match ← peek with
    | some '"' | some '\'' => return .str (← ofResult Text.string?)
    | some '[' | some '\x7b' => refuse
    | _ => scalar
  | levels + 1 => do
    match ← peek with
    | some '"' | some '\'' => return .str (← ofResult Text.string?)
    | some '[' =>
      skip 1
      return .array (← items (value levels) (← remaining))
    | some '\x7b' => inlineTable (value levels)
    | _ => scalar

/-- A document so far: its tables, and the path of the one that is open. -/
structure Draft where
  members : Members
  path : List String
deriving Repr, Inhabited

def ofOption {α : Type} (x : Option α) : Reader α := fun cs => x.map (·, cs)

/-- A header, from its bracket. -/
def header (d : Draft) : Reader Draft := do
  skip 1
  let double := (← peek) = some '['
  if double then skip 1
  let (path, last) ← key
  expect ']'
  if double then expect ']'
  lineEnd
  let m ← ofOption (if double then d.members.openTables path last else d.members.openTable path last)
  return { members := m, path := path ++ [last] }

/-- A line that gives a key its value. -/
def assignment (d : Draft) : Reader Draft := do
  let (path, last) ← key
  expect '='
  blanks
  let v ← value nestingLimit
  lineEnd
  let m ← ofOption (Members.within false (fun _ m => m.insert path last v) d.path .header d.members)
  return { d with members := m }

/-- The lines of a document. -/
def lines : (steps : Nat) → Draft → Reader Draft
  | 0, d => return d
  | n + 1, d => do
    blanks
    match ← peek with
    | none => return d
    | some '#' =>
      lineEnd
      lines n d
    | some '[' => lines n (← header d)
    | some '\n' | some '\r' =>
      if ← newline then lines n d else refuse
    | some _ => lines n (← assignment d)

end Reader

/-- The members of a document; a byte order mark in front does not count. -/
def read? (text : String) : Option Members := do
  let cs := match text.toList with
    | '\ufeff' :: cs => cs
    | cs => cs
  let (d, rest) ← (Reader.lines (cs.length + 1) { members := [], path := [] }).run cs
  if rest.isEmpty then some d.members else none

end Toml
end Palimpsest
