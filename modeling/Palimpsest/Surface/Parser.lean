import Palimpsest.Surface.Parse

/-!
The parser. It takes any text: what does not fit is reported, skipped up to the end of the statement,
and leaves a `bad` statement or expression behind. Braces may be nested `maxNesting` deep; a region
beyond that is skipped whole. A comment becomes a statement of the list in which it stands, unless it
stands inside a statement.
-/

namespace Palimpsest
namespace Surface

/-- How many levels of braces are followed. -/
def maxNesting : Nat := 256

namespace Expr

/-- The digits of an integer literal and their base. -/
def numeral (literal : List Char) : List Char × Nat :=
  match literal with
  | '0' :: 'x' :: ds | '0' :: 'X' :: ds => (ds.filter (· != '_'), 16)
  | ds => (ds.filter (· != '_'), 10)

/-- The number written by digits in a base. -/
def valueOf (base : Nat) (digits : List Char) : Nat :=
  digits.foldl (fun n d => base * n + Quoted.hexValue d) 0

def ofInt (t : Token) : Parse Expr := do
  let (digits, base) := numeral t.text.toList
  if digits.isEmpty then
    Parse.report (.error .unexpectedToken "integer literal has no digits" t.span)
    return .bad t.span
  else
    let n := valueOf base digits
    if n < UInt64.size then return .int (UInt64.ofNat n) t.span
    else
      let message := "integer literal '" ++ t.text ++ "' does not fit in 64 bits"
      Parse.report (.error .integerOverflow message t.span)
      return .bad t.span

/-- The characters between the first and the last. -/
def inner (s : String) : List Char := (s.toList.drop 1).dropLast

def ofString (t : Token) : Parse Expr := do
  match Quoted.unescape (String.ofList (inner t.text)) with
  | .ok value =>
    if Quoted.containsNul value then
      Parse.report ((Diagnostic.warning .nulInString "string literal contains a NUL character" t.span).withNote
        "code that treats the value as a C string will truncate it")
    return .str value t.span
  | .error e =>
    let at_ := t.span.start + 1 + e.offset
    Parse.report (.error .invalidEscape e.fault.message ⟨at_, at_ + e.length⟩)
    return .bad t.span

def parse : Parse Expr := do
  let t ← Parse.token
  match t.kind with
  | .identifier =>
    Parse.advance
    return .identifier t.text t.span
  | .intLiteral =>
    Parse.advance
    ofInt t
  | .stringLiteral =>
    Parse.advance
    ofString t
  | _ =>
    Parse.expected "expression"
    return .bad t.span

end Expr

namespace Formal

def parseIntent : Parse Intent := do
  match ← Parse.kind with
  | .kwConst =>
    Parse.advance
    if ← Parse.eat .kwRef then return .constRef
    else if ← Parse.eat .kwIn then return .constIn
    else return .const
  | .kwRef =>
    Parse.advance
    return .ref
  | .kwParam =>
    Parse.advance
    return .param
  | .kwType =>
    Parse.advance
    return .type
  | .kwIn =>
    Parse.advance
    return .input
  | .kwOut =>
    Parse.advance
    return .output
  | .kwInout =>
    Parse.advance
    return .inout
  | _ => return .plain

def parse : Parse Formal := do
  let start := (← Parse.token).span
  let intent ← parseIntent
  let name ← Parse.name
  return { intent, name, span := ← Parse.spanFrom start }

/-- Formals up to the first that no comma follows. -/
def parseMany (c : Cursor) : Step c (List Formal) :=
  let s := parse c
  if h : s.next.kind = .comma ∧ s.next.tokens ≠ [] then
    have lt := Cursor.length_advance_lt h.2
    have lt' := Nat.lt_of_lt_of_le lt s.le
    let t := parseMany s.next.advance
    ⟨s.value :: t.value, s.reports ++ t.reports, t.next, Nat.le_trans t.le (Nat.le_of_lt lt')⟩
  else ⟨[s.value], s.reports, s.next, s.le⟩
termination_by c.tokens.length

theorem parseMany_of_comma {c : Cursor} (h : (parse c).next.kind = .comma ∧ (parse c).next.tokens ≠ []) :
    (parseMany c).value = (parse c).value :: (parseMany (parse c).next.advance).value ∧
      (parseMany c).reports = (parse c).reports ++ (parseMany (parse c).next.advance).reports ∧
      (parseMany c).next = (parseMany (parse c).next.advance).next := by
  have heq := (parseMany.eq_1 c).trans (dif_pos h)
  exact ⟨congrArg Step.value heq, congrArg Step.reports heq, congrArg Step.next heq⟩

theorem parseMany_of_last {c : Cursor} (h : ¬ ((parse c).next.kind = .comma ∧ (parse c).next.tokens ≠ [])) :
    (parseMany c).value = [(parse c).value] ∧ (parseMany c).reports = (parse c).reports ∧
      (parseMany c).next = (parse c).next := by
  have heq := (parseMany.eq_1 c).trans (dif_neg h)
  exact ⟨congrArg Step.value heq, congrArg Step.reports heq, congrArg Step.next heq⟩

/-- The parenthesised formals of a procedure. -/
def parseList : Parse (List Formal) := do
  if ← Parse.expect .leftParen then
    let formals ← if (← Parse.kind) = .rightParen then pure [] else parseMany
    let _ ← Parse.expect .rightParen
    return formals
  else return []

end Formal

namespace Stmt

def startsVariable : TokenKind → Bool
  | .kwVar | .kwConst | .kwRef | .kwParam | .kwType => true
  | _ => false

/-- The kind of variable, with the last of its words still to come. -/
def parseVariableKind : Parse VariableKind := do
  match ← Parse.kind with
  | .kwConst =>
    if (← Parse.cursor).followingKind = .kwRef then
      Parse.advance
      return .constRef
    else return .const
  | .kwRef => return .ref
  | .kwParam => return .param
  | .kwType => return .type
  | _ => return .var

def parseVariable (visibility : Visibility) (start : Span) : Parse Stmt := do
  let kind ← parseVariableKind
  Parse.advance
  let name ← Parse.name
  let init ← if ← Parse.eat .equals then some <$> Expr.parse else pure none
  Parse.semicolon
  return .varDecl visibility kind name init (← Parse.spanFrom start)

def parseForeign (start : Span) : Parse Stmt := do
  Parse.advance
  let t ← Parse.token
  match t.kind with
  | .foreignCode =>
    Parse.advance
    let _ ← Parse.eat .semicolon
    return .foreign (String.ofList (Expr.inner t.text)) (← Parse.spanFrom start)
  | .invalid =>
    Parse.advance
    return .bad (← Parse.spanFrom start)
  | _ =>
    Parse.expected "'\x7b'"
    Parse.skipStatement
    return .bad (← Parse.spanFrom start)

/-- Reports a region that is nested too deep and skips it. -/
def rejectNesting : Parse Span := do
  let opening := (← Parse.token).span
  let message := "braces nested more than " ++ toString maxNesting ++ " levels deep"
  Parse.report (.error .nestingTooDeep message opening)
  Parse.skipBraced
  Parse.spanFrom opening

/-- A braced list, from its opening brace. `body?` reads the statements, and is absent where another
level would be one too many. -/
def parseBraced (body? : Option (Parse (List Stmt))) : Parse (List Stmt) := do
  match body? with
  | none => return [.bad (← rejectNesting)]
  | some body =>
    let opening := (← Parse.token).span
    Parse.advance
    let stmts ← body
    if ← Parse.eat .rightBrace then return stmts
    else
      let t ← Parse.token
      let message := "expected '\x7d', found " ++ t.kind.describe
      Parse.report ((Diagnostic.error .unexpectedToken message t.span).withLabel opening "block opened here")
      return stmts

def parseModule (body? : Option (Parse (List Stmt))) (visibility : Visibility) (start : Span) :
    Parse Stmt := do
  Parse.advance
  let name ← Parse.name
  if (← Parse.kind) = .leftBrace then
    let body ← parseBraced body?
    return .moduleDecl visibility name body (← Parse.spanFrom start)
  else
    Parse.expected "'\x7b'"
    Parse.skipStatement
    return .moduleDecl visibility name [] (← Parse.spanFrom start)

def parseProc (body? : Option (Parse (List Stmt))) (visibility : Visibility) (start : Span) :
    Parse Stmt := do
  Parse.advance
  let name ← Parse.name
  let formals ← Formal.parseList
  let t ← Parse.token
  if t.kind = .leftBrace then
    let body ← parseBraced body?
    let bodySpan ← Parse.spanFrom t.span
    return .procDecl visibility name formals body bodySpan (← Parse.spanFrom start)
  else
    Parse.expected "procedure body"
    Parse.skipStatement
    let stop := (← Parse.cursor).prevStop
    return .procDecl visibility name formals [] ⟨stop, stop⟩ (← Parse.spanFrom start)

def parseVisibility : Parse Visibility := do
  match ← Parse.kind with
  | .kwPublic =>
    Parse.advance
    return .pub
  | .kwPrivate =>
    Parse.advance
    return .priv
  | _ => return .plain

/-- A statement that starts with no visibility and is no declaration. -/
def parsePlain (body? : Option (Parse (List Stmt))) (start : Span) : Parse Stmt := do
  match ← Parse.kind with
  | .leftBrace =>
    if body?.isNone then return .bad (← rejectNesting)
    else
      let body ← parseBraced body?
      return .block body (← Parse.spanFrom start)
  | .kwForeign => parseForeign start
  | .identifier | .intLiteral | .stringLiteral =>
    let e ← Expr.parse
    Parse.semicolon
    return .expr e (← Parse.spanFrom start)
  | .rightBrace =>
    Parse.report (.error .unexpectedToken "unmatched '\x7d'" start)
    Parse.advance
    return .bad start
  | .semicolon =>
    Parse.report (.error .unexpectedToken "empty statement" start)
    Parse.advance
    return .bad start
  | .invalid =>
    Parse.skipStatement
    return .bad (← Parse.spanFrom start)
  | _ =>
    Parse.expected "statement"
    Parse.advance
    Parse.skipStatement
    return .bad (← Parse.spanFrom start)

/-- One statement, whose braced lists `body?` reads. -/
def parseWith (body? : Option (Parse (List Stmt))) : Parse Stmt := do
  let start := (← Parse.token).span
  let visibility ← parseVisibility
  let kind ← Parse.kind
  if kind = .kwModule then parseModule body? visibility start
  else if kind = .kwProc then parseProc body? visibility start
  else if startsVariable kind then parseVariable visibility start
  else if visibility ≠ .plain then
    Parse.expected "'module', 'proc' or a variable declaration"
    Parse.skipStatement
    return .bad (← Parse.spanFrom start)
  else parsePlain body? start

/-- Whether a list ends here: at the end of the text, and a braced one also at a closing brace. -/
def atListEnd (braced : Bool) (c : Cursor) : Bool :=
  c.tokens.isEmpty || (braced && c.kind == .rightBrace)

/-- Where a list goes on after a statement: past one token at least. -/
def resume {α : Type} (c : Cursor) (s : Step c α) : Cursor :=
  if s.next.tokens.length < c.tokens.length then s.next else c.advance

theorem length_resume_lt {α : Type} {c : Cursor} (s : Step c α) (h : c.tokens ≠ []) :
    (resume c s).tokens.length < c.tokens.length := by
  unfold resume
  split
  · assumption
  · exact Cursor.length_advance_lt h

theorem tokens_ne_nil_of_not_atListEnd {braced : Bool} {c : Cursor} (h : ¬ atListEnd braced c) :
    c.tokens ≠ [] := by
  intro e
  simp [atListEnd, e] at h

/-- Statements, and the comments between them, to the end of the list. -/
def parseList (item : Parse Stmt) (braced : Bool) (c : Cursor) : Step c (List Stmt) :=
  let comments := c.current.leading.map ofComment
  if h : atListEnd braced c.dropLeading then
    ⟨comments, [], c.dropLeading, Nat.le_of_eq c.length_dropLeading⟩
  else
    let s := item c.dropLeading
    have lt : (resume c.dropLeading s).tokens.length < c.tokens.length :=
      Nat.lt_of_lt_of_eq (length_resume_lt s (tokens_ne_nil_of_not_atListEnd h)) c.length_dropLeading
    let t := parseList item braced (resume c.dropLeading s)
    ⟨comments ++ s.value :: t.value, s.reports ++ t.reports, t.next,
      Nat.le_trans t.le (Nat.le_of_lt lt)⟩
termination_by c.tokens.length

theorem parseList_of_end (item : Parse Stmt) {braced : Bool} {c : Cursor}
    (h : atListEnd braced c.dropLeading = true) :
    (parseList item braced c).value = c.current.leading.map ofComment ∧
      (parseList item braced c).reports = [] ∧ (parseList item braced c).next = c.dropLeading := by
  have heq := (parseList.eq_1 item braced c).trans (dif_pos h)
  exact ⟨congrArg Step.value heq, congrArg Step.reports heq, congrArg Step.next heq⟩

theorem parseList_of_more (item : Parse Stmt) {braced : Bool} {c : Cursor}
    (h : ¬ atListEnd braced c.dropLeading = true) :
    (parseList item braced c).value = c.current.leading.map ofComment ++ (item c.dropLeading).value ::
        (parseList item braced (resume c.dropLeading (item c.dropLeading))).value ∧
      (parseList item braced c).reports = (item c.dropLeading).reports ++
        (parseList item braced (resume c.dropLeading (item c.dropLeading))).reports ∧
      (parseList item braced c).next =
        (parseList item braced (resume c.dropLeading (item c.dropLeading))).next := by
  have heq := (parseList.eq_1 item braced c).trans (dif_neg h)
  exact ⟨congrArg Step.value heq, congrArg Step.reports heq, congrArg Step.next heq⟩

/-- A statement inside which `levels` more levels of braces are followed. -/
def parse : (levels : Nat) → Parse Stmt
  | 0 => parseWith none
  | levels + 1 => parseWith (some (parseList (parse levels) true))

end Stmt

/-- The statements of a token sequence and the reports of parsing. -/
def parseTokens (t : TokenStream) : List Stmt × List Diagnostic :=
  let s := Stmt.parseList (Stmt.parse maxNesting) false (Cursor.ofStream t)
  (s.value, s.reports)

/-- A parsed text: its tree and all reports, those of lexing first. -/
structure Parsed where
  file : File
  reports : List Diagnostic
deriving Repr, Inhabited

def parseText (text : String) : Parsed :=
  let stream := TokenStream.ofText text
  let (stmts, reports) := parseTokens stream
  { file := { stmts, span := ⟨0, text.utf8ByteSize⟩ }, reports := stream.reports ++ reports }

end Surface
end Palimpsest
