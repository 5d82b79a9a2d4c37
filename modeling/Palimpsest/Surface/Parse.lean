import Palimpsest.Surface.Basic

/-!
Parsing steps: from a place among the tokens to a value, the reports made, and a later place. A step
never gives a token back (`Step.le`), which is what ends every loop over steps.
-/

namespace Palimpsest
namespace Surface

/-- A place among the tokens: those still to come, and where the last one consumed ended. -/
structure Cursor where
  tokens : List Token
  final : Token
  prevStop : Nat
deriving DecidableEq, Repr, Inhabited

namespace Cursor

def ofStream (t : TokenStream) : Cursor := ⟨t.tokens, t.final, 0⟩

/-- The next token; at the end that is the end-of-file token. -/
def current (c : Cursor) : Token := c.tokens.headD c.final

def kind (c : Cursor) : TokenKind := c.current.kind

/-- The kind of the token after the next. -/
def followingKind (c : Cursor) : TokenKind :=
  match c.tokens with
  | _ :: t :: _ => t.kind
  | _ => .endOfFile

/-- The end-of-file token is never consumed. -/
def advance (c : Cursor) : Cursor :=
  match c.tokens with
  | [] => c
  | t :: ts => { c with tokens := ts, prevStop := t.span.stop }

/-- The same place with the comments before the next token taken away. -/
def dropLeading (c : Cursor) : Cursor :=
  match c.tokens with
  | [] => { c with final := { c.final with leading := [] } }
  | t :: ts => { c with tokens := { t with leading := [] } :: ts }

/-- From `start` to the end of the last token consumed. -/
def spanFrom (c : Cursor) (start : Span) : Span := ⟨start.start, max c.prevStop start.start⟩

/-- Past the next semicolon, or up to a closing brace or the end. -/
def skipStatement (final : Token) : List Token → Nat → Cursor
  | [], p => ⟨[], final, p⟩
  | t :: ts, p =>
    if t.kind = .rightBrace then ⟨t :: ts, final, p⟩
    else if t.kind = .semicolon then ⟨ts, final, t.span.stop⟩
    else skipStatement final ts t.span.stop

/-- Past the brace that closes the outermost of `level` open ones, or to the end. -/
def skipBraced (final : Token) : Nat → List Token → Nat → Cursor
  | _, [], p => ⟨[], final, p⟩
  | level, t :: ts, _ =>
    let level :=
      match t.kind with
      | .leftBrace => level + 1
      | .rightBrace => level - 1
      | _ => level
    if level = 0 then ⟨ts, final, t.span.stop⟩ else skipBraced final level ts t.span.stop

theorem length_advance_le (c : Cursor) : c.advance.tokens.length ≤ c.tokens.length := by
  unfold advance; split <;> simp_all

theorem length_advance_lt {c : Cursor} (h : c.tokens ≠ []) :
    c.advance.tokens.length < c.tokens.length := by
  unfold advance; split <;> simp_all

theorem length_dropLeading (c : Cursor) : c.dropLeading.tokens.length = c.tokens.length := by
  unfold dropLeading; split <;> simp_all

theorem length_skipStatement_le (final : Token) (ts : List Token) (p : Nat) :
    (skipStatement final ts p).tokens.length ≤ ts.length := by
  fun_induction skipStatement final ts p with
  | case1 | case2 | case3 => simp
  | case4 p t ts _ _ ih => simp only [List.length_cons]; omega

theorem length_skipBraced_le (final : Token) (level : Nat) (ts : List Token) (p : Nat) :
    (skipBraced final level ts p).tokens.length ≤ ts.length := by
  fun_induction skipBraced final level ts p with
  | case1 | case2 => simp
  | case3 _ _ _ _ _ _ ih => simp only [List.length_cons]; omega

end Cursor

/-- What a step from `c` yields. -/
structure Step (c : Cursor) (α : Type) where
  value : α
  reports : List Diagnostic
  next : Cursor
  le : next.tokens.length ≤ c.tokens.length

def Parse (α : Type) : Type := (c : Cursor) → Step c α

namespace Parse

instance : Monad Parse where
  pure a := fun c => ⟨a, [], c, Nat.le_refl _⟩
  bind p f := fun c =>
    let s := p c
    let t := f s.value s.next
    ⟨t.value, s.reports ++ t.reports, t.next, Nat.le_trans t.le s.le⟩

def cursor : Parse Cursor := fun c => ⟨c, [], c, Nat.le_refl _⟩

def report (d : Diagnostic) : Parse Unit := fun c => ⟨(), [d], c, Nat.le_refl _⟩

def advance : Parse Unit := fun c => ⟨(), [], c.advance, c.length_advance_le⟩

def skipStatement : Parse Unit := fun c =>
  ⟨(), [], Cursor.skipStatement c.final c.tokens c.prevStop, Cursor.length_skipStatement_le ..⟩

def skipBraced : Parse Unit := fun c =>
  ⟨(), [], Cursor.skipBraced c.final 0 c.tokens c.prevStop, Cursor.length_skipBraced_le ..⟩

def kind : Parse TokenKind := return (← cursor).kind

def token : Parse Token := return (← cursor).current

def spanFrom (start : Span) : Parse Span := return (← cursor).spanFrom start

/-- Reports that the next token is not what was wanted. -/
def expected (what : String) : Parse Unit := do
  let t ← token
  report (.error .unexpectedToken ("expected " ++ what ++ ", found " ++ t.kind.describe) t.span)

/-- Consumes the next token if it is of kind `k`. -/
def eat (k : TokenKind) : Parse Bool := do
  if (← kind) = k then
    advance
    return true
  else return false

def expect (k : TokenKind) : Parse Bool := do
  if ← eat k then return true
  else
    expected k.describe
    return false

/-- A name; where there is none, one is made up and nothing consumed. -/
def name : Parse String := do
  let t ← token
  if t.kind = .identifier then
    advance
    return t.text
  else
    expected "identifier"
    return missingName

def semicolon : Parse Unit := do
  if (← kind) = .semicolon then advance
  else
    expected "';'"
    skipStatement

end Parse
end Surface
end Palimpsest
