import Mathlib.Data.Nat.Digits.Defs
import Palimpsest.Surface.Parser

/-!
The grammar of statements over tokens without comments. A derivation is a phrase with one constructor for
each production, and the tokens that it derives are its frontier. No two phrases derive the same tokens.
-/

namespace Palimpsest

/-- A token as the grammar has it: by its kind, and by its text where that is left open. -/
structure Terminal where
  kind : TokenKind
  text : String
deriving DecidableEq

/-- The text of such a token is not fixed by its kind. -/
def TokenKind.isSpelled : TokenKind → Bool
  | .identifier | .intLiteral | .stringLiteral | .foreignCode => true
  | _ => false

/-- The kind is all that there is to such a token. -/
def TokenKind.isWord (kind : TokenKind) : Bool := !kind.isSpelled && kind != .endOfFile

def Terminal.word (kind : TokenKind) : Terminal := ⟨kind, ""⟩

def Token.terminal (t : Token) : Terminal := ⟨t.kind, if t.kind.isSpelled then t.text else ""⟩

open Terminal (word)

def Visibility.words : Visibility → List Terminal
  | plain => []
  | pub => [word .kwPublic]
  | priv => [word .kwPrivate]

/-- The first word of a variable declaration. -/
def VariableKind.lead : VariableKind → TokenKind
  | var => .kwVar
  | const | constRef => .kwConst
  | ref => .kwRef
  | param => .kwParam
  | type => .kwType

def VariableKind.words : VariableKind → List Terminal
  | constRef => [word .kwConst, word .kwRef]
  | kind => [word kind.lead]

theorem VariableKind.words_eq (kind : VariableKind) : ∃ rest, kind.words = word kind.lead :: rest := by
  cases kind with
  | var | const | constRef | ref | param | type => exact ⟨_, rfl⟩

def Intent.words : Intent → List Terminal
  | plain => []
  | const => [word .kwConst]
  | constRef => [word .kwConst, word .kwRef]
  | constIn => [word .kwConst, word .kwIn]
  | ref => [word .kwRef]
  | param => [word .kwParam]
  | type => [word .kwType]
  | input => [word .kwIn]
  | output => [word .kwOut]
  | inout => [word .kwInout]

namespace Surface

inductive ExprPhrase where
  | identifier (name : String)
  | int (literal : String)
  | str (literal : String)
deriving DecidableEq

structure FormalPhrase where
  intent : Intent
  name : String
deriving DecidableEq

inductive Phrase where
  | moduleDecl (visibility : Visibility) (name : String) (body : List Phrase)
  | procDecl (visibility : Visibility) (name : String) (formals : List FormalPhrase) (body : List Phrase)
  | varDecl (visibility : Visibility) (kind : VariableKind) (name : String) (init : Option ExprPhrase)
  | block (body : List Phrase)
  /-- Foreign code with its braces, and whether a semicolon follows. -/
  | foreign (text : String) (semicolon : Bool)
  | expr (e : ExprPhrase)

def ExprPhrase.terminal : ExprPhrase → Terminal
  | identifier name => ⟨.identifier, name⟩
  | int literal => ⟨.intLiteral, literal⟩
  | str literal => ⟨.stringLiteral, literal⟩

def FormalPhrase.frontier (f : FormalPhrase) : List Terminal := f.intent.words ++ [⟨.identifier, f.name⟩]

/-- Formals with commas between them. -/
def FormalPhrase.frontiers : List FormalPhrase → List Terminal
  | [] => []
  | [f] => f.frontier
  | f :: rest => f.frontier ++ word .comma :: frontiers rest

theorem FormalPhrase.frontiers_cons (f : FormalPhrase) (rest : List FormalPhrase) :
    frontiers (f :: rest) = f.frontier ++ (if rest = [] then [] else word .comma :: frontiers rest) := by
  cases rest with
  | nil => simp [frontiers]
  | cons g gs => simp [frontiers]

/-- What initializes a variable, if anything does. -/
def ExprPhrase.initializer : Option ExprPhrase → List Terminal
  | none => []
  | some e => [word .equals, e.terminal]

/-- The first terminal, or the end. -/
def first (w : List Terminal) : Terminal := w.headD (word .endOfFile)

def braced (body : List Terminal) : List Terminal := word .leftBrace :: (body ++ [word .rightBrace])

theorem braced_append (body w : List Terminal) :
    braced body ++ w = word .leftBrace :: (body ++ word .rightBrace :: w) := by simp [braced]

mutual

/-- The tokens that a phrase derives. -/
def Phrase.frontier : Phrase → List Terminal
  | .moduleDecl visibility name body =>
    visibility.words ++ word .kwModule :: ⟨.identifier, name⟩ :: braced (frontiers body)
  | .procDecl visibility name formals body =>
    visibility.words ++ word .kwProc :: ⟨.identifier, name⟩ :: word .leftParen ::
      (FormalPhrase.frontiers formals ++ word .rightParen :: braced (frontiers body))
  | .varDecl visibility kind name init =>
    visibility.words ++ kind.words ++ ⟨.identifier, name⟩ :: (ExprPhrase.initializer init ++ [word .semicolon])
  | .block body => braced (frontiers body)
  | .foreign text semicolon =>
    word .kwForeign :: ⟨.foreignCode, text⟩ :: if semicolon then [word .semicolon] else []
  | .expr e => [e.terminal, word .semicolon]

def frontiers : List Phrase → List Terminal
  | [] => []
  | p :: rest => p.frontier ++ frontiers rest

end

mutual

/-- How deep braces are nested in a phrase. -/
def Phrase.depth : Phrase → Nat
  | .moduleDecl _ _ body | .procDecl _ _ _ body | .block body => depths body + 1
  | .varDecl .. | .foreign .. | .expr .. => 0

def depths : List Phrase → Nat
  | [] => 0
  | p :: rest => max p.depth (depths rest)

end

/-- The phrases derive the tokens as a file. -/
structure Derives (phrases : List Phrase) (tokens : List Token) : Prop where
  frontier : frontiers phrases = tokens.map Token.terminal
  depth : depths phrases ≤ maxNesting

section Literals

/-- The body of a string literal, with what it stands for. -/
inductive Spells : List Char → List Char → Prop where
  | nil : Spells [] []
  | plain {c : Char} {body value : List Char} (hc : c ≠ '\\') (h : Spells body value) :
      Spells (c :: body) (c :: value)
  | escape {e c : Char} {body value : List Char} (he : Quoted.simpleEscape? e = some c) (h : Spells body value) :
      Spells ('\\' :: e :: body) (c :: value)
  | hex {a b : Char} {body value : List Char} (ha : Quoted.isHexDigit a = true) (hb : Quoted.isHexDigit b = true)
      (h : Spells body value) :
      Spells ('\\' :: 'x' :: a :: b :: body) (Char.ofNat (16 * Quoted.hexValue a + Quoted.hexValue b) :: value)

/-- The digits of a literal, underscores left out. -/
def digitsOf (literal : List Char) : List Nat := (literal.filter (· != '_')).map Quoted.hexValue

/-- An integer literal, with its value: digits to base ten, or to base sixteen after a prefix. -/
inductive Counts : List Char → Nat → Prop where
  | hex {x : Char} {body : List Char} (hx : x = 'x' ∨ x = 'X') (hdigits : digitsOf body ≠ []) :
      Counts ('0' :: x :: body) (Nat.ofDigits 16 (digitsOf body).reverse)
  | decimal {literal : List Char} (hplain : ∀ x body, literal = '0' :: x :: body → x ≠ 'x' ∧ x ≠ 'X')
      (hdigits : digitsOf literal ≠ []) : Counts literal (Nat.ofDigits 10 (digitsOf literal).reverse)

/-- A literal, if the token is one, has a value. -/
def Valued (x : Terminal) : Prop :=
  (x.kind = .intLiteral → ∃ value : UInt64, Counts x.text.toList value.toNat) ∧
    (x.kind = .stringLiteral → ∃ value, Spells (Expr.inner x.text) value)

end Literals

section Trees

inductive ExprPhrase.Gives : ExprPhrase → Expr → Prop where
  | identifier (name : String) (span : Span) : Gives (.identifier name) (.identifier name span)
  | int {literal : String} {value : UInt64} (span : Span) (h : Counts literal.toList value.toNat) :
      Gives (.int literal) (.int value span)
  | str {literal value : String} (span : Span) (h : Spells (Expr.inner literal) value.toList) :
      Gives (.str literal) (.str value span)

def FormalPhrase.Gives (f : FormalPhrase) (formal : Formal) : Prop := formal.intent = f.intent ∧ formal.name = f.name

mutual

/-- The statement is the tree of the phrase. -/
inductive Phrase.Gives : Phrase → Stmt → Prop where
  | moduleDecl (visibility : Visibility) (name : String) {body : List Phrase} {stmts : List Stmt} (span : Span)
      (h : GivesList body stmts) :
      Phrase.Gives (.moduleDecl visibility name body) (.moduleDecl visibility name stmts span)
  | procDecl (visibility : Visibility) (name : String) {formals : List FormalPhrase} {params : List Formal}
      {body : List Phrase} {stmts : List Stmt} (bodySpan span : Span)
      (hformals : List.Forall₂ FormalPhrase.Gives formals params) (h : GivesList body stmts) :
      Phrase.Gives (.procDecl visibility name formals body) (.procDecl visibility name params stmts bodySpan span)
  | varDecl (visibility : Visibility) (kind : VariableKind) (name : String) {init : Option ExprPhrase}
      {e : Option Expr} (span : Span) (h : Option.Rel ExprPhrase.Gives init e) :
      Phrase.Gives (.varDecl visibility kind name init) (.varDecl visibility kind name e span)
  | block {body : List Phrase} {stmts : List Stmt} (span : Span) (h : GivesList body stmts) :
      Phrase.Gives (.block body) (.block stmts span)
  | foreign (text : String) (semicolon : Bool) (span : Span) :
      Phrase.Gives (.foreign text semicolon) (.foreign (String.ofList (Expr.inner text)) span)
  | expr {phrase : ExprPhrase} {e : Expr} (span : Span) (h : phrase.Gives e) :
      Phrase.Gives (.expr phrase) (.expr e span)

/-- The statements are the trees of the phrases, with comments among them. -/
inductive GivesList : List Phrase → List Stmt → Prop where
  | nil : GivesList [] []
  | comment {phrases : List Phrase} {stmts : List Stmt} (text : String) (span : Span) (h : GivesList phrases stmts) :
      GivesList phrases (.comment text span :: stmts)
  | cons {phrase : Phrase} {s : Stmt} {phrases : List Phrase} {stmts : List Stmt} (hfirst : phrase.Gives s)
      (hrest : GivesList phrases stmts) : GivesList (phrase :: phrases) (s :: stmts)

end

end Trees
end Surface
end Palimpsest
