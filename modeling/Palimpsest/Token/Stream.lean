import Palimpsest.Diagnostic.Basic
import Palimpsest.Text.Utf8
import Palimpsest.Token.Lexeme

/-!
The tokens of a text, each with the comments before it, ended by one end-of-file token that holds the
comments after the last. What lexing reports is read off the same lexemes.
-/

namespace Palimpsest

/-- A comment, delimiters included. -/
structure Comment where
  span : Span
  text : String
deriving DecidableEq, Repr, Inhabited

structure Token where
  kind : TokenKind
  span : Span
  text : String
  /-- The comments between the token before this one and this one. -/
  leading : List Comment
deriving DecidableEq, Repr, Inhabited

/-- Tokens, the end-of-file token and the reports of lexing in order of emission. -/
structure TokenStream where
  tokens : List Token
  final : Token
  reports : List Diagnostic
deriving DecidableEq, Repr, Inhabited

namespace Lexeme

/-- The kind of token a lexeme makes; blanks and comments make none. -/
def tokenKind? (l : Lexeme) : Option TokenKind :=
  match l.kind with
  | .blank | .comment _ => none
  | .token kind => some kind
  | .faulty _ => some .invalid

def text (l : Lexeme) : String := String.ofList l.chars

/-- What is reported about a lexeme that covers `span`. -/
def report? (l : Lexeme) (span : Span) : Option Diagnostic :=
  match l.kind with
  | .comment false => some (.error .unterminatedComment "unterminated block comment" span)
  | .faulty .strayCharacter =>
    some (.error .invalidCharacter ("unexpected character '" ++ l.text ++ "'") span)
  | .faulty .openString => some (.error .unterminatedString "unterminated string literal" span)
  | .faulty .openForeign =>
    some ((Diagnostic.error .unterminatedForeign "unterminated extern block"
      ⟨span.stop, span.stop⟩).withLabel ⟨span.start, span.start + 1⟩ "extern block opened here")
  | _ => none

/-- Lexemes with the spans they cover when the first starts at `pos`. -/
def placeFrom (pos : Nat) : List Lexeme → List (Lexeme × Span)
  | [] => []
  | l :: ls =>
    let stop := pos + Utf8.size l.chars
    (l, ⟨pos, stop⟩) :: placeFrom stop ls

/-- The tokens of placed lexemes. `pending` are the comments since the last token, and the text ends at
`stop`. -/
def tokens (stop : Nat) (pending : List Comment) : List (Lexeme × Span) → List Token × Token
  | [] => ([], ⟨.endOfFile, ⟨stop, stop⟩, "", pending⟩)
  | (l, span) :: rest =>
    match l.tokenKind? with
    | some kind =>
      let (later, final) := tokens stop [] rest
      (⟨kind, span, l.text, pending⟩ :: later, final)
    | none =>
      match l.kind with
      | .comment _ => tokens stop (pending ++ [⟨span, l.text⟩]) rest
      | _ => tokens stop pending rest

end Lexeme

namespace TokenStream

def ofChars (cs : List Char) : TokenStream :=
  let placed := Lexeme.placeFrom 0 (lexemes false cs)
  let (tokens, final) := Lexeme.tokens (Utf8.size cs) [] placed
  { tokens, final, reports := placed.filterMap fun p => p.1.report? p.2 }

def ofText (text : String) : TokenStream := ofChars text.toList

/-- The tokens with the end-of-file token. -/
def all (t : TokenStream) : List Token := t.tokens ++ [t.final]

def comments (t : TokenStream) : List Comment := t.all.flatMap Token.leading

end TokenStream
end Palimpsest
