/-!
The kinds of token, their spelling in messages, and the reserved words.
-/

namespace Palimpsest

inductive TokenKind where
  | kwConst
  | kwForeign
  | kwIn
  | kwInout
  | kwModule
  | kwOut
  | kwParam
  | kwPrivate
  | kwProc
  | kwPublic
  | kwRef
  | kwType
  | kwVar
  | leftBrace
  | rightBrace
  | leftParen
  | rightParen
  | semicolon
  | comma
  | equals
  | identifier
  | intLiteral
  | stringLiteral
  /-- A braced body of foreign code, braces included. -/
  | foreignCode
  /-- Characters that form no token. -/
  | invalid
  | endOfFile
deriving DecidableEq, Repr, Inhabited

namespace TokenKind

/-- The reserved words. -/
def keywords : List (String × TokenKind) :=
  [("const", kwConst), ("extern", kwForeign), ("in", kwIn), ("inout", kwInout), ("module", kwModule),
   ("out", kwOut), ("param", kwParam), ("private", kwPrivate), ("proc", kwProc), ("public", kwPublic),
   ("ref", kwRef), ("type", kwType), ("var", kwVar)]

def ofKeyword? (word : String) : Option TokenKind := keywords.lookup word

/-- The tokens of one character. -/
def ofPunctuation? : Char → Option TokenKind
  | '\x7b' => some leftBrace
  | '\x7d' => some rightBrace
  | '(' => some leftParen
  | ')' => some rightParen
  | ';' => some semicolon
  | ',' => some comma
  | '=' => some equals
  | _ => none

/-- How a message names a token of this kind. -/
def describe : TokenKind → String
  | kwConst => "'const'"
  | kwForeign => "'extern'"
  | kwIn => "'in'"
  | kwInout => "'inout'"
  | kwModule => "'module'"
  | kwOut => "'out'"
  | kwParam => "'param'"
  | kwPrivate => "'private'"
  | kwProc => "'proc'"
  | kwPublic => "'public'"
  | kwRef => "'ref'"
  | kwType => "'type'"
  | kwVar => "'var'"
  | leftBrace => "'\x7b'"
  | rightBrace => "'\x7d'"
  | leftParen => "'('"
  | rightParen => "')'"
  | semicolon => "';'"
  | comma => "','"
  | equals => "'='"
  | identifier => "identifier"
  | intLiteral => "integer literal"
  | stringLiteral => "string literal"
  | foreignCode => "extern code"
  | invalid => "invalid token"
  | endOfFile => "end of file"

end TokenKind
end Palimpsest
