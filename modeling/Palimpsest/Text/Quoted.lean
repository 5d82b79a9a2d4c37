/-!
String literals as written: the body between the quotes is decoded by `unescape`, and `quote` writes a
value so that a reader of C gets it back.
-/

namespace Palimpsest
namespace Quoted

/-- What is wrong with an escape. -/
inductive EscapeFault where
  | loneBackslash
  | badHex
  | unknown (escape : Char)
deriving DecidableEq, Repr, Inhabited

def EscapeFault.message : EscapeFault → String
  | loneBackslash => "string ends with a lone backslash"
  | badHex => "'\\x' must be followed by two hex digits"
  | unknown c => "unknown escape sequence '\\" ++ c.toString ++ "'"

/-- The first bad escape of a body: the offset of its backslash and the bytes it covers. -/
structure EscapeError where
  offset : Nat
  length : Nat
  fault : EscapeFault
deriving DecidableEq, Repr, Inhabited

def isHexDigit (c : Char) : Bool :=
  c.isDigit || ('a' ≤ c && c ≤ 'f') || ('A' ≤ c && c ≤ 'F')

def hexValue (c : Char) : Nat :=
  if c.isDigit then c.toNat - 48
  else if 'a' ≤ c && c ≤ 'f' then c.toNat - 87
  else c.toNat - 55

/-- The meaning of the escapes of one character. -/
def simpleEscape? : Char → Option Char
  | 'n' => some '\n'
  | 't' => some '\t'
  | 'r' => some '\r'
  | '0' => some '\x00'
  | '\\' => some '\\'
  | '"' => some '"'
  | '\'' => some '\''
  | _ => none

/-- How many bytes after a hex escape are blamed along with it: up to two, but no part of a character. -/
def blamedAfterHex : List Char → Nat
  | [] => 0
  | [a] => if a.utf8Size ≤ 2 then a.utf8Size else 0
  | a :: b :: _ =>
    if a.utf8Size = 2 then 2
    else if a.utf8Size = 1 then (if b.utf8Size = 1 then 2 else 0)
    else 0

/-- The decoded body, which starts at byte `offset`. -/
def unescapeFrom (offset : Nat) : List Char → Except EscapeError (List Char)
  | [] => .ok []
  | '\\' :: [] => .error ⟨offset, 1, .loneBackslash⟩
  | '\\' :: 'x' :: [] => .error ⟨offset, 2, .badHex⟩
  | '\\' :: 'x' :: [a] => .error ⟨offset, 2 + blamedAfterHex [a], .badHex⟩
  | '\\' :: 'x' :: a :: b :: cs =>
    if isHexDigit a && isHexDigit b then do
      let rest ← unescapeFrom (offset + 4) cs
      return Char.ofNat (16 * hexValue a + hexValue b) :: rest
    else .error ⟨offset, 2 + blamedAfterHex (a :: b :: cs), .badHex⟩
  | '\\' :: e :: cs =>
    match simpleEscape? e with
    | some c => do
      let rest ← unescapeFrom (offset + 2) cs
      return c :: rest
    | none => .error ⟨offset, 1 + e.utf8Size, .unknown e⟩
  | c :: cs => do
    let rest ← unescapeFrom (offset + c.utf8Size) cs
    return c :: rest

/-- The value of a literal's body, or its first bad escape. -/
def unescape (body : String) : Except EscapeError String :=
  (unescapeFrom 0 body.toList).map String.ofList

def octalDigit (n : Nat) : Char := Char.ofNat (48 + n % 8)

/-- A control character without a short escape takes three octal digits, so that a digit that follows
cannot lengthen it. -/
def quoteChar (c : Char) : List Char :=
  if c = '\\' then ['\\', '\\']
  else if c = '"' then ['\\', '"']
  else if c = '\n' then ['\\', 'n']
  else if c = '\t' then ['\\', 't']
  else if c = '\r' then ['\\', 'r']
  else if c.toNat < 32 ∨ c.toNat = 127 then
    ['\\', octalDigit (c.toNat / 64), octalDigit (c.toNat / 8), octalDigit c.toNat]
  else [c]

/-- A literal, quotes included. -/
def quote (s : String) : String :=
  String.ofList ('"' :: (s.toList.flatMap quoteChar ++ ['"']))

def containsNul (s : String) : Bool := s.toList.contains '\x00'

end Quoted
end Palimpsest
