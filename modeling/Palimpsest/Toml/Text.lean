import Palimpsest.Text.Quoted

/-!
Strings of TOML: in double quotes with escapes, in single quotes without, and both over several lines.
Each reader starts after the opening quotes and answers with the characters and what follows the closing
ones.
-/

namespace Palimpsest
namespace Toml
namespace Text

abbrev Result := Option (List Char × List Char)

def push (c : Char) (r : Result) : Result := r.map fun (s, rest) => (c :: s, rest)

/-- Characters that stand for themselves on one line: tabs, and all but control characters. -/
def isPlain (c : Char) : Bool := c == '\t' || (32 ≤ c.toNat && c.toNat ≠ 127)

/-- The character of a code, which is no surrogate. -/
def ofCode? (digits : List Char) : Option Char :=
  let n := digits.foldl (fun n d => 16 * n + Quoted.hexValue d) 0
  if digits.all Quoted.isHexDigit ∧ n.isValidChar then some (Char.ofNat n) else none

/-- An escape after its backslash: the character, and how many characters spell it. -/
def escape? : List Char → Option (Char × Nat)
  | 'b' :: _ => some ('\x08', 1)
  | 't' :: _ => some ('\t', 1)
  | 'n' :: _ => some ('\n', 1)
  | 'f' :: _ => some ('\x0c', 1)
  | 'r' :: _ => some ('\r', 1)
  | '"' :: _ => some ('"', 1)
  | '\\' :: _ => some ('\\', 1)
  | 'u' :: cs => if cs.length < 4 then none else (ofCode? (cs.take 4)).map (·, 5)
  | 'U' :: cs => if cs.length < 8 then none else (ofCode? (cs.take 8)).map (·, 9)
  | _ => none

/-- The rest after a newline, if there is one in front. -/
def afterNewline? : List Char → Option (List Char)
  | '\n' :: cs => some cs
  | '\r' :: '\n' :: cs => some cs
  | _ => none

def isIndent (c : Char) : Bool := c == ' ' || c == '\t'

/-- Drops blanks and newlines. -/
def skipBlankLines : List Char → List Char
  | '\r' :: '\n' :: cs => skipBlankLines cs
  | c :: cs => if isIndent c ∨ c = '\n' then skipBlankLines cs else c :: cs
  | [] => []

/-- After a backslash at the end of a line, everything up to the next character that is seen. -/
def afterLineEnd? (cs : List Char) : Option (List Char) :=
  (afterNewline? (cs.dropWhile isIndent)).map skipBlankLines

def basic : (steps : Nat) → List Char → Result
  | 0, _ | _, [] => none
  | n + 1, c :: cs =>
    if c = '"' then some ([], cs)
    else if c = '\\' then do
      let (e, k) ← escape? cs
      push e (basic n (cs.drop k))
    else if isPlain c then push c (basic n cs)
    else none

def basicLines : (steps : Nat) → List Char → Result
  | 0, _ | _, [] => none
  | _, '"' :: '"' :: '"' :: '"' :: '"' :: cs => some (['"', '"'], cs)
  | _, '"' :: '"' :: '"' :: '"' :: cs => some (['"'], cs)
  | _, '"' :: '"' :: '"' :: cs => some ([], cs)
  | n + 1, '\r' :: '\n' :: cs => push '\n' (basicLines n cs)
  | n + 1, c :: cs =>
    if c = '\\' then
      match afterLineEnd? cs with
      | some rest => basicLines n rest
      | none => do
        let (e, k) ← escape? cs
        push e (basicLines n (cs.drop k))
    else if isPlain c ∨ c = '\n' then push c (basicLines n cs)
    else none

def raw : List Char → Result
  | [] => none
  | c :: cs => if c = '\'' then some ([], cs) else if isPlain c then push c (raw cs) else none

def rawLines : List Char → Result
  | [] => none
  | '\'' :: '\'' :: '\'' :: '\'' :: '\'' :: cs => some (['\'', '\''], cs)
  | '\'' :: '\'' :: '\'' :: '\'' :: cs => some (['\''], cs)
  | '\'' :: '\'' :: '\'' :: cs => some ([], cs)
  | '\r' :: '\n' :: cs => push '\n' (rawLines cs)
  | c :: cs => if isPlain c ∨ c = '\n' then push c (rawLines cs) else none

/-- A newline right after the opening quotes is no part of the string. -/
def dropNewline (cs : List Char) : List Char := (afterNewline? cs).getD cs

/-- A string of one line, from its opening quote. -/
def line? : List Char → Result
  | '"' :: cs => basic cs.length cs
  | '\'' :: cs => raw cs
  | _ => none

/-- A string, from its opening quotes. -/
def string? : List Char → Result
  | '"' :: '"' :: '"' :: cs => let cs := dropNewline cs; basicLines cs.length cs
  | '\'' :: '\'' :: '\'' :: cs => rawLines (dropNewline cs)
  | cs => line? cs

end Text
end Toml
end Palimpsest
