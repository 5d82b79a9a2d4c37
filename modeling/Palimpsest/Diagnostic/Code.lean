/-!
The codes under which problems are reported. A code is a category and a number; numbers are never
reused, and the table of titles lists every code in use.
-/

namespace Palimpsest

/-- How much a report matters, from least to most. -/
inductive Severity where
  | note
  | warning
  | error
deriving DecidableEq, Repr, Inhabited

namespace Severity

def rank : Severity → Nat
  | note => 0
  | warning => 1
  | error => 2

def name : Severity → String
  | note => "note"
  | warning => "warning"
  | error => "error"

def isError (s : Severity) : Bool := s == error

end Severity

/-- Which series of numbers a code belongs to. -/
inductive Category where
  | error
  | warning
deriving DecidableEq, Repr, Inhabited

/-- The letter that opens the printed code. -/
def Category.letter : Category → Char
  | error => 'E'
  | warning => 'W'

structure Code where
  category : Category
  number : Nat
deriving DecidableEq, Repr, Inhabited

namespace Code

def invalidCharacter : Code := ⟨.error, 100⟩
def unexpectedToken : Code := ⟨.error, 101⟩
def unterminatedString : Code := ⟨.error, 102⟩
def unterminatedComment : Code := ⟨.error, 103⟩
def integerOverflow : Code := ⟨.error, 104⟩
def invalidEscape : Code := ⟨.error, 105⟩
def unterminatedForeign : Code := ⟨.error, 106⟩
def nestingTooDeep : Code := ⟨.error, 107⟩
def nulInString : Code := ⟨.warning, 100⟩

/-- Every code in use, with its title. -/
def titles : List (Code × String) :=
  [(invalidCharacter, "invalid character"),
   (unexpectedToken, "unexpected token"),
   (unterminatedString, "unterminated string"),
   (unterminatedComment, "unterminated comment"),
   (integerOverflow, "integer overflow"),
   (invalidEscape, "invalid escape"),
   (unterminatedForeign, "unterminated extern block"),
   (nestingTooDeep, "nesting too deep"),
   (nulInString, "NUL in string")]

def title? (c : Code) : Option String := titles.lookup c

/-- `n` in decimal, with zeros in front up to three digits. -/
def threeDigits (n : Nat) : String :=
  let digits := toString n
  "".pushn '0' (3 - digits.length) ++ digits

def display (c : Code) : String := c.category.letter.toString ++ threeDigits c.number

end Code
end Palimpsest
