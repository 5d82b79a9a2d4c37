import Palimpsest.Text.Quoted
import Palimpsest.Toml.Value

/-!
Numbers, truth values and dates of TOML, each from the whole of its spelling.
-/

namespace Palimpsest
namespace Toml
namespace Scalar

/-- Whether the characters are digits, with single underscores only between digits. -/
def areDigits (isDigit : Char → Bool) : List Char → Bool
  | [] => false
  | [c] => isDigit c
  | c :: '_' :: rest => isDigit c && areDigits isDigit rest
  | c :: rest => isDigit c && areDigits isDigit rest

def numeral (base : Nat) (cs : List Char) : Nat :=
  (cs.filter (· != '_')).foldl (fun n c => base * n + Quoted.hexValue c) 0

def inWord (n : Int) : Bool := -0x8000000000000000 ≤ n && n < 0x8000000000000000

def splitSign : List Char → Bool × List Char
  | '-' :: cs => (true, cs)
  | '+' :: cs => (false, cs)
  | cs => (false, cs)

/-- Decimal digits that start with a zero only if they are just that. -/
def isDecimal (cs : List Char) : Bool :=
  areDigits Char.isDigit cs && (cs.head? != some '0' || cs.length == 1)

def isOctal (c : Char) : Bool := '0' ≤ c && c ≤ '7'

def isBinary (c : Char) : Bool := c == '0' || c == '1'

def inBase? (base : Nat) (isDigit : Char → Bool) (cs : List Char) : Option Int :=
  if areDigits isDigit cs then some (numeral base cs) else none

def magnitude? : List Char → Option Int
  | '0' :: 'x' :: cs => inBase? 16 Quoted.isHexDigit cs
  | '0' :: 'o' :: cs => inBase? 8 isOctal cs
  | '0' :: 'b' :: cs => inBase? 2 isBinary cs
  | _ => none

/-- An integer of 64 bits. -/
def int? (cs : List Char) : Option Int := do
  let n ← match magnitude? cs with
    | some n => some n
    | none =>
      let (negative, digits) := splitSign cs
      if isDecimal digits then some (if negative then -(numeral 10 digits : Int) else numeral 10 digits)
      else none
  if inWord n then some n else none

/-- The integral part, the fraction and the exponent of a number; what is absent is `none`. -/
def splitFloat (cs : List Char) : List Char × Option (List Char) × Option (List Char) :=
  let isMark (c : Char) := c == 'e' || c == 'E'
  let front := cs.takeWhile (!isMark ·)
  let exponent := match cs.dropWhile (!isMark ·) with
    | [] => none
    | _ :: e => some e
  let whole := front.takeWhile (· != '.')
  let fraction := match front.dropWhile (· != '.') with
    | [] => none
    | _ :: f => some f
  (whole, fraction, exponent)

/-- Whether digits times a power of ten round to a double. With so many digits that the answer is plain,
the power is not computed. -/
def fitsDouble (digits : Nat) (exponent : Int) : Bool :=
  let length : Int := (toString digits).length
  if digits = 0 ∨ length + exponent < 300 then true
  else if length + exponent > 400 then false
  else if exponent ≥ 0 then digits * Nat.pow 10 exponent.toNat < Nat.pow 2 1024 - Nat.pow 2 970
  else digits < (Nat.pow 2 1024 - Nat.pow 2 970) * Nat.pow 10 (-exponent).toNat

def isFloat (cs : List Char) : Bool :=
  let (negative, rest) := splitSign cs
  if rest = ['i', 'n', 'f'] ∨ rest = ['n', 'a', 'n'] then true
  else
    let (whole, fraction, exponent) := splitFloat rest
    let (below, power) := splitSign (exponent.getD ['0'])
    let scale : Int := if below then -(numeral 10 power : Int) else numeral 10 power
    let digits := whole ++ fraction.getD []
    (fraction.isSome || exponent.isSome) && isDecimal whole && (fraction.all (areDigits Char.isDigit))
      && areDigits Char.isDigit power
      && (negative || fitsDouble (numeral 10 digits)
        (scale - ((fraction.getD []).filter (· != '_')).length))

/-- Two digits that make a number between `low` and `high`. -/
def isPair (low high : Nat) (a b : Char) : Bool :=
  a.isDigit && b.isDigit && low ≤ numeral 10 [a, b] && numeral 10 [a, b] ≤ high

def daysIn (year month : Nat) : Nat :=
  if month = 2 then
    if year % 4 = 0 ∧ (year % 100 ≠ 0 ∨ year % 400 = 0) then 29 else 28
  else if month = 4 ∨ month = 6 ∨ month = 9 ∨ month = 11 then 30
  else 31

/-- A day at the front of some characters, and what follows it. -/
def afterDate? : List Char → Option (List Char)
  | y :: z :: v :: w :: '-' :: m :: n :: '-' :: d :: e :: rest =>
    if [y, z, v, w].all Char.isDigit && isPair 1 12 m n
        && isPair 1 (daysIn (numeral 10 [y, z, v, w]) (numeral 10 [m, n])) d e then some rest
    else none
  | _ => none

/-- A time of day at the front of some characters, and what follows it. -/
def afterTime? : List Char → Option (List Char)
  | h :: i :: ':' :: m :: n :: ':' :: s :: t :: rest =>
    if isPair 0 23 h i && isPair 0 59 m n && isPair 0 60 s t then
      match rest with
      | '.' :: f =>
        let fraction := f.takeWhile Char.isDigit
        if fraction.isEmpty then none else some (f.dropWhile Char.isDigit)
      | _ => some rest
    else none
  | _ => none

def isOffset : List Char → Bool
  | [] | ['Z'] | ['z'] => true
  | [sign, h, i, ':', m, n] => (sign == '+' || sign == '-') && isPair 0 23 h i && isPair 0 59 m n
  | _ => false

/-- Whether the characters are a day and nothing else. -/
def isDate (cs : List Char) : Bool := afterDate? cs == some []

/-- A day, a time of day, or a day with a time of day and perhaps an offset. -/
def isDatetime (cs : List Char) : Bool :=
  match afterDate? cs with
  | some [] => true
  | some (mark :: time) =>
    (mark == 'T' || mark == 't' || mark == ' ') && ((afterTime? time).map isOffset).getD false
  | none => afterTime? cs == some []

/-- The value that is spelled by all of the characters. -/
def ofChars? (cs : List Char) : Option Value :=
  if cs = ['t', 'r', 'u', 'e'] then some (.bool true)
  else if cs = ['f', 'a', 'l', 's', 'e'] then some (.bool false)
  else if isDatetime cs then some (.datetime (String.ofList cs))
  else if isFloat cs then some (.float (String.ofList cs))
  else (int? cs).map .int

end Scalar
end Toml
end Palimpsest
