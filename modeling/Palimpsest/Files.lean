/-!
Files as a program sees them: a path leads to a text, or there is a reason why it does not. Paths are parts
between slashes. Empty parts and single dots lead nowhere.
-/

namespace Palimpsest
namespace Path

/-- The parts of some characters between slashes. -/
def split (cs : List Char) : List (List Char) :=
  cs.foldr (fun c parts =>
    match parts with
    | [] => [[c]]
    | part :: rest => if c = '/' then [] :: part :: rest else (c :: part) :: rest) [[]]

/-- The parts that lead somewhere. -/
def parts (path : String) : List String :=
  ((split path.toList).map String.ofList).filter fun p => p != "" && p != "."

/-- The name of the file: the last part, unless that leads upwards. -/
def fileName? (path : String) : Option String := (parts path).getLast?.filter (· != "..")

/-- A name up to its last dot. A dot at its start does not count, nor does a name without one change. -/
def stemOf (name : String) : String :=
  let fromEnd := name.toList.reverse
  let before := (fromEnd.dropWhile (· != '.')).drop 1
  if before.isEmpty then name else String.ofList before.reverse

/-- The name of the file without its extension; a path that names no file stands for itself. -/
def stem (path : String) : String := ((fileName? path).map stemOf).getD path

/-- `name` inside the directory `dir`. -/
def join (dir name : String) : String :=
  if dir.isEmpty then name else if dir.toList.getLast? = some '/' then dir ++ name else dir ++ "/" ++ name

end Path

/-- Why a file cannot be read. -/
inductive FileError where
  /-- The system says so, with a text and a number of its own. -/
  | system (text : String) (number : Nat)
  | notUtf8
  | nulInPath
deriving DecidableEq, Repr, Inhabited

namespace FileError

def notFound : FileError := .system "No such file or directory" 2

def notDirectory : FileError := .system "Not a directory" 20

def isDirectory : FileError := .system "Is a directory" 21

def nameTooLong : FileError := .system "File name too long" 36

def message : FileError → String
  | system text number => text ++ " (os error " ++ toString number ++ ")"
  | notUtf8 => "stream did not contain valid UTF-8"
  | nulInPath => "file name contained an unexpected NUL byte"

end FileError

/-- The text of some bytes. -/
def decodeFile (bytes : List UInt8) : Except FileError String :=
  match String.fromUTF8? (ByteArray.mk bytes.toArray) with
  | some text => .ok text
  | none => .error .notUtf8

structure Files where
  /-- Whether there is anything at a path. -/
  isThere : String → Bool
  /-- The text of the file at a path. -/
  read : String → Except FileError String

end Palimpsest
