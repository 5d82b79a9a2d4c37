import Palimpsest.Command.Run

/-!
The program on a real system.
-/

namespace Palimpsest

/-- A failure of the system by its number, which may come negated in a word. A number without a text of
its own here keeps the system's. -/
def FileError.ofNumber (code : UInt32) (text : String) : FileError :=
  match if code.toNat < 0x80000000 then code.toNat else UInt32.size - code.toNat with
  | 2 => .notFound
  | 13 => .system "Permission denied" 13
  | 20 => .notDirectory
  | 21 => .isDirectory
  | 36 => .nameTooLong
  | n => .system text n

/-- What the system says about a file that it does not give. -/
def FileError.ofSystem : IO.Error → FileError
  | .alreadyExists _ n d | .otherError n d | .resourceBusy n d | .resourceVanished n d
  | .unsupportedOperation n d | .hardwareFault n d | .unsatisfiedConstraints n d | .illegalOperation n d
  | .protocolError n d | .timeExpired n d | .interrupted _ n d | .noFileOrDirectory _ n d
  | .invalidArgument _ n d | .permissionDenied _ n d | .resourceExhausted _ n d
  | .inappropriateType _ n d | .noSuchThing _ n d => .ofNumber n d
  | e => .system (toString e) 0

/-- The text of a file of the system. -/
def readFile (path : String) : IO (Except FileError String) := do
  try return decodeFile (← IO.FS.readBinFile path).toList
  catch e => return .error (.ofSystem e)

/-- Files that have been read before. -/
def Files.ofReads (reads : List (String × Except FileError String)) : Files where
  isThere path :=
    match reads.lookup path with
    | some (.error e) => e ≠ .notFound
    | some (.ok _) => true
    | none => false
  read path := (reads.lookup path).getD (.error .notFound)

/-- The paths that a request may read. -/
def pathsOf : Command.Request → List String
  | .run manner job => manner.config.getD (Path.join "." Config.fileName) :: job.files
  | .help | .version => []

end Palimpsest

open Palimpsest

def main (words : List String) : IO UInt32 := do
  let paths := ((Command.Request.ofWords? words).map pathsOf).getD []
  let reads ← paths.mapM fun path => return (path, ← readFile path)
  let ending := Command.run (.ofReads reads) (← (← IO.getStderr).isTty) words
  for p in ending.printed do
    match p.stream with
    | .output => IO.print p.text
    | .errors => IO.eprint p.text
  return UInt32.ofNat ending.code
