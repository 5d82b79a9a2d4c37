import Palimpsest.Files

/-!
A working directory that is held in memory. Paths are followed part by part. Outside the working directory
only what every system has is known: the directories at the root, and the null device. All else there
counts as absent.
-/

namespace Palimpsest

/-- The bytes of each file, by the parts of its path. -/
structure Disk where
  contents : List (List String × List UInt8)
deriving DecidableEq, Repr, Inhabited

namespace Disk

def empty : Disk := ⟨[]⟩

/-- A file at a relative path, whose directories come with it. -/
def add (d : Disk) (path : String) (bytes : List UInt8) : Disk := ⟨d.contents ++ [(Path.parts path, bytes)]⟩

/-- A place that a path has led to. -/
inductive Place where
  | directory (parts : List String)
  | file (bytes : List UInt8)
  /-- A directory above the working directory. -/
  | outside
  /-- A directory of the system, by its parts from the root. -/
  | system (parts : List String)
deriving DecidableEq, Repr, Inhabited

def isDirectory (d : Disk) (parts : List String) : Bool :=
  parts.isEmpty || d.contents.any fun f => parts.isPrefixOf f.1 && parts.length < f.1.length

/-- The directory around a directory. -/
def Place.parent : Place → Place
  | .directory [] => .outside
  | .directory here => .directory here.dropLast
  | .system here => .system here.dropLast
  | place => place

/-- How many bytes the name of a file may have, wherever it is looked for. -/
def nameLimit : Nat := 255

/-- The directories at the root of every system. -/
def rootDirectories : List String :=
  ["bin", "dev", "etc", "home", "lib", "media", "mnt", "opt", "proc", "root", "run", "sbin", "srv", "sys", "tmp",
    "usr", "var"]

/-- The device that is always empty. -/
def nullDevice : List String := ["dev", "null"]

/-- What a directory has under a name. -/
def child (d : Disk) (place : Place) (name : String) : Except FileError Place :=
  match place with
  | .directory here =>
    let there := here ++ [name]
    match d.contents.lookup there with
    | some bytes => .ok (.file bytes)
    | none => if d.isDirectory there then .ok (.directory there) else .error .notFound
  | .system here =>
    let there := here ++ [name]
    if there = nullDevice then .ok (.file [])
    else if here.isEmpty ∧ rootDirectories.contains name then .ok (.system there) else .error .notFound
  | .outside => .error .notFound
  | .file _ => .error .notDirectory

/-- One part of a path further. -/
def enter (d : Disk) (place : Place) (part : String) : Except FileError Place :=
  match place with
  | .file _ => .error .notDirectory
  | .directory _ | .outside | .system _ =>
    if part = "" ∨ part = "." then .ok place
    else if part = ".." then .ok place.parent
    else if part.utf8ByteSize > nameLimit then .error .nameTooLong
    else d.child place part

/-- Where a path leads to. -/
def resolve (d : Disk) (path : String) : Except FileError Place := do
  if path.toList.contains '\x00' then throw .nulInPath
  if path.isEmpty then throw .notFound
  if path.utf8ByteSize ≥ 4096 then throw .nameTooLong
  let parts := (Path.split path.toList).map String.ofList
  let start := if parts.head? = some "" then Place.system [] else .directory []
  parts.foldlM d.enter start

/-- The text of the file that a path leads to. -/
def read (d : Disk) (path : String) : Except FileError String := do
  match ← d.resolve path with
  | .file bytes => decodeFile bytes
  | .directory _ | .outside | .system _ => throw .isDirectory

def files (d : Disk) : Files where
  isThere path := (d.resolve path).isOk
  read := d.read

end Disk
end Palimpsest
