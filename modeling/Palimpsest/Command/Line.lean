import Palimpsest.Command.Basic

/-!
Command lines. The name of a job may stand between switches, of which some are known on both sides of it;
a switch is given at most once on each side, and the one behind the name counts. A word that starts with a
dash is never the value of a switch, unless it is the dash alone. Words count in their order: a request for
help is heard only if nothing in front of it is refused.
-/

namespace Palimpsest
namespace Command

inductive Switch where
  | quiet
  | verbose
  | color
  | config
  | dump
  | format
  | help
  | version
deriving DecidableEq, Repr, Inhabited

namespace Switch

/-- The name behind two dashes. -/
def long : Switch → List Char
  | quiet => "quiet".toList
  | verbose => "verbose".toList
  | color => "color".toList
  | config => "config".toList
  | dump => "dump".toList
  | format => "format".toList
  | help => "help".toList
  | version => "version".toList

/-- The letter behind one dash. -/
def letter? : Switch → Option Char
  | quiet => some 'q'
  | verbose => some 'v'
  | format => some 'f'
  | help => some 'h'
  | version => some 'V'
  | color | config | dump => none

def takesValue : Switch → Bool
  | color | config | format => true
  | quiet | verbose | dump | help | version => false

/-- Whether a value will do. -/
def accepts (s : Switch) (value : String) : Bool :=
  match s with
  | color => (ColorChoice.ofName? value).isSome
  | format => (Format.ofName? value).isSome
  | quiet | verbose | config | dump | help | version => true

/-- The switches that every job has. -/
def shared : List Switch := [quiet, verbose, color, config, help]

end Switch

/-- What a word that is no switch stands for. -/
inductive Place where
  /-- The name of a job, which ends the side. -/
  | job
  /-- A file, if `others` words that are none have come before it. -/
  | file (others : Nat)
deriving DecidableEq, Repr, Inhabited

/-- What may stand on one side of the name of a job. -/
structure Layout where
  switches : List Switch
  place : Place
deriving DecidableEq, Repr, Inhabited

namespace Layout

/-- The side in front of the name of a job. -/
def front : Layout := ⟨.version :: Switch.shared, .job⟩

/-- Files to parse. -/
def parse : Layout := ⟨.dump :: .format :: Switch.shared, .file 0⟩

/-- A path, and the files of its revisions. -/
def replay : Layout := ⟨.format :: Switch.shared, .file 1⟩

end Layout

/-- What the words on one side of the name of a job have said. -/
structure Side where
  /-- Switches with their values; a switch without one has the empty value. -/
  given : List (Switch × String)
  words : List String
deriving DecidableEq, Repr, Inhabited

namespace Side

def empty : Side := ⟨[], []⟩

def value? (s : Side) (switch : Switch) : Option String := s.given.lookup switch

def has (s : Side) (switch : Switch) : Bool := (s.value? switch).isSome

/-- Takes a switch, the first time. -/
def give (s : Side) (switch : Switch) (value : String) : Option Side :=
  if s.has switch || !switch.accepts value then none else some { s with given := (switch, value) :: s.given }

/-- Takes a word that is no switch. A file has a name. -/
def addWord (s : Side) (place : Place) (w : String) : Option Side :=
  match place with
  | .job => none
  | .file others => if others ≤ s.words.length ∧ w = "" then none else some { s with words := s.words ++ [w] }

end Side

/-- How far the reading of one side has come. -/
inductive Reading where
  /-- It goes on; a switch may be waiting for its value. -/
  | more (side : Side) (waiting : Option Switch)
  /-- The side is read, up to the words that are left. -/
  | done (side : Side) (rest : List String)
  /-- Nothing else counts. -/
  | ask (request : Request)
deriving DecidableEq, Repr, Inhabited

namespace Reading

/-- A switch without a value. -/
def flag (side : Side) : Switch → Option Reading
  | .help => some (.ask .help)
  | .version => some (.ask .version)
  | s => (side.give s "").map fun side => .more side none

/-- A switch by its name, with the value behind an equals sign. -/
def long (known : List Switch) (side : Side) (name : List Char) (value : Option (List Char)) : Option Reading := do
  let s ← known.find? (·.long = name)
  match value with
  | none => if s.takesValue then some (.more side (some s)) else flag side s
  | some v => if s.takesValue then (side.give s (String.ofList v)).map (.more · none) else none

/-- Letters of switches. The first that takes a value takes what is left, or the next word. -/
def letters (known : List Switch) (side : Side) : List Char → Option Reading
  | [] => some (.more side none)
  | c :: cs => do
    let s ← known.find? (·.letter? = some c)
    if s.takesValue then
      match cs with
      | [] => some (.more side (some s))
      | '=' :: v => (side.give s (String.ofList v)).map (.more · none)
      | v => (side.give s (String.ofList v)).map (.more · none)
    else
      match ← flag side s with
      | .more side _ => letters known side cs
      | r => some r

/-- A word that starts with a dash. -/
def dashed (known : List Switch) (side : Side) : List Char → Option Reading
  | '-' :: name =>
    match name.dropWhile (· ≠ '=') with
    | [] => long known side name none
    | _ :: value => long known side (name.takeWhile (· ≠ '=')) (some value)
  | cs => letters known side cs

/-- Reads the words of one side, up to the name of a job. -/
def ofWords (layout : Layout) (side : Side) (waiting : Option Switch) : List String → Option Reading
  | [] => if waiting.isSome then none else some (.done side [])
  | w :: ws =>
    match w.toList, waiting with
    | '-' :: _ :: _, some _ => none
    | _, some s => do ofWords layout (← side.give s w) none ws
    | ['-', '-'], none => do return .done (← ws.foldlM (·.addWord layout.place) side) []
    | '-' :: c :: cs, none => do
      match ← dashed layout.switches side (c :: cs) with
      | .more side waiting => ofWords layout side waiting ws
      | r => some r
    | _, none =>
      if layout.place = .job then some (.done side (w :: ws))
      else do ofWords layout (← side.addWord layout.place w) none ws

end Reading

/-- The manner that both sides ask for together. -/
def mannerOf (front back : Side) : Manner where
  quiet := front.has .quiet || back.has .quiet
  verbose := front.has .verbose || back.has .verbose
  color := (((back.value? .color).or (front.value? .color)).bind ColorChoice.ofName?).getD .auto
  config := (back.value? .config).or (front.value? .config)

def formatOf (side : Side) : Format := ((side.value? .format).bind Format.ofName?).getD .text

def parseJob? (side : Side) : Option Job :=
  if side.words.isEmpty then none else some (.parse side.words (side.has .dump) (formatOf side))

def replayJob? (side : Side) : Option Job :=
  match side.words with
  | path :: revision :: revisions => some (.replay path (revision :: revisions) (formatOf side))
  | _ => none

/-- What the words behind the name of a job ask for. -/
def readBack (front : Side) (layout : Layout) (job? : Side → Option Job) (words : List String) :
    Option Request := do
  match ← Reading.ofWords layout .empty none words with
  | .done back _ => (job? back).map (.run (mannerOf front back))
  | .ask request => some request
  | .more _ _ => none

/-- The request of a command line. -/
def Request.ofWords? (words : List String) : Option Request := do
  match ← Reading.ofWords .front .empty none words with
  | .ask request => some request
  | .more _ _ => none
  | .done front rest =>
    match rest with
    | "parse" :: words => readBack front .parse parseJob? words
    | "replay" :: words => readBack front .replay replayJob? words
    | ["help"] | ["help", "parse"] | ["help", "replay"] | ["help", "help"] => some .help
    | _ => none

end Command
end Palimpsest
