import Palimpsest.Files
import Palimpsest.Session.Basic
import Palimpsest.Toml.Document

/-!
Settings of a session and of the command line, with the values they have when nothing is said, and settings
from a file. Every setting may be left out, and none but the known ones may be there.
-/

namespace Palimpsest

structure Config where
  engine : Tuning
  /-- Which log messages are shown. -/
  logFilter : String
deriving DecidableEq, Repr

def Config.standard : Config := ⟨.standard, "warn"⟩

instance : Inhabited Config := ⟨.standard⟩

namespace Blank

/-- The code points with the property White_Space, as ranges with both ends. -/
def ranges : List (Nat × Nat) :=
  [(0x9, 0xD), (0x20, 0x20), (0x85, 0x85), (0xA0, 0xA0), (0x1680, 0x1680), (0x2000, 0x200A),
   (0x2028, 0x2029), (0x202F, 0x202F), (0x205F, 0x205F), (0x3000, 0x3000)]

def isBlank (c : Char) : Bool := ranges.any fun r => r.1 ≤ c.toNat && c.toNat ≤ r.2

def isAllBlank (s : String) : Bool := s.toList.all isBlank

end Blank

/-- Why settings cannot be had. -/
inductive ConfigError where
  | unreadable (path : String) (reason : FileError)
  /-- No document, or not one of settings. -/
  | malformed
  /-- A setting that cannot be used. -/
  | invalid (field reason : String)
deriving DecidableEq, Repr, Inhabited

def ConfigError.message : ConfigError → String
  | unreadable path reason => "cannot read " ++ path ++ ": " ++ reason.message
  | malformed => "malformed configuration: not the settings of a session"
  | invalid field reason => "invalid \x60" ++ field ++ "\x60: " ++ reason

namespace Config

open Toml

/-- Whether only known members are there. -/
def areKnown (known : List String) (m : Members) : Bool := m.all fun e => known.contains e.1

/-- A member that may be left out. -/
def optional {α : Type} (read : Value → Option α) (absent : α) (v : Option Value) : Option α :=
  match v with
  | some v => read v
  | none => some absent

def asBool? : Value → Option Bool
  | .bool b => some b
  | _ => none

/-- A count of 32 bits. -/
def asCount? : Value → Option Nat
  | .int n => if 0 ≤ n ∧ n < 0x100000000 then some n.toNat else none
  | _ => none

def asString? : Value → Option String
  | .str s => some s
  | _ => none

def tuningOf? (keep every : Option Value) : Option Tuning := do
  let keepOldResults ← optional asBool? Tuning.standard.keepOldResults keep
  let gcEvery ← optional asCount? Tuning.standard.gcEvery every
  return { keepOldResults, gcEvery }

/-- The settings of a section may also be listed in their order. -/
def tuning? : Value → Option Tuning
  | .table _ m =>
    if areKnown ["keep_old_results", "gc_every"] m then
      tuningOf? (m.lookup "keep_old_results") (m.lookup "gc_every")
    else none
  | .array items | .tables items => tuningOf? items[0]? items[1]?
  | _ => none

def logFilter? : Value → Option String
  | .table _ m =>
    if areKnown ["filter"] m then optional asString? Config.standard.logFilter (m.lookup "filter") else none
  | .array items | .tables items => optional asString? Config.standard.logFilter items[0]?
  | _ => none

def ofMembers? (m : Members) : Option Config := do
  if !areKnown ["engine", "log"] m then none
  let engine ← optional tuning? .standard (m.lookup "engine")
  let logFilter ← optional logFilter? Config.standard.logFilter (m.lookup "log")
  return { engine, logFilter }

/-- The settings of a text. -/
def ofText (text : String) : Except ConfigError Config :=
  match (Toml.read? text).bind ofMembers? with
  | none => .error .malformed
  | some c => if Blank.isAllBlank c.logFilter then .error (.invalid "log.filter" "must not be empty") else .ok c

/-- The settings of a file, which has to be there. -/
def ofFile (files : Files) (path : String) : Except ConfigError Config :=
  match files.read path with
  | .ok text => ofText text
  | .error reason => .error (.unreadable path reason)

/-- The name of the file that holds the settings of a directory. -/
def fileName : String := "strata.toml"

/-- The settings of a directory; without a file they are the standard ones. -/
def ofDirectory (files : Files) (dir : String) : Except ConfigError Config :=
  let path := Path.join dir fileName
  if files.isThere path then ofFile files path else .ok .standard

end Config

end Palimpsest
