/-!
What the program can be asked to do.
-/

namespace Palimpsest
namespace Command

inductive ColorChoice where
  /-- Colours where errors go to a terminal. -/
  | auto
  | always
  | never
deriving DecidableEq, Repr, Inhabited

def ColorChoice.ofName? : String → Option ColorChoice
  | "auto" => some auto
  | "always" => some always
  | "never" => some never
  | _ => none

def ColorChoice.isOn (onTerminal : Bool) : ColorChoice → Bool
  | auto => onTerminal
  | always => true
  | never => false

inductive Format where
  /-- For people. -/
  | text
  /-- One JSON object to a line. -/
  | json
deriving DecidableEq, Repr, Inhabited

def Format.ofName? : String → Option Format
  | "text" => some text
  | "json" => some json
  | _ => none

/-- What is asked of every job alike. -/
structure Manner where
  /-- Whether nothing but reports is printed. -/
  quiet : Bool
  /-- Whether everything is logged. -/
  verbose : Bool
  color : ColorChoice
  /-- The file with the settings, if not the usual one. -/
  config : Option String
deriving DecidableEq, Repr, Inhabited

inductive Job where
  /-- Parses files and says which modules they hold. -/
  | parse (files : List String) (dump : Bool) (format : Format)
  /-- Sets the contents of files, one after the other, as the text of one path, and says what of its tree
  each edit left. -/
  | replay (path : String) (revisions : List String) (format : Format)
deriving DecidableEq, Repr, Inhabited

inductive Request where
  | run (manner : Manner) (job : Job)
  | help
  | version
deriving DecidableEq, Repr, Inhabited

/-- The files that a job reads. -/
def Job.files : Job → List String
  | parse files _ _ => files
  | replay _ revisions _ => revisions

end Command
end Palimpsest
