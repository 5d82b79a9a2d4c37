/-!
The values of TOML, and how a document builds its tables. A table remembers how it came about: a table
that was written out in one place is not added to from another.
-/

namespace Palimpsest
namespace Toml

/-- How a table came about. -/
inductive Origin where
  /-- Written in braces. -/
  | inline
  /-- Opened by a header of its own, or the document. -/
  | header
  /-- Passed through by the header of a table inside it. -/
  | implied
  /-- Passed through by a dotted key. -/
  | dotted
deriving DecidableEq, Repr, Inhabited

/-- Numbers that are no integers, and dates, are kept as written. -/
inductive Value where
  | str (s : String)
  | int (n : Int)
  | float (literal : String)
  | bool (b : Bool)
  | datetime (literal : String)
  | array (items : List Value)
  /-- The tables opened by double headers of one name. -/
  | tables (items : List Value)
  | table (origin : Origin) (members : List (String × Value))
deriving Repr, Inhabited

abbrev Members := List (String × Value)

namespace Members

/-- Changes the member `key`, which may be absent before. -/
def alter (key : String) (f : Option Value → Option Value) : Members → Option Members
  | [] => (f none).map fun v => [(key, v)]
  | (k, v) :: rest =>
    if k = key then (f (some v)).map fun v => (k, v) :: rest
    else (alter key f rest).map ((k, v) :: ·)

/-- Changes the last of several tables. -/
def alterLast (f : Value → Option Value) : List Value → Option (List Value)
  | [] => none
  | [v] => (f v).map ([·])
  | v :: rest => (alterLast f rest).map (v :: ·)

/-- Changes the table at the end of a path, making the tables on the way that are not there yet. -/
def within (byKey : Bool) (f : Origin → Members → Option Members) : List String → Origin → Members → Option Members
  | [], origin, m => f origin m
  | k :: path, _, m =>
    let enter : Value → Option Value
      | .table origin m =>
        if origin = .inline ∨ (byKey ∧ origin = .header) then none
        else (within byKey f path origin m).map (.table origin)
      | _ => none
    alter k (fun
      | none =>
        let origin : Origin := if byKey then .dotted else .implied
        (within byKey f path origin []).map (.table origin)
      | some (.tables items) => (alterLast (fun
          | .table origin m => (within byKey f path origin m).map (.table origin)
          | _ => none) items).map .tables
      | some v => enter v) m

/-- Adds a member under a dotted key to a table. -/
def insert (path : List String) (key : String) (v : Value) (m : Members) : Option Members :=
  within true (fun origin m =>
    if (origin == .dotted) == path.isEmpty then none
    else alter key (fun old => if old.isSome then none else some v) m) path .header m

/-- Opens the table of a header. -/
def openTable (path : List String) (key : String) (m : Members) : Option Members :=
  within false (fun _ m => alter key (fun
    | none => some (.table .header [])
    | some (.table .implied m) => some (.table .header m)
    | some _ => none) m) path .header m

/-- Opens one more table of a double header. -/
def openTables (path : List String) (key : String) (m : Members) : Option Members :=
  within false (fun _ m => alter key (fun
    | none => some (.tables [.table .header []])
    | some (.tables items) => some (.tables (items ++ [.table .header []]))
    | some _ => none) m) path .header m

end Members
end Toml
end Palimpsest
