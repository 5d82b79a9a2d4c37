/-!
Counters of what was done to answer queries.
-/

namespace Palimpsest
namespace Query

structure Stats where
  /-- How often the bodies of each kind ran, in ascending order of the kinds. -/
  executions : List (String × Nat)
  /-- Reads answered by a value known to be current. -/
  hits : Nat
  /-- Values brought up to date without running a body. -/
  validations : Nat
  /-- Runs that gave the value of before. -/
  backdates : Nat
deriving DecidableEq, Repr, Inhabited

namespace Stats

def zero : Stats := ⟨[], 0, 0, 0⟩

/-- One more for `kind`, which keeps its place in the order. -/
def bump (kind : String) : List (String × Nat) → List (String × Nat)
  | [] => [(kind, 1)]
  | (k, n) :: rest =>
    if k = kind then (k, n + 1) :: rest
    else if kind < k then (kind, 1) :: (k, n) :: rest
    else (k, n) :: bump kind rest

def executionsOf (s : Stats) (kind : String) : Nat := (s.executions.lookup kind).getD 0

def total (s : Stats) : Nat := (s.executions.map Prod.snd).foldr (· + ·) 0

def recordExecution (s : Stats) (kind : String) : Stats :=
  { s with executions := bump kind s.executions }

def display (s : Stats) : String :=
  let counts := s.executions.map fun (kind, n) => kind ++ " x" ++ toString n
  let executed := if counts.isEmpty then "nothing" else ", ".intercalate counts
  "executed " ++ executed ++ "; " ++ toString s.hits ++ " hits, " ++ toString s.validations
    ++ " validated, " ++ toString s.backdates ++ " backdated"

end Stats
end Query
end Palimpsest
