/-!
Reachability by a worklist. `trace` asks for the successors of each item once and marks what can be
reached; `limit` bounds the number of items that are asked for theirs.
-/

namespace Palimpsest
namespace Reach

/-- What is marked, in the order of marking, and whose successors were asked for. -/
structure Trace (α : Type) where
  marked : List α
  asked : List α
deriving DecidableEq, Repr, Inhabited

variable {m : Type → Type} [Monad m] {α : Type} [DecidableEq α]

/-- Marks the items not marked yet and puts each on top of the pending ones. -/
def mark (items : List α) (pending marked : List α) : List α × List α :=
  items.foldl (fun (pending, marked) x =>
    if marked.contains x then (pending, marked) else (x :: pending, marked ++ [x])) (pending, marked)

def loop (successors : α → m (List α)) : (limit : Nat) → List α → Trace α → m (Trace α)
  | 0, _, t | _, [], t => return t
  | n + 1, x :: pending, t => do
    let next ← successors x
    let (pending, marked) := mark next pending t.marked
    loop successors n pending { marked, asked := t.asked ++ [x] }

/-- Everything that can be reached from the roots, themselves included. -/
def trace (successors : α → m (List α)) (limit : Nat) (roots : List α) : m (Trace α) :=
  let (pending, marked) := mark roots [] []
  loop successors limit pending { marked, asked := [] }

end Reach
end Palimpsest
