import Palimpsest.Node.Walk

/-!
Names for symbols that outlive an edit: the symbols around a symbol, its own name, and how many symbols
of that name the same scope had before it.
-/

namespace Palimpsest

structure SymbolKey where
  /-- The names of the enclosing modules and functions, from the outermost in. -/
  scope : List String
  name : String
  occurrence : Nat
deriving DecidableEq, Repr, Inhabited

namespace SymbolKey

def display (k : SymbolKey) : String :=
  String.join (k.scope.map (· ++ ".")) ++ k.name ++ "#" ++ toString k.occurrence

end SymbolKey

namespace TreeView

variable {m : Type → Type} [Monad m] {H : Type}

/-- The key of a symbol met after the symbols of `before`. -/
def nextKey (before : List (H × SymbolKey)) (scope : List String) (name : String) : SymbolKey :=
  ⟨scope, name, before.countP fun e => e.2.scope == scope && e.2.name == name⟩

/-- Adds the symbols of pending subtrees, each with the scope it stands in, to those met so far. -/
def symbolLoop (t : TreeView m H) :
    (steps : Nat) → List (List String × H) → List (H × SymbolKey) → m (List (H × SymbolKey))
  | 0, _, met | _, [], met => return met
  | n + 1, (scope, h) :: stack, met => do
    let k ← t.kind h
    let met := match k.symbolName? with
      | some name => met ++ [(h, nextKey met scope name)]
      | none => met
    let inner := match k.symbolName? with
      | some name => if k.opensScope then scope ++ [name] else scope
      | none => scope
    symbolLoop t n (k.children.map (inner, ·) ++ stack) met

/-- The symbols of several trees in preorder, with their keys. -/
def symbolVisits (t : TreeView m H) (roots : List H) : m (List (H × SymbolKey)) := do
  symbolLoop t ((← roots.mapM t.size).foldr (· + ·) 0) (roots.map ([], ·)) []

/-- Of several entries for one handle only the last. -/
def lastEntries [DecidableEq H] : List (H × SymbolKey) → List (H × SymbolKey)
  | [] => []
  | e :: rest => if rest.any (·.1 == e.1) then lastEntries rest else e :: lastEntries rest

/-- Each symbol of the trees with its key. -/
def symbolKeys [DecidableEq H] (t : TreeView m H) (roots : List H) : m (List (H × SymbolKey)) :=
  return lastEntries (← t.symbolVisits roots)

end TreeView
end Palimpsest
