import Palimpsest.Forest.Basic

/-!
Printed trees: a line for each node, indented by its depth, with its handle, tag, fields and place.
-/

namespace Palimpsest

/-- The fields that are no children, as they are printed. -/
def NodeKind.scalars {C : Type} : NodeKind C → String
  | moduleDecl v _ | variableDecl v _ | functionDecl v _ => v.keyword
  | module_ name _ | function name _ _ | identifier name => name
  | variable_ name kind _ => kind.display ++ " " ++ name
  | formal name intent => intent.display ++ " " ++ name
  | comment text => Quoted.quote text
  | intLiteral value => toString value.toNat
  | stringLiteral value => Quoted.quote value
  | foreignBlock code => Quoted.quote code
  | block _ | erroneous => ""

namespace Forest

def dumpLine (locations : Locations) (id : NodeId) (node : Node) (depth : Nat) : String :=
  let scalars := node.kind.scalars
  let place := match locations.get? id with
    | some l => "  @" ++ toString l.startLine ++ ":" ++ toString l.startCol
    | none => ""
  "".pushn ' ' (2 * depth) ++ id.display ++ " " ++ node.kind.tag.name
    ++ (if scalars.isEmpty then "" else " " ++ scalars) ++ place

def dump (f : Forest) (locations : Locations) (root : NodeId) : Except FreedNode String := do
  let lines ← (← f.view.withDepths root).mapM fun (id, depth) =>
    return dumpLine locations id (← f.get id) depth ++ "\n"
  return String.join lines

end Forest
end Palimpsest
