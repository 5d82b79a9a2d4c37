import Palimpsest.Draft.Lower
import Palimpsest.Files
import Palimpsest.Session.Basic
import Palimpsest.Surface.Parser

/-!
The bodies of the queries of a session.
-/

namespace Palimpsest
namespace Session

abbrev Step := Query.Script Key Value World BodyFault

/-- Parses a text and reconciles its tree with the trees of `oldRoots`. A file that declares no modules is
one module, called by the stem of the path. -/
def World.parse (w : World) (path : String) (text : SourceText) (oldRoots : List NodeId) :
    Except BodyFault (ParsedFile × World) :=
  let parsed := Surface.parseText text.content
  let implicitName := Path.stem path
  let names := (w.names.addAll parsed.file.names).add implicitName
  let drafts := DraftTree.ofFile parsed.file implicitName
  match reconcile w.forest w.locations oldRoots drafts path text with
  | .ok (modules, s) =>
    .ok ({ modules, diagnostics := Diagnostic.inTextOrder parsed.reports, reuse := s.stats },
      { names, forest := s.forest, locations := s.locations })
  | .error (.freed e) => .error (.freed e)
  | .error (.misnumbered i) => .error (.misnumbered i)

/-- The symbols that nodes declare. -/
def declaredBy (forest : Forest) (ids : List NodeId) : Except FreedNode (List NodeId) := do
  let nodes ← ids.mapM forest.get
  return nodes.filterMap (·.kind.declared?)

def moduleEntries (forest : Forest) (roots : List NodeId) : Except FreedNode (List ModuleEntry) := do
  (← declaredBy forest roots).mapM fun module_ => do
    return { module_, symbols := ← declaredBy forest (← forest.view.declarations module_) }

def parseBody (path : String) (old : Option Value) : Step :=
  .read (.fileText path) fun
    | .text text => .look fun w =>
      let oldRoots := match old with
        | some (.parsed p) => p.modules
        | _ => []
      match w.parse path text oldRoots with
      | .ok (parsed, w) => .change w (.yield (.parsed parsed))
      | .error e => .fail e
    | _ => .fail .wrongKind

def moduleSymbolsBody (path : String) : Step :=
  .read (.parse path) fun
    | .parsed p => .look fun w =>
      match moduleEntries w.forest p.modules with
      | .ok entries => .yield (.symbols entries)
      | .error e => .fail (.freed e)
    | _ => .fail .wrongKind

def rules : Query.Rules Key Value World BodyFault where
  isInput := Key.isInput
  kind := Key.kind
  same := Value.same
  body
    | .parse path, old => parseBody path old
    | .moduleSymbols path, _ => moduleSymbolsBody path
    | .fileText _, _ => .fail .wrongKind

/-- Symbols are read from a tree, and a tree from a text. -/
def queryDepth : Nat := 3

end Session
end Palimpsest
