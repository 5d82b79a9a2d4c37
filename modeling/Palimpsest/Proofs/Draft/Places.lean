import Palimpsest.Draft.Lower
import Palimpsest.Proofs.Token.Written

/-!
Places in drafts. The drafts of a file are those of the file without its places, at the places that they were
read from: nothing else in a draft, not its fingerprint either, hangs on a span.
-/

namespace Palimpsest

def Draft.unplaced (d : Draft) : Draft := { d with span := default }

/-- The drafts apart from where they were read. -/
def DraftTree.unplaced (t : DraftTree) : DraftTree := { t with drafts := t.drafts.map Draft.unplaced }

namespace Draft

open Surface

/-- Over unplaced drafts, `y` makes what `x` makes, unplaced. -/
def Unplaces {α : Type} (x y : Make α) : Prop :=
  ∀ drafts : Array Draft, y (drafts.map unplaced) = ((x drafts).1, (x drafts).2.map unplaced)

namespace Unplaces

variable {α β : Type}

theorem make (kind : NodeKind Nat) (span : Span) : Unplaces (Draft.make kind span) (Draft.make kind default) := by
  intro drafts
  have hget (i : Nat) {γ : Type} (f : Draft → γ) (hf : ∀ d, f d.unplaced = f d) :
      ((drafts.map unplaced)[i]?).map f = (drafts[i]?).map f := by
    rw [Array.getElem?_map, Option.map_map]
    exact congrArg (fun g => (drafts[i]?).map g) (funext hf)
  have hprint (i : Nat) : ((drafts.map unplaced)[i]?).map fingerprint = (drafts[i]?).map fingerprint :=
    hget i _ fun _ => rfl
  have hsize (i : Nat) : ((drafts.map unplaced)[i]?).map size = (drafts[i]?).map size := hget i _ fun _ => rfl
  simp only [Draft.make, hprint, hsize, Array.size_map, Array.map_push]
  rfl

theorem pure (a : α) : Unplaces (Pure.pure a : Make α) (Pure.pure a) := fun _ => rfl

theorem bind {x y : Make α} {f g : α → Make β} (hx : Unplaces x y) (hf : ∀ a, Unplaces (f a) (g a)) :
    Unplaces (x >>= f) (y >>= g) := by
  intro drafts
  change g (y (drafts.map unplaced)).1 (y (drafts.map unplaced)).2 = _
  rw [hx drafts]
  exact hf _ _

end Unplaces

theorem unplaces_ofExpr (e : Expr) : Unplaces (ofExpr e) (ofExpr e.unplaced) := by
  cases e with
  | identifier _ span | int _ span | str _ span | bad span => exact .make _ span

theorem unplaces_ofInit (init : Option Expr) : Unplaces (ofInit init) (ofInit (init.map Expr.unplaced)) := by
  cases init with
  | none => exact .pure none
  | some e => exact (unplaces_ofExpr e).bind fun i => .pure (some i)

theorem unplaces_formals (formals : List Formal) :
    Unplaces (formals.mapM ofFormal) ((formals.map Formal.unplaced).mapM ofFormal) := by
  induction formals with
  | nil => exact .pure []
  | cons f rest ih =>
      rw [List.map_cons, List.mapM_cons, List.mapM_cons]
      have hfirst : Unplaces (ofFormal f) (ofFormal f.unplaced) := .make _ f.span
      exact hfirst.bind fun i => ih.bind fun is => .pure (i :: is)

mutual

theorem unplaces_ofStmt : (s : Stmt) → Unplaces (ofStmt s) (ofStmt s.unplaced)
  | .comment _ span | .foreign _ span | .bad span => .make _ span
  | .expr e _ => unplaces_ofExpr e
  | .block body span => (unplaces_ofStmts body).bind fun _ => .make _ span
  | .moduleDecl _ _ body span => (unplaces_ofStmts body).bind fun _ => .bind (.make _ span) fun _ => .make _ span
  | .varDecl _ _ _ init span => (unplaces_ofInit init).bind fun _ => .bind (.make _ span) fun _ => .make _ span
  | .procDecl _ _ formals body bodySpan span =>
      (unplaces_formals formals).bind fun _ => (unplaces_ofStmts body).bind fun _ =>
        .bind (.make _ bodySpan) fun _ => .bind (.make _ span) fun _ => .make _ span

theorem unplaces_ofStmts : (stmts : List Stmt) → Unplaces (ofStmts stmts) (ofStmts (unplacedList stmts))
  | [] => .pure []
  | s :: rest => (unplaces_ofStmt s).bind fun i => (unplaces_ofStmts rest).bind fun is => .pure (i :: is)

end

theorem onlyModules_unplaced (f : File) : f.unplaced.onlyModules = f.onlyModules := by
  rw [File.onlyModules, File.unplaced, unplacedList_eq, List.any_map, List.all_map, File.onlyModules]
  congr 2 <;> exact funext fun s => by cases s <;> rfl

theorem filter_isModule_unplaced (stmts : List Stmt) :
    (unplacedList stmts).filter isModule = unplacedList (stmts.filter isModule) := by
  have hmodule : isModule ∘ Stmt.unplaced = isModule := by
    funext s
    cases s <;> rfl
  rw [unplacedList_eq, List.filter_map, hmodule, unplacedList_eq]

theorem unplaces_ofFile (f : File) (implicitName : String) :
    Unplaces (ofFile f implicitName) (ofFile f.unplaced implicitName) := by
  rw [ofFile, ofFile, onlyModules_unplaced]
  split
  · rw [File.unplaced, filter_isModule_unplaced]
    exact unplaces_ofStmts _
  · exact (unplaces_ofStmts f.stmts).bind fun _ => .bind (.make _ f.span) fun _ =>
      .bind (.make _ f.span) fun root => .pure [root]

end Draft

theorem DraftTree.unplaced_ofFile (f : Surface.File) (implicitName : String) :
    (ofFile f implicitName).unplaced = ofFile f.unplaced implicitName := by
  have h := Draft.unplaces_ofFile f implicitName #[]
  rw [Array.map_empty] at h
  change DraftTree.mk ((Draft.ofFile f implicitName #[]).2.map Draft.unplaced) (Draft.ofFile f implicitName #[]).1 =
    DraftTree.mk (Draft.ofFile f.unplaced implicitName #[]).2 (Draft.ofFile f.unplaced implicitName #[]).1
  rw [h]

/-- Texts in which the same is written have the same drafts, at other places. -/
theorem DraftTree.unplaced_ofText {a b : String} (h : written a = written b) (implicitName : String) :
    (ofFile (Surface.parseText a).file implicitName).unplaced =
      (ofFile (Surface.parseText b).file implicitName).unplaced := by
  rw [unplaced_ofFile, unplaced_ofFile, Surface.File.unplaced, Surface.unplacedList_parseText h]
  rfl

end Palimpsest
