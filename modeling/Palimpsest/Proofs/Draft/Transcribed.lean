import Palimpsest.Proofs.Draft

/-!
Drafts and the syntax that they stand for. A draft has the kind, the fields and the span of what it stands
for, over the drafts of the parts; what is declared is a draft of its own below the declaration. Walked in
postorder, the trees of a file count through its drafts.
-/

namespace Palimpsest

namespace Surface

def Stmt.IsModule (s : Stmt) : Prop := ∃ visibility name body span, s = .moduleDecl visibility name body span

def Stmt.IsComment (s : Stmt) : Prop := ∃ text span, s = .comment text span

/-- Modules, at least one, and nothing else but comments. -/
def File.IsModules (f : File) : Prop := (∃ s ∈ f.stmts, s.IsModule) ∧ ∀ s ∈ f.stmts, s.IsModule ∨ s.IsComment

end Surface

namespace Draft

open Surface

/-- The draft of a number has the kind, and was read from the span. -/
def Holds (drafts : Array Draft) (i : Nat) (kind : NodeKind Nat) (span : Span) : Prop :=
  ∃ draft, drafts[i]? = some draft ∧ draft.kind = kind ∧ draft.span = span

/-- A draft stands for an expression. -/
inductive StandsForExpr (drafts : Array Draft) : Expr → Nat → Prop where
  | identifier {name span i} (h : Holds drafts i (.identifier name) span) :
      StandsForExpr drafts (.identifier name span) i
  | int {value span i} (h : Holds drafts i (.intLiteral value) span) : StandsForExpr drafts (.int value span) i
  | str {value span i} (h : Holds drafts i (.stringLiteral value) span) : StandsForExpr drafts (.str value span) i
  | bad {span i} (h : Holds drafts i .erroneous span) : StandsForExpr drafts (.bad span) i

/-- A draft stands for a formal parameter. -/
def StandsForFormal (drafts : Array Draft) (f : Formal) (i : Nat) : Prop :=
  Holds drafts i (.formal f.name f.intent) f.span

/-- A draft stands for a statement, with drafts for its parts in their order. A declaration holds the visibility,
and the symbol below it has the same span. -/
inductive Stands (drafts : Array Draft) : Stmt → Nat → Prop where
  | comment {text span i} (h : Holds drafts i (.comment text) span) : Stands drafts (.comment text span) i
  | moduleDecl {visibility name body span stmts symbol i} (hbody : List.Forall₂ (Stands drafts) body stmts)
      (hsymbol : Holds drafts symbol (.module_ name stmts) span)
      (h : Holds drafts i (.moduleDecl visibility symbol) span) :
      Stands drafts (.moduleDecl visibility name body span) i
  | procDecl {visibility name formals body bodySpan span parameters stmts block symbol i}
      (hformals : List.Forall₂ (StandsForFormal drafts) formals parameters)
      (hbody : List.Forall₂ (Stands drafts) body stmts) (hblock : Holds drafts block (.block stmts) bodySpan)
      (hsymbol : Holds drafts symbol (.function name parameters block) span)
      (h : Holds drafts i (.functionDecl visibility symbol) span) :
      Stands drafts (.procDecl visibility name formals body bodySpan span) i
  | varDecl {visibility kind name init span value symbol i} (hinit : Option.Rel (StandsForExpr drafts) init value)
      (hsymbol : Holds drafts symbol (.variable_ name kind value) span)
      (h : Holds drafts i (.variableDecl visibility symbol) span) :
      Stands drafts (.varDecl visibility kind name init span) i
  | block {body span stmts i} (hbody : List.Forall₂ (Stands drafts) body stmts)
      (h : Holds drafts i (.block stmts) span) : Stands drafts (.block body span) i
  | foreign {code span i} (h : Holds drafts i (.foreignBlock code) span) : Stands drafts (.foreign code span) i
  | expr {e span i} (h : StandsForExpr drafts e i) : Stands drafts (.expr e span) i
  | bad {span i} (h : Holds drafts i .erroneous span) : Stands drafts (.bad span) i

/-- What is made stays as it is while more is made. -/
theorem holds_make (kind : NodeKind Nat) (span : Span) (drafts : Array Draft) {more : Array Draft}
    (hmore : Grows (make kind span drafts).2 more) : Holds more (make kind span drafts).1 kind span :=
  ⟨_, hmore _ _ Array.getElem?_push_size, rfl, rfl⟩

theorem grows_make (kind : NodeKind Nat) (span : Span) (drafts : Array Draft) :
    Grows drafts (make kind span drafts).2 := .push _ _

section Made

variable {drafts more : Array Draft}

theorem standsForExpr_ofExpr (e : Expr) (hmore : Grows (ofExpr e drafts).2 more) :
    StandsForExpr more e (ofExpr e drafts).1 := by
  cases e with
  | identifier name span => exact .identifier (holds_make _ span drafts hmore)
  | int value span => exact .int (holds_make _ span drafts hmore)
  | str value span => exact .str (holds_make _ span drafts hmore)
  | bad span => exact .bad (holds_make _ span drafts hmore)

theorem stands_ofInit (init : Option Expr) (hmore : Grows (ofInit init drafts).2 more) :
    Option.Rel (StandsForExpr more) init (ofInit init drafts).1 := by
  cases init with
  | none => exact .none
  | some e => exact .some (standsForExpr_ofExpr e hmore)

theorem stands_formals (formals : List Formal) (hdrafts : Numbered drafts)
    (hmore : Grows (formals.mapM ofFormal drafts).2 more) :
    List.Forall₂ (StandsForFormal more) formals (formals.mapM ofFormal drafts).1 := by
  induction formals generalizing drafts with
  | nil => exact .nil
  | cons f rest ih =>
      have hfirst := makes_ofFormal f drafts hdrafts (by simp)
      have hrest := makes_formals rest (ofFormal f drafts).2 hfirst.numbered (by simp)
      rw [List.mapM_cons] at hmore ⊢
      exact .cons (holds_make _ f.span drafts (hrest.grows.trans hmore)) (ih hfirst.numbered hmore)

mutual

/-- A statement's draft, and those below it, stand for it as soon as they are made. -/
theorem stands_ofStmt : (s : Stmt) → (drafts : Array Draft) → Numbered drafts → {more : Array Draft} →
    Grows (ofStmt s drafts).2 more → Stands more s (ofStmt s drafts).1
  | .comment _ span, drafts, _, _, hmore => .comment (holds_make _ span drafts hmore)
  | .foreign _ span, drafts, _, _, hmore => .foreign (holds_make _ span drafts hmore)
  | .bad span, drafts, _, _, hmore => .bad (holds_make _ span drafts hmore)
  | .expr e _, _, _, _, hmore => .expr (standsForExpr_ofExpr e hmore)
  | .block body span, drafts, hdrafts, _, hmore => by
      have hbody := stands_ofStmts body drafts hdrafts ((grows_make _ span _).trans hmore)
      exact .block hbody (holds_make _ span _ hmore)
  | .moduleDecl visibility name body span, drafts, hdrafts, more, hmore => by
      let stmts := (ofStmts body drafts).1
      have hsymbol : Grows (make (.module_ name stmts) span (ofStmts body drafts).2).2 more :=
        (grows_make (.moduleDecl visibility _) span _).trans hmore
      have hbody := stands_ofStmts body drafts hdrafts ((grows_make _ span _).trans hsymbol)
      exact .moduleDecl hbody (holds_make _ span _ hsymbol) (holds_make _ span _ hmore)
  | .varDecl visibility kind name init span, drafts, hdrafts, more, hmore => by
      let value := (ofInit init drafts).1
      have hsymbol : Grows (make (.variable_ name kind value) span (ofInit init drafts).2).2 more :=
        (grows_make (.variableDecl visibility _) span _).trans hmore
      have hinit := stands_ofInit init ((grows_make _ span _).trans hsymbol)
      exact .varDecl hinit (holds_make _ span _ hsymbol) (holds_make _ span _ hmore)
  | .procDecl visibility name formals body bodySpan span, drafts, hdrafts, more, hmore => by
      let parameters := (formals.mapM ofFormal drafts).1
      let declared := (formals.mapM ofFormal drafts).2
      have hdeclared := makes_formals formals drafts hdrafts (by simp)
      have hmade := makes_ofStmts body declared hdeclared.numbered (by simp)
      let stmts := (ofStmts body declared).1
      let inside := (ofStmts body declared).2
      have hsymbol : Grows (make (.function name parameters inside.size) span
          (make (.block stmts) bodySpan inside).2).2 more :=
        (grows_make (.functionDecl visibility _) span _).trans hmore
      have hblock : Grows (make (.block stmts) bodySpan inside).2 more := (grows_make _ span _).trans hsymbol
      have hinside : Grows inside more := (grows_make _ bodySpan _).trans hblock
      have hbody := stands_ofStmts body declared hdeclared.numbered hinside
      have hformals := stands_formals formals hdrafts (hmade.grows.trans hinside)
      exact .procDecl hformals hbody (holds_make _ bodySpan _ hblock) (holds_make _ span _ hsymbol)
        (holds_make _ span _ hmore)

theorem stands_ofStmts : (stmts : List Stmt) → (drafts : Array Draft) → Numbered drafts → {more : Array Draft} →
    Grows (ofStmts stmts drafts).2 more → List.Forall₂ (Stands more) stmts (ofStmts stmts drafts).1
  | [], _, _, _, _ => .nil
  | s :: rest, drafts, hdrafts, _, hmore => by
      have hfirst := makes_ofStmt s drafts hdrafts (by simp)
      have hrest := makes_ofStmts rest (ofStmt s drafts).2 hfirst.numbered (by simp)
      exact .cons (stands_ofStmt s drafts hdrafts (hrest.grows.trans hmore))
        (stands_ofStmts rest _ hfirst.numbered hmore)

end

end Made
end Draft

namespace Surface.File

theorem isModule_iff {s : Stmt} : Draft.isModule s = true ↔ s.IsModule := by
  cases s with
  | moduleDecl visibility name body span => exact ⟨fun _ => ⟨visibility, name, body, span, rfl⟩, fun _ => rfl⟩
  | comment _ _ | procDecl _ _ _ _ _ _ | varDecl _ _ _ _ _ | block _ _ | foreign _ _ | expr _ _ | bad _ =>
      simp [Draft.isModule, Stmt.IsModule]

theorem onlyModules_iff {f : File} : f.onlyModules = true ↔ f.IsModules := by
  rw [onlyModules, Bool.and_eq_true, List.any_eq_true, List.all_eq_true]
  refine and_congr (exists_congr fun s => and_congr_right fun _ => isModule_iff) (forall₂_congr ?_)
  intro s _
  cases s <;> simp [Stmt.IsModule, Stmt.IsComment]

end Surface.File

namespace DraftTree

open Draft

/-- The drafts of a file in the order of their numbers, and what they stand for. A file of modules has a root for
each, and the comments between them are left out. Any other file is the body of one module. -/
structure Transcribes (t : DraftTree) (f : Surface.File) (implicitName : String) : Prop where
  postorder : (t.roots.flatMap fun i => (t.view.postorder i).run) = List.range t.drafts.size
  child_lt : ∀ i, ∀ c ∈ (t.kindOf i).children, c < i
  modules : f.IsModules → List.Forall₂ (Stands t.drafts) (f.stmts.filter isModule) t.roots
  implicit : ¬f.IsModules → ∃ root symbol stmts, t.roots = [root] ∧
    Holds t.drafts root (.moduleDecl .plain symbol) f.span ∧
    Holds t.drafts symbol (.module_ implicitName stmts) f.span ∧ List.Forall₂ (Stands t.drafts) f.stmts stmts

theorem postorder_eq {t : DraftTree} (h : Numbered t.drafts) {i : Nat} (hi : i < t.drafts.size) :
    (t.view.postorder i).run = t.subtreeUp i :=
  TreeView.postorder_eq (m := Id) (t := t.view) (sized h) (fun _ _ => rfl) hi rfl

end DraftTree
end Palimpsest
