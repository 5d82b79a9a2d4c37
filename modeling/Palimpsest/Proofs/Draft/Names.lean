import Palimpsest.Draft.Lower
import Palimpsest.Node.Kind

/-!
Names in drafts. What drafts are called was read in the file, but for the module that a file stands for.
-/

namespace Palimpsest
namespace Draft

open Surface

variable {P : String → Prop}

/-- The drafts with a name are called so. -/
def Named (P : String → Prop) (drafts : Array Draft) : Prop :=
  ∀ draft ∈ drafts, ∀ n, draft.kind.symbolName? = some n → P n

/-- What is made keeps drafts called so. -/
def KeepsNamed (P : String → Prop) {α : Type} (x : Make α) : Prop :=
  ∀ drafts, Named P drafts → Named P (x drafts).2

namespace KeepsNamed

variable {α β : Type}

theorem make {kind : NodeKind Nat} {span : Span} (h : ∀ n, kind.symbolName? = some n → P n) :
    KeepsNamed P (Draft.make kind span) := by
  intro drafts hdrafts draft hmem
  cases Array.mem_push.mp hmem with
  | inl hold => exact hdrafts draft hold
  | inr hnew =>
      rw [hnew]
      exact h

theorem anonymous {kind : NodeKind Nat} {span : Span} (h : kind.symbolName? = none) :
    KeepsNamed P (Draft.make kind span) := make fun _ hn => nomatch h.symm.trans hn

theorem pure (a : α) : KeepsNamed P (Pure.pure a : Make α) := fun _ h => h

theorem bind {x : Make α} {f : α → Make β} (hx : KeepsNamed P x) (hf : ∀ a, KeepsNamed P (f a)) :
    KeepsNamed P (x >>= f) := fun drafts h => hf _ _ (hx drafts h)

end KeepsNamed

theorem keepsNamed_ofExpr (e : Expr) : KeepsNamed P (ofExpr e) := by
  cases e with
  | identifier _ _ | int _ _ | str _ _ | bad _ => exact .anonymous rfl

theorem keepsNamed_ofInit (init : Option Expr) : KeepsNamed P (ofInit init) := by
  cases init with
  | none => exact .pure none
  | some e => exact (keepsNamed_ofExpr e).bind fun _ => .pure _

theorem keepsNamed_formals {formals : List Formal} (h : ∀ f ∈ formals, P f.name) :
    KeepsNamed P (formals.mapM ofFormal) := by
  induction formals with
  | nil => exact .pure []
  | cons f rest ih =>
      rw [List.mapM_cons]
      have hfirst : KeepsNamed P (ofFormal f) := .make fun n hn => Option.some.inj hn ▸ h f List.mem_cons_self
      exact hfirst.bind fun _ => (ih fun x hx => h x (List.mem_cons_of_mem f hx)).bind fun _ => .pure _

mutual

theorem keepsNamed_ofStmt : (s : Stmt) → (∀ n ∈ s.names, P n) → KeepsNamed P (ofStmt s)
  | .comment _ _, _ | .foreign _ _, _ | .bad _, _ => .anonymous rfl
  | .expr e _, _ => keepsNamed_ofExpr e
  | .block body _, h => (keepsNamed_ofStmts body h).bind fun _ => .anonymous rfl
  | .moduleDecl _ name body _, h => by
      obtain ⟨hname, hbody⟩ := List.forall_mem_cons.mp h
      exact (keepsNamed_ofStmts body hbody).bind fun _ => .bind (.make fun n hn => Option.some.inj hn ▸ hname) fun _ =>
        .anonymous rfl
  | .varDecl _ _ name init _, h => by
      obtain ⟨hname, -⟩ := List.forall_mem_cons.mp h
      exact (keepsNamed_ofInit init).bind fun _ => .bind (.make fun n hn => Option.some.inj hn ▸ hname) fun _ =>
        .anonymous rfl
  | .procDecl _ name formals body _ _, h => by
      obtain ⟨hname, hbelow⟩ := List.forall_mem_cons.mp h
      obtain ⟨hformals, hbody⟩ := List.forall_mem_append.mp hbelow
      exact (keepsNamed_formals (List.forall_mem_map.mp hformals)).bind fun _ =>
        (keepsNamed_ofStmts body hbody).bind fun _ => .bind (.anonymous rfl) fun _ =>
          .bind (.make fun n hn => Option.some.inj hn ▸ hname) fun _ => .anonymous rfl

theorem keepsNamed_ofStmts : (stmts : List Stmt) → (∀ n ∈ namesOfList stmts, P n) → KeepsNamed P (ofStmts stmts)
  | [], _ => .pure []
  | s :: rest, h => by
      obtain ⟨hfirst, hrest⟩ := List.forall_mem_append.mp h
      exact (keepsNamed_ofStmt s hfirst).bind fun _ => (keepsNamed_ofStmts rest hrest).bind fun _ => .pure _

end

theorem mem_namesOfList {stmts : List Stmt} {n : String} :
    n ∈ namesOfList stmts ↔ ∃ s ∈ stmts, n ∈ s.names := by
  induction stmts with
  | nil => simp [namesOfList]
  | cons s rest ih => simp [namesOfList, ih]

theorem keepsNamed_ofFile {f : File} {implicitName : String} (hnames : ∀ n ∈ f.names, P n)
    (himplicit : P implicitName) : KeepsNamed P (ofFile f implicitName) := by
  rw [ofFile]
  split
  · refine keepsNamed_ofStmts _ fun n hn => ?_
    obtain ⟨s, hs, hmem⟩ := mem_namesOfList.mp hn
    exact hnames n (mem_namesOfList.mpr ⟨s, (List.mem_filter.mp hs).1, hmem⟩)
  · exact (keepsNamed_ofStmts f.stmts hnames).bind fun _ =>
      .bind (.make fun n hn => Option.some.inj hn ▸ himplicit) fun _ => .bind (.anonymous rfl) fun _ => .pure _

end Draft

/-- The drafts of a file are called as the names in it, or as the file. -/
theorem DraftTree.symbolName_ofFile {f : Surface.File} {implicitName : String} {draft : Draft} {n : String}
    (hmem : draft ∈ (DraftTree.ofFile f implicitName).drafts) (hn : draft.kind.symbolName? = some n) :
    n ∈ f.names ∨ n = implicitName := by
  have hnamed : Draft.Named (fun n => n ∈ f.names ∨ n = implicitName) (DraftTree.ofFile f implicitName).drafts :=
    Draft.keepsNamed_ofFile (fun _ h => .inl h) (.inr rfl) #[] fun _ h => by simp at h
  exact hnamed draft hmem n hn

end Palimpsest
