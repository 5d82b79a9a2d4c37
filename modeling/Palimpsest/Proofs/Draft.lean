import Palimpsest.Draft.Lower
import Palimpsest.Proofs.Node.Postorder

/-!
Drafts as they are made of a parsed file. They are numbered in postorder, fingerprints and sizes follow
from those of the children, and the roots declare modules.
-/

namespace Palimpsest
namespace Draft

def printIn (drafts : Array Draft) (i : Nat) : ContentHash := ((drafts[i]?).map Draft.fingerprint).getD default

def sizeIn (drafts : Array Draft) (i : Nat) : Nat := ((drafts[i]?).map Draft.size).getD 0

/-- Every draft is what making it again would give. -/
def Numbered (drafts : Array Draft) : Prop :=
  ∀ (i : Nat) (draft : Draft), drafts[i]? = some draft → (∀ c ∈ draft.kind.children, c < i) ∧
    draft.fingerprint = (draft.kind.map (printIn drafts)).fingerprint ∧
    draft.size = 1 + (draft.kind.children.map (sizeIn drafts)).sum

/-- Every draft is in the other drafts too, under its number. -/
def Grows (drafts more : Array Draft) : Prop :=
  ∀ (i : Nat) (draft : Draft), drafts[i]? = some draft → more[i]? = some draft

namespace Grows

variable {a b c : Array Draft}

theorem refl (a : Array Draft) : Grows a a := fun _ _ h => h

theorem trans (h : Grows a b) (h' : Grows b c) : Grows a c := fun i draft hi => h' i draft (h i draft hi)

theorem lt (h : Grows a b) {i : Nat} (hi : i < a.size) : i < b.size :=
  (Array.getElem?_eq_some_iff.mp (h i a[i] (Array.getElem?_eq_getElem hi))).1

theorem get? (h : Grows a b) {i : Nat} (hi : i < a.size) : b[i]? = a[i]? := by
  rw [Array.getElem?_eq_getElem hi]
  exact h i a[i] (Array.getElem?_eq_getElem hi)

theorem push (a : Array Draft) (draft : Draft) : Grows a (a.push draft) := by
  intro i d hi
  rw [Array.getElem?_push_lt (Array.getElem?_eq_some_iff.mp hi).1]
  exact congrArg some (Array.getElem?_eq_some_iff.mp hi).2

end Grows

theorem numbered_push {drafts : Array Draft} (h : Numbered drafts) {kind : NodeKind Nat} {span : Span}
    (hchildren : ∀ c ∈ kind.children, c < drafts.size) :
    Numbered (make kind span drafts).2 := by
  have hgrows : Grows drafts (make kind span drafts).2 := Grows.push _ _
  have hprint {k : NodeKind Nat} (hk : ∀ c ∈ k.children, c < drafts.size) :
      k.map (printIn (make kind span drafts).2) = k.map (printIn drafts) := by
    refine NodeKind.map_congr fun c hc => ?_
    rw [printIn, hgrows.get? (hk c hc), printIn]
  have hsize {k : NodeKind Nat} (hk : ∀ c ∈ k.children, c < drafts.size) :
      k.children.map (sizeIn (make kind span drafts).2) = k.children.map (sizeIn drafts) := by
    refine List.map_congr_left fun c hc => ?_
    rw [sizeIn, hgrows.get? (hk c hc), sizeIn]
  intro i draft hi
  by_cases hlt : i < drafts.size
  · rw [hgrows.get? hlt] at hi
    obtain ⟨hbelow, hfingerprint, hsizes⟩ := h i draft hi
    have hthere : ∀ c ∈ draft.kind.children, c < drafts.size := fun c hc => Nat.lt_trans (hbelow c hc) hlt
    exact ⟨hbelow, by rw [hprint hthere]; exact hfingerprint, by rw [hsize hthere]; exact hsizes⟩
  · obtain rfl : i = drafts.size := by
      have hbound := (Array.getElem?_eq_some_iff.mp hi).1
      simp only [make, Array.size_push] at hbound
      omega
    simp only [make, Array.getElem?_push_size, Option.some.injEq] at hi
    subst hi
    exact ⟨hchildren, by rw [hprint hchildren]; rfl, by rw [hsize hchildren]; rfl⟩

end Draft

namespace DraftTree

variable {t : DraftTree}

/-- The trees of drafts are finite, and their sizes are known. -/
theorem sized (h : Draft.Numbered t.drafts) :
    Sized (fun i => (t.kindOf i).children) t.sizeOf fun i => i < t.drafts.size where
  closed i hi c hc := by
    have hget := Array.getElem?_eq_getElem hi
    rw [kindOf, hget] at hc
    exact Nat.lt_trans ((h i _ hget).1 c hc) hi
  size_eq i hi := by
    have hget := Array.getElem?_eq_getElem hi
    obtain ⟨hbelow, -, hsize⟩ := h i _ hget
    rw [sizeOf, hget, kindOf, hget]
    simp only [Option.map_some, Option.getD_some]
    rw [hsize]
    congr 2
    refine List.map_congr_left fun c hc => ?_
    rw [Draft.sizeIn, sizeOf, Array.getElem?_eq_getElem (Nat.lt_trans (hbelow c hc) hi)]
    rfl

/-- The drafts of the tree below a draft. -/
def subtree (t : DraftTree) (i : Nat) : List Nat :=
  Palimpsest.subtree (fun i => (t.kindOf i).children) t.sizeOf i

/-- The same drafts in postorder. -/
def subtreeUp (t : DraftTree) (i : Nat) : List Nat :=
  Palimpsest.subtreeUp (fun i => (t.kindOf i).children) t.sizeOf i

theorem kindOf_eq {i : Nat} {draft : Draft} (h : t.drafts[i]? = some draft) : t.kindOf i = draft.kind := by
  simp [kindOf, h]

theorem subtree_eq (h : Draft.Numbered t.drafts) {i : Nat} {draft : Draft} (hi : t.drafts[i]? = some draft) :
    t.subtree i = i :: draft.kind.children.flatMap t.subtree := by
  rw [subtree, (sized h).subtree_eq (Array.getElem?_eq_some_iff.mp hi).1, kindOf_eq hi]
  rfl

theorem child_lt (h : Draft.Numbered t.drafts) {i c : Nat} (hc : c ∈ (t.kindOf i).children) : c < i := by
  cases hget : t.drafts[i]? with
  | none => simp [kindOf, hget, NodeKind.children] at hc
  | some draft => exact (h i draft hget).1 c (kindOf_eq hget ▸ hc)

theorem le_of_mem_subtree (h : Draft.Numbered t.drafts) {i j : Nat} (hi : i < t.drafts.size) (hj : j ∈ t.subtree i) :
    j ≤ i :=
  (sized h).subtree_forall (Q := fun j => j ≤ i) hi (Nat.le_refl i)
    (fun _ hx _ hy => Nat.le_trans (Nat.le_of_lt (child_lt h hy)) hx) j hj

theorem subtreeUp_eq (h : Draft.Numbered t.drafts) {i : Nat} {draft : Draft} (hi : t.drafts[i]? = some draft) :
    t.subtreeUp i = draft.kind.children.flatMap t.subtreeUp ++ [i] := by
  rw [subtreeUp, (sized h).subtreeUp_eq (Array.getElem?_eq_some_iff.mp hi).1, kindOf_eq hi]
  rfl

theorem subtreeUp_grows {u : DraftTree} (ht : Draft.Numbered t.drafts) (hu : Draft.Numbered u.drafts)
    (hgrows : Draft.Grows t.drafts u.drafts) {i : Nat} (hi : i < t.drafts.size) : u.subtreeUp i = t.subtreeUp i := by
  refine (subtreeUp_congr (sized ht) (sized hu) i hi fun j hj => ⟨hgrows.lt hj, ?_⟩).symm
  rw [kindOf, kindOf, hgrows.get? hj]

end DraftTree

namespace Draft

/-- The drafts of the trees of some of them, in postorder. -/
def treesIn (drafts : Array Draft) (ids : List Nat) : List Nat := ids.flatMap (DraftTree.mk drafts []).subtreeUp

/-- From drafts to more, the new ones were put into the trees of `ids`, behind those that were `known`. -/
structure Made (drafts : Array Draft) (known : List Nat) (more : Array Draft) (ids : List Nat) : Prop where
  numbered : Numbered more
  grows : Grows drafts more
  lt : ∀ i ∈ ids, i < more.size
  listed : ∃ n, more.size = drafts.size + n ∧ treesIn more ids = treesIn drafts known ++ List.range' drafts.size n

/-- The step puts drafts `known`, and all that it makes, into the trees of those it gives. -/
def Makes {α : Type} (known : List Nat) (x : Make α) (ids : α → List Nat) : Prop :=
  ∀ drafts, Numbered drafts → (∀ i ∈ known, i < drafts.size) →
    Made drafts known (x drafts).2 (ids (x drafts).1)

theorem treesIn_append (drafts : Array Draft) (a b : List Nat) :
    treesIn drafts (a ++ b) = treesIn drafts a ++ treesIn drafts b := List.flatMap_append

theorem treesIn_grows {drafts more : Array Draft} (h : Numbered drafts) (h' : Numbered more)
    (hgrows : Grows drafts more) {ids : List Nat} (hids : ∀ i ∈ ids, i < drafts.size) :
    treesIn more ids = treesIn drafts ids :=
  List.flatMap_congr fun i hi => DraftTree.subtreeUp_grows (t := ⟨drafts, []⟩) (u := ⟨more, []⟩) h h' hgrows (hids i hi)

namespace Makes

variable {α β : Type} {known : List Nat}

theorem make {kind : NodeKind Nat} {span : Span} (h : kind.children = known := by rfl) :
    Makes known (Draft.make kind span) fun i => [i] := by
  subst h
  intro drafts hdrafts hknown
  have hnumbered : Numbered (Draft.make kind span drafts).2 := numbered_push hdrafts hknown
  have hgrows : Grows drafts (Draft.make kind span drafts).2 := Grows.push _ _
  have hsubtree := DraftTree.subtreeUp_eq (t := ⟨(Draft.make kind span drafts).2, []⟩) hnumbered
    (i := drafts.size) Array.getElem?_push_size
  refine ⟨hnumbered, hgrows, by simp [Draft.make], 1, Array.size_push _, ?_⟩
  rw [← treesIn_grows hdrafts hnumbered hgrows hknown]
  change treesIn _ [drafts.size] = _
  rw [treesIn, List.flatMap_singleton, hsubtree]
  rfl

theorem pure {a : α} {ids : α → List Nat} (h : ids a = known := by rfl) :
    Makes known (Pure.pure a : Make α) ids := by
  subst h
  intro drafts hdrafts hknown
  exact ⟨hdrafts, Grows.refl drafts, hknown, 0, rfl, (List.append_nil _).symm⟩

/-- What is known beside a step goes to the next. -/
theorem frame (rest : List Nat) {x : Make α} {f : α → Make β} {ids : α → List Nat} {ids' : β → List Nat}
    (hx : Makes known x ids) (hf : ∀ a, Makes (rest ++ ids a) (f a) ids') :
    Makes (rest ++ known) (x >>= f) ids' := by
  intro drafts hdrafts hknown
  obtain ⟨hrest, hknown⟩ := List.forall_mem_append.mp hknown
  have hfirst := hx drafts hdrafts hknown
  have hthere : ∀ i ∈ rest ++ ids (x drafts).1, i < (x drafts).2.size :=
    List.forall_mem_append.mpr ⟨fun i hi => hfirst.grows.lt (hrest i hi), hfirst.lt⟩
  have hsecond := hf (x drafts).1 (x drafts).2 hfirst.numbered hthere
  have hsame := treesIn_grows hdrafts hfirst.numbered hfirst.grows hrest
  obtain ⟨n, hn, hlisted⟩ := hfirst.listed
  obtain ⟨k, hk, hlisted'⟩ := hsecond.listed
  change Made drafts (rest ++ known) (f (x drafts).1 (x drafts).2).2 (ids' (f (x drafts).1 (x drafts).2).1)
  refine ⟨hsecond.numbered, hfirst.grows.trans hsecond.grows, hsecond.lt, n + k, by omega, ?_⟩
  rw [hlisted', treesIn_append, treesIn_append, hsame, hlisted, hn, List.append_assoc, List.append_assoc,
    List.append_assoc, List.range'_append_1]

theorem bind {x : Make α} {f : α → Make β} {ids : α → List Nat} {ids' : β → List Nat}
    (hx : Makes known x ids) (hf : ∀ a, Makes (ids a) (f a) ids') : Makes known (x >>= f) ids' :=
  frame [] hx hf

/-- A step that needs nothing known. -/
theorem beside {x : Make α} {f : α → Make β} {ids : α → List Nat} {ids' : β → List Nat}
    (hx : Makes [] x ids) (hf : ∀ a, Makes (known ++ ids a) (f a) ids') : Makes known (x >>= f) ids' := by
  have h := frame known hx hf
  rwa [List.append_nil] at h

end Makes

section Lower

open Surface

theorem makes_ofExpr (e : Expr) : Makes [] (ofExpr e) fun i => [i] := by
  cases e with
  | identifier _ _ | int _ _ | str _ _ | bad _ => exact .make

theorem makes_ofInit (init : Option Expr) : Makes [] (ofInit init) Option.toList := by
  cases init with
  | none => exact .pure
  | some e => exact (makes_ofExpr e).bind fun i => .pure

theorem makes_ofFormal (f : Formal) : Makes [] (ofFormal f) fun i => [i] := .make

theorem makes_formals (formals : List Formal) : Makes [] (formals.mapM ofFormal) id := by
  induction formals with
  | nil => exact .pure
  | cons f rest ih =>
      rw [List.mapM_cons]
      exact (makes_ofFormal f).bind fun i => ih.beside fun is => .pure

mutual

theorem makes_ofStmt : (s : Stmt) → Makes [] (ofStmt s) fun i => [i]
  | .comment _ _ | .foreign _ _ | .bad _ => .make
  | .expr e _ => makes_ofExpr e
  | .block body _ => (makes_ofStmts body).bind fun is => .make
  | .moduleDecl _ _ body _ => (makes_ofStmts body).bind fun is => .bind .make fun i => .make
  | .varDecl _ _ _ init _ => (makes_ofInit init).bind fun o => .bind .make fun i => .make
  | .procDecl _ _ formals body _ _ =>
      (makes_formals formals).bind fun fs => (makes_ofStmts body).beside fun is =>
        .frame fs .make fun block => .bind .make fun symbol => .make

theorem makes_ofStmts : (stmts : List Stmt) → Makes [] (ofStmts stmts) id
  | [] => .pure
  | s :: rest => (makes_ofStmt s).bind fun i => (makes_ofStmts rest).beside fun is => .pure

end

theorem makes_ofFile (f : File) (implicitName : String) : Makes [] (ofFile f implicitName) id := by
  rw [ofFile]
  split
  · exact makes_ofStmts _
  · exact (makes_ofStmts f.stmts).bind fun is => .bind .make fun symbol => .bind .make fun root => .pure

/-- The draft declares a module. -/
def Declares (drafts : Array Draft) (i : Nat) : Prop :=
  ∃ draft visibility symbol inner name stmts, drafts[i]? = some draft ∧
    draft.kind = .moduleDecl visibility symbol ∧ drafts[symbol]? = some inner ∧
    inner.kind = .module_ name stmts

theorem Declares.grows {drafts more : Array Draft} {i : Nat} (h : Declares drafts i)
    (hgrows : Grows drafts more) : Declares more i := by
  obtain ⟨draft, visibility, symbol, inner, name, stmts, hi, hkind, hsymbol, hinner⟩ := h
  exact ⟨draft, visibility, symbol, inner, name, stmts, hgrows i draft hi, hkind,
    hgrows symbol inner hsymbol, hinner⟩

theorem make_get? (kind : NodeKind Nat) (span : Span) (drafts : Array Draft) :
    ∃ draft, (make kind span drafts).2[drafts.size]? = some draft ∧ draft.kind = kind :=
  ⟨_, Array.getElem?_push_size, rfl⟩

theorem declares_make (visibility : Visibility) (name : String) (stmts : List Nat) (span : Span)
    (drafts : Array Draft) :
    Declares (make (.moduleDecl visibility drafts.size) span (make (.module_ name stmts) span drafts).2).2
      (make (.module_ name stmts) span drafts).2.size := by
  obtain ⟨inner, hsymbol, hinner⟩ := make_get? (.module_ name stmts) span drafts
  obtain ⟨draft, hi, hkind⟩ := make_get? (.moduleDecl visibility drafts.size) span
    (make (.module_ name stmts) span drafts).2
  exact ⟨draft, visibility, drafts.size, inner, name, stmts, hi, hkind, Grows.push _ _ _ _ hsymbol, hinner⟩

theorem declares_ofStmt {s : Stmt} (h : isModule s = true) (drafts : Array Draft) :
    Declares (ofStmt s drafts).2 (ofStmt s drafts).1 := by
  cases s with
  | moduleDecl visibility name body span =>
      exact declares_make visibility name (ofStmts body drafts).1 span (ofStmts body drafts).2
  | comment _ _ | procDecl _ _ _ _ _ _ | varDecl _ _ _ _ _ | block _ _ | foreign _ _ | expr _ _
  | bad _ => simp [isModule] at h

/-- What holds of each statement when it is made holds of all of them in the end. -/
theorem forall_ofStmts {P : Array Draft → Nat → Prop}
    (hgrows : ∀ drafts more i, P drafts i → Grows drafts more → P more i) {stmts : List Stmt}
    (h : ∀ s ∈ stmts, ∀ drafts, P (ofStmt s drafts).2 (ofStmt s drafts).1) {drafts : Array Draft}
    (hdrafts : Numbered drafts) : ∀ i ∈ (ofStmts stmts drafts).1, P (ofStmts stmts drafts).2 i := by
  induction stmts generalizing drafts with
  | nil => exact fun i hi => nomatch hi
  | cons s rest ih =>
      obtain ⟨hfirst, hrest⟩ := List.forall_mem_cons.mp h
      have hnumbered := (makes_ofStmt s drafts hdrafts (by simp)).numbered
      intro i hi
      cases List.mem_cons.mp hi with
      | inl heq =>
          rw [heq]
          exact hgrows _ _ _ (hfirst drafts) (makes_ofStmts rest _ hnumbered (by simp)).grows
      | inr hin => exact ih hrest hnumbered i hin

/-- The draft has no name of its own. -/
def Unnamed (drafts : Array Draft) (i : Nat) : Prop :=
  ∃ draft, drafts[i]? = some draft ∧ draft.kind.symbolName? = none

theorem unnamed_make {kind : NodeKind Nat} (h : kind.symbolName? = none) (span : Span) (drafts : Array Draft) :
    Unnamed (make kind span drafts).2 (make kind span drafts).1 := by
  obtain ⟨draft, hi, hkind⟩ := make_get? kind span drafts
  exact ⟨draft, hi, hkind ▸ h⟩

/-- A statement is no symbol: what it declares is a draft below it. -/
theorem unnamed_ofStmt (s : Stmt) (drafts : Array Draft) : Unnamed (ofStmt s drafts).2 (ofStmt s drafts).1 := by
  cases s with
  | expr e _ => cases e <;> exact unnamed_make rfl _ _
  | comment _ _ | moduleDecl _ _ _ _ | procDecl _ _ _ _ _ _ | varDecl _ _ _ _ _ | block _ _ | foreign _ _
  | bad _ => exact unnamed_make rfl _ _

theorem unnamed_ofStmts (stmts : List Stmt) {drafts : Array Draft} (hdrafts : Numbered drafts) :
    ∀ i ∈ (ofStmts stmts drafts).1, Unnamed (ofStmts stmts drafts).2 i := by
  refine forall_ofStmts ?_ (fun s _ => unnamed_ofStmt s) hdrafts
  rintro drafts more i ⟨draft, hi, hname⟩ hgrows
  exact ⟨draft, hgrows i draft hi, hname⟩

end Lower
end Draft

/-- The trees of the roots list the drafts of a file one after another. -/
theorem DraftTree.listed_ofFile (f : Surface.File) (implicitName : String) :
    (ofFile f implicitName).roots.flatMap (ofFile f implicitName).subtreeUp =
      List.range (ofFile f implicitName).drafts.size := by
  have hempty : Draft.Numbered #[] := fun i draft hi => by simp at hi
  obtain ⟨n, hn, hlisted⟩ := (Draft.makes_ofFile f implicitName #[] hempty (by simp)).listed
  change Draft.treesIn (Draft.ofFile f implicitName #[]).2 (Draft.ofFile f implicitName #[]).1 =
    List.range (Draft.ofFile f implicitName #[]).2.size
  rw [List.range_eq_range', hn]
  simpa [Draft.treesIn] using hlisted

/-- The drafts of a file: numbered, each once in the trees of the roots, which declare modules. -/
structure DraftTree.Lowered (t : DraftTree) : Prop where
  numbered : Draft.Numbered t.drafts
  roots_lt : ∀ i ∈ t.roots, i < t.drafts.size
  perm : (t.roots.flatMap t.subtree).Perm (List.range t.drafts.size)
  declares : ∀ i ∈ t.roots, Draft.Declares t.drafts i

theorem DraftTree.lowered_ofFile (f : Surface.File) (implicitName : String) :
    (DraftTree.ofFile f implicitName).Lowered := by
  have hempty : Draft.Numbered #[] := fun i draft hi => by simp at hi
  have hmade := Draft.makes_ofFile f implicitName #[] hempty (by simp)
  refine ⟨hmade.numbered, hmade.lt, ?_, ?_⟩
  · rw [← DraftTree.listed_ofFile]
    exact List.Perm.flatMap_left _ fun i hi => ((DraftTree.sized hmade.numbered).subtreeUp_perm (hmade.lt i hi)).symm
  · change ∀ i ∈ (Draft.ofFile f implicitName #[]).1, Draft.Declares (Draft.ofFile f implicitName #[]).2 i
    rw [Draft.ofFile]
    split
    · refine Draft.forall_ofStmts (fun _ _ _ hi hgrows => hi.grows hgrows) (fun s hs drafts => ?_) hempty
      exact Draft.declares_ofStmt (List.mem_filter.mp hs).2 drafts
    · intro i hi
      obtain rfl := List.mem_singleton.mp hi
      exact Draft.declares_make .plain implicitName _ f.span _

namespace DraftTree

theorem declaresModule {t : DraftTree} {i : Nat} (h : Draft.Declares t.drafts i) :
    i < t.drafts.size ∧ ∃ name stmts, DeclaresModule t.kindOf i name stmts := by
  obtain ⟨draft, visibility, symbol, inner, name, stmts, hi, hkind, hsymbol, hinner⟩ := h
  exact ⟨(Array.getElem?_eq_some_iff.mp hi).1, name, stmts, symbol, ⟨visibility, (kindOf_eq hi).trans hkind⟩,
    (kindOf_eq hsymbol).trans hinner⟩

/-- A file that does not consist of modules is the body of one. -/
theorem ofFile_implicit {f : Surface.File} (h : f.onlyModules = false) (implicitName : String) :
    ∃ root stmts, (ofFile f implicitName).roots = [root] ∧
      DeclaresModule (ofFile f implicitName).kindOf root implicitName stmts ∧
      ∀ i ∈ stmts, ((ofFile f implicitName).kindOf i).symbolName? = none := by
  have hempty : Draft.Numbered #[] := fun i draft hi => by simp at hi
  let stmts := (Draft.ofStmts f.stmts #[]).1
  let made := (Draft.ofStmts f.stmts #[]).2
  let inner := (Draft.make (.module_ implicitName stmts) f.span made).2
  let outer := (Draft.make (.moduleDecl .plain made.size) f.span inner).2
  have hfile : ofFile f implicitName = ⟨outer, [inner.size]⟩ := by
    rw [ofFile, Draft.ofFile, h]
    rfl
  have hinner : Draft.Grows made inner := .push _ _
  have houter : Draft.Grows inner outer := .push _ _
  obtain ⟨symbol, hsymbol, hsymbolKind⟩ := Draft.make_get? (.module_ implicitName stmts) f.span made
  obtain ⟨root, hroot, hrootKind⟩ := Draft.make_get? (.moduleDecl .plain made.size) f.span inner
  rw [hfile]
  refine ⟨inner.size, stmts, rfl, ⟨made.size, ⟨.plain, (kindOf_eq hroot).trans hrootKind⟩, ?_⟩, fun i hi => ?_⟩
  · exact (kindOf_eq (houter _ _ hsymbol)).trans hsymbolKind
  · obtain ⟨draft, hdraft, hname⟩ := Draft.unnamed_ofStmts f.stmts hempty i hi
    rw [kindOf_eq ((hinner.trans houter) i draft hdraft)]
    exact hname

end DraftTree

end Palimpsest
