import Palimpsest.Surface.Parser

/-!
Names as they are read. A name of a parsed file is the text of one of its identifiers, or it stands for one
that is missing.
-/

namespace Palimpsest
namespace Surface

variable {P : String → Prop}

/-- The identifiers still to come are spelled so. -/
def Cursor.Spelled (P : String → Prop) (c : Cursor) : Prop :=
  ∀ t ∈ c.tokens ++ [c.final], t.kind = .identifier → P t.text

namespace Cursor.Spelled

variable {c : Cursor}

theorem current (h : c.Spelled P) : c.current.kind = .identifier → P c.current.text := by
  refine h c.current ?_
  cases htokens : c.tokens with
  | nil => simp [Cursor.current, htokens]
  | cons t ts => simp [Cursor.current, htokens]

theorem tail {t final : Token} {ts : List Token} {p q : Nat} (h : Cursor.Spelled P ⟨t :: ts, final, p⟩) :
    Cursor.Spelled P ⟨ts, final, q⟩ := fun u hu => h u (List.mem_cons_of_mem t hu)

theorem advance (h : c.Spelled P) : c.advance.Spelled P := by
  obtain ⟨tokens, final, p⟩ := c
  cases tokens with
  | nil => exact h
  | cons t ts => exact h.tail

theorem dropLeading (h : c.Spelled P) : c.dropLeading.Spelled P := by
  obtain ⟨tokens, final, p⟩ := c
  cases tokens with
  | nil => simpa [Cursor.Spelled, Cursor.dropLeading] using h
  | cons t ts => simpa [Cursor.Spelled, Cursor.dropLeading] using h

theorem skipStatement {final : Token} {ts : List Token} {p : Nat} (h : Cursor.Spelled P ⟨ts, final, p⟩) :
    (Cursor.skipStatement final ts p).Spelled P := by
  fun_induction Cursor.skipStatement final ts p with
  | case1 | case2 => exact h
  | case3 => exact h.tail
  | case4 _ _ _ _ _ ih => exact ih h.tail

theorem skipBraced {final : Token} {level : Nat} {ts : List Token} {p : Nat}
    (h : Cursor.Spelled P ⟨ts, final, p⟩) : (Cursor.skipBraced final level ts p).Spelled P := by
  fun_induction Cursor.skipBraced final level ts p with
  | case1 => exact h
  | case2 => exact h.tail
  | case3 _ _ _ _ _ _ ih => exact ih h.tail

end Cursor.Spelled

/-- Where the identifiers are spelled so, the step gives a value with the property, and goes on where they
still are. -/
def Parse.Gives (P : String → Prop) {α : Type} (x : Parse α) (ok : α → Prop) : Prop :=
  ∀ c : Cursor, c.Spelled P → ok (x c).value ∧ (x c).next.Spelled P

/-- The step has no say in the names. -/
def Parse.Passes (P : String → Prop) {α : Type} (x : Parse α) : Prop := x.Gives P fun _ => True

namespace Parse

variable {α β : Type}

theorem Gives.bind {x : Parse α} {f : α → Parse β} {mid : α → Prop} {ok : β → Prop} (hx : x.Gives P mid)
    (hf : ∀ a, mid a → (f a).Gives P ok) : (x >>= f).Gives P ok := by
  intro c hc
  obtain ⟨hmid, hnext⟩ := hx c hc
  exact hf _ hmid _ hnext

theorem Gives.passes {x : Parse α} {ok : α → Prop} (hx : x.Gives P ok) : x.Passes P :=
  fun c hc => ⟨trivial, (hx c hc).2⟩

theorem Passes.bind {x : Parse α} {f : α → Parse β} {ok : β → Prop} (hx : x.Passes P)
    (hf : ∀ a, (f a).Gives P ok) : (x >>= f).Gives P ok := Gives.bind hx fun a _ => hf a

theorem gives_pure {a : α} {ok : α → Prop} (h : ok a) : (Pure.pure a : Parse α).Gives P ok :=
  fun _ hc => ⟨h, hc⟩

theorem passes_pure (a : α) : (Pure.pure a : Parse α).Passes P := gives_pure trivial

theorem passes_cursor : cursor.Passes P := fun _ hc => ⟨trivial, hc⟩

theorem passes_report (d : Diagnostic) : (report d).Passes P := fun _ hc => ⟨trivial, hc⟩

theorem passes_advance : advance.Passes P := fun _ hc => ⟨trivial, hc.advance⟩

theorem passes_skipStatement : skipStatement.Passes P := fun _ hc => ⟨trivial, hc.skipStatement⟩

theorem passes_skipBraced : skipBraced.Passes P := fun _ hc => ⟨trivial, hc.skipBraced⟩

theorem passes_kind : kind.Passes P := passes_cursor.bind fun _ => passes_pure _

theorem gives_token : token.Gives P fun t => t.kind = .identifier → P t.text := fun _ hc => ⟨hc.current, hc⟩

theorem passes_spanFrom (start : Span) : (spanFrom start).Passes P := passes_cursor.bind fun _ => passes_pure _

theorem passes_expected (what : String) : (expected what).Passes P :=
  gives_token.passes.bind fun _ => passes_report _

theorem passes_eat (k : TokenKind) : (eat k).Passes P := by
  refine passes_kind.bind fun found => ?_
  split
  · exact passes_advance.bind fun _ => passes_pure _
  · exact passes_pure _

theorem passes_expect (k : TokenKind) : (expect k).Passes P := by
  refine (passes_eat k).bind fun eaten => ?_
  split
  · exact passes_pure _
  · exact (passes_expected _).bind fun _ => passes_pure _

theorem gives_name (hmissing : P missingName) : name.Gives P P := by
  refine gives_token.bind fun t ht => ?_
  split
  · rename_i hkind
    exact passes_advance.bind fun _ => gives_pure (ht hkind)
  · exact (passes_expected _).bind fun _ => gives_pure hmissing

theorem passes_semicolon : semicolon.Passes P := by
  refine passes_kind.bind fun found => ?_
  split
  · exact passes_advance
  · exact (passes_expected _).bind fun _ => passes_skipStatement

end Parse

namespace Expr

open Parse

def NamesOk (P : String → Prop) (e : Expr) : Prop := ∀ n ∈ e.names, P n

theorem gives_ofInt (t : Token) : (ofInt t).Gives P (NamesOk P) := by
  rw [ofInt]
  split
  split
  · exact (passes_report _).bind fun _ => gives_pure (by simp [NamesOk, names])
  · dsimp only
    split
    · exact gives_pure (by simp [NamesOk, names])
    · exact (passes_report _).bind fun _ => gives_pure (by simp [NamesOk, names])

theorem gives_ofString (t : Token) : (ofString t).Gives P (NamesOk P) := by
  rw [ofString]
  split
  · split
    · exact (passes_report _).bind fun _ => gives_pure (by simp [NamesOk, names])
    · exact gives_pure (by simp [NamesOk, names])
  · exact (passes_report _).bind fun _ => gives_pure (by simp [NamesOk, names])

theorem gives_parse : parse.Gives P (NamesOk P) := by
  refine gives_token.bind fun t ht => ?_
  split
  · rename_i hkind
    exact passes_advance.bind fun _ => gives_pure (by simpa [NamesOk, names] using ht hkind)
  · exact passes_advance.bind fun _ => gives_ofInt t
  · exact passes_advance.bind fun _ => gives_ofString t
  · exact (passes_expected _).bind fun _ => gives_pure (by simp [NamesOk, names])

end Expr

namespace Formal

open Parse

theorem passes_parseIntent : parseIntent.Passes P := by
  refine passes_kind.bind fun found => ?_
  split
  · refine passes_advance.bind fun _ => (passes_eat _).bind fun eaten => ?_
    split
    · exact passes_pure _
    · refine (passes_eat _).bind fun eaten => ?_
      split
      · exact passes_pure _
      · exact passes_pure _
  iterate 6 exact passes_advance.bind fun _ => passes_pure _
  exact passes_pure _

theorem gives_parse (hmissing : P missingName) : parse.Gives P fun f : Formal => P f.name :=
  gives_token.passes.bind fun _ => passes_parseIntent.bind fun _ => (gives_name hmissing).bind fun _ hname =>
    (passes_spanFrom _).bind fun _ => gives_pure hname

theorem gives_parseMany (hmissing : P missingName) :
    Parse.Gives P parseMany fun fs : List Formal => ∀ f ∈ fs, P f.name := by
  intro c hc
  fun_induction parseMany c with
  | case1 c s h _ _ t ih =>
      obtain ⟨hname, hnext⟩ := gives_parse hmissing c hc
      obtain ⟨hnames, hrest⟩ := ih hnext.advance
      exact ⟨List.forall_mem_cons.mpr ⟨hname, hnames⟩, hrest⟩
  | case2 c s h =>
      obtain ⟨hname, hnext⟩ := gives_parse hmissing c hc
      exact ⟨List.forall_mem_singleton.mpr hname, hnext⟩

theorem gives_parseList (hmissing : P missingName) : parseList.Gives P fun fs : List Formal => ∀ f ∈ fs, P f.name := by
  refine (passes_expect _).bind fun found => ?_
  split
  · have hrest (fs : List Formal) (hfs : ∀ f ∈ fs, P f.name) :
        Parse.Gives P (do
          let _ ← Parse.expect .rightParen
          return fs) fun fs : List Formal => ∀ f ∈ fs, P f.name :=
      (passes_expect _).bind fun _ => gives_pure hfs
    have hnil : Parse.Gives P (Pure.pure []) fun fs : List Formal => ∀ f ∈ fs, P f.name := gives_pure (by simp)
    refine passes_kind.bind fun kind => ?_
    dsimp only
    split
    · exact hnil.bind hrest
    · exact (gives_parseMany hmissing).bind hrest
  · exact gives_pure (by simp)

end Formal

namespace Stmt

open Parse

def NamesOk (P : String → Prop) (s : Stmt) : Prop := ∀ n ∈ s.names, P n

def ListOk (P : String → Prop) (stmts : List Stmt) : Prop := ∀ n ∈ namesOfList stmts, P n

variable {body? : Option (Parse (List Stmt))}

/-- Statements are `ok` as soon as their names are and what stands in their braces, which `body?` reads, is
`okBody`. -/
structure Admits (P : String → Prop) (body? : Option (Parse (List Stmt))) (okBody : List Stmt → Prop)
    (ok : Stmt → Prop) : Prop where
  missing : P missingName
  empty : okBody []
  rejected : body? = none → ∀ span, okBody [.bad span]
  read : ∀ body ∈ body?, Parse.Gives P body okBody
  bad : ∀ span, ok (.bad span)
  foreign : ∀ code span, ok (.foreign code span)
  expr : ∀ e span, e.NamesOk P → ok (.expr e span)
  varDecl : ∀ visibility kind name init span, P name → (∀ e ∈ init, e.NamesOk P) →
    ok (.varDecl visibility kind name init span)
  block : ∀ body span, okBody body → ok (.block body span)
  moduleDecl : ∀ visibility name body span, P name → okBody body → ok (.moduleDecl visibility name body span)
  procDecl : ∀ visibility name formals body bodySpan span, P name → (∀ f ∈ formals, P f.name) → okBody body →
    ok (.procDecl visibility name formals body bodySpan span)

theorem passes_parseVariableKind : parseVariableKind.Passes P := by
  refine passes_kind.bind fun found => ?_
  split
  · refine passes_cursor.bind fun c => ?_
    split
    · exact passes_advance.bind fun _ => passes_pure _
    · exact passes_pure _
  iterate 4 exact passes_pure _

theorem passes_rejectNesting : rejectNesting.Passes P :=
  gives_token.passes.bind fun _ => (passes_report _).bind fun _ => passes_skipBraced.bind fun _ => passes_spanFrom _

theorem passes_parseVisibility : parseVisibility.Passes P := by
  refine passes_kind.bind fun found => ?_
  split
  · exact passes_advance.bind fun _ => passes_pure _
  · exact passes_advance.bind fun _ => passes_pure _
  · exact passes_pure _

section Admitted

variable {okBody : List Stmt → Prop} {ok : Stmt → Prop} (h : Admits P body? okBody ok)
include h

theorem gives_parseVariable (visibility : Visibility) (start : Span) : (parseVariable visibility start).Gives P ok := by
  rw [parseVariable]
  refine passes_parseVariableKind.bind fun kind => passes_advance.bind fun _ => ?_
  refine (gives_name h.missing).bind fun name hname => (passes_eat _).bind fun eaten => ?_
  have hrest (init : Option Expr) (hinit : ∀ e ∈ init, e.NamesOk P) :
      Parse.Gives P (do
        Parse.semicolon
        return .varDecl visibility kind name init (← Parse.spanFrom start)) ok :=
    passes_semicolon.bind fun _ => (passes_spanFrom _).bind fun span =>
      gives_pure (h.varDecl visibility kind name init span hname hinit)
  dsimp only
  split
  · refine Gives.bind (Expr.gives_parse.bind fun e he => gives_pure ?_) hrest
    exact fun x hx => Option.some.inj hx ▸ he
  · exact Gives.bind (gives_pure (by simp)) hrest

theorem gives_parseForeign (start : Span) : (parseForeign start).Gives P ok := by
  rw [parseForeign]
  refine passes_advance.bind fun _ => gives_token.bind fun t _ => ?_
  split
  · exact passes_advance.bind fun _ => (passes_eat _).bind fun _ => (passes_spanFrom _).bind fun _ =>
      gives_pure (h.foreign _ _)
  · exact passes_advance.bind fun _ => (passes_spanFrom _).bind fun _ => gives_pure (h.bad _)
  · exact (passes_expected _).bind fun _ => passes_skipStatement.bind fun _ => (passes_spanFrom _).bind fun _ =>
      gives_pure (h.bad _)

theorem gives_parseBraced : (parseBraced body?).Gives P okBody := by
  unfold parseBraced
  split
  · exact passes_rejectNesting.bind fun span => gives_pure (h.rejected rfl span)
  · next body =>
    refine gives_token.passes.bind fun opening => passes_advance.bind fun _ => ?_
    refine (h.read body rfl).bind fun stmts hstmts => (passes_eat _).bind fun eaten => ?_
    split
    · exact gives_pure hstmts
    · exact gives_token.passes.bind fun _ => (passes_report _).bind fun _ => gives_pure hstmts

theorem gives_parseModule (visibility : Visibility) (start : Span) :
    (parseModule body? visibility start).Gives P ok := by
  rw [parseModule]
  refine passes_advance.bind fun _ => (gives_name h.missing).bind fun name hname => passes_kind.bind fun kind => ?_
  split
  · exact (gives_parseBraced h).bind fun body hbody => (passes_spanFrom _).bind fun _ =>
      gives_pure (h.moduleDecl _ _ _ _ hname hbody)
  · exact (passes_expected _).bind fun _ => passes_skipStatement.bind fun _ => (passes_spanFrom _).bind fun _ =>
      gives_pure (h.moduleDecl _ _ _ _ hname h.empty)

theorem gives_parseProc (visibility : Visibility) (start : Span) : (parseProc body? visibility start).Gives P ok := by
  rw [parseProc]
  refine passes_advance.bind fun _ => (gives_name h.missing).bind fun name hname => ?_
  refine (Formal.gives_parseList h.missing).bind fun formals hformals => gives_token.passes.bind fun t => ?_
  split
  · exact (gives_parseBraced h).bind fun body hbody => (passes_spanFrom _).bind fun _ =>
      (passes_spanFrom _).bind fun _ => gives_pure (h.procDecl _ _ _ _ _ _ hname hformals hbody)
  · exact (passes_expected _).bind fun _ => passes_skipStatement.bind fun _ => passes_cursor.bind fun _ =>
      (passes_spanFrom _).bind fun _ => gives_pure (h.procDecl _ _ _ _ _ _ hname hformals h.empty)

theorem gives_parsePlain (start : Span) : (parsePlain body? start).Gives P ok := by
  have hexpr : Parse.Gives P (do
      let e ← Expr.parse
      Parse.semicolon
      return .expr e (← Parse.spanFrom start) : Parse Stmt) ok :=
    Expr.gives_parse.bind fun e he => passes_semicolon.bind fun _ => (passes_spanFrom _).bind fun _ =>
      gives_pure (h.expr _ _ he)
  refine passes_kind.bind fun found => ?_
  split
  · split
    · exact passes_rejectNesting.bind fun _ => gives_pure (h.bad _)
    · exact (gives_parseBraced h).bind fun body hbody => (passes_spanFrom _).bind fun _ =>
        gives_pure (h.block _ _ hbody)
  · exact gives_parseForeign h start
  · exact hexpr
  · exact hexpr
  · exact hexpr
  · exact (passes_report _).bind fun _ => passes_advance.bind fun _ => gives_pure (h.bad _)
  · exact (passes_report _).bind fun _ => passes_advance.bind fun _ => gives_pure (h.bad _)
  · exact passes_skipStatement.bind fun _ => (passes_spanFrom _).bind fun _ => gives_pure (h.bad _)
  · exact (passes_expected _).bind fun _ => passes_advance.bind fun _ => passes_skipStatement.bind fun _ =>
      (passes_spanFrom _).bind fun _ => gives_pure (h.bad _)

theorem gives_parseWith : (parseWith body?).Gives P ok := by
  refine gives_token.passes.bind fun t => passes_parseVisibility.bind fun visibility => passes_kind.bind fun kind => ?_
  split
  · exact gives_parseModule h visibility _
  split
  · exact gives_parseProc h visibility _
  split
  · exact gives_parseVariable h visibility _
  split
  · exact (passes_expected _).bind fun _ => passes_skipStatement.bind fun _ => (passes_spanFrom _).bind fun _ =>
      gives_pure (h.bad _)
  · exact gives_parsePlain h _

end Admitted

theorem listOk_nil : ListOk P [] := by simp [ListOk, namesOfList]

theorem listOk_cons {s : Stmt} {rest : List Stmt} (hs : s.NamesOk P) (hrest : ListOk P rest) :
    ListOk P (s :: rest) := by
  intro n hn
  rw [namesOfList, List.mem_append] at hn
  exact hn.elim (hs n) (hrest n)

theorem namesOk_bad (span : Span) : (Stmt.bad span).NamesOk P := by simp [NamesOk, names]

/-- The names of a statement are its own and those of its body. -/
theorem admits_namesOk (hmissing : P missingName) (hbody : ∀ body ∈ body?, Parse.Gives P body (ListOk P)) :
    Admits P body? (ListOk P) (NamesOk P) where
  missing := hmissing
  empty := listOk_nil
  rejected _ span := listOk_cons (namesOk_bad span) listOk_nil
  read := hbody
  bad := namesOk_bad
  foreign _ _ := by simp [NamesOk, names]
  expr e _ he := by
    rw [NamesOk, names]
    exact he
  varDecl _ _ _ init _ hname hinit := by
    rw [NamesOk, names]
    refine List.forall_mem_cons.mpr ⟨hname, ?_⟩
    cases init with
    | none => simp
    | some e => exact hinit e rfl
  block _ _ hok := by
    rw [NamesOk, names]
    exact hok
  moduleDecl _ _ _ _ hname hok := by
    rw [NamesOk, names]
    exact List.forall_mem_cons.mpr ⟨hname, hok⟩
  procDecl _ _ _ _ _ _ hname hformals hok := by
    rw [NamesOk, names]
    refine List.forall_mem_cons.mpr ⟨hname, List.forall_mem_append.mpr ⟨?_, hok⟩⟩
    exact List.forall_mem_map.mpr hformals

theorem gives_parseList {item : Parse Stmt} (hitem : item.Gives P (NamesOk P)) (braced : Bool) :
    Parse.Gives P (parseList item braced) (ListOk P) := by
  intro c hc
  have hcomments (comments : List Comment) {stmts : List Stmt} (hok : ListOk P stmts) :
      ListOk P (comments.map ofComment ++ stmts) := by
    induction comments with
    | nil => exact hok
    | cons comment rest ih => exact listOk_cons (by simp [NamesOk, ofComment, names]) ih
  fun_induction parseList item braced c with
  | case1 c comments h => 
      have hlast := hcomments c.current.leading listOk_nil
      rw [List.append_nil] at hlast
      exact ⟨hlast, hc.dropLeading⟩
  | case2 c comments h s lt t ih =>
      obtain ⟨hok, hnext⟩ := hitem c.dropLeading hc.dropLeading
      have hresume : (resume c.dropLeading s).Spelled P := by
        rw [resume]
        split
        · exact hnext
        · exact hc.dropLeading.advance
      obtain ⟨hrest, hlast⟩ := ih hresume
      exact ⟨hcomments c.current.leading (listOk_cons hok hrest), hlast⟩

theorem gives_parse (hmissing : P missingName) (levels : Nat) : (parse levels).Gives P (NamesOk P) := by
  induction levels with
  | zero => exact gives_parseWith (admits_namesOk hmissing (by simp))
  | succ levels ih =>
      refine gives_parseWith (admits_namesOk hmissing fun body hbody => ?_)
      obtain rfl := Option.some.inj hbody
      exact gives_parseList ih true

end Stmt

/-- A name of a file is that of an identifier of its text, unless it is missing there. -/
theorem of_mem_names_parseText {text n : String} (h : n ∈ (parseText text).file.names) :
    n = missingName ∨ ∃ t ∈ (TokenStream.ofText text).all, t.kind = .identifier ∧ t.text = n := by
  have hspelled : (Cursor.ofStream (TokenStream.ofText text)).Spelled fun n =>
      n = missingName ∨ ∃ t ∈ (TokenStream.ofText text).all, t.kind = .identifier ∧ t.text = n :=
    fun t ht hkind => .inr ⟨t, ht, hkind, rfl⟩
  exact (Stmt.gives_parseList (Stmt.gives_parse (.inl rfl) maxNesting) false _ hspelled).1 n h

end Surface
end Palimpsest
