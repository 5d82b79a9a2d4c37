import Palimpsest.Surface.Parser

/-!
Places have no say in parsing. Whatever the spans of tokens and comments are, the same statements are read,
at other places.
-/

namespace Palimpsest

def Comment.unplaced (c : Comment) : Comment := { c with span := default }

def Token.unplaced (t : Token) : Token :=
  { t with span := default, leading := t.leading.map Comment.unplaced }

theorem Token.kind_unplaced (t : Token) : t.unplaced.kind = t.kind := rfl

theorem Token.text_unplaced (t : Token) : t.unplaced.text = t.text := rfl

namespace Surface

namespace Cursor

def unplaced (c : Cursor) : Cursor := ⟨c.tokens.map Token.unplaced, c.final.unplaced, 0⟩

theorem unplaced_current (c : Cursor) : c.unplaced.current = c.current.unplaced := by
  cases htokens : c.tokens with
  | nil | cons t ts => simp [unplaced, current, htokens]

theorem unplaced_kind (c : Cursor) : c.unplaced.kind = c.kind := by rw [kind, unplaced_current]; rfl

theorem unplaced_followingKind (c : Cursor) : c.unplaced.followingKind = c.followingKind := by
  obtain ⟨tokens, final, p⟩ := c
  cases tokens with
  | nil => rfl
  | cons t ts => cases ts <;> rfl

theorem unplaced_advance (c : Cursor) : c.unplaced.advance = c.advance.unplaced := by
  obtain ⟨tokens, final, p⟩ := c
  cases tokens <;> rfl

theorem unplaced_dropLeading (c : Cursor) : c.unplaced.dropLeading = c.dropLeading.unplaced := by
  obtain ⟨tokens, final, p⟩ := c
  cases tokens <;> rfl

theorem unplaced_skipStatement (final : Token) (ts : List Token) (p : Nat) :
    skipStatement final.unplaced (ts.map Token.unplaced) 0 = (skipStatement final ts p).unplaced := by
  fun_induction skipStatement final ts p with
  | case1 p => rfl
  | case2 p t ts hbrace => exact if_pos hbrace
  | case3 p t ts hbrace hsemicolon => exact (if_neg hbrace).trans (if_pos hsemicolon)
  | case4 p t ts hbrace hsemicolon ih => exact ((if_neg hbrace).trans (if_neg hsemicolon)).trans ih

theorem unplaced_skipBraced (final : Token) (level : Nat) (ts : List Token) (p : Nat) :
    skipBraced final.unplaced level (ts.map Token.unplaced) 0 = (skipBraced final level ts p).unplaced := by
  fun_induction skipBraced final level ts p with
  | case1 => rfl
  | case2 level t ts p inner hclosed => exact if_pos hclosed
  | case3 level t ts p inner hopen ih => exact (if_neg hopen).trans ih

theorem length_unplaced (c : Cursor) : c.unplaced.tokens.length = c.tokens.length := List.length_map _

end Cursor

def Expr.unplaced : Expr → Expr
  | identifier name _ => .identifier name default
  | int value _ => .int value default
  | str value _ => .str value default
  | bad _ => .bad default

def Formal.unplaced (f : Formal) : Formal := { f with span := default }

mutual

/-- The statement as it reads wherever it stands. -/
def Stmt.unplaced : Stmt → Stmt
  | .comment text _ => .comment text default
  | .moduleDecl visibility name body _ => .moduleDecl visibility name (unplacedList body) default
  | .procDecl visibility name formals body _ _ =>
    .procDecl visibility name (formals.map Formal.unplaced) (unplacedList body) default default
  | .varDecl visibility kind name init _ => .varDecl visibility kind name (init.map Expr.unplaced) default
  | .block body _ => .block (unplacedList body) default
  | .foreign code _ => .foreign code default
  | .expr e _ => .expr e.unplaced default
  | .bad _ => .bad default

def unplacedList : List Stmt → List Stmt
  | [] => []
  | s :: rest => s.unplaced :: unplacedList rest

end

theorem unplacedList_eq (stmts : List Stmt) : unplacedList stmts = stmts.map Stmt.unplaced := by
  induction stmts with
  | nil => rfl
  | cons s rest ih => rw [unplacedList, ih, List.map_cons]

def File.unplaced (f : File) : File := ⟨unplacedList f.stmts, default⟩

namespace Parse

variable {α β : Type}

/-- Where places are taken away, `y` reads what `x` reads, but for its place. -/
def Unplaces (bare : α → α) (x y : Parse α) : Prop :=
  ∀ c : Cursor, (y c.unplaced).value = bare (x c).value ∧ (y c.unplaced).next = (x c).next.unplaced

/-- What `x` reads has no place. -/
def Ignores (x y : Parse α) : Prop := Unplaces (fun a => a) x y

theorem Unplaces.bind {bare : α → α} {bare' : β → β} {x y : Parse α} {f g : α → Parse β}
    (hx : Unplaces bare x y) (hf : ∀ a, Unplaces bare' (f a) (g (bare a))) :
    Unplaces bare' (x >>= f) (y >>= g) := by
  intro c
  obtain ⟨hvalue, hnext⟩ := hx c
  change ((g (y c.unplaced).value) (y c.unplaced).next).value = _ ∧
    ((g (y c.unplaced).value) (y c.unplaced).next).next = _
  rw [hvalue, hnext]
  exact hf _ _

theorem Ignores.bind {bare : β → β} {x y : Parse α} {f g : α → Parse β} (hx : Ignores x y)
    (hf : ∀ a, Unplaces bare (f a) (g a)) : Unplaces bare (x >>= f) (y >>= g) := Unplaces.bind hx hf

theorem unplaces_pure {bare : α → α} (a : α) : Unplaces bare (Pure.pure a) (Pure.pure (bare a)) :=
  fun _ => ⟨rfl, rfl⟩

theorem ignores_pure (a : α) : Ignores (Pure.pure a) (Pure.pure a) := unplaces_pure a

theorem unplaces_cursor : Unplaces Cursor.unplaced cursor cursor := fun _ => ⟨rfl, rfl⟩

theorem ignores_report (d e : Diagnostic) : Ignores (report d) (report e) := fun _ => ⟨rfl, rfl⟩

theorem ignores_advance : Ignores advance advance := fun c => ⟨rfl, c.unplaced_advance⟩

theorem ignores_skipStatement : Ignores skipStatement skipStatement :=
  fun c => ⟨rfl, Cursor.unplaced_skipStatement c.final c.tokens c.prevStop⟩

theorem ignores_skipBraced : Ignores skipBraced skipBraced :=
  fun c => ⟨rfl, Cursor.unplaced_skipBraced c.final 0 c.tokens c.prevStop⟩

theorem ignores_kind : Ignores kind kind := fun c => ⟨c.unplaced_kind, rfl⟩

theorem unplaces_token : Unplaces Token.unplaced token token := fun c => ⟨c.unplaced_current, rfl⟩

theorem unplaces_spanFrom (start : Span) : Unplaces (fun _ => default) (spanFrom start) (spanFrom default) :=
  fun _ => ⟨rfl, rfl⟩

theorem ignores_expected (what : String) : Ignores (expected what) (expected what) :=
  unplaces_token.bind fun _ => ignores_report _ _

theorem ignores_eat (k : TokenKind) : Ignores (eat k) (eat k) := by
  refine ignores_kind.bind fun found => ?_
  split
  · exact ignores_advance.bind fun _ => ignores_pure _
  · exact ignores_pure _

theorem ignores_expect (k : TokenKind) : Ignores (expect k) (expect k) := by
  refine (ignores_eat k).bind fun eaten => ?_
  split
  · exact ignores_pure _
  · exact (ignores_expected _).bind fun _ => ignores_pure _

theorem ignores_name : Ignores name name := by
  refine unplaces_token.bind fun t => ?_
  rw [t.kind_unplaced]
  split
  · exact ignores_advance.bind fun _ => ignores_pure _
  · exact (ignores_expected _).bind fun _ => ignores_pure _

theorem ignores_semicolon : Ignores semicolon semicolon := by
  refine ignores_kind.bind fun found => ?_
  split
  · exact ignores_advance
  · exact (ignores_expected _).bind fun _ => ignores_skipStatement

end Parse

namespace Expr

open Parse

theorem unplaces_ofInt (t : Token) : Unplaces unplaced (ofInt t) (ofInt t.unplaced) := by
  rw [ofInt, ofInt, t.text_unplaced]
  cases numeral t.text.toList with
  | mk digits base =>
      dsimp only
      split
      · exact (ignores_report _ _).bind fun _ => unplaces_pure _
      · split
        · exact unplaces_pure _
        · exact (ignores_report _ _).bind fun _ => unplaces_pure _

theorem unplaces_ofString (t : Token) : Unplaces unplaced (ofString t) (ofString t.unplaced) := by
  rw [ofString, ofString, t.text_unplaced]
  cases Quoted.unescape (String.ofList (inner t.text)) with
  | ok value =>
      dsimp only
      split
      · exact (ignores_report _ _).bind fun _ => unplaces_pure _
      · exact unplaces_pure _
  | error e => exact (ignores_report _ _).bind fun _ => unplaces_pure _

theorem unplaces_parse : Unplaces unplaced parse parse := by
  refine unplaces_token.bind fun t => ?_
  rw [t.kind_unplaced]
  split
  · exact ignores_advance.bind fun _ => unplaces_pure _
  · exact ignores_advance.bind fun _ => unplaces_ofInt t
  · exact ignores_advance.bind fun _ => unplaces_ofString t
  · exact (ignores_expected _).bind fun _ => unplaces_pure _

end Expr

namespace Formal

open Parse

theorem ignores_parseIntent : Ignores parseIntent parseIntent := by
  refine ignores_kind.bind fun found => ?_
  split
  · refine ignores_advance.bind fun _ => (ignores_eat _).bind fun eaten => ?_
    split
    · exact ignores_pure _
    · refine (ignores_eat _).bind fun eaten => ?_
      split
      · exact ignores_pure _
      · exact ignores_pure _
  iterate 6 exact ignores_advance.bind fun _ => ignores_pure _
  exact ignores_pure _

theorem unplaces_parse : Unplaces unplaced parse parse :=
  unplaces_token.bind fun _ => ignores_parseIntent.bind fun _ => ignores_name.bind fun _ =>
    (unplaces_spanFrom _).bind fun _ => unplaces_pure _

theorem unplaces_parseMany : Unplaces (List.map unplaced) parseMany parseMany := by
  intro c
  fun_induction parseMany c with
  | case1 c s h _ _ t ih =>
      obtain ⟨hvalue, hnext⟩ := unplaces_parse c
      have hmore : (parse c.unplaced).next.kind = .comma ∧ (parse c.unplaced).next.tokens ≠ [] := by
        rw [hnext, Cursor.unplaced_kind]
        exact ⟨h.1, fun he => h.2 (List.map_eq_nil_iff.mp he)⟩
      obtain ⟨hformals, -, hend⟩ := parseMany_of_comma hmore
      rw [hformals, hend, hvalue, hnext, Cursor.unplaced_advance, ih.1, ih.2]
      exact ⟨rfl, rfl⟩
  | case2 c s h =>
      obtain ⟨hvalue, hnext⟩ := unplaces_parse c
      have hlast : ¬ ((parse c.unplaced).next.kind = .comma ∧ (parse c.unplaced).next.tokens ≠ []) := by
        rw [hnext, Cursor.unplaced_kind]
        exact fun hmore => h ⟨hmore.1, fun he => hmore.2 (List.map_eq_nil_iff.mpr he)⟩
      obtain ⟨hformals, -, hend⟩ := parseMany_of_last hlast
      rw [hformals, hend, hvalue, hnext]
      exact ⟨rfl, rfl⟩

theorem unplaces_parseList : Unplaces (List.map unplaced) parseList parseList := by
  refine (ignores_expect _).bind fun found => ?_
  split
  · have hrest (formals : List Formal) : Unplaces (List.map unplaced)
        (do let _ ← Parse.expect .rightParen; return formals)
        (do let _ ← Parse.expect .rightParen; return formals.map unplaced) :=
      (ignores_expect _).bind fun _ => unplaces_pure formals
    have hnil : Unplaces (List.map unplaced) (Pure.pure []) (Pure.pure []) := unplaces_pure []
    refine ignores_kind.bind fun kind => ?_
    dsimp only
    split
    · exact hnil.bind hrest
    · exact unplaces_parseMany.bind hrest
  · exact unplaces_pure []

end Formal

namespace Stmt

open Parse

variable {body? : Option (Parse (List Stmt))}

theorem ignores_parseVariableKind : Ignores parseVariableKind parseVariableKind := by
  refine ignores_kind.bind fun found => ?_
  split
  · refine unplaces_cursor.bind fun c => ?_
    rw [c.unplaced_followingKind]
    split
    · exact ignores_advance.bind fun _ => ignores_pure _
    · exact ignores_pure _
  iterate 4 exact ignores_pure _

theorem unplaces_parseVariable (visibility : Visibility) (start : Span) :
    Unplaces unplaced (parseVariable visibility start) (parseVariable visibility default) := by
  rw [parseVariable, parseVariable]
  refine ignores_parseVariableKind.bind fun kind => ignores_advance.bind fun _ => ?_
  refine ignores_name.bind fun name => (ignores_eat _).bind fun eaten => ?_
  have hrest (init : Option Expr) : Unplaces unplaced
      (do Parse.semicolon; return .varDecl visibility kind name init (← Parse.spanFrom start))
      (do Parse.semicolon
          return .varDecl visibility kind name (init.map Expr.unplaced) (← Parse.spanFrom default)) :=
    ignores_semicolon.bind fun _ => (unplaces_spanFrom _).bind fun _ => unplaces_pure _
  have hnone : Unplaces (Option.map Expr.unplaced) (Pure.pure none) (Pure.pure none) := unplaces_pure none
  dsimp only
  split
  · exact Unplaces.bind (Expr.unplaces_parse.bind fun e => unplaces_pure (some e)) hrest
  · exact hnone.bind hrest

theorem unplaces_parseForeign (start : Span) : Unplaces unplaced (parseForeign start) (parseForeign default) := by
  rw [parseForeign, parseForeign]
  refine ignores_advance.bind fun _ => unplaces_token.bind fun t => ?_
  rw [t.kind_unplaced, t.text_unplaced]
  split
  · exact ignores_advance.bind fun _ => (ignores_eat _).bind fun _ => (unplaces_spanFrom _).bind fun _ =>
      unplaces_pure _
  · exact ignores_advance.bind fun _ => (unplaces_spanFrom _).bind fun _ => unplaces_pure _
  · exact (ignores_expected _).bind fun _ => ignores_skipStatement.bind fun _ => (unplaces_spanFrom _).bind fun _ =>
      unplaces_pure _

theorem unplaces_rejectNesting : Unplaces (fun _ => default) rejectNesting rejectNesting :=
  unplaces_token.bind fun _ => (ignores_report _ _).bind fun _ => ignores_skipBraced.bind fun _ =>
    unplaces_spanFrom _

theorem unplaces_parseBraced (hbody : ∀ body ∈ body?, Unplaces unplacedList body body) :
    Unplaces unplacedList (parseBraced body?) (parseBraced body?) := by
  unfold parseBraced
  cases body? with
  | none => exact unplaces_rejectNesting.bind fun span => unplaces_pure [Stmt.bad span]
  | some body =>
      refine unplaces_token.bind fun opening => ignores_advance.bind fun _ => ?_
      refine (hbody body rfl).bind fun stmts => (ignores_eat _).bind fun eaten => ?_
      split
      · exact unplaces_pure _
      · exact unplaces_token.bind fun _ => (ignores_report _ _).bind fun _ => unplaces_pure _

theorem unplaces_parseModule (hbody : ∀ body ∈ body?, Unplaces unplacedList body body)
    (visibility : Visibility) (start : Span) :
    Unplaces unplaced (parseModule body? visibility start) (parseModule body? visibility default) := by
  rw [parseModule, parseModule]
  refine ignores_advance.bind fun _ => ignores_name.bind fun name => ignores_kind.bind fun kind => ?_
  split
  · exact (unplaces_parseBraced hbody).bind fun body => (unplaces_spanFrom _).bind fun _ => unplaces_pure _
  · exact (ignores_expected _).bind fun _ => ignores_skipStatement.bind fun _ => (unplaces_spanFrom _).bind fun _ =>
      unplaces_pure (Stmt.moduleDecl visibility name [] _)

theorem unplaces_parseProc (hbody : ∀ body ∈ body?, Unplaces unplacedList body body)
    (visibility : Visibility) (start : Span) :
    Unplaces unplaced (parseProc body? visibility start) (parseProc body? visibility default) := by
  rw [parseProc, parseProc]
  refine ignores_advance.bind fun _ => ignores_name.bind fun name => ?_
  refine Formal.unplaces_parseList.bind fun formals => unplaces_token.bind fun t => ?_
  rw [t.kind_unplaced]
  split
  · exact (unplaces_parseBraced hbody).bind fun body => (unplaces_spanFrom _).bind fun _ =>
      (unplaces_spanFrom _).bind fun _ => unplaces_pure _
  · exact (ignores_expected _).bind fun _ => ignores_skipStatement.bind fun _ => unplaces_cursor.bind fun _ =>
      (unplaces_spanFrom _).bind fun _ => unplaces_pure (Stmt.procDecl visibility name formals [] _ _)

theorem ignores_parseVisibility : Ignores parseVisibility parseVisibility := by
  refine ignores_kind.bind fun found => ?_
  split
  · exact ignores_advance.bind fun _ => ignores_pure _
  · exact ignores_advance.bind fun _ => ignores_pure _
  · exact ignores_pure _

theorem unplaces_parsePlain (hbody : ∀ body ∈ body?, Unplaces unplacedList body body) (start : Span) :
    Unplaces unplaced (parsePlain body? start) (parsePlain body? default) := by
  have hexpr : Unplaces unplaced
      (do let e ← Expr.parse; Parse.semicolon; return .expr e (← Parse.spanFrom start))
      (do let e ← Expr.parse; Parse.semicolon; return .expr e (← Parse.spanFrom default)) :=
    Expr.unplaces_parse.bind fun e => ignores_semicolon.bind fun _ => (unplaces_spanFrom _).bind fun _ =>
      unplaces_pure _
  refine ignores_kind.bind fun found => ?_
  split
  · split
    · exact unplaces_rejectNesting.bind fun span => unplaces_pure (Stmt.bad span)
    · exact (unplaces_parseBraced hbody).bind fun body => (unplaces_spanFrom _).bind fun _ => unplaces_pure _
  · exact unplaces_parseForeign start
  · exact hexpr
  · exact hexpr
  · exact hexpr
  · exact (ignores_report _ _).bind fun _ => ignores_advance.bind fun _ => unplaces_pure _
  · exact (ignores_report _ _).bind fun _ => ignores_advance.bind fun _ => unplaces_pure _
  · exact ignores_skipStatement.bind fun _ => (unplaces_spanFrom _).bind fun _ => unplaces_pure _
  · exact (ignores_expected _).bind fun _ => ignores_advance.bind fun _ => ignores_skipStatement.bind fun _ =>
      (unplaces_spanFrom _).bind fun _ => unplaces_pure _

theorem unplaces_parseWith (hbody : ∀ body ∈ body?, Unplaces unplacedList body body) :
    Unplaces unplaced (parseWith body?) (parseWith body?) := by
  refine unplaces_token.bind fun t => ignores_parseVisibility.bind fun visibility => ignores_kind.bind fun kind => ?_
  split
  · exact unplaces_parseModule hbody visibility _
  split
  · exact unplaces_parseProc hbody visibility _
  split
  · exact unplaces_parseVariable visibility _
  split
  · exact (ignores_expected _).bind fun _ => ignores_skipStatement.bind fun _ => (unplaces_spanFrom _).bind fun _ =>
      unplaces_pure _
  · exact unplaces_parsePlain hbody _

theorem unplaces_parseList {item : Parse Stmt} (hitem : Unplaces unplaced item item) (braced : Bool) :
    Unplaces unplacedList (parseList item braced) (parseList item braced) := by
  have hcomments (comments : List Comment) (stmts : List Stmt) :
      unplacedList (comments.map ofComment ++ stmts) =
        (comments.map Comment.unplaced).map ofComment ++ unplacedList stmts := by
    simp only [unplacedList_eq, List.map_append, List.map_map]
    rfl
  have hend (c : Cursor) : atListEnd braced c.unplaced = atListEnd braced c := by
    rw [atListEnd, c.unplaced_kind, atListEnd]
    cases htokens : c.tokens with
    | nil | cons t ts => simp [Cursor.unplaced, htokens]
  have hleading (c : Cursor) : c.unplaced.current.leading = c.current.leading.map Comment.unplaced := by
    rw [c.unplaced_current]
    rfl
  intro c
  fun_induction parseList item braced c with
  | case1 c comments h =>
      have hdone := hcomments c.current.leading []
      rw [List.append_nil, unplacedList, List.append_nil] at hdone
      rw [← hend, ← c.unplaced_dropLeading] at h
      obtain ⟨hstmts, -, hlast⟩ := parseList_of_end item h
      rw [hstmts, hlast, hleading, c.unplaced_dropLeading]
      exact ⟨hdone.symm, rfl⟩
  | case2 c comments h s lt t ih =>
      obtain ⟨hvalue, hnext⟩ := hitem c.dropLeading
      have hresume : resume c.dropLeading.unplaced (item c.dropLeading.unplaced) =
          (resume c.dropLeading s).unplaced := by
        rw [resume, hnext, Cursor.length_unplaced, Cursor.length_unplaced, resume]
        split
        · rfl
        · exact Cursor.unplaced_advance _
      have hmore := hcomments c.current.leading (s.value :: t.value)
      rw [← hend, ← c.unplaced_dropLeading] at h
      obtain ⟨hstmts, -, hlast⟩ := parseList_of_more item h
      rw [hstmts, hlast, hleading, c.unplaced_dropLeading, hresume, hvalue, ih.1, ih.2]
      exact ⟨hmore.symm, rfl⟩

theorem unplaces_parse (levels : Nat) : Unplaces unplaced (parse levels) (parse levels) := by
  induction levels with
  | zero => exact unplaces_parseWith (by simp)
  | succ levels ih =>
      refine unplaces_parseWith fun body hbody => ?_
      obtain rfl := Option.some.inj hbody
      exact unplaces_parseList ih true

end Stmt

/-- Where tokens and comments stand has no say in the statements that are read. -/
theorem parseTokens_unplaced (t : TokenStream) :
    unplacedList (parseTokens t).1 =
      (Stmt.parseList (Stmt.parse maxNesting) false (Cursor.ofStream t).unplaced).value :=
  ((Stmt.unplaces_parseList (Stmt.unplaces_parse maxNesting) false _).1).symm

end Surface
end Palimpsest
