import Palimpsest.Proofs.Surface.Progress
import Palimpsest.Proofs.Text.Quoted
import Palimpsest.Proofs.Token.InText

/-!
Spans of what is read. Wherever the parser stands among the tokens of a text, and whatever it makes of them,
what it returns and reports lies in the text and parts none of its characters.
-/

namespace Palimpsest

/-- A token without the comments before it. -/
def Token.bare (t : Token) : Token := { t with leading := [] }

namespace Surface

mutual

/-- All spans of a statement. -/
def Stmt.spans : Stmt → List Span
  | .moduleDecl _ _ body s | .block body s => s :: spansOfList body
  | .procDecl _ _ formals body bodySpan s => s :: bodySpan :: (formals.map Formal.span ++ spansOfList body)
  | .varDecl _ _ _ init s => s :: (init.map Expr.span).toList
  | .expr e s => [s, e.span]
  | .comment _ s | .foreign _ s | .bad s => [s]

def spansOfList : List Stmt → List Span
  | [] => []
  | s :: rest => s.spans ++ spansOfList rest

end

namespace Cursor

/-- The same count, which has no value where a brace is closed that is not open. -/
def openAfter? (level : Nat) : TokenKind → Option Nat
  | .leftBrace => some (level + 1)
  | .rightBrace => if level = 0 then none else some (level - 1)
  | _ => some level

/-- The run of `skipBraced` with the count that may have no value. -/
def skipBraced? (final : Token) : Nat → List Token → Nat → Option Cursor
  | _, [], p => some ⟨[], final, p⟩
  | level, t :: ts, _ =>
    match openAfter? level t.kind with
    | none => none
    | some level =>
      if level = 0 then some ⟨ts, final, t.span.stop⟩ else skipBraced? final level ts t.span.stop

theorem openAfter?_eq {level : Nat} {kind : TokenKind} (h : 0 < level ∨ kind = .leftBrace) :
    openAfter? level kind = some (openAfter level kind) := by
  cases kind with
  | rightBrace =>
      apply if_neg
      intro hzero
      simp [hzero] at h
  | _ => rfl

theorem skipBraced?_cons {final t : Token} {level : Nat} {ts : List Token} {p : Nat}
    (hlevel : 0 < level ∨ t.kind = .leftBrace)
    (ih : ∀ level, 0 < level →
      skipBraced? final level ts t.span.stop = some (skipBraced final level ts t.span.stop)) :
    skipBraced? final level (t :: ts) p = some (skipBraced final level (t :: ts) p) := by
  rw [skipBraced?, skipBraced_cons, openAfter?_eq hlevel]
  dsimp only
  split
  · rfl
  · next hopen => exact ih _ (Nat.pos_of_ne_zero hopen)

theorem skipBraced?_of_pos {final : Token} {level : Nat} {ts : List Token} {p : Nat} (h : 0 < level) :
    skipBraced? final level ts p = some (skipBraced final level ts p) := by
  induction ts generalizing level p with
  | nil => rfl
  | cons t ts ih => exact skipBraced?_cons (.inl h) fun _ hlevel => ih hlevel

/-- From an opening brace on no brace is closed that is not open. -/
theorem skipBraced?_of_leftBrace {final t : Token} {ts : List Token} {p : Nat} (h : t.kind = .leftBrace) :
    skipBraced? final 0 (t :: ts) p = some (skipBraced final 0 (t :: ts) p) :=
  skipBraced?_cons (.inr h) fun _ hlevel => skipBraced?_of_pos hlevel

variable {text : String}

/-- A place among the tokens of a text: those still to come are the last of them, the first of them perhaps
without its comments, and the last one taken ended at a boundary. -/
structure InText (text : String) (c : Cursor) : Prop where
  tokens : c.tokens.map Token.bare <:+ (TokenStream.ofText text).tokens.map Token.bare
  final : c.final.bare = (TokenStream.ofText text).final.bare
  comments : ∀ t ∈ c.tokens ++ [c.final], ∀ k ∈ t.leading, k ∈ (TokenStream.ofText text).comments
  prevStop : Boundary text c.prevStop

namespace InText

variable {c : Cursor}

theorem ofText (text : String) : (ofStream (TokenStream.ofText text)).InText text where
  tokens := List.suffix_refl _
  final := rfl
  comments := fun t ht _ hk => List.mem_flatMap.mpr ⟨t, ht, hk⟩
  prevStop := .zero

theorem of_mem_tokens (h : c.InText text) {t : Token} (ht : t ∈ c.tokens) : t.InText text := by
  obtain ⟨u, hu, hbare⟩ := List.mem_map.mp (h.tokens.subset (List.mem_map_of_mem ht))
  have htext := TokenStream.inText hu
  obtain ⟨hkind, hspan, htoken⟩ : u.kind = t.kind ∧ u.span = t.span ∧ u.text = t.text := by
    simpa [Token.bare] using hbare
  constructor
  · rw [← hspan, ← htoken]
    exact htext.cuts
  · rw [← hkind, ← htoken]
    exact htext.quoted

theorem current (h : c.InText text) : c.current.InText text := by
  cases htokens : c.tokens with
  | cons t ts =>
      have hmem : t ∈ c.tokens := by
        rw [htokens]
        exact List.mem_cons_self
      rw [Cursor.current, htokens]
      exact h.of_mem_tokens hmem
  | nil =>
      rw [Cursor.current, htokens]
      obtain ⟨leading, hfinal⟩ := TokenStream.final_ofText text
      have hbare := h.final
      rw [hfinal] at hbare
      obtain ⟨hkind, hspan, htoken⟩ : c.final.kind = .endOfFile ∧
          c.final.span = ⟨text.utf8ByteSize, text.utf8ByteSize⟩ ∧ c.final.text = "" := by
        simpa [Token.bare] using hbare
      constructor
      · refine ⟨text.toList, [], ?_, ?_⟩
        · simp [htoken]
        · simp [hspan, htoken, Utf8.size_toList]
      · intro hquoted
        simp [hkind] at hquoted

theorem start_current (h : c.InText text) : Boundary text c.current.span.start := h.current.cuts.fits.start_boundary

theorem comments_current (h : c.InText text) : ∀ k ∈ c.current.leading, k ∈ (TokenStream.ofText text).comments := by
  apply h.comments
  cases htokens : c.tokens with
  | nil | cons t ts => simp [Cursor.current, htokens]

theorem tail {t final : Token} {ts : List Token} {p : Nat} (h : InText text ⟨t :: ts, final, p⟩) :
    InText text ⟨ts, final, t.span.stop⟩ where
  tokens := (List.suffix_cons t.bare _).trans h.tokens
  final := h.final
  comments := fun u hu => h.comments u (List.mem_cons_of_mem t hu)
  prevStop := (h.of_mem_tokens List.mem_cons_self).cuts.fits.stop_boundary

theorem advance (h : c.InText text) : c.advance.InText text := by
  obtain ⟨tokens, final, p⟩ := c
  cases tokens with
  | nil => exact h
  | cons t ts => exact h.tail

theorem dropLeading (h : c.InText text) : c.dropLeading.InText text := by
  obtain ⟨tokens, final, p⟩ := c
  cases tokens with
  | nil =>
      refine ⟨h.tokens, h.final, ?_, h.prevStop⟩
      simp [Cursor.dropLeading]
  | cons t ts =>
      refine ⟨h.tokens, h.final, ?_, h.prevStop⟩
      intro u hu k hk
      cases List.mem_cons.mp hu with
      | inl heq =>
          rw [heq] at hk
          cases hk
      | inr hin => exact h.comments u (List.mem_cons_of_mem t hin) k hk

theorem skipStatement {final : Token} {ts : List Token} {p : Nat} (h : InText text ⟨ts, final, p⟩) :
    (Cursor.skipStatement final ts p).InText text := by
  fun_induction Cursor.skipStatement final ts p with
  | case1 | case2 => exact h
  | case3 => exact h.tail
  | case4 _ _ _ _ _ ih => exact ih h.tail

theorem skipBraced {final : Token} {level : Nat} {ts : List Token} {p : Nat} (h : InText text ⟨ts, final, p⟩) :
    (Cursor.skipBraced final level ts p).InText text := by
  fun_induction Cursor.skipBraced final level ts p with
  | case1 => exact h
  | case2 => exact h.tail
  | case3 _ _ _ _ _ _ ih => exact ih h.tail

end InText
end Cursor

/-- A report points into the text. If it is about braces nested too deep, it points at an opening brace from
which the count of open braces never falls below zero. -/
structure Points (text : String) (d : Diagnostic) : Prop where
  fits : ∀ s ∈ d.spans, s.Fits text
  opens : d.code = .nestingTooDeep → ∃ before t after, (TokenStream.ofText text).tokens = before ++ t :: after ∧
    t.kind = .leftBrace ∧ d.primary = t.span ∧ ∀ final p,
      Cursor.skipBraced? final 0 (t :: after) p = some (Cursor.skipBraced final 0 (t :: after) p)

theorem Points.error {text message : String} {code : Code} {span : Span} (hcode : code ≠ .nestingTooDeep)
    (hspan : span.Fits text) : Points text (.error code message span) where
  fits := List.forall_mem_singleton.mpr hspan
  opens := fun h => absurd h hcode

namespace Parse

variable {text : String} {α β : Type} {c : Cursor}

/-- From here the step goes on in the text, gives a value with the property, and reports what points into the
text. -/
structure StandsAt (text : String) (c : Cursor) (x : Parse α) (ok : α → Prop) : Prop where
  next : (x c).next.InText text
  value : ok (x c).value
  reports : ∀ d ∈ (x c).reports, Points text d

/-- The step does so wherever it stands in the text. -/
def Stands (text : String) (x : Parse α) (ok : α → Prop) : Prop := ∀ c : Cursor, c.InText text → StandsAt text c x ok

theorem StandsAt.bind {x : Parse α} {f : α → Parse β} {mid : α → Prop} {ok : β → Prop} (hx : StandsAt text c x mid)
    (hf : ∀ a, mid a → Stands text (f a) ok) : StandsAt text c (x >>= f) ok := by
  have hrest := hf _ hx.value _ hx.next
  refine ⟨hrest.next, hrest.value, ?_⟩
  intro d hd
  cases List.mem_append.mp hd with
  | inl hin => exact hx.reports d hin
  | inr hin => exact hrest.reports d hin

theorem Stands.bind {x : Parse α} {f : α → Parse β} {mid : α → Prop} {ok : β → Prop} (hx : Stands text x mid)
    (hf : ∀ a, mid a → Stands text (f a) ok) : Stands text (x >>= f) ok := fun c hc => (hx c hc).bind hf

theorem stands_pure {a : α} {ok : α → Prop} (h : ok a) : Stands text (Pure.pure a) ok :=
  fun _ hc => ⟨hc, h, by simp [Pure.pure]⟩

/-- What a kind is looked at for is known where it is looked at. -/
theorem stands_kind {f : TokenKind → Parse β} {ok : β → Prop}
    (h : ∀ c : Cursor, c.InText text → StandsAt text c (f c.kind) ok) : Stands text (kind >>= f) ok :=
  fun c hc => ⟨(h c hc).next, (h c hc).value, (h c hc).reports⟩

theorem stands_cursor : Stands text cursor (Cursor.InText text) :=
  fun _ hc => ⟨hc, hc, by simp [cursor]⟩

theorem stands_token {f : Token → Parse β} {ok : β → Prop}
    (h : ∀ c : Cursor, c.InText text → StandsAt text c (f c.current) ok) : Stands text (token >>= f) ok :=
  fun c hc => ⟨(h c hc).next, (h c hc).value, (h c hc).reports⟩

theorem stands_report {d : Diagnostic} (h : Points text d) : Stands text (report d) fun _ => True :=
  fun _ hc => ⟨hc, trivial, List.forall_mem_singleton.mpr h⟩

theorem stands_advance : Stands text advance fun _ => True :=
  fun _ hc => ⟨hc.advance, trivial, by simp [advance]⟩

theorem stands_skipStatement : Stands text skipStatement fun _ => True :=
  fun _ hc => ⟨hc.skipStatement, trivial, by simp [skipStatement]⟩

theorem stands_skipBraced : Stands text skipBraced fun _ => True :=
  fun _ hc => ⟨hc.skipBraced, trivial, by simp [skipBraced]⟩

theorem stands_spanFrom {start : Span} (h : Boundary text start.start) :
    Stands text (spanFrom start) (Span.Fits text) := by
  intro c hc
  refine ⟨hc, ?_, by simp [spanFrom, cursor, Bind.bind, Pure.pure]⟩
  exact .of_boundary (Nat.le_max_right _ _) h (hc.prevStop.max h)

theorem stands_expected (what : String) : Stands text (expected what) fun _ => True :=
  stands_token fun c hc => stands_report (.error (by decide) hc.current.cuts.fits) c hc

theorem stands_eat (k : TokenKind) : Stands text (eat k) fun _ => True := by
  apply stands_kind
  intro c hc
  split
  · exact stands_advance.bind (fun _ _ => stands_pure trivial) c hc
  · exact stands_pure trivial c hc

theorem stands_expect (k : TokenKind) : Stands text (expect k) fun _ => True := by
  apply (stands_eat k).bind
  intro eaten _
  split
  · exact stands_pure trivial
  · exact (stands_expected _).bind fun _ _ => stands_pure trivial

theorem stands_name : Stands text name fun _ => True := by
  apply stands_token
  intro c hc
  split
  · exact stands_advance.bind (fun _ _ => stands_pure trivial) c hc
  · exact (stands_expected _).bind (fun _ _ => stands_pure trivial) c hc

theorem stands_semicolon : Stands text semicolon fun _ => True := by
  apply stands_kind
  intro c hc
  split
  · exact stands_advance c hc
  · exact (stands_expected _).bind (fun _ _ => stands_skipStatement) c hc

end Parse

namespace Expr

open Parse

variable {text : String}

/-- What stands between the quotes or the braces of a token. -/
theorem cuts_inner {t : Token} (h : t.InText text) (hk : t.kind = .stringLiteral ∨ t.kind = .foreignCode) :
    Span.Cuts ⟨t.span.start + 1, t.span.start + 1 + Utf8.size (inner t.text)⟩ text.toList (inner t.text) ∧
      t.span.stop = t.span.start + 1 + Utf8.size (inner t.text) + 1 := by
  obtain ⟨a, body, b, htext, ha, hb⟩ := h.quoted hk
  have hinner : inner t.text = body := by simp [inner, htext]
  have hcuts := h.cuts
  rw [htext] at hcuts
  rw [hinner]
  constructor
  · have hbody := hcuts.inner
    rwa [Utf8.size_cons, ha] at hbody
  · obtain ⟨before, after, -, hspan⟩ := hcuts
    rw [hspan]
    simp only [Utf8.size_append, Utf8.size_cons, Utf8.size_nil, ha, hb]
    omega

theorem stands_ofInt {t : Token} (h : t.InText text) : Stands text (ofInt t) fun e => e.span.Fits text := by
  have hspan := h.cuts.fits
  rw [ofInt]
  split
  split
  · exact (stands_report (.error (by decide) hspan)).bind fun _ _ => stands_pure hspan
  · dsimp only
    split
    · exact stands_pure hspan
    · exact (stands_report (.error (by decide) hspan)).bind fun _ _ => stands_pure hspan

theorem stands_ofString {t : Token} (h : t.InText text) (hk : t.kind = .stringLiteral) :
    Stands text (ofString t) fun e => e.span.Fits text := by
  have hspan := h.cuts.fits
  rw [ofString]
  split
  next value hvalue =>
    split
    · refine (stands_report ⟨?_, ?_⟩).bind fun _ _ => stands_pure hspan
      · exact List.forall_mem_singleton.mpr hspan
      · intro hcode
        cases hcode
    · exact stands_pure hspan
  next e herror =>
    -- The bad escape is a part of the body, and the body is one of the text.
    have hbody := (cuts_inner h (.inl hk)).1
    have hcovers : e.Covers 0 (inner t.text) := by
      apply Quoted.covers_of_unescapeFrom
      rw [Quoted.unescape, String.toList_ofList] at herror
      cases hfrom : Quoted.unescapeFrom 0 (inner t.text) with
      | error e' =>
          rw [hfrom] at herror
          cases herror
          rfl
      | ok cs =>
          rw [hfrom] at herror
          cases herror
    obtain ⟨before, bad, after, hparts, hoffset, hlength⟩ := hcovers
    rw [hparts] at hbody
    have hbad := hbody.inner.fits
    rw [Nat.zero_add] at hoffset
    rw [← hoffset, ← hlength] at hbad
    exact (stands_report (.error (by decide) hbad)).bind fun _ _ => stands_pure hspan

theorem stands_parse : Stands text parse fun e => e.span.Fits text := by
  apply stands_token
  intro c hc
  have htoken := hc.current
  have hspan := htoken.cuts.fits
  split
  next =>
    refine stands_advance.bind (fun _ _ => stands_pure ?_) c hc
    exact hspan
  next => exact stands_advance.bind (fun _ _ => stands_ofInt htoken) c hc
  next hk => exact stands_advance.bind (fun _ _ => stands_ofString htoken hk) c hc
  next =>
    refine (stands_expected _).bind (fun _ _ => stands_pure ?_) c hc
    exact hspan

end Expr

namespace Formal

open Parse

variable {text : String}

theorem stands_parseIntent : Stands text parseIntent fun _ => True := by
  apply stands_kind
  intro c hc
  split
  · refine stands_advance.bind (fun _ _ => (stands_eat _).bind fun eaten _ => ?_) c hc
    split
    · exact stands_pure trivial
    · refine (stands_eat _).bind fun eaten _ => ?_
      split
      · exact stands_pure trivial
      · exact stands_pure trivial
  iterate 6 exact stands_advance.bind (fun _ _ => stands_pure trivial) c hc
  exact stands_pure trivial c hc

theorem stands_parse : Stands text parse fun f => f.span.Fits text := by
  apply stands_token
  intro c hc
  refine stands_parseIntent.bind (fun intent _ => stands_name.bind fun name _ => ?_) c hc
  exact (stands_spanFrom hc.start_current).bind fun span hspan => stands_pure hspan

theorem stands_parseMany : Stands text parseMany fun fs => ∀ f ∈ fs, f.span.Fits text := by
  intro c hc
  fun_induction parseMany c with
  | case1 c s h _ _ t ih =>
      have hfirst := stands_parse c hc
      have hrest := ih hfirst.next.advance
      obtain ⟨hvalue, hreports, hnext⟩ := parseMany_of_comma h
      constructor
      · rw [hnext]
        exact hrest.next
      · rw [hvalue]
        exact List.forall_mem_cons.mpr ⟨hfirst.value, hrest.value⟩
      · rw [hreports]
        exact List.forall_mem_append.mpr ⟨hfirst.reports, hrest.reports⟩
  | case2 c s h =>
      have hfirst := stands_parse c hc
      obtain ⟨hvalue, hreports, hnext⟩ := parseMany_of_last h
      constructor
      · rw [hnext]
        exact hfirst.next
      · rw [hvalue]
        exact List.forall_mem_singleton.mpr hfirst.value
      · rw [hreports]
        exact hfirst.reports

theorem stands_parseList : Stands text parseList fun fs => ∀ f ∈ fs, f.span.Fits text := by
  have hrest (fs : List Formal) (hfs : ∀ f ∈ fs, f.span.Fits text) :
      Stands text (do
        let _ ← Parse.expect .rightParen
        return fs) fun fs => ∀ f ∈ fs, f.span.Fits text :=
    (stands_expect _).bind fun _ _ => stands_pure hfs
  have hnil : Stands text (Pure.pure []) fun fs : List Formal => ∀ f ∈ fs, f.span.Fits text :=
    stands_pure (by simp)
  apply (stands_expect _).bind
  intro found _
  split
  · apply stands_kind
    intro c hc
    dsimp only
    split
    · exact hnil.bind hrest c hc
    · exact stands_parseMany.bind hrest c hc
  · exact hnil

end Formal

namespace Stmt

open Parse

variable {text : String} {body? : Option (Parse (List Stmt))} {start : Span}

/-- Every span of the statement fits. -/
def Fits (text : String) (s : Stmt) : Prop := ∀ span ∈ s.spans, span.Fits text

def ListFits (text : String) (stmts : List Stmt) : Prop := ∀ span ∈ spansOfList stmts, span.Fits text

theorem fits_bad {span : Span} (h : span.Fits text) : (Stmt.bad span).Fits text := List.forall_mem_singleton.mpr h

theorem listFits_nil : ListFits text [] := by simp [ListFits, spansOfList]

theorem listFits_cons {s : Stmt} {rest : List Stmt} (hs : s.Fits text) (hrest : ListFits text rest) :
    ListFits text (s :: rest) := List.forall_mem_append.mpr ⟨hs, hrest⟩

theorem listFits_comments {comments : List Comment} {stmts : List Stmt}
    (hcomments : ∀ k ∈ comments, k.span.Fits text) (hstmts : ListFits text stmts) :
    ListFits text (comments.map ofComment ++ stmts) := by
  induction comments with
  | nil => exact hstmts
  | cons k rest ih =>
      rw [List.forall_mem_cons] at hcomments
      exact listFits_cons (List.forall_mem_singleton.mpr hcomments.1) (ih hcomments.2)

theorem stands_parseVariableKind : Stands text parseVariableKind fun _ => True := by
  apply stands_kind
  intro c hc
  split
  · refine stands_cursor.bind (fun c' _ => ?_) c hc
    split
    · exact stands_advance.bind fun _ _ => stands_pure trivial
    · exact stands_pure trivial
  iterate 4 exact stands_pure trivial c hc

theorem stands_parseVariable (visibility : Visibility) (hstart : Boundary text start.start) :
    Stands text (parseVariable visibility start) (Fits text) := by
  rw [parseVariable]
  refine stands_parseVariableKind.bind fun kind _ => stands_advance.bind fun _ _ => ?_
  refine stands_name.bind fun name _ => (stands_eat _).bind fun eaten _ => ?_
  have hrest (init : Option Expr) (hinit : ∀ e ∈ init, e.span.Fits text) :
      Stands text (do
        Parse.semicolon
        return .varDecl visibility kind name init (← Parse.spanFrom start)) (Fits text) := by
    refine stands_semicolon.bind fun _ _ => (stands_spanFrom hstart).bind fun span hspan => stands_pure ?_
    refine List.forall_mem_cons.mpr ⟨hspan, ?_⟩
    cases init with
    | none => simp
    | some e => exact List.forall_mem_singleton.mpr (hinit e rfl)
  dsimp only
  split
  · refine Stands.bind (Expr.stands_parse.bind fun e he => stands_pure ?_) hrest
    exact fun x hx => Option.some.inj hx ▸ he
  · exact Stands.bind (stands_pure (by simp)) hrest

/-- What is skipped after a report leaves a bad statement behind. -/
theorem stands_skipped (what : String) (hstart : Boundary text start.start) :
    Stands text (do
      Parse.expected what
      Parse.skipStatement
      return .bad (← Parse.spanFrom start)) (Fits text) :=
  (stands_expected what).bind fun _ _ => stands_skipStatement.bind fun _ _ =>
    (stands_spanFrom hstart).bind fun _ hspan => stands_pure (fits_bad hspan)

theorem stands_parseForeign (hstart : Boundary text start.start) : Stands text (parseForeign start) (Fits text) := by
  rw [parseForeign]
  refine stands_advance.bind fun _ _ => stands_token fun c hc => ?_
  split
  · refine stands_advance.bind (fun _ _ => (stands_eat _).bind fun _ _ => ?_) c hc
    exact (stands_spanFrom hstart).bind fun _ hspan => stands_pure (List.forall_mem_singleton.mpr hspan)
  · refine stands_advance.bind (fun _ _ => ?_) c hc
    exact (stands_spanFrom hstart).bind fun _ hspan => stands_pure (fits_bad hspan)
  · exact stands_skipped _ hstart c hc

/-- An opening brace that is rejected is one of the tokens of the text. -/
theorem points_nesting {c : Cursor} (hc : c.InText text) (hk : c.kind = .leftBrace) (message : String) :
    Points text (.error .nestingTooDeep message c.current.span) where
  fits := List.forall_mem_singleton.mpr hc.current.cuts.fits
  opens := by
    intro _
    obtain ⟨tokens, final, p⟩ := c
    cases tokens with
    | nil =>
        obtain ⟨leading, hfinal⟩ := TokenStream.final_ofText text
        have hend : final.kind = .endOfFile := congrArg Token.kind (hc.final.trans (congrArg Token.bare hfinal))
        cases hk.symm.trans hend
    | cons t ts =>
        obtain ⟨front, hfront⟩ := hc.tokens
        obtain ⟨before, rest, hsplit, -, hrest⟩ := List.map_eq_append_iff.mp hfront.symm
        obtain ⟨u, after, rfl, hbare, -⟩ := List.map_eq_cons_iff.mp hrest
        have hkind : u.kind = .leftBrace := (congrArg Token.kind hbare).trans hk
        refine ⟨before, u, after, hsplit, hkind, (congrArg Token.span hbare).symm, ?_⟩
        intro final p
        exact Cursor.skipBraced?_of_leftBrace hkind

theorem stands_rejectNesting {c : Cursor} (hc : c.InText text) (hk : c.kind = .leftBrace) :
    StandsAt text c rejectNesting (Span.Fits text) := by
  have hreport : StandsAt text c _ (Span.Fits text) :=
    (stands_report (points_nesting hc hk
      ("braces nested more than " ++ toString maxNesting ++ " levels deep")) c hc).bind fun _ _ =>
    stands_skipBraced.bind fun _ _ => stands_spanFrom hc.start_current
  exact ⟨hreport.next, hreport.value, hreport.reports⟩

theorem standsAt_parseBraced (hbody : ∀ body ∈ body?, Stands text body (ListFits text)) {c : Cursor}
    (hc : c.InText text) (hk : c.kind = .leftBrace) : StandsAt text c (parseBraced body?) (ListFits text) := by
  unfold parseBraced
  cases body? with
  | none =>
      refine (stands_rejectNesting hc hk).bind fun span hspan => stands_pure ?_
      exact listFits_cons (fits_bad hspan) listFits_nil
  | some body =>
      refine stands_token (fun c hc => ?_) c hc
      refine stands_advance.bind (fun _ _ => (hbody body rfl).bind fun stmts hstmts => ?_) c hc
      refine (stands_eat _).bind fun eaten _ => ?_
      split
      · exact stands_pure hstmts
      · refine stands_token fun c' hc' => (stands_report ⟨?_, ?_⟩).bind (fun _ _ => stands_pure hstmts) c' hc'
        · -- The report points at what was found and is labelled with the opening brace.
          exact List.forall_mem_cons.mpr ⟨hc'.current.cuts.fits, List.forall_mem_singleton.mpr hc.current.cuts.fits⟩
        · intro hcode
          cases hcode

theorem stands_parseModule (hbody : ∀ body ∈ body?, Stands text body (ListFits text)) (visibility : Visibility)
    (hstart : Boundary text start.start) : Stands text (parseModule body? visibility start) (Fits text) := by
  rw [parseModule]
  refine stands_advance.bind fun _ _ => stands_name.bind fun name _ => stands_kind fun c hc => ?_
  split
  next hk =>
    refine (standsAt_parseBraced hbody hc hk).bind fun body hok => (stands_spanFrom hstart).bind fun span hspan => ?_
    exact stands_pure (List.forall_mem_cons.mpr ⟨hspan, hok⟩)
  next =>
    refine (stands_expected _).bind (fun _ _ => stands_skipStatement.bind fun _ _ => ?_) c hc
    refine (stands_spanFrom hstart).bind fun span hspan => stands_pure ?_
    exact List.forall_mem_cons.mpr ⟨hspan, listFits_nil⟩

theorem stands_parseProc (hbody : ∀ body ∈ body?, Stands text body (ListFits text)) (visibility : Visibility)
    (hstart : Boundary text start.start) : Stands text (parseProc body? visibility start) (Fits text) := by
  rw [parseProc]
  refine stands_advance.bind fun _ _ => stands_name.bind fun name _ => ?_
  refine Formal.stands_parseList.bind fun formals hformals => stands_token fun c hc => ?_
  have hfits {body : List Stmt} {bodySpan span : Span} (hspan : span.Fits text) (hbodySpan : bodySpan.Fits text)
      (hok : ListFits text body) : (Stmt.procDecl visibility name formals body bodySpan span).Fits text := by
    refine List.forall_mem_cons.mpr ⟨hspan, List.forall_mem_cons.mpr ⟨hbodySpan, ?_⟩⟩
    exact List.forall_mem_append.mpr ⟨List.forall_mem_map.mpr hformals, hok⟩
  split
  next hk =>
    refine (standsAt_parseBraced hbody hc hk).bind fun body hok => ?_
    refine (stands_spanFrom hc.start_current).bind fun bodySpan hbodySpan => ?_
    exact (stands_spanFrom hstart).bind fun span hspan => stands_pure (hfits hspan hbodySpan hok)
  next =>
    refine (stands_expected _).bind (fun _ _ => stands_skipStatement.bind fun _ _ => ?_) c hc
    refine stands_cursor.bind fun c' hc' => (stands_spanFrom hstart).bind fun span hspan => stands_pure ?_
    exact hfits hspan (.empty hc'.prevStop) listFits_nil

theorem stands_parseVisibility : Stands text parseVisibility fun _ => True := by
  apply stands_kind
  intro c hc
  split
  · exact stands_advance.bind (fun _ _ => stands_pure trivial) c hc
  · exact stands_advance.bind (fun _ _ => stands_pure trivial) c hc
  · exact stands_pure trivial c hc

theorem stands_parsePlain (hbody : ∀ body ∈ body?, Stands text body (ListFits text)) (hstart : start.Fits text) :
    Stands text (parsePlain body? start) (Fits text) := by
  have hexpr : Stands text (do
      let e ← Expr.parse
      Parse.semicolon
      return .expr e (← Parse.spanFrom start)) (Fits text) := by
    refine Expr.stands_parse.bind fun e he => stands_semicolon.bind fun _ _ => ?_
    refine (stands_spanFrom hstart.start_boundary).bind fun span hspan => stands_pure ?_
    exact List.forall_mem_cons.mpr ⟨hspan, List.forall_mem_singleton.mpr he⟩
  have htoken (message : String) : Stands text (do
      Parse.report (.error .unexpectedToken message start)
      Parse.advance
      return .bad start) (Fits text) :=
    (stands_report (.error (by decide) hstart)).bind fun _ _ => stands_advance.bind fun _ _ =>
      stands_pure (fits_bad hstart)
  apply stands_kind
  intro c hc
  split
  next hk =>
    split
    · refine (stands_rejectNesting hc hk).bind fun span hspan => stands_pure ?_
      exact fits_bad hspan
    · refine (standsAt_parseBraced hbody hc hk).bind fun body hok => ?_
      refine (stands_spanFrom hstart.start_boundary).bind fun span hspan => stands_pure ?_
      exact List.forall_mem_cons.mpr ⟨hspan, hok⟩
  next => exact stands_parseForeign hstart.start_boundary c hc
  next => exact hexpr c hc
  next => exact hexpr c hc
  next => exact hexpr c hc
  next => exact htoken _ c hc
  next => exact htoken _ c hc
  next =>
    refine stands_skipStatement.bind (fun _ _ => ?_) c hc
    exact (stands_spanFrom hstart.start_boundary).bind fun span hspan => stands_pure (fits_bad hspan)
  next =>
    refine (stands_expected _).bind (fun _ _ => stands_advance.bind fun _ _ => ?_) c hc
    refine stands_skipStatement.bind fun _ _ => ?_
    exact (stands_spanFrom hstart.start_boundary).bind fun span hspan => stands_pure (fits_bad hspan)

theorem stands_parseWith (hbody : ∀ body ∈ body?, Stands text body (ListFits text)) :
    Stands text (parseWith body?) (Fits text) := by
  apply stands_token
  intro c hc
  have hstart := hc.current.cuts.fits
  refine stands_parseVisibility.bind (fun visibility _ => stands_kind fun c' hc' => ?_) c hc
  split
  · exact stands_parseModule hbody visibility hstart.start_boundary c' hc'
  split
  · exact stands_parseProc hbody visibility hstart.start_boundary c' hc'
  split
  · exact stands_parseVariable visibility hstart.start_boundary c' hc'
  split
  · exact stands_skipped _ hstart.start_boundary c' hc'
  · exact stands_parsePlain hbody hstart c' hc'

theorem stands_parseList {item : Parse Stmt} (hitem : Stands text item (Fits text)) (braced : Bool) :
    Stands text (parseList item braced) (ListFits text) := by
  intro c hc
  have hcomments : ∀ k ∈ c.current.leading, k.span.Fits text :=
    fun k hk => (TokenStream.cuts_of_comment (hc.comments_current k hk)).fits
  fun_induction parseList item braced c with
  | case1 c comments h =>
      obtain ⟨hvalue, hreports, hnext⟩ := parseList_of_end item h
      constructor
      · rw [hnext]
        exact hc.dropLeading
      · rw [hvalue, ← List.append_nil (List.map _ _)]
        exact listFits_comments hcomments listFits_nil
      · simp [hreports]
  | case2 c comments h s lt t ih =>
      have hfirst := hitem c.dropLeading hc.dropLeading
      have hresume : (resume c.dropLeading s).InText text := by
        rw [resume]
        split
        · exact hfirst.next
        · exact hc.dropLeading.advance
      have hrest := ih hresume fun k hk => (TokenStream.cuts_of_comment (hresume.comments_current k hk)).fits
      obtain ⟨hvalue, hreports, hnext⟩ := parseList_of_more item h
      constructor
      · rw [hnext]
        exact hrest.next
      · rw [hvalue]
        exact listFits_comments hcomments (listFits_cons hfirst.value hrest.value)
      · rw [hreports]
        exact List.forall_mem_append.mpr ⟨hfirst.reports, hrest.reports⟩

theorem stands_parse (levels : Nat) : Stands text (parse levels) (Fits text) := by
  induction levels with
  | zero => exact stands_parseWith (by simp)
  | succ levels ih =>
      refine stands_parseWith fun body hbody => ?_
      obtain rfl := Option.some.inj hbody
      exact stands_parseList ih true

/-- The list of a whole text leaves no token. -/
theorem tokens_parseList (item : Parse Stmt) (c : Cursor) : (parseList item false c).next.tokens = [] := by
  fun_induction parseList item false c with
  | case1 c comments h => simpa [atListEnd] using h
  | case2 c comments h s lt t ih => exact ih

end Stmt

/-- All places that reading a text yields: those of tokens and comments, of the tree, and of the reports. -/
def spansOfText (text : String) : List Span :=
  (TokenStream.ofText text).all.map Token.span ++ (TokenStream.ofText text).comments.map Comment.span ++
    ((parseText text).file.span :: spansOfList (parseText text).file.stmts) ++
      (parseText text).reports.flatMap Diagnostic.spans

/-- Reading a text cuts out only what stands in it, stays among its tokens, takes a token with every statement,
and points only into the text. -/
structure NeverFails (text : String) : Prop where
  tokens : ∀ t ∈ (TokenStream.ofText text).tokens, (SourceText.ofString text).snippet? t.span = some t.text
  comments : ∀ k ∈ (TokenStream.ofText text).comments, (SourceText.ofString text).snippet? k.span = some k.text
  /-- What stands between the ends of a literal or of foreign code can be cut out. -/
  bodies : ∀ t ∈ (TokenStream.ofText text).tokens, t.kind = .stringLiteral ∨ t.kind = .foreignCode →
    t.span.start + 1 ≤ t.span.stop - 1 ∧
      (SourceText.ofString text).snippet? ⟨t.span.start + 1, t.span.stop - 1⟩ =
        some (String.ofList (Expr.inner t.text))
  starts : (Cursor.ofStream (TokenStream.ofText text)).InText text
  stays : ∀ levels c, Cursor.InText text c → (Stmt.parse levels c).next.InText text
  /-- A statement takes a token, so that its list goes on where it ended. -/
  progress : ∀ levels (c : Cursor), c.tokens ≠ [] →
    (Stmt.parse levels c).next.tokens.length < c.tokens.length ∧
      Stmt.resume c (Stmt.parse levels c) = (Stmt.parse levels c).next
  finishes : (Stmt.parseList (Stmt.parse maxNesting) false
    (Cursor.ofStream (TokenStream.ofText text))).next.tokens = []
  /-- Braces are counted from an opening one, and the count does not fall below zero. -/
  nesting : ∀ d ∈ (parseTokens (TokenStream.ofText text)).2, d.code = .nestingTooDeep →
    ∃ before t after, (TokenStream.ofText text).tokens = before ++ t :: after ∧ t.kind = .leftBrace ∧
      d.primary = t.span ∧ ∀ final p,
        Cursor.skipBraced? final 0 (t :: after) p = some (Cursor.skipBraced final 0 (t :: after) p)
  spans : ∀ s ∈ spansOfText text, s.Fits text

theorem snippet?_inner {text : String} {t : Token} (ht : t ∈ (TokenStream.ofText text).tokens)
    (hk : t.kind = .stringLiteral ∨ t.kind = .foreignCode) :
    t.span.start + 1 ≤ t.span.stop - 1 ∧
      (SourceText.ofString text).snippet? ⟨t.span.start + 1, t.span.stop - 1⟩ =
        some (String.ofList (Expr.inner t.text)) := by
  obtain ⟨hcuts, hstop⟩ := Expr.cuts_inner (TokenStream.inText ht) hk
  rw [hstop, Nat.add_sub_cancel]
  constructor
  · exact Nat.le_add_right _ _
  · exact hcuts.snippet?_ofList

theorem stands_file (text : String) :
    Parse.StandsAt text (Cursor.ofStream (TokenStream.ofText text)) (Stmt.parseList (Stmt.parse maxNesting) false)
      (Stmt.ListFits text) :=
  Stmt.stands_parseList (Stmt.stands_parse maxNesting) false _ (Cursor.InText.ofText text)

theorem fits_spansOfText (text : String) : ∀ s ∈ spansOfText text, s.Fits text := by
  have hfile := stands_file text
  have htokens : ∀ s ∈ (TokenStream.ofText text).all.map Token.span, s.Fits text := by
    rw [TokenStream.all, List.map_append]
    refine List.forall_mem_append.mpr ⟨?_, ?_⟩
    · exact List.forall_mem_map.mpr fun t ht => (TokenStream.inText ht).cuts.fits
    · obtain ⟨leading, hfinal⟩ := TokenStream.final_ofText text
      rw [hfinal]
      exact List.forall_mem_singleton.mpr (.empty .size)
  have hcomments : ∀ s ∈ (TokenStream.ofText text).comments.map Comment.span, s.Fits text :=
    List.forall_mem_map.mpr fun k hk => (TokenStream.cuts_of_comment hk).fits
  have htree : ∀ s ∈ (parseText text).file.span :: spansOfList (parseText text).file.stmts, s.Fits text :=
    List.forall_mem_cons.mpr ⟨.of_boundary (Nat.zero_le _) .zero .size, hfile.value⟩
  have hreports : ∀ s ∈ (parseText text).reports.flatMap Diagnostic.spans, s.Fits text := by
    intro s hs
    obtain ⟨d, hd, hspan⟩ := List.mem_flatMap.mp hs
    cases List.mem_append.mp hd with
    | inl hlex => exact TokenStream.fits_reports hlex s hspan
    | inr hparse => exact (hfile.reports d hparse).fits s hspan
  refine List.forall_mem_append.mpr ⟨List.forall_mem_append.mpr ⟨?_, htree⟩, hreports⟩
  exact List.forall_mem_append.mpr ⟨htokens, hcomments⟩

/-- No text makes reading it fail, whatever is wrong with it. -/
theorem neverFails (text : String) : NeverFails text where
  tokens := fun _ ht => (TokenStream.inText ht).cuts.snippet?
  comments := fun _ hk => (TokenStream.cuts_of_comment hk).snippet?
  bodies := fun _ ht hk => snippet?_inner ht hk
  starts := .ofText text
  stays := fun levels c hc => (Stmt.stands_parse levels c hc).next
  progress := fun levels _ hc => ⟨Stmt.takes_parse hc levels, Stmt.resume_parse hc levels⟩
  finishes := Stmt.tokens_parseList _ _
  nesting := fun d hd => ((stands_file text).reports d hd).opens
  spans := fits_spansOfText text

end Surface
end Palimpsest
