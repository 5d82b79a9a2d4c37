import Palimpsest.Proofs.Surface.Construct
import Palimpsest.Proofs.Surface.Literals
import Palimpsest.Proofs.Surface.Nested

/-!
The tokens of a construct are read as its statement, whatever stands behind them. Where its braces are nested too
deep, what is left of it is read, and each region that is not followed is reported.
-/

namespace Palimpsest
namespace Surface

open Token (extent endOf Bare withLeading)

namespace Parse

variable {α β : Type} {c d e : Cursor} {errors more : List Diagnostic}

/-- The step comes to this value, these errors and this place. -/
structure Runs (c : Cursor) (x : Parse α) (a : α) (errors : List Diagnostic) (d : Cursor) : Prop where
  value : (x c).value = a
  errors : (x c).reports.filter Diagnostic.isError = errors
  next : (x c).next = d

theorem Runs.append {x : Parse α} {f : α → Parse β} {a : α} {b : β} (hx : Runs c x a errors d)
    (hf : Runs d (f a) b more e) : Runs c (x >>= f) b (errors ++ more) e := by
  obtain ⟨rfl, rfl, rfl⟩ := hx
  obtain ⟨hvalue, herrors, hnext⟩ := hf
  refine ⟨hvalue, ?_, hnext⟩
  rw [← herrors, ← List.filter_append]
  rfl

/-- Errors come from the rest only. -/
theorem Runs.bind {x : Parse α} {f : α → Parse β} {a : α} {b : β} (hx : Runs c x a [] d)
    (hf : Runs d (f a) b errors e) : Runs c (x >>= f) b errors e := hx.append hf

/-- Nothing is reported any more. -/
theorem Runs.last {x : Parse α} {f : α → Parse β} {a : α} {b : β} (hx : Runs c x a errors d)
    (hf : Runs d (f a) b [] e) : Runs c (x >>= f) b errors e := by
  have hall := hx.append hf
  rwa [List.append_nil] at hall

theorem runs_pure (a : α) : Runs c (Pure.pure a) a [] c := ⟨rfl, rfl, rfl⟩

theorem runs_report {d : Diagnostic} (h : d.isError = true) : Runs c (report d) () [d] c := by
  refine ⟨rfl, ?_, rfl⟩
  simp [report, h]

variable {b : β} {t : Token} {ts : List Token} {final : Token} {q : Nat} {k : TokenKind}

theorem runs_current {f : Token → Parse β} (h : Runs c (f c.current) b errors e) :
    Runs c (token >>= f) b errors e := .bind ⟨rfl, rfl, rfl⟩ h

theorem runs_token {f : Token → Parse β} (h : Runs ⟨t :: ts, final, q⟩ (f t) b errors e) :
    Runs ⟨t :: ts, final, q⟩ (token >>= f) b errors e := runs_current h

theorem runs_kind {f : TokenKind → Parse β} (hk : c.kind = k) (h : Runs c (f k) b errors e) :
    Runs c (kind >>= f) b errors e := .bind ⟨hk, rfl, rfl⟩ h

theorem runs_cursor {f : Cursor → Parse β} (h : Runs c (f c) b errors e) : Runs c (cursor >>= f) b errors e :=
  .bind ⟨rfl, rfl, rfl⟩ h

theorem runs_spanFrom {start span : Span} {f : Span → Parse β} (hspan : c.spanFrom start = span)
    (h : Runs c (f span) b errors e) : Runs c (spanFrom start >>= f) b errors e := .bind ⟨hspan, rfl, rfl⟩ h

theorem runs_advance {f : Unit → Parse β} (h : Runs ⟨ts, final, t.span.stop⟩ (f ()) b errors e) :
    Runs ⟨t :: ts, final, q⟩ (advance >>= f) b errors e := .bind ⟨rfl, rfl, rfl⟩ h

theorem runs_eat {f : Bool → Parse β} (hk : t.kind = k) (h : Runs ⟨ts, final, t.span.stop⟩ (f true) b errors e) :
    Runs ⟨t :: ts, final, q⟩ (eat k >>= f) b errors e := by
  refine .bind (runs_kind hk ?_) h
  rw [if_pos rfl]
  exact runs_advance (runs_pure true)

theorem runs_eat_none {f : Bool → Parse β} (hk : c.kind ≠ k) (h : Runs c (f false) b errors e) :
    Runs c (eat k >>= f) b errors e := by
  refine .bind (runs_kind rfl ?_) h
  rw [if_neg hk]
  exact runs_pure false

theorem runs_expect {f : Bool → Parse β} (hk : t.kind = k) (h : Runs ⟨ts, final, t.span.stop⟩ (f true) b errors e) :
    Runs ⟨t :: ts, final, q⟩ (expect k >>= f) b errors e := .bind (runs_eat hk (runs_pure true)) h

theorem runs_name {f : String → Parse β} (hk : t.kind = .identifier)
    (h : Runs ⟨ts, final, t.span.stop⟩ (f t.text) b errors e) :
    Runs ⟨t :: ts, final, q⟩ (name >>= f) b errors e := by
  refine .bind (runs_token ?_) h
  rw [if_pos hk]
  exact runs_advance (runs_pure t.text)

theorem runs_semicolon {f : Unit → Parse β} (hk : t.kind = .semicolon)
    (h : Runs ⟨ts, final, t.span.stop⟩ (f ()) b errors e) :
    Runs ⟨t :: ts, final, q⟩ (semicolon >>= f) b errors e := by
  refine .bind (runs_kind hk ?_) h
  rw [if_pos rfl]
  exact ⟨rfl, rfl, rfl⟩

end Parse

open Parse

variable {t final : Token} {ts more : List Token} {q : Nat}

section Words

theorem Words.eq_nil (h : Words ts []) : ts = [] := List.map_eq_nil_iff.mp h

theorem Words.eq_one {k : TokenKind} (h : Words ts [.word k]) : ∃ t, ts = [t] ∧ t.kind = k :=
  List.map_eq_singleton_iff.mp h

theorem Words.eq_two {k k' : TokenKind} (h : Words ts [.word k, .word k']) :
    ∃ t u, ts = [t, u] ∧ t.kind = k ∧ u.kind = k' := by
  obtain ⟨t, us, rfl, hk, hrest⟩ := List.map_eq_cons_iff.mp h
  obtain ⟨u, rfl, hk'⟩ := List.map_eq_singleton_iff.mp hrest
  exact ⟨t, u, rfl, hk, hk'⟩

end Words

/-- The tokens up to here span what they were read as. -/
theorem spanFrom_extent (hts : ts ≠ []) (more : List Token) (final : Token) (q : Nat) :
    (⟨more, final, endOf q ts⟩ : Cursor).spanFrom (Cursor.current ⟨ts ++ more, final, q⟩).span = extent ts :=
  Cursor.Past.spanFrom (c := ⟨ts ++ more, final, q⟩) ⟨rfl, rfl, rfl⟩ hts

theorem Expr.runs_parse {e : Expr} (h : ReadsExpr t e) :
    Runs ⟨t :: more, final, q⟩ Expr.parse e [] ⟨more, final, t.span.stop⟩ := by
  apply runs_token
  cases h with
  | identifier hk =>
      rw [hk]
      exact runs_advance (runs_pure _)
  | @int value hk hvalue =>
      rw [hk]
      obtain ⟨hdigits, hvalue⟩ := counts_iff.mp hvalue
      refine runs_advance ?_
      rw [ofInt]
      dsimp only
      rw [if_neg (fun hempty => hdigits (List.isEmpty_iff.mp hempty)), ← hvalue, if_pos value.toNat_lt_size,
        UInt64.ofNat_toNat]
      exact runs_pure _
  | @str value hk hvalue =>
      rw [hk]
      refine runs_advance ?_
      rw [ofString, unescape_eq_ok.mpr hvalue]
      dsimp only
      split
      · exact ⟨rfl, rfl, rfl⟩
      · exact runs_pure _

namespace Formal

theorem runs_parseIntent {intent : Intent} {name : Token} (hwords : Words ts intent.words)
    (hname : name.kind = .identifier) :
    Runs ⟨ts ++ name :: more, final, q⟩ parseIntent intent [] ⟨name :: more, final, endOf q ts⟩ := by
  have hother {k : TokenKind} (hk : k ≠ .identifier) (p : Nat) : Cursor.kind ⟨name :: more, final, p⟩ ≠ k :=
    fun h => hk (h.symm.trans hname)
  cases intent with
  | plain =>
      obtain rfl := hwords.eq_nil
      exact runs_kind hname (runs_pure _)
  | const =>
      obtain ⟨t, rfl, hk⟩ := hwords.eq_one
      refine runs_kind hk (runs_advance ?_)
      exact runs_eat_none (hother (by decide) _) (runs_eat_none (hother (by decide) _) (runs_pure _))
  | constRef =>
      obtain ⟨t, u, rfl, hk, hk'⟩ := hwords.eq_two
      exact runs_kind hk (runs_advance (runs_eat hk' (runs_pure _)))
  | constIn =>
      obtain ⟨t, u, rfl, hk, hk'⟩ := hwords.eq_two
      refine runs_kind hk (runs_advance (runs_eat_none ?_ (runs_eat hk' (runs_pure _))))
      exact fun href => absurd (hk'.symm.trans href) (by decide)
  | ref | param | type | input | output | inout =>
      obtain ⟨t, rfl, hk⟩ := hwords.eq_one
      exact runs_kind hk (runs_advance (runs_pure _))

theorem runs_parse {f : Formal} (h : ReadsFormal ts f) (more : List Token) (final : Token) (q : Nat) :
    Runs ⟨ts ++ more, final, q⟩ parse f [] ⟨more, final, endOf q ts⟩ := by
  cases h with
  | @mk words intent name hwords hname =>
      have hne : words ++ [name] ≠ [] := by simp
      have hspan := spanFrom_extent hne more final q
      rw [List.append_assoc, List.singleton_append] at hspan ⊢
      refine runs_current (.bind (runs_parseIntent hwords hname) (runs_name hname ?_))
      rw [Token.endOf_append] at hspan ⊢
      exact runs_spanFrom hspan (runs_pure _)

theorem runs_parseMany {fs : List Formal} (h : ReadsFormals ts fs) (hmore : Cursor.kind ⟨more, final, q⟩ ≠ .comma) :
    ∀ p, Runs ⟨ts ++ more, final, p⟩ parseMany fs [] ⟨more, final, endOf p ts⟩ := by
  induction h with
  | @last ts f hformal =>
      intro p
      obtain ⟨hvalue, herrors, hnext⟩ := runs_parse hformal more final p
      have hlast : ¬ ((parse ⟨ts ++ more, final, p⟩).next.kind = .comma ∧
          (parse ⟨ts ++ more, final, p⟩).next.tokens ≠ []) := by
        rw [hnext]
        exact fun h => hmore h.1
      obtain ⟨hvalue', hreports', hnext'⟩ := parseMany_of_last hlast
      exact ⟨by rw [hvalue', hvalue], by rw [hreports', herrors], by rw [hnext', hnext]⟩
  | @more ts us comma f fs hformal hcomma hrest ih =>
      intro p
      obtain ⟨hvalue, herrors, hnext⟩ := runs_parse hformal (comma :: us ++ more) final p
      rw [← List.append_assoc] at hvalue herrors hnext
      have hgoes : (parse ⟨ts ++ comma :: us ++ more, final, p⟩).next.kind = .comma ∧
          (parse ⟨ts ++ comma :: us ++ more, final, p⟩).next.tokens ≠ [] := by
        rw [hnext]
        exact ⟨hcomma, List.cons_ne_nil _ _⟩
      obtain ⟨hvalue', hreports', hnext'⟩ := parseMany_of_comma hgoes
      obtain ⟨hvalues, herrors', hnexts⟩ := ih comma.span.stop
      rw [hnext] at hvalue' hreports' hnext'
      refine ⟨?_, ?_, ?_⟩
      · rw [hvalue', hvalue]
        exact congrArg (f :: ·) hvalues
      · rw [hreports', List.filter_append, herrors]
        exact herrors'
      · rw [hnext', Token.endOf_append]
        exact hnexts

theorem exists_cons_of_reads {f : Formal} (h : ReadsFormal ts f) : ∃ t us, ts = t :: us ∧ t.kind ≠ .rightParen := by
  cases h with
  | @mk words intent name hwords hname =>
      have hword {t : Token} {us : List Token} {k : TokenKind} (hk : t.kind = k) (hother : k ≠ .rightParen) :
          ∃ u vs, t :: us ++ [name] = u :: vs ∧ u.kind ≠ .rightParen := ⟨t, us ++ [name], rfl, hk ▸ hother⟩
      cases intent with
      | plain =>
          obtain rfl := hwords.eq_nil
          exact ⟨name, [], rfl, by rw [hname]; decide⟩
      | const | ref | param | type | input | output | inout =>
          obtain ⟨t, rfl, hk⟩ := hwords.eq_one
          exact hword hk (by decide)
      | constRef | constIn =>
          obtain ⟨t, u, rfl, hk, -⟩ := hwords.eq_two
          exact hword hk (by decide)

theorem runs_parseList {fs : List Formal} (h : ReadsParams ts fs) :
    Runs ⟨ts ++ more, final, q⟩ parseList fs [] ⟨more, final, endOf q ts⟩ := by
  cases h with
  | none hopening hclosing =>
      refine runs_expect hopening (runs_kind hclosing (.bind (runs_pure []) ?_))
      exact runs_expect hclosing (runs_pure _)
  | @some ts opening closing fs hopening hformals hclosing =>
      have hother : Cursor.kind ⟨closing :: more, final, q⟩ ≠ .comma := by
        change closing.kind ≠ .comma
        rw [hclosing]
        decide
      rw [List.cons_append, List.append_assoc, List.singleton_append, Token.endOf_cons, Token.endOf_append]
      refine runs_expect hopening (runs_kind rfl ?_)
      obtain ⟨t, us, hcons, hk⟩ : ∃ t us, ts = t :: us ∧ t.kind ≠ .rightParen := by
        cases hformals with
        | last h => exact exists_cons_of_reads h
        | more h =>
            obtain ⟨t, us, rfl, hk⟩ := exists_cons_of_reads h
            exact ⟨t, _, rfl, hk⟩
      rw [if_neg (by rw [hcons]; exact hk)]
      exact .bind (runs_parseMany hformals hother _) (runs_expect hclosing (runs_pure _))

end Formal

namespace Stmt

theorem runs_parseVisibility {visibility : Visibility} (hwords : Words ts visibility.words) {k : TokenKind}
    (hk : t.kind = k) (hother : k ≠ .kwPublic ∧ k ≠ .kwPrivate) :
    Runs ⟨ts ++ t :: more, final, q⟩ parseVisibility visibility [] ⟨t :: more, final, endOf q ts⟩ := by
  cases visibility with
  | plain =>
      obtain rfl := hwords.eq_nil
      refine runs_kind hk ?_
      split
      · exact absurd rfl hother.1
      · exact absurd rfl hother.2
      · exact runs_pure _
  | pub | priv =>
      obtain ⟨t, rfl, hk⟩ := hwords.eq_one
      exact runs_kind hk (runs_advance (runs_pure _))

/-- The last of the words is still to come. -/
theorem runs_parseVariableKind {kind : VariableKind} {name : Token} (hwords : Words ts kind.words)
    (hname : name.kind = .identifier) : ∃ d : Cursor, d.advance = ⟨name :: more, final, endOf q ts⟩ ∧
      Runs ⟨ts ++ name :: more, final, q⟩ parseVariableKind kind [] d := by
  cases kind with
  | constRef =>
      obtain ⟨t, u, rfl, hk, hk'⟩ := hwords.eq_two
      refine ⟨⟨u :: name :: more, final, t.span.stop⟩, rfl, runs_kind hk (runs_cursor ?_)⟩
      rw [if_pos (show Cursor.followingKind ⟨[t, u] ++ name :: more, final, q⟩ = .kwRef from hk')]
      exact runs_advance (runs_pure _)
  | const =>
      obtain ⟨t, rfl, hk⟩ := hwords.eq_one
      refine ⟨⟨t :: name :: more, final, q⟩, rfl, runs_kind hk (runs_cursor ?_)⟩
      have hnext : Cursor.followingKind ⟨[t] ++ name :: more, final, q⟩ = .identifier := hname
      rw [if_neg (by rw [hnext]; decide)]
      exact runs_pure _
  | var | ref | param | type =>
      obtain ⟨t, rfl, hk⟩ := hwords.eq_one
      exact ⟨⟨t :: name :: more, final, q⟩, rfl, runs_kind hk (runs_pure _)⟩

theorem exists_cons_of_words {kind : VariableKind} (hwords : Words ts kind.words) :
    ∃ t us, ts = t :: us ∧ startsVariable t.kind = true := by
  cases kind with
  | constRef =>
      obtain ⟨t, u, rfl, hk, -⟩ := hwords.eq_two
      exact ⟨t, [u], rfl, congrArg startsVariable hk⟩
  | var | const | ref | param | type =>
      obtain ⟨t, rfl, hk⟩ := hwords.eq_one
      exact ⟨t, [], rfl, congrArg startsVariable hk⟩

theorem runs_parseVariable {visibility : Visibility} {kind : VariableKind} {words init : List Token}
    {name semicolon : Token} {e : Option Expr} {start span : Span} (hwords : Words words kind.words)
    (hname : name.kind = .identifier) (hinit : ReadsInit init e) (hsemicolon : semicolon.kind = .semicolon)
    (hspan : Cursor.spanFrom ⟨more, final, semicolon.span.stop⟩ start = span) :
    Runs ⟨words ++ name :: (init ++ semicolon :: more), final, q⟩ (parseVariable visibility start)
      (.varDecl visibility kind name.text e span) [] ⟨more, final, semicolon.span.stop⟩ := by
  obtain ⟨d, hd, hkind⟩ := runs_parseVariableKind (q := q) hwords hname
  have hadvance : Runs d Parse.advance () [] ⟨name :: (init ++ semicolon :: more), final, endOf q words⟩ :=
    ⟨rfl, rfl, hd⟩
  refine hkind.bind (hadvance.bind (runs_name hname ?_))
  cases hinit with
  | none =>
      have hother : semicolon.kind ≠ .equals := by
        rw [hsemicolon]
        decide
      refine runs_eat_none hother (.bind (runs_pure none) ?_)
      exact runs_semicolon hsemicolon (runs_spanFrom hspan (runs_pure _))
  | @some equals t e hequals h =>
      have hvalue : Runs ⟨t :: semicolon :: more, final, equals.span.stop⟩ (some <$> Expr.parse) (some e) []
          ⟨semicolon :: more, final, t.span.stop⟩ := (Expr.runs_parse h).bind (runs_pure (some e))
      exact runs_eat hequals (hvalue.bind (runs_semicolon hsemicolon (runs_spanFrom hspan (runs_pure _))))

variable {body? : Option (Parse (List Stmt))}

/-- A statement that starts with no word of a declaration. -/
theorem runs_plain {k : TokenKind} {s : Stmt} {errors : List Diagnostic} {d : Cursor} (hk : t.kind = k)
    (hother : (k ≠ .kwPublic ∧ k ≠ .kwPrivate) ∧ k ≠ .kwModule ∧ k ≠ .kwProc ∧ startsVariable k = false)
    (h : Runs ⟨t :: more, final, q⟩ (parsePlain body? t.span) s errors d) :
    Runs ⟨t :: more, final, q⟩ (parseWith body?) s errors d := by
  have hsame : parseWith body? ⟨t :: more, final, q⟩ = parsePlain body? t.span ⟨t :: more, final, q⟩ :=
    parseWith_plain hk hother
  exact ⟨hsame ▸ h.value, hsame ▸ h.errors, hsame ▸ h.next⟩

theorem runs_leaf {of : Span → Stmt} (h : ReadsLeaf ts of) (hmore : ∀ p, Cursor.kind ⟨more, final, p⟩ ≠ .semicolon) :
    Runs ⟨ts ++ more, final, q⟩ (parseWith body?) (of (extent ts)) [] ⟨more, final, endOf q ts⟩ := by
  have hspan := spanFrom_extent h.ne_nil more final q
  cases h with
  | @varDecl visibility kind before words init name semicolon e hbefore hwords hname hinit hsemicolon =>
      obtain ⟨t, rest, rfl, hstarts⟩ := exists_cons_of_words hwords
      simp only [List.append_assoc, List.cons_append, List.nil_append, Token.endOf_append, Token.endOf_cons,
        Token.endOf_nil] at hspan ⊢
      have hother {k : TokenKind} (hk : startsVariable k = false) : t.kind ≠ k := by
        rintro rfl
        exact absurd (hstarts.symm.trans hk) (by decide)
      refine runs_current ((runs_parseVisibility hbefore rfl ⟨hother rfl, hother rfl⟩).bind ?_)
      refine runs_kind (k := t.kind) rfl ?_
      rw [if_neg (hother rfl), if_neg (hother rfl), if_pos hstarts]
      exact runs_parseVariable hwords hname hinit hsemicolon hspan
  | foreign hword hcode =>
      refine runs_plain hword (by decide) (runs_kind hword (runs_advance (runs_token ?_)))
      rw [hcode]
      exact runs_advance (runs_eat_none (hmore _) (runs_spanFrom hspan (runs_pure _)))
  | foreignEnded hword hcode hsemicolon =>
      refine runs_plain hword (by decide) (runs_kind hword (runs_advance (runs_token ?_)))
      rw [hcode]
      exact runs_advance (runs_eat hsemicolon (runs_spanFrom hspan (runs_pure _)))
  | @expr t semicolon e h hsemicolon =>
      have hexpr : Runs ⟨t :: semicolon :: more, final, q⟩ (do
          let e ← Expr.parse
          Parse.semicolon
          return Stmt.expr e (← Parse.spanFrom t.span))
          (.expr e (extent [t, semicolon])) [] ⟨more, final, semicolon.span.stop⟩ :=
        (Expr.runs_parse h).bind (runs_semicolon hsemicolon (runs_spanFrom hspan (runs_pure _)))
      cases h with
      | identifier hk | int hk | str hk => exact runs_plain hk (by decide) (runs_kind hk hexpr)

end Stmt

section Skip

open Cursor

theorem skipBraced_flat (h : Flat ts) (level q : Nat) :
    skipBraced final (level + 1) (ts ++ more) q = skipBraced final (level + 1) more (endOf q ts) := by
  induction ts generalizing q with
  | nil => rfl
  | cons t ts ih =>
      obtain ⟨ht, hts⟩ := List.forall_mem_cons.mp h
      have hsame : openAfter (level + 1) t.kind = level + 1 := by
        rw [openAfter.eq_def]
        split
        · next hk => exact absurd hk ht.1
        · next hk => exact absurd hk ht.2
        · rfl
      rw [List.cons_append, skipBraced_cons, hsame, if_neg (Nat.succ_ne_zero level), ih hts]
      rfl

theorem skipBraced_withLeading (comments : List Comment) (level q : Nat) :
    skipBraced final level (withLeading comments ts ++ more) q = skipBraced final level (ts ++ more) q := by
  cases ts with
  | nil => rfl
  | cons t ts => rfl

theorem endOf_withLeading (comments : List Comment) (q : Nat) : endOf q (withLeading comments ts) = endOf q ts := by
  cases ts with
  | nil => rfl
  | cons t ts => rfl

mutual

/-- The braces of a construct are skipped together. -/
theorem Construct.skipBraced_tokens (level : Nat) : (k : Construct) → ∀ more q,
    skipBraced final (level + 1) (k.tokens ++ more) q = skipBraced final (level + 1) more (endOf q k.tokens)
  | .leaf _ _ reads _, _, q => skipBraced_flat reads.flat level q
  | .braced front _ opening body closing reads hopening hclosing _, _, q => by
      rw [Construct.tokens, List.append_assoc, skipBraced_flat reads.flat, List.cons_append, skipBraced_cons, hopening,
        openAfter, if_neg (Nat.succ_ne_zero _), List.append_assoc, body.skipBraced_tokens (level + 1),
        List.singleton_append, skipBraced_cons, hclosing, openAfter, Nat.add_sub_cancel, if_neg (Nat.succ_ne_zero _)]
      simp

theorem Constructs.skipBraced_tokens (level : Nat) : (ks : Constructs) → ∀ more q,
    skipBraced final (level + 1) (ks.tokens ++ more) q = skipBraced final (level + 1) more (endOf q ks.tokens)
  | .nil, _, _ => rfl
  | .cons comments first rest, _, q => by
      rw [Constructs.tokens, List.append_assoc, skipBraced_withLeading, first.skipBraced_tokens level,
        rest.skipBraced_tokens level, Token.endOf_append, endOf_withLeading]

end

theorem skipBraced_region {opening closing : Token} (hopening : opening.kind = .leftBrace)
    (hclosing : closing.kind = .rightBrace) (ks : Constructs) (more : List Token) (final : Token) (q : Nat) :
    skipBraced final 0 (ks.region opening closing ++ more) q = ⟨more, final, endOf q (ks.region opening closing)⟩ := by
  rw [Constructs.region, List.cons_append, skipBraced_cons, hopening, openAfter, if_neg (Nat.succ_ne_zero _),
    List.append_assoc, ks.skipBraced_tokens, List.singleton_append, skipBraced_cons, hclosing, openAfter, if_pos rfl]
  simp

end Skip

namespace Stmt

variable {body? : Option (Parse (List Stmt))} {region : List Token} {opening : Token} {errors : List Diagnostic}

/-- What is reported of a region that is nested too deep. -/
def tooDeepReport (opening : Span) : Diagnostic :=
  .error .nestingTooDeep ("braces nested more than " ++ toString maxNesting ++ " levels deep") opening

theorem runs_rejectNesting {closing : Token} (hopening : opening.kind = .leftBrace)
    (hclosing : closing.kind = .rightBrace) (ks : Constructs) (more : List Token) (final : Token) (q : Nat) :
    Runs ⟨ks.region opening closing ++ more, final, q⟩ rejectNesting (extent (ks.region opening closing))
      [tooDeepReport opening.span] ⟨more, final, endOf q (ks.region opening closing)⟩ := by
  have hspan := spanFrom_extent (List.cons_ne_nil _ _ : ks.region opening closing ≠ []) more final q
  have hskip := skipBraced_region hopening hclosing ks more final q
  refine runs_current (.last (runs_report rfl) (.bind ⟨rfl, rfl, hskip⟩ ?_))
  exact ⟨hspan, rfl, rfl⟩

/-- A module or a procedure, with what its braces give. -/
theorem runs_declared {front : List Token} {header : Header} {stmts : List Stmt} (h : ReadsHeader front header)
    (hblock : header ≠ .block) (hopening : opening.kind = .leftBrace)
    (hbraced : Runs ⟨opening :: region ++ more, final, endOf q front⟩ (parseBraced body?) stmts errors
      ⟨more, final, endOf q (opening :: region)⟩) :
    Runs ⟨front ++ (opening :: region) ++ more, final, q⟩ (parseWith body?)
      (header.stmt stmts (extent (opening :: region)) (extent (front ++ opening :: region))) errors
      ⟨more, final, endOf q (front ++ opening :: region)⟩ := by
  have hbody := spanFrom_extent (List.cons_ne_nil opening region) more final (endOf q front)
  have hne : front ++ opening :: region ≠ [] := by simp
  have hspan := spanFrom_extent hne more final q
  cases h with
  | block => exact absurd rfl hblock
  | @moduleDecl visibility before word name hbefore hword hname =>
      simp only [List.append_assoc, List.cons_append, List.nil_append, Token.endOf_append, Token.endOf_cons,
        Token.endOf_nil] at hspan hbraced ⊢
      refine runs_current ((runs_parseVisibility hbefore hword (by decide)).bind (runs_kind hword ?_))
      refine runs_advance (runs_name hname (runs_kind hopening ?_))
      exact hbraced.last (runs_spanFrom hspan (runs_pure _))
  | @procDecl visibility before params word name formals hbefore hword hname hparams =>
      simp only [List.append_assoc, List.cons_append, Token.endOf_append, Token.endOf_cons] at hspan hbody hbraced ⊢
      refine runs_current ((runs_parseVisibility hbefore hword (by decide)).bind (runs_kind hword ?_))
      refine runs_advance (runs_name hname ((Formal.runs_parseList hparams).bind (runs_token ?_)))
      rw [if_pos hopening]
      exact hbraced.last (runs_spanFrom hbody (runs_spanFrom hspan (runs_pure _)))

/-- From `c` the list reads these statements, and goes on at `d`. -/
structure GoesOn (item : Parse Stmt) (braced : Bool) (c : Cursor) (stmts : List Stmt) (errors : List Diagnostic)
    (d : Cursor) : Prop where
  value : (parseList item braced c).value = stmts ++ (parseList item braced d).value
  errors : (parseList item braced c).reports.filter Diagnostic.isError =
    errors ++ (parseList item braced d).reports.filter Diagnostic.isError
  next : (parseList item braced c).next = (parseList item braced d).next

end Stmt

section Starts

/-- The first of the tokens neither ends a list nor follows a statement. -/
def Starts (ts : List Token) : Prop := ∃ t us, ts = t :: us ∧ t.kind ≠ .semicolon ∧ t.kind ≠ .rightBrace

theorem Starts.of_kind {k : TokenKind} (hk : t.kind = k) (hother : k ≠ .semicolon ∧ k ≠ .rightBrace) :
    Starts (t :: ts) := ⟨t, ts, rfl, hk ▸ hother⟩

theorem Starts.append (h : Starts ts) (us : List Token) : Starts (ts ++ us) := by
  obtain ⟨t, vs, rfl, hother⟩ := h
  exact ⟨t, vs ++ us, rfl, hother⟩

theorem Starts.marked {before : List Token} {visibility : Visibility} (hbefore : Words before visibility.words)
    (h : Starts ts) : Starts (before ++ ts) := by
  cases visibility with
  | plain => exact hbefore.eq_nil ▸ h
  | pub | priv =>
      obtain ⟨t, rfl, hk⟩ := hbefore.eq_one
      exact .of_kind hk (by decide)

theorem ReadsLeaf.starts {of : Span → Stmt} (h : ReadsLeaf ts of) : Starts ts := by
  cases h with
  | varDecl hbefore hwords =>
      obtain ⟨t, us, rfl, hstarts⟩ := Stmt.exists_cons_of_words hwords
      refine .marked hbefore ⟨t, _, rfl, ?_, ?_⟩
      · exact fun hk => absurd (hk ▸ hstarts) (by decide)
      · exact fun hk => absurd (hk ▸ hstarts) (by decide)
  | foreign hword | foreignEnded hword => exact .of_kind hword (by decide)
  | expr h =>
      cases h with
      | identifier hk | int hk | str hk => exact .of_kind hk (by decide)

theorem ReadsHeader.starts {header : Header} {opening : Token} (h : ReadsHeader ts header)
    (hopening : opening.kind = .leftBrace) (us : List Token) : Starts (ts ++ opening :: us) := by
  cases h with
  | block => exact .of_kind hopening (by decide)
  | moduleDecl hbefore hword => exact (Starts.marked hbefore (.of_kind hword (by decide))).append _
  | procDecl hbefore hword => exact (Starts.marked hbefore (.of_kind hword (by decide))).append _

theorem Construct.starts : (k : Construct) → Starts k.tokens
  | .leaf _ _ reads _ => reads.starts
  | .braced _ _ _ _ _ reads hopening .. => reads.starts hopening _

/-- Before constructs no semicolon stands, unless one stands behind them. -/
theorem Constructs.kind_ne_semicolon (ks : Constructs) (hmore : ∀ p, Cursor.kind ⟨more, final, p⟩ ≠ .semicolon)
    (p : Nat) : Cursor.kind ⟨ks.tokens ++ more, final, p⟩ ≠ .semicolon := by
  cases ks with
  | nil => exact hmore p
  | cons comments first rest =>
      obtain ⟨t, us, htokens, hk, -⟩ := first.starts
      rw [Constructs.tokens, htokens]
      exact hk

end Starts

namespace Stmt

theorem atListEnd_cons {braced : Bool} :
    atListEnd braced ⟨t :: ts, final, q⟩ = true ↔ braced = true ∧ t.kind = .rightBrace := by
  simp [atListEnd, Cursor.kind, Cursor.current]

theorem GoesOn.trans {item : Parse Stmt} {braced : Bool} {c d e : Cursor} {stmts more : List Stmt}
    {errors errors' : List Diagnostic} (h : GoesOn item braced c stmts errors d)
    (h' : GoesOn item braced d more errors' e) : GoesOn item braced c (stmts ++ more) (errors ++ errors') e where
  value := by rw [h.value, h'.value, List.append_assoc]
  errors := by rw [h.errors, h'.errors, List.append_assoc]
  next := h.next.trans h'.next

/-- The comments before a statement, and the statement. -/
theorem goesOn_parse {levels : Nat} (braced : Bool) (comments : List Comment) {s : Stmt} {errors : List Diagnostic}
    {d : Cursor} (hstarts : ∃ t us, ts = t :: us ∧ t.kind ≠ .rightBrace) (hbare : Bare ts)
    (h : Runs ⟨ts ++ more, final, q⟩ (parse levels) s errors d) :
    GoesOn (parse levels) braced ⟨withLeading comments ts ++ more, final, q⟩ (comments.map ofComment ++ [s]) errors
      d := by
  obtain ⟨t, us, rfl, hk⟩ := hstarts
  have hdrop : Cursor.dropLeading ⟨withLeading comments (t :: us) ++ more, final, q⟩ = ⟨t :: us ++ more, final, q⟩ := by
    have hnone : t.leading = [] := hbare t rfl
    change (⟨{ t with leading := [] } :: us ++ more, final, q⟩ : Cursor) = _
    rw [← hnone]
  have hmore : ¬ atListEnd braced (Cursor.dropLeading ⟨withLeading comments (t :: us) ++ more, final, q⟩) = true := by
    rw [hdrop, List.cons_append, atListEnd_cons]
    exact fun h => hk h.2
  obtain ⟨hvalue, hreports, hnext⟩ := parseList_of_more (parse levels) hmore
  obtain ⟨hs, herrors, hd⟩ := h
  rw [hdrop, resume_parse (List.cons_ne_nil _ _), hd] at hvalue hreports hnext
  refine ⟨?_, ?_, hnext⟩
  · rw [hvalue, hs, List.append_assoc]
    rfl
  · rw [hreports, List.filter_append, herrors]

theorem runs_braced {levels r : Nat} {opening closing : Token} {tokens : List Token} {stmts : List Stmt}
    {errors : List Diagnostic} (hclosing : closing.kind = .rightBrace)
    (h : GoesOn (parse levels) true ⟨tokens ++ closing :: more, final, opening.span.stop⟩ stmts errors
      ⟨closing :: more, final, r⟩) :
    Runs ⟨opening :: (tokens ++ [closing]) ++ more, final, q⟩ (parseBraced (bodyReader (levels + 1)))
      (stmts ++ closing.leading.map ofComment) errors ⟨more, final, endOf q (opening :: (tokens ++ [closing]))⟩ := by
  have hend : atListEnd true (Cursor.dropLeading ⟨closing :: more, final, r⟩) = true :=
    atListEnd_cons.mpr ⟨rfl, hclosing⟩
  obtain ⟨hvalue, hreports, hnext⟩ := parseList_of_end (parse levels) hend
  have hbody : Runs ⟨tokens ++ closing :: more, final, opening.span.stop⟩ (parseList (parse levels) true)
      (stmts ++ closing.leading.map ofComment) errors ⟨closing.bare :: more, final, r⟩ := by
    refine ⟨h.value.trans (congrArg (stmts ++ ·) hvalue), ?_, h.next.trans hnext⟩
    rw [h.errors, hreports]
    exact List.append_nil errors
  have hclose : closing.bare.kind = .rightBrace := hclosing
  simp only [List.cons_append, List.append_assoc, List.nil_append, Token.endOf_cons, Token.endOf_append,
    Token.endOf_nil]
  exact runs_token (runs_advance (hbody.last (runs_eat hclose (runs_pure _))))

theorem runs_block {levels : Nat} {stmts : List Stmt} {errors : List Diagnostic} {region : List Token}
    {opening : Token} (hopening : opening.kind = .leftBrace)
    (hbraced : Runs ⟨opening :: region ++ more, final, q⟩ (parseBraced (bodyReader (levels + 1))) stmts errors
      ⟨more, final, endOf q (opening :: region)⟩) :
    Runs ⟨opening :: region ++ more, final, q⟩ (parse (levels + 1)) (.block stmts (extent (opening :: region))) errors
      ⟨more, final, endOf q (opening :: region)⟩ := by
  have hspan := spanFrom_extent (List.cons_ne_nil opening region) more final q
  exact runs_plain hopening (by decide) (runs_kind hopening (hbraced.last (runs_spanFrom hspan (runs_pure _))))

end Stmt

section Construct

open Stmt

mutual

/-- A construct is read as what the levels leave of it. -/
theorem Construct.runs : (k : Construct) → ∀ (levels : Nat) (more : List Token) (final : Token) (q : Nat),
    (∀ p, Cursor.kind ⟨more, final, p⟩ ≠ .semicolon) →
    Runs ⟨k.tokens ++ more, final, q⟩ (parse levels) (k.cut levels) ((k.tooDeep levels).map tooDeepReport)
      ⟨more, final, endOf q k.tokens⟩
  | .leaf _ _ reads _, levels, more, final, q, hmore => by
      rw [parse_eq]
      exact runs_leaf reads hmore
  | .braced front header opening body closing reads hopening hclosing _, levels, more, final, q, hmore => by
      cases levels with
      | zero =>
          have hreject := runs_rejectNesting hopening hclosing body more final (endOf q front)
          cases header with
          | block =>
              cases reads
              exact runs_plain hopening (by decide) (runs_kind hopening (hreject.last (runs_pure _)))
          | moduleDecl | procDecl =>
              refine runs_declared reads (by simp) hopening (hreject.last (runs_pure _))
      | succ levels =>
          have hbody := body.goesOn levels true (closing :: more) final opening.span.stop ?_
          · have hbraced := runs_braced (q := endOf q front) hclosing hbody
            cases header with
            | block =>
                cases reads
                exact runs_block hopening hbraced
            | moduleDecl | procDecl => exact runs_declared reads (by simp) hopening hbraced
          · intro p
            change closing.kind ≠ .semicolon
            rw [hclosing]
            decide

theorem Constructs.goesOn : (ks : Constructs) → ∀ (levels : Nat) (braced : Bool) (more : List Token) (final : Token)
    (q : Nat), (∀ p, Cursor.kind ⟨more, final, p⟩ ≠ .semicolon) →
    GoesOn (parse levels) braced ⟨ks.tokens ++ more, final, q⟩ (ks.cut levels) ((ks.tooDeep levels).map tooDeepReport)
      ⟨more, final, endOf q ks.tokens⟩
  | .nil, _, _, _, _, _, _ => ⟨rfl, rfl, rfl⟩
  | .cons comments first rest, levels, braced, more, final, q, hmore => by
      obtain ⟨t, us, hcons, -, hk⟩ := first.starts
      have hfirst := goesOn_parse braced comments ⟨t, us, hcons, hk⟩ first.bare
        (first.runs levels (rest.tokens ++ more) final q (rest.kind_ne_semicolon hmore))
      have hrest := rest.goesOn levels braced more final (endOf q first.tokens) hmore
      have hall := hfirst.trans hrest
      rw [Constructs.tokens, Constructs.cut, Constructs.tooDeep, Token.endOf_append, endOf_withLeading, List.map_append,
        List.append_assoc]
      rwa [List.append_assoc] at hall

end

end Construct

end Surface
end Palimpsest
