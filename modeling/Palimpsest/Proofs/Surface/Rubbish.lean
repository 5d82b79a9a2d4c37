import Palimpsest.Proofs.Surface.Reread

/-!
Parsing what makes no sense. Tokens without braces, up to a semicolon, are read as one statement or more that end
right behind the semicolon, whatever follows and wherever the last statement ended.
-/

namespace Palimpsest
namespace Surface

open Parse
open Token (endOf Bare withLeading)

/-- Such a token may stand in a statement that makes no sense. -/
structure Stray (t : Token) : Prop where
  kind_ne : t.kind ≠ .leftBrace ∧ t.kind ≠ .rightBrace ∧ t.kind ≠ .semicolon ∧ t.kind ≠ .foreignCode ∧
    t.kind ≠ .endOfFile
  leading_eq : t.leading = []

/-- Stray tokens up to a semicolon, it included. -/
inductive Rubbish (semi : Token) : List Token → Prop where
  | last : Rubbish semi [semi]
  | cons {t : Token} {ts : List Token} (ht : Stray t) (h : Rubbish semi ts) : Rubbish semi (t :: ts)

variable {semi : Token}

theorem Rubbish.exists_cons (hsemi : semi.kind = .semicolon) {ts : List Token} (h : Rubbish semi ts) :
    ∃ t us, ts = t :: us ∧ (t.kind ≠ .semicolon → Rubbish semi us) ∧ (t.kind = .semicolon → t = semi ∧ us = []) ∧
      t.kind ≠ .leftBrace ∧ t.kind ≠ .rightBrace ∧ t.kind ≠ .foreignCode := by
  cases h with
  | last =>
      refine ⟨semi, [], rfl, fun h => absurd hsemi h, fun _ => ⟨rfl, rfl⟩, ?_⟩
      rw [hsemi]
      decide
  | @cons t us ht h =>
      obtain ⟨hleft, hright, hsemicolon, hcode, -⟩ := ht.kind_ne
      exact ⟨t, us, rfl, fun _ => h, fun hk => absurd hk hsemicolon, hleft, hright, hcode⟩

namespace Parse

variable {α β γ : Type} {behind : Nat → Prop} {p : Nat} {t u : Token} {ts : List Token}
  {post : β → List Token → Nat → Prop}

/-- Whatever follows the tokens, and whatever place of `behind` stands before them, the step comes to the same value
and errors, and as far. -/
def Settles (behind : Nat → Prop) (x : Parse α) (ts : List Token) (post : α → List Token → Nat → Prop) : Prop :=
  ∃ a errors us r, post a us r ∧
    ∀ more final q, behind q → Runs ⟨ts ++ more, final, q⟩ x a errors ⟨us ++ more, final, r⟩

theorem Settles.bind {x : Parse α} {f : α → Parse β}
    (hx : Settles behind x ts fun a us r => Settles (· = r) (f a) us post) : Settles behind (x >>= f) ts post := by
  obtain ⟨a, errors, us, r, ⟨b, errors', vs, s, hpost, hf⟩, hx⟩ := hx
  exact ⟨b, errors ++ errors', vs, s, hpost, fun more final q hq =>
    (hx more final q hq).append (hf more final r rfl)⟩

theorem Settles.imp {x : Parse β} {pre : β → List Token → Nat → Prop} (hx : Settles behind x ts pre)
    (h : ∀ b us r, pre b us r → post b us r) : Settles behind x ts post := by
  obtain ⟨b, errors, us, r, hpre, hx⟩ := hx
  exact ⟨b, errors, us, r, h b us r hpre, hx⟩

theorem Settles.andThen {x : Parse α} {f : α → Parse β} {pre : α → List Token → Nat → Prop}
    (hx : Settles behind x ts pre) (hf : ∀ a us r, pre a us r → Settles (· = r) (f a) us post) :
    Settles behind (x >>= f) ts post := bind (hx.imp hf)

theorem settles_pure {b : β} (h : post b ts p) : Settles (· = p) (Pure.pure b) ts post :=
  ⟨b, [], ts, p, h, fun _ _ _ hq => hq ▸ runs_pure b⟩

/-- What only looks at the next tokens leaves it to the rest, errors apart. -/
theorem settles_look {x : Parse α} {f : α → Parse β} {a : α} {errors : List Diagnostic}
    (hx : ∀ more final q, Runs ⟨ts ++ more, final, q⟩ x a errors ⟨ts ++ more, final, q⟩)
    (h : Settles behind (f a) ts post) : Settles behind (x >>= f) ts post := by
  obtain ⟨b, errors', us, r, hpost, hf⟩ := h
  exact ⟨b, errors ++ errors', us, r, hpost, fun more final q hq => (hx more final q).append (hf more final q hq)⟩

theorem settles_assoc {x : Parse α} {f : α → Parse γ} {g : γ → Parse β}
    (h : Settles behind (x >>= fun a => f a >>= g) ts post) : Settles behind ((x >>= f) >>= g) ts post := by
  obtain ⟨b, errors, us, r, hpost, h⟩ := h
  refine ⟨b, errors, us, r, hpost, fun more final q hq => ?_⟩
  obtain ⟨hvalue, herrors, hnext⟩ := h more final q hq
  refine ⟨hvalue, ?_, hnext⟩
  rw [← herrors]
  exact congrArg (List.filter Diagnostic.isError) (List.append_assoc _ _ _)

theorem settles_given {a : α} {f : α → Parse β} (h : Settles behind (f a) ts post) :
    Settles behind (Pure.pure a >>= f) ts post := settles_look (fun _ _ _ => runs_pure a) h

theorem settles_token {f : Token → Parse β} (h : Settles behind (f t) (t :: ts) post) :
    Settles behind (token >>= f) (t :: ts) post := settles_look (fun _ _ _ => ⟨rfl, rfl, rfl⟩) h

theorem settles_kind {f : TokenKind → Parse β} (h : Settles behind (f t.kind) (t :: ts) post) :
    Settles behind (kind >>= f) (t :: ts) post := settles_look (fun _ _ _ => ⟨rfl, rfl, rfl⟩) h

theorem settles_report {d : Diagnostic} {f : Unit → Parse β} (h : Settles behind (f ()) ts post) :
    Settles behind (report d >>= f) ts post := settles_look (fun _ _ _ => ⟨rfl, rfl, rfl⟩) h

theorem settles_expected {what : String} {f : Unit → Parse β} (h : Settles behind (f ()) (t :: ts) post) :
    Settles behind (expected what >>= f) (t :: ts) post :=
  settles_look (fun _ _ _ => runs_token (by exact ⟨rfl, rfl, rfl⟩)) h

theorem settles_spanFrom {start : Span} {f : Span → Parse β}
    (h : Settles (· = p) (f ⟨start.start, max p start.start⟩) ts post) :
    Settles (· = p) (spanFrom start >>= f) ts post := by
  obtain ⟨b, errors, us, r, hpost, hf⟩ := h
  exact ⟨b, errors, us, r, hpost, fun more final q hq => runs_spanFrom (by rw [hq]; rfl) (hf more final q hq)⟩

theorem settles_prevStop {f : Nat → Parse β} (h : Settles (· = p) (f p) ts post) :
    Settles (· = p) (cursor >>= fun c => f c.prevStop) ts post := by
  obtain ⟨b, errors, us, r, hpost, hf⟩ := h
  refine ⟨b, errors, us, r, hpost, fun more final q hq => runs_cursor ?_⟩
  subst hq
  exact hf more final q rfl

theorem settles_followingKind {f : TokenKind → Parse β} (h : Settles behind (f u.kind) (t :: u :: ts) post) :
    Settles behind (cursor >>= fun c => f c.followingKind) (t :: u :: ts) post := by
  obtain ⟨b, errors, us, r, hpost, hf⟩ := h
  exact ⟨b, errors, us, r, hpost, fun more final q hq => runs_cursor (hf more final q hq)⟩

/-- Behind a token it is known what stands before. -/
theorem settles_advance {f : Unit → Parse β} (h : Settles (· = t.span.stop) (f ()) ts post) :
    Settles behind (advance >>= f) (t :: ts) post := by
  obtain ⟨b, errors, us, r, hpost, hf⟩ := h
  exact ⟨b, errors, us, r, hpost, fun more final q _ => runs_advance (hf more final _ rfl)⟩

theorem settles_eat {k : TokenKind} {f : Bool → Parse β}
    (htaken : t.kind = k → Settles (· = t.span.stop) (f true) ts post)
    (hleft : t.kind ≠ k → Settles behind (f false) (t :: ts) post) : Settles behind (eat k >>= f) (t :: ts) post := by
  refine settles_assoc (settles_kind ?_)
  split
  · next hk => exact settles_assoc (settles_advance (settles_given (htaken hk)))
  · next hk => exact settles_given (hleft hk)

theorem skipStatement_rubbish (hsemi : semi.kind = .semicolon) (h : Rubbish semi ts) (more : List Token)
    (final : Token) (q : Nat) : Cursor.skipStatement final (ts ++ more) q = ⟨more, final, semi.span.stop⟩ := by
  induction h generalizing q with
  | last => simp [Cursor.skipStatement, hsemi]
  | @cons t ts ht _ ih =>
      obtain ⟨-, hright, hsemicolon, -⟩ := ht.kind_ne
      rw [List.cons_append, Cursor.skipStatement, if_neg hright, if_neg hsemicolon, ih]

theorem settles_skipStatement (hsemi : semi.kind = .semicolon) (hts : Rubbish semi ts) {f : Unit → Parse β}
    (h : Settles (· = semi.span.stop) (f ()) [] post) : Settles behind (skipStatement >>= f) ts post := by
  obtain ⟨b, errors, us, r, hpost, hf⟩ := h
  refine ⟨b, errors, us, r, hpost, fun more final q _ => ?_⟩
  exact .bind ⟨rfl, rfl, skipStatement_rubbish hsemi hts more final q⟩ (hf more final _ rfl)

theorem settles_semicolon (hsemi : semi.kind = .semicolon) (hts : Rubbish semi ts) {f : Unit → Parse β}
    (h : Settles (· = semi.span.stop) (f ()) [] post) : Settles behind (semicolon >>= f) ts post := by
  obtain ⟨t, us, rfl, -, hlast, -⟩ := hts.exists_cons hsemi
  refine settles_assoc (settles_kind ?_)
  split
  · next hk =>
    obtain ⟨rfl, rfl⟩ := hlast hk
    obtain ⟨b, errors, us, r, hpost, hf⟩ := h
    exact ⟨b, errors, us, r, hpost, fun more final q _ => .bind ⟨rfl, rfl, rfl⟩ (hf more final _ rfl)⟩
  · exact settles_assoc (settles_expected (settles_skipStatement hsemi hts h))

end Parse

section Inside

variable (hsemi : semi.kind = .semicolon) {ts : List Token} (hts : Rubbish semi ts) {p : Nat}
include hsemi hts

/-- Past a token that is no semicolon there is rubbish still. -/
theorem Parse.settles_name : Settles (· = p) name ts fun _ us _ => Rubbish semi us := by
  obtain ⟨t, us, rfl, htail, -⟩ := hts.exists_cons hsemi
  refine settles_token ?_
  split
  · next hk => exact settles_advance (settles_pure (htail (by rw [hk]; decide)))
  · exact settles_expected (settles_pure hts)

theorem Parse.settles_expect {k : TokenKind} (hother : k ≠ .semicolon) :
    Settles (· = p) (expect k) ts fun _ us _ => Rubbish semi us := by
  obtain ⟨t, us, rfl, htail, -⟩ := hts.exists_cons hsemi
  refine settles_eat (fun hk => settles_pure (htail (hk ▸ hother))) fun _ => ?_
  exact settles_expected (settles_pure hts)

/-- Where an expression starts one is read; elsewhere nothing is taken. -/
theorem Expr.settles_parse {behind : Nat → Prop} (hbehind : (∃ p, behind = (· = p)) ∨ ∀ t ∈ ts.head?,
    t.kind = .identifier ∨ t.kind = .intLiteral ∨ t.kind = .stringLiteral) :
    Settles behind parse ts fun _ us _ => Rubbish semi us := by
  obtain ⟨t, us, rfl, htail, -⟩ := hts.exists_cons hsemi
  refine settles_token ?_
  split
  · next hk => exact settles_advance (settles_pure (htail (by rw [hk]; decide)))
  · next hk =>
    have hus := htail (by rw [hk]; decide)
    refine settles_advance ?_
    rw [ofInt]
    dsimp only
    split
    · exact settles_report (settles_pure hus)
    split
    · exact settles_pure hus
    · exact settles_report (settles_pure hus)
  · next hk =>
    have hus := htail (by rw [hk]; decide)
    refine settles_advance ?_
    rw [ofString]
    split
    · split
      · exact settles_report (settles_pure hus)
      · exact settles_pure hus
    · exact settles_report (settles_pure hus)
  · next hname hint hstring =>
    cases hbehind with
    | inl hknown =>
        obtain ⟨p, rfl⟩ := hknown
        exact settles_expected (settles_pure hts)
    | inr hatom => exact absurd (hatom t rfl) (not_or.mpr ⟨hname, not_or.mpr ⟨hint, hstring⟩⟩)

theorem Formal.settles_parseIntent : Settles (· = p) parseIntent ts fun _ us _ => Rubbish semi us := by
  obtain ⟨t, us, rfl, htail, -⟩ := hts.exists_cons hsemi
  refine settles_kind ?_
  split
  · next hk =>
    have hus := htail (by rw [hk]; decide)
    obtain ⟨u, vs, rfl, htail', -⟩ := hus.exists_cons hsemi
    refine settles_advance (settles_eat (fun href => settles_pure (htail' (by rw [href]; decide))) fun _ => ?_)
    exact settles_eat (fun hin => settles_pure (htail' (by rw [hin]; decide))) fun _ => settles_pure hus
  iterate 6
    · next hk => exact settles_advance (settles_pure (htail (by rw [hk]; decide)))
  · exact settles_pure hts

theorem Formal.settles_parse : Settles (· = p) parse ts fun _ us _ => Rubbish semi us := by
  obtain ⟨t, us, rfl, -⟩ := hts.exists_cons hsemi
  refine settles_token ((settles_parseIntent hsemi hts).andThen fun intent vs q hvs => ?_)
  exact (settles_name hsemi hvs).andThen fun name ws r hws => settles_spanFrom (settles_pure hws)

end Inside

theorem Formal.settles_parseMany (hsemi : semi.kind = .semicolon) {ts : List Token} (hts : Rubbish semi ts) {p : Nat} :
    Settles (· = p) parseMany ts fun _ us _ => Rubbish semi us := by
  obtain ⟨f, errors, us, r, hus, hruns⟩ := settles_parse hsemi hts (p := p)
  obtain ⟨t, vs, rfl, htail, -⟩ := hus.exists_cons hsemi
  have hshorter : (t :: vs).length ≤ ts.length := by
    have hle := (parse ⟨ts ++ [], semi, p⟩).le
    rw [(hruns [] semi p rfl).next] at hle
    simpa using hle
  by_cases hcomma : t.kind = .comma
  · have hvs := htail (by rw [hcomma]; decide)
    obtain ⟨fs, errors', ws, r', hws, hruns'⟩ := settles_parseMany hsemi hvs (p := t.span.stop)
    refine ⟨f :: fs, errors ++ errors', ws, r', hws, fun more final q hq => ?_⟩
    obtain ⟨hvalue, herrors, hnext⟩ := hruns more final q hq
    have hmany : (parse ⟨ts ++ more, final, q⟩).next.kind = .comma ∧
        (parse ⟨ts ++ more, final, q⟩).next.tokens ≠ [] := by
      rw [hnext]
      exact ⟨hcomma, List.cons_ne_nil _ _⟩
    obtain ⟨hvalues, hreports, hnexts⟩ := parseMany_of_comma hmany
    obtain ⟨hvalue', herrors', hnext'⟩ := hruns' more final t.span.stop rfl
    rw [hnext] at hvalues hreports hnexts
    refine ⟨?_, ?_, ?_⟩
    · rw [hvalues, hvalue]
      exact congrArg (f :: ·) hvalue'
    · rw [hreports, List.filter_append, herrors]
      exact congrArg (errors ++ ·) herrors'
    · rw [hnexts]
      exact hnext'
  · refine ⟨[f], errors, t :: vs, r, hus, fun more final q hq => ?_⟩
    obtain ⟨hvalue, herrors, hnext⟩ := hruns more final q hq
    have hlast : ¬ ((parse ⟨ts ++ more, final, q⟩).next.kind = .comma ∧
        (parse ⟨ts ++ more, final, q⟩).next.tokens ≠ []) := by
      rw [hnext]
      exact fun h => hcomma h.1
    obtain ⟨hvalues, hreports, hnexts⟩ := parseMany_of_last hlast
    exact ⟨by rw [hvalues, hvalue], by rw [hreports, herrors], by rw [hnexts, hnext]⟩
termination_by ts.length
decreasing_by
  have hlength := hshorter
  rw [List.length_cons] at hlength
  omega

section Statements

variable (hsemi : semi.kind = .semicolon) {ts : List Token} (hts : Rubbish semi ts)
include hsemi hts

theorem Formal.settles_parseList {p : Nat} : Settles (· = p) parseList ts fun _ us _ => Rubbish semi us := by
  refine (settles_expect hsemi hts (by decide)).andThen fun opened us q hus => ?_
  split
  · obtain ⟨t, vs, rfl, -⟩ := hus.exists_cons hsemi
    refine settles_kind ?_
    split
    · exact settles_given ((settles_expect hsemi hus (by decide)).andThen fun _ ws r hws => settles_pure hws)
    · refine (settles_parseMany hsemi hus).andThen fun formals ws r hws => ?_
      exact (settles_expect hsemi hws (by decide)).andThen fun _ xs q hxs => settles_pure hxs
  · exact settles_pure hus

namespace Stmt

omit hsemi hts in
/-- A statement has ended with the semicolon, or before it. -/
def Ended (semi : Token) (ts : List Token) (p : Nat) : Prop := ts = [] ∧ p = semi.span.stop ∨ Rubbish semi ts

omit hsemi hts in
theorem settles_end {semi : Token} {start : Span} {of : Span → Stmt} :
    Settles (· = semi.span.stop) (do return of (← Parse.spanFrom start)) [] fun _ => Ended semi :=
  settles_spanFrom (settles_pure (.inl ⟨rfl, rfl⟩))

variable {behind : Nat → Prop}

theorem settles_parseVariable (visibility : Visibility) (start : Span)
    (hstarts : ∀ t ∈ ts.head?, startsVariable t.kind = true) :
    Settles behind (parseVariable visibility start) ts fun _ => Ended semi := by
  obtain ⟨t, us, rfl, htail, -⟩ := hts.exists_cons hsemi
  have hstarts := hstarts t rfl
  have hus : Rubbish semi us := htail fun hk => absurd (hk ▸ hstarts) (by decide)
  -- Behind the words of its kind a variable goes on alike.
  have hrest (kind : VariableKind) {vs : List Token} {q : Nat} (hvs : Rubbish semi vs) : Settles (· = q) (do
      let name ← Parse.name
      let init ← if ← Parse.eat .equals then some <$> Expr.parse else pure none
      Parse.semicolon
      return Stmt.varDecl visibility kind name init (← Parse.spanFrom start)) vs fun _ => Ended semi := by
    refine (settles_name hsemi hvs).andThen fun name ws r hws => ?_
    obtain ⟨u, xs, rfl, htail, -⟩ := hws.exists_cons hsemi
    refine settles_eat (fun hequals => ?_) fun _ => ?_
    · refine settles_assoc ((Expr.settles_parse hsemi (htail (by rw [hequals]; decide)) (.inl ⟨_, rfl⟩)).andThen
        fun e ys q hys => ?_)
      exact settles_given (settles_semicolon hsemi hys settles_end)
    · exact settles_given (settles_semicolon hsemi hws settles_end)
  have hone (kind : VariableKind) : Settles behind (Pure.pure kind >>= fun kind => do
      Parse.advance
      let name ← Parse.name
      let init ← if ← Parse.eat .equals then some <$> Expr.parse else pure none
      Parse.semicolon
      return Stmt.varDecl visibility kind name init (← Parse.spanFrom start)) (t :: us) fun _ => Ended semi :=
    settles_given (settles_advance (hrest kind hus))
  refine settles_assoc (settles_kind ?_)
  split
  · obtain ⟨u, vs, rfl, htail', -⟩ := hus.exists_cons hsemi
    refine settles_assoc (settles_followingKind (f := fun k => (if k = .kwRef then _ else _) >>= _) ?_)
    split
    · next href =>
      refine settles_assoc (settles_advance (settles_given (settles_advance ?_)))
      exact hrest .constRef (htail' (by rw [href]; decide))
    · exact hone .const
  · exact hone .ref
  · exact hone .param
  · exact hone .type
  · exact hone .var

theorem settles_parseForeign (start : Span) (hk : ∀ t ∈ ts.head?, t.kind = .kwForeign) :
    Settles behind (parseForeign start) ts fun _ => Ended semi := by
  obtain ⟨t, us, rfl, htail, -⟩ := hts.exists_cons hsemi
  have hus := htail (by rw [hk t rfl]; decide)
  obtain ⟨u, vs, rfl, htail', -, -, -, hcode⟩ := hus.exists_cons hsemi
  refine settles_advance (settles_token ?_)
  split
  · next hforeign => exact absurd hforeign hcode
  · next hinvalid =>
    exact settles_advance (settles_spanFrom (settles_pure (.inr (htail' (by rw [hinvalid]; decide)))))
  · exact settles_expected (settles_skipStatement hsemi hus settles_end)

variable {body? : Option (Parse (List Stmt))}

theorem settles_parseModule (visibility : Visibility) (start : Span) (hk : ∀ t ∈ ts.head?, t.kind = .kwModule) :
    Settles behind (parseModule body? visibility start) ts fun _ => Ended semi := by
  obtain ⟨t, us, rfl, htail, -⟩ := hts.exists_cons hsemi
  refine settles_advance ((settles_name hsemi (htail (by rw [hk t rfl]; decide))).andThen fun name vs q hvs => ?_)
  obtain ⟨u, ws, rfl, -, -, hleft, -⟩ := hvs.exists_cons hsemi
  refine settles_kind ?_
  rw [if_neg hleft]
  exact settles_expected (settles_skipStatement hsemi hvs settles_end)

theorem settles_parseProc (visibility : Visibility) (start : Span) (hk : ∀ t ∈ ts.head?, t.kind = .kwProc) :
    Settles behind (parseProc body? visibility start) ts fun _ => Ended semi := by
  obtain ⟨t, us, rfl, htail, -⟩ := hts.exists_cons hsemi
  refine settles_advance ((settles_name hsemi (htail (by rw [hk t rfl]; decide))).andThen fun name vs q hvs => ?_)
  refine (Formal.settles_parseList hsemi hvs).andThen fun formals ws r hws => ?_
  obtain ⟨u, xs, rfl, -, -, hleft, -⟩ := hws.exists_cons hsemi
  refine settles_token ?_
  rw [if_neg hleft]
  refine settles_expected (settles_skipStatement hsemi hws ?_)
  exact settles_prevStop (f := fun stop => do
    return Stmt.procDecl visibility name formals [] ⟨stop, stop⟩ (← Parse.spanFrom start)) settles_end

theorem settles_parsePlain (start : Span) : Settles behind (parsePlain body? start) ts fun _ => Ended semi := by
  obtain ⟨t, us, rfl, htail, hlast, hleft, hright, -⟩ := hts.exists_cons hsemi
  have hexpr (hk : t.kind = .identifier ∨ t.kind = .intLiteral ∨ t.kind = .stringLiteral) :
      Settles behind (do
        let e ← Expr.parse
        Parse.semicolon
        return Stmt.expr e (← Parse.spanFrom start)) (t :: us) fun _ => Ended semi := by
    refine (Expr.settles_parse hsemi hts (.inr fun u hu => Option.some.inj hu ▸ hk)).andThen fun e vs q hvs => ?_
    exact settles_semicolon hsemi hvs settles_end
  refine settles_kind ?_
  split
  · next hk => exact absurd hk hleft
  · next hk => exact settles_parseForeign hsemi hts start fun u hu => (Option.some.inj hu) ▸ hk
  · next hk => exact hexpr (.inl hk)
  · next hk => exact hexpr (.inr (.inl hk))
  · next hk => exact hexpr (.inr (.inr hk))
  · next hk => exact absurd hk hright
  · next hk =>
    obtain ⟨rfl, rfl⟩ := hlast hk
    exact settles_report (settles_advance (settles_pure (.inl ⟨rfl, rfl⟩)))
  · exact settles_skipStatement hsemi hts settles_end
  · next hsemicolon _ =>
    exact settles_expected (settles_advance (settles_skipStatement hsemi (htail hsemicolon) settles_end))

theorem settles_parseWith : Settles behind (parseWith body?) ts fun _ => Ended semi := by
  obtain ⟨t, us, rfl, htail, -⟩ := hts.exists_cons hsemi
  -- Behind the visibility, which may have taken a token.
  have hrest (behind : Nat → Prop) (visibility : Visibility) {vs : List Token} (hvs : Rubbish semi vs) :
      Settles behind (do
        let kind ← Parse.kind
        if kind = .kwModule then parseModule body? visibility t.span
        else if kind = .kwProc then parseProc body? visibility t.span
        else if startsVariable kind then parseVariable visibility t.span
        else if visibility ≠ .plain then
          Parse.expected "'module', 'proc' or a variable declaration"
          Parse.skipStatement
          return .bad (← Parse.spanFrom t.span)
        else parsePlain body? t.span) vs fun _ => Ended semi := by
    obtain ⟨u, ws, rfl, -⟩ := hvs.exists_cons hsemi
    have hfirst {Q : Token → Prop} (h : Q u) : ∀ v ∈ (u :: ws).head?, Q v := fun v hv => Option.some.inj hv ▸ h
    refine settles_kind ?_
    split
    next hk => exact settles_parseModule hsemi hvs visibility t.span (hfirst hk)
    split
    next hk => exact settles_parseProc hsemi hvs visibility t.span (hfirst hk)
    split
    next hk => exact settles_parseVariable hsemi hvs visibility t.span (hfirst hk)
    split
    · exact settles_expected (settles_skipStatement hsemi hvs settles_end)
    · exact settles_parsePlain hsemi hvs t.span
  refine settles_token (settles_assoc (settles_kind ?_))
  split
  iterate 2
    · next hk =>
      exact settles_assoc (settles_advance (settles_given (hrest _ _ (htail (by rw [hk]; decide)))))
  · exact settles_given (hrest _ _ hts)

theorem settles_parse (levels : Nat) : Settles behind (parse levels) ts fun _ => Ended semi := by
  rw [parse_eq]
  exact settles_parseWith hsemi hts

end Stmt
end Statements

theorem Rubbish.bare (hleading : semi.leading = []) {ts : List Token} (h : Rubbish semi ts) : Bare ts := by
  intro t ht
  cases h with
  | last => exact Option.some.inj ht ▸ hleading
  | cons hstray => exact Option.some.inj ht ▸ hstray.leading_eq

namespace Stmt

/-- Rubbish is read as one statement or more, up to its semicolon. -/
theorem goesOn_rubbish (hsemi : semi.kind = .semicolon) (hleading : semi.leading = []) (levels : Nat)
    {ts : List Token} (hts : Rubbish semi ts) : ∃ (stmts : List Stmt) (errors : List Diagnostic), stmts ≠ [] ∧
      ∀ (braced : Bool) (comments : List Comment) (more : List Token) (final : Token) (q : Nat),
        GoesOn (parse levels) braced ⟨withLeading comments ts ++ more, final, q⟩ (comments.map ofComment ++ stmts)
          errors ⟨more, final, semi.span.stop⟩ := by
  have hsettles : Settles (fun _ => True) (parse levels) ts fun _ => Ended semi := settles_parse hsemi hts levels
  obtain ⟨s, errors, us, r, hended, hruns⟩ := hsettles
  obtain ⟨t, vs, hcons, -, -, -, hright, -⟩ := hts.exists_cons hsemi
  have hshorter : us.length < ts.length := by
    have htakes := takes_parse (c := ⟨ts ++ [], semi, 0⟩) (by rw [hcons]; exact List.cons_ne_nil _ _) levels
    rw [Takes, (hruns [] semi 0 trivial).next] at htakes
    simpa using htakes
  have hfirst (braced : Bool) (comments : List Comment) (more : List Token) (final : Token) (q : Nat) :=
    goesOn_parse braced comments ⟨t, vs, hcons, hright⟩ (hts.bare hleading) (hruns more final q trivial)
  cases hended with
  | inl hdone =>
      obtain ⟨rfl, rfl⟩ := hdone
      exact ⟨[s], errors, List.cons_ne_nil _ _, hfirst⟩
  | inr hus =>
      obtain ⟨stmts, errors', -, hrest⟩ := goesOn_rubbish hsemi hleading levels hus
      refine ⟨s :: stmts, errors ++ errors', List.cons_ne_nil _ _, fun braced comments more final q => ?_⟩
      have hbehind := hrest braced [] more final r
      rw [Token.withLeading_of_bare (hus.bare hleading)] at hbehind
      have hall := (hfirst braced comments more final q).trans hbehind
      rwa [List.append_assoc] at hall
termination_by ts.length

end Stmt
end Surface
end Palimpsest
