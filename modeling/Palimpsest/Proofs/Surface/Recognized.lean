import Palimpsest.Proofs.Surface.Construct
import Palimpsest.Proofs.Surface.Literals
import Palimpsest.Proofs.Surface.Nested

/-!
What is read without an error is a construct: the tokens taken are its tokens, one by one, and what is returned is
its statement, spans included.
-/

namespace Palimpsest
namespace Surface

open Parse
open Token (extent Bare withLeading)

namespace Cursor

/-- Nothing to come is a fault of lexing. -/
structure Lexed (c : Cursor) : Prop where
  final : c.final.kind = .endOfFile
  valid : ∀ t ∈ c.tokens, t.kind ≠ .invalid

variable {c d e : Cursor} {ts us : List Token}

theorem Past.lexed (h : c.Past ts d) (hc : c.Lexed) : d.Lexed where
  final := h.final ▸ hc.final
  valid t ht := hc.valid t (h.tokens ▸ List.mem_append_right ts ht)

theorem Past.current (h : c.Past ts d) (hts : ts ≠ []) : ts.head? = some c.current := by
  cases ts with
  | nil => exact absurd rfl hts
  | cons t ts =>
      rw [Cursor.current, h.tokens]
      rfl

namespace Lexed

theorem tokens_ne_nil (h : c.Lexed) {k : TokenKind} (hk : c.kind = k) (hend : k ≠ .endOfFile) : c.tokens ≠ [] := by
  rintro hnil
  rw [Cursor.kind, Cursor.current, hnil] at hk
  exact hend (hk.symm.trans h.final)

theorem advance (h : c.Lexed) {k : TokenKind} (hk : c.kind = k) (hend : k ≠ .endOfFile) :
    c.Past [c.current] c.advance := by
  have hne := h.tokens_ne_nil hk hend
  obtain ⟨tokens, final, p⟩ := c
  cases tokens with
  | nil => exact absurd rfl hne
  | cons t ts => exact ⟨rfl, rfl, rfl⟩

theorem dropLeading (h : c.Lexed) : c.dropLeading.Lexed := by
  obtain ⟨tokens, final, p⟩ := c
  cases tokens with
  | nil => exact ⟨h.final, fun _ ht => nomatch ht⟩
  | cons t ts => exact ⟨h.final, List.forall_mem_cons.mpr (List.forall_mem_cons.mp h.valid)⟩

theorem kind_advance (h : c.Lexed) {k : TokenKind} (hk : c.followingKind = k) (hend : k ≠ .endOfFile) :
    c.advance.kind = k := by
  obtain ⟨tokens, final, p⟩ := c
  match tokens with
  | [] | [_] => exact absurd hk.symm hend
  | _ :: _ :: _ => exact hk

theorem kind_ne_invalid (h : c.Lexed) : c.kind ≠ .invalid := by
  obtain ⟨tokens, final, p⟩ := c
  cases tokens with
  | nil =>
      intro hk
      cases h.final.symm.trans hk
  | cons t ts => exact h.valid t List.mem_cons_self

end Lexed
end Cursor

section Atoms

variable {c : Cursor}

theorem leads_name (hc : c.Lexed) : Leads c name fun n d => ∃ t : Token, t.kind = .identifier ∧ t.text = n ∧
    c.Past [t] d := by
  refine leads_token ?_
  split
  next hk => exact leads_advance (leads_pure ⟨_, hk, rfl, hc.advance hk (by decide)⟩)
  next => exact ((fails_expected _).bind _).leads c _

theorem leads_semicolon (hc : c.Lexed) : Leads c semicolon fun _ d => ∃ t : Token, t.kind = .semicolon ∧
    c.Past [t] d := by
  refine leads_kind ?_
  split
  next hk => exact fun _ => ⟨_, hk, hc.advance hk (by decide)⟩
  next => exact ((fails_expected _).bind _).leads c _

theorem leads_expect (hc : c.Lexed) {k : TokenKind} (hend : k ≠ .endOfFile) : Leads c (expect k) fun b d =>
    b = true ∧ ∃ t : Token, t.kind = k ∧ c.Past [t] d := by
  refine leads_eat (fun hk => ?_) fun _ => ((fails_expected _).bind _).leads c _
  exact leads_pure ⟨rfl, _, hk, hc.advance hk hend⟩

namespace Expr

theorem leads_ofInt {t : Token} (ht : t.kind = .intLiteral) : Leads c (ofInt t) fun e d => ReadsExpr t e ∧ d = c := by
  rw [ofInt]
  dsimp only
  split
  · exact ((fails_report rfl).bind _).leads c _
  next hdigits =>
    split
    · next hsize =>
      refine leads_pure ⟨.int ht (counts_iff.mpr ⟨fun h => hdigits (List.isEmpty_iff.mpr h), ?_⟩), rfl⟩
      exact UInt64.toNat_ofNat_of_lt hsize
    · exact ((fails_report rfl).bind _).leads c _

theorem leads_ofString {t : Token} (ht : t.kind = .stringLiteral) :
    Leads c (ofString t) fun e d => ReadsExpr t e ∧ d = c := by
  rw [ofString]
  cases hvalue : Quoted.unescape (String.ofList (inner t.text)) with
  | ok value =>
      dsimp only
      split
      · exact fun _ => ⟨.str ht (unescape_eq_ok.mp hvalue), rfl⟩
      · exact leads_pure ⟨.str ht (unescape_eq_ok.mp hvalue), rfl⟩
  | error e => exact ((fails_report rfl).bind _).leads c _

theorem leads_parse (hc : c.Lexed) : Leads c parse fun e d => ∃ t : Token, ReadsExpr t e ∧ c.Past [t] d := by
  refine leads_token ?_
  split
  next hk => exact leads_advance (leads_pure ⟨_, .identifier hk, hc.advance hk (by decide)⟩)
  next hk =>
    refine leads_advance ((leads_ofInt hk).imp ?_)
    rintro e _ ⟨hreads, rfl⟩
    exact ⟨_, hreads, hc.advance hk (by decide)⟩
  next hk =>
    refine leads_advance ((leads_ofString hk).imp ?_)
    rintro e _ ⟨hreads, rfl⟩
    exact ⟨_, hreads, hc.advance hk (by decide)⟩
  next => exact ((fails_expected _).bind _).leads c _

end Expr

namespace Formal

theorem leads_parseIntent (hc : c.Lexed) : Leads c parseIntent fun intent d => ∃ ts, Words ts intent.words ∧
    c.Past ts d := by
  refine leads_kind ?_
  have hword {intent : Intent} {k : TokenKind} (hk : c.kind = k) (hend : k ≠ .endOfFile)
      (hwords : [k] = intent.words.map Terminal.kind) :
      Leads c (do Parse.advance; return intent) fun intent d => ∃ ts, Words ts intent.words ∧ c.Past ts d := by
    refine leads_advance (leads_pure ⟨_, ?_, hc.advance hk hend⟩)
    exact (congrArg (fun k => [k]) hk).trans hwords
  split
  next hk =>
    have hfirst := hc.advance hk (by decide)
    have hnext := hfirst.lexed hc
    have htwo {k k' : TokenKind} (hk : c.kind = k) (hk' : c.advance.kind = k') :
        List.map Token.kind ([c.current] ++ [c.advance.current]) = [k, k'] := by
      rw [← hk, ← hk']
      rfl
    refine leads_advance (leads_eat (fun href => ?_) fun _ => leads_eat (fun hin => ?_) fun _ => ?_)
    · exact leads_pure ⟨_, htwo hk href, hfirst.trans (hnext.advance href (by decide))⟩
    · exact leads_pure ⟨_, htwo hk hin, hfirst.trans (hnext.advance hin (by decide))⟩
    · exact leads_pure ⟨[c.current], congrArg (fun k => [k]) hk, hfirst⟩
  iterate 6 next hk => exact hword hk (by decide) rfl
  exact leads_pure ⟨[], rfl, .refl c⟩

theorem leads_parse (hc : c.Lexed) : Leads c parse fun f d => ∃ ts, ReadsFormal ts f ∧ c.Past ts d := by
  refine leads_token ((leads_parseIntent hc).bind ?_)
  rintro intent d ⟨words, hwords, hd⟩
  refine (leads_name (hd.lexed hc)).bind ?_
  rintro _ e ⟨name, hname, rfl, he⟩
  have hpast := hd.trans he
  refine leads_spanFrom (leads_pure ⟨_, ?_, hpast⟩)
  rw [hpast.spanFrom (by simp)]
  exact .mk hwords hname

theorem leads_parseMany {c : Cursor} (hc : c.Lexed) :
    Leads c parseMany fun fs d => ∃ ts, ReadsFormals ts fs ∧ c.Past ts d := by
  intro hclean
  by_cases hcomma : (parse c).next.kind = .comma ∧ (parse c).next.tokens ≠ []
  · obtain ⟨hvalue, hreports, hnext⟩ := parseMany_of_comma hcomma
    rw [hreports, clean_append] at hclean
    obtain ⟨ts, hformal, hpast⟩ := leads_parse hc hclean.1
    have hcommaPast := (hpast.lexed hc).advance hcomma.1 (by decide)
    have hlater := (hpast.trans hcommaPast).lexed hc
    have hdone : (parse c).next.advance.tokens.length < c.tokens.length :=
      Nat.lt_of_lt_of_le (Cursor.length_advance_lt hcomma.2) (parse c).le
    obtain ⟨us, hrest, hpast'⟩ := leads_parseMany hlater hclean.2
    rw [hvalue, hnext]
    refine ⟨_, .more hformal hcomma.1 hrest, ?_⟩
    have hall := (hpast.trans hcommaPast).trans hpast'
    rwa [List.append_assoc, List.singleton_append] at hall
  · obtain ⟨hvalue, hreports, hnext⟩ := parseMany_of_last hcomma
    rw [hreports] at hclean
    obtain ⟨ts, hformal, hpast⟩ := leads_parse hc hclean
    rw [hvalue, hnext]
    exact ⟨ts, .last hformal, hpast⟩
termination_by c.tokens.length

theorem leads_parseList (hc : c.Lexed) : Leads c parseList fun fs d => ∃ ts, ReadsParams ts fs ∧ c.Past ts d := by
  refine (leads_expect hc (by decide)).bind ?_
  rintro _ d ⟨rfl, opening, hopening, hd⟩
  have hdl := hd.lexed hc
  refine leads_kind ?_
  split
  · have hnone : Leads d (Pure.pure ([] : List Formal)) fun fs e => fs = [] ∧ e = d := leads_pure ⟨rfl, rfl⟩
    refine hnone.bind ?_
    rintro _ _ ⟨rfl, rfl⟩
    refine (leads_expect hdl (by decide)).bind ?_
    rintro _ e ⟨-, closing, hclosing, he⟩
    exact leads_pure ⟨_, .none hopening hclosing, hd.trans he⟩
  · refine (leads_parseMany hdl).bind ?_
    rintro fs e ⟨ts, hformals, he⟩
    refine (leads_expect (he.lexed hdl) (by decide)).bind ?_
    rintro _ e' ⟨-, closing, hclosing, he'⟩
    exact leads_pure ⟨_, .some hopening hformals hclosing, hd.trans (he.trans he')⟩

end Formal
end Atoms

namespace Cursor.Past

variable {c d : Cursor} {ts : List Token}

theorem bare (h : c.Past ts d) (hc : c.current.leading = []) : Bare ts := by
  intro t ht
  have hts : ts ≠ [] := List.ne_nil_of_mem (List.mem_of_mem_head? ht)
  have hcurrent := h.current hts
  rw [ht] at hcurrent
  rw [Option.some.inj hcurrent, hc]

/-- With the comments that had been taken away. -/
theorem restore (h : c.dropLeading.Past ts d) (hts : ts ≠ []) : c.Past (withLeading c.current.leading ts) d := by
  obtain ⟨tokens, final, p⟩ := c
  obtain ⟨htokens, hfinal, hstop⟩ := h
  cases ts with
  | nil => exact absurd rfl hts
  | cons t ts =>
      cases tokens with
      | nil => cases htokens
      | cons u us =>
          obtain ⟨rfl, hrest⟩ := List.cons.inj htokens
          exact ⟨congrArg (u :: ·) hrest, hfinal, hstop⟩

end Cursor.Past

namespace Stmt

variable {levels : Nat} {c d e : Cursor} {ts : List Token}

/-- From `c` to `d` stands a construct, no deeper than `levels`, with this statement. -/
def Built (levels : Nat) (c : Cursor) (s : Stmt) (d : Cursor) : Prop :=
  ∃ k : Construct, k.depth ≤ levels ∧ c.Past k.tokens d ∧ s = k.stmt

/-- From `c` on stand constructs, and then comments up to the end of the list. -/
def ListBuilt (levels : Nat) (braced : Bool) (c : Cursor) (stmts : List Stmt) (d : Cursor) : Prop :=
  ∃ (ks : Constructs) (e : Cursor), ks.depth ≤ levels ∧ c.Past ks.tokens e ∧ d = e.dropLeading ∧
    stmts = ks.stmts ++ e.current.leading.map ofComment ∧ atListEnd braced d = true

theorem built_leaf {of : Span → Stmt} (h : ReadsLeaf ts of) (hpast : c.Past ts d) (hc : c.current.leading = []) :
    Built levels c (of (d.spanFrom c.current.span)) d :=
  ⟨.leaf ts of h (hpast.bare hc), Nat.zero_le _, hpast, congrArg of (hpast.spanFrom h.ne_nil)⟩

theorem leads_parseVariableKind (hc : c.Lexed) (hk : startsVariable c.kind = true) :
    Leads c parseVariableKind fun kind d => ∃ ts, Words ts kind.words ∧ c.Past ts d.advance := by
  have hone {kind : VariableKind} {k : TokenKind} (hk : c.kind = k) (hend : k ≠ .endOfFile)
      (hwords : [k] = kind.words.map Terminal.kind) :
      Leads c (Pure.pure kind) fun kind d => ∃ ts, Words ts kind.words ∧ c.Past ts d.advance :=
    leads_pure ⟨[c.current], (congrArg (fun k => [k]) hk).trans hwords, hc.advance hk hend⟩
  refine leads_kind ?_
  split
  next hconst =>
    refine leads_cursor ?_
    split
    next href =>
      have hfirst := hc.advance hconst (by decide)
      have hsecond := (hfirst.lexed hc).advance (hc.kind_advance href (by decide)) (by decide)
      refine leads_advance (leads_pure ⟨_, ?_, hfirst.trans hsecond⟩)
      exact congrArg₂ (fun k k' => [k, k']) hconst (hc.kind_advance href (by decide))
    next => exact hone hconst (by decide) rfl
  iterate 3 next hk => exact hone hk (by decide) rfl
  next hconst href hparam htype =>
    refine hone (k := .kwVar) ?_ (by decide) rfl
    cases hkind : c.kind <;> simp_all [startsVariable]

theorem built_parseVariable {before : List Token} {visibility : Visibility} (hc : c.Lexed)
    (hleading : c.current.leading = []) (hbefore : Words before visibility.words) (hd : c.Past before d)
    (hk : startsVariable d.kind = true) :
    Leads d (parseVariable visibility c.current.span) (Built levels c) := by
  rw [parseVariable]
  refine (leads_parseVariableKind (hd.lexed hc) hk).bind ?_
  rintro kind e ⟨words, hwords, he⟩
  have hpast := hd.trans he
  refine leads_advance ((leads_name (hpast.lexed hc)).bind ?_)
  rintro _ f ⟨name, hname, rfl, hf⟩
  have hpast := hpast.trans hf
  have hrest {init : List Token} {value : Option Expr} {g : Cursor} (hinit : ReadsInit init value)
      (hg : f.Past init g) : Leads g (do
        Parse.semicolon
        return .varDecl visibility kind name.text value (← Parse.spanFrom c.current.span)) (Built levels c) := by
    have hpast := hpast.trans hg
    refine (leads_semicolon (hpast.lexed hc)).bind ?_
    rintro _ h ⟨semicolon, hsemicolon, hh⟩
    refine leads_spanFrom (leads_pure (built_leaf (.varDecl hbefore hwords hname hinit hsemicolon) ?_ hleading))
    have hall := hpast.trans hh
    simpa using hall
  refine leads_eat (fun hequals => ?_) fun _ => hrest .none (.refl f)
  have hequalsPast := (hpast.lexed hc).advance hequals (by decide)
  have hinit : Leads f.advance (some <$> Expr.parse) fun value g => ∃ init, ReadsInit init value ∧ f.Past init g := by
    refine .map ((Expr.leads_parse (hequalsPast.lexed (hpast.lexed hc))).imp ?_)
    rintro e g ⟨t, ht, hg⟩
    exact ⟨_, .some hequals ht, hequalsPast.trans hg⟩
  refine hinit.bind ?_
  rintro value g ⟨init, hreads, hg⟩
  exact hrest hreads hg

theorem built_parseForeign (hc : c.Lexed) (hleading : c.current.leading = []) (hk : c.kind = .kwForeign) :
    Leads c (parseForeign c.current.span) (Built levels c) := by
  have hword := hc.advance hk (by decide)
  refine leads_advance (leads_token ?_)
  split
  next hcode =>
    have hboth := hword.trans ((hword.lexed hc).advance hcode (by decide))
    refine leads_advance (leads_eat (fun hsemicolon => ?_) fun _ => ?_)
    · have hall := hboth.trans ((hboth.lexed hc).advance hsemicolon (by decide))
      exact leads_spanFrom (leads_pure (built_leaf (.foreignEnded hk hcode hsemicolon) hall hleading))
    · exact leads_spanFrom (leads_pure (built_leaf (.foreign hk hcode) hboth hleading))
  next hinvalid => exact absurd hinvalid (hword.lexed hc).kind_ne_invalid
  next => exact ((fails_expected _).bind _).leads _ _

variable {body? : Option (Parse (List Stmt))}

/-- Bodies that are read without an error are lists of constructs, less than `levels` deep. -/
def BuildsBodies (levels : Nat) (body? : Option (Parse (List Stmt))) : Prop :=
  ∀ body, body? = some body → ∃ below < levels, ∀ c : Cursor, c.Lexed → Leads c body (ListBuilt below true c)

theorem built_parseBraced (hbody : BuildsBodies levels body?) (hc : c.Lexed) (hk : c.kind = .leftBrace) :
    Leads c (parseBraced body?) fun stmts d => ∃ (opening : Token) (ks : Constructs) (closing : Token),
      opening.kind = .leftBrace ∧ closing.kind = .rightBrace ∧ ks.depth < levels ∧
        c.Past (ks.region opening closing) d ∧ stmts = ks.stmts ++ closing.leading.map ofComment := by
  unfold parseBraced
  cases body? with
  | none => exact (fails_rejectNesting.bind _).leads c _
  | some body =>
      obtain ⟨below, hbelow, hreads⟩ := hbody body rfl
      have hopening := hc.advance hk (by decide)
      refine leads_token (leads_advance ((hreads _ (hopening.lexed hc)).bind ?_))
      rintro stmts d ⟨ks, e, hdepth, he, rfl, rfl, -⟩
      have hbefore := hopening.trans he
      refine leads_eat (fun hclose => ?_) fun _ => Fails.leads (.after (fun _ => (fails_report rfl).bind _) token) _ _
      rw [Cursor.kind, Cursor.current_dropLeading] at hclose
      have hne := (hbefore.lexed hc).tokens_ne_nil hclose (by decide)
      have hall := hbefore.trans ((hbefore.lexed hc).advance hclose (by decide))
      rw [Cursor.advance_dropLeading hne]
      refine leads_pure ⟨c.current, ks, e.current, hk, hclose, Nat.lt_of_le_of_lt hdepth hbelow, ?_, rfl⟩
      simpa [Constructs.region] using hall

/-- A header, and the braced list behind it. -/
theorem built_braced {front : List Token} {header : Header} {opening closing : Token} {ks : Constructs}
    (hc : c.current.leading = []) (h : ReadsHeader front header) (hd : c.Past front d)
    (hopening : opening.kind = .leftBrace) (hclosing : closing.kind = .rightBrace) (hdepth : ks.depth < levels)
    (he : d.Past (ks.region opening closing) e) :
    Built levels c (header.stmt (ks.stmts ++ closing.leading.map ofComment) (e.spanFrom d.current.span)
      (e.spanFrom c.current.span)) e := by
  have hall := hd.trans he
  have hbare : Bare (front ++ [opening]) := by
    intro t ht
    refine hall.bare hc t ?_
    cases front with
    | nil | cons u us => exact ht
  refine ⟨.braced front header opening ks closing h hopening hclosing hbare, hdepth, hall, ?_⟩
  rw [he.spanFrom (List.cons_ne_nil _ _), hall.spanFrom (by simp [Constructs.region])]
  rfl

section Braced

variable (hbody : BuildsBodies levels body?) {before : List Token} {visibility : Visibility} (hc : c.Lexed)
  (hleading : c.current.leading = [])
include hbody hc hleading

theorem built_parseModule (hbefore : Words before visibility.words) (hd : c.Past before d) (hk : d.kind = .kwModule) :
    Leads d (parseModule body? visibility c.current.span) (Built levels c) := by
  have hword := hd.trans ((hd.lexed hc).advance hk (by decide))
  refine leads_advance ((leads_name (hword.lexed hc)).bind ?_)
  rintro _ e ⟨name, hname, rfl, he⟩
  have hfront : c.Past (before ++ [d.current, name]) e := by simpa using hword.trans he
  refine leads_kind ?_
  split
  next hopen =>
    refine (built_parseBraced hbody (hfront.lexed hc) hopen).bind ?_
    rintro _ f ⟨opening, ks, closing, hopening, hclosing, hdepth, hf, rfl⟩
    exact leads_spanFrom (leads_pure (built_braced hleading (.moduleDecl hbefore hk hname) hfront hopening hclosing
      hdepth hf))
  next => exact ((fails_expected _).bind _).leads _ _

theorem built_parseProc (hbefore : Words before visibility.words) (hd : c.Past before d) (hk : d.kind = .kwProc) :
    Leads d (parseProc body? visibility c.current.span) (Built levels c) := by
  have hword := hd.trans ((hd.lexed hc).advance hk (by decide))
  refine leads_advance ((leads_name (hword.lexed hc)).bind ?_)
  rintro _ e ⟨name, hname, rfl, he⟩
  have hnamed := hword.trans he
  refine (Formal.leads_parseList (hnamed.lexed hc)).bind ?_
  rintro formals f ⟨params, hparams, hf⟩
  have hfront : c.Past (before ++ d.current :: name :: params) f := by simpa using hnamed.trans hf
  refine leads_token ?_
  split
  next hopen =>
    refine (built_parseBraced hbody (hfront.lexed hc) hopen).bind ?_
    rintro _ g ⟨opening, ks, closing, hopening, hclosing, hdepth, hg, rfl⟩
    refine leads_spanFrom (leads_spanFrom (leads_pure ?_))
    exact built_braced hleading (.procDecl hbefore hk hname hparams) hfront hopening hclosing hdepth hg
  next => exact ((fails_expected _).bind _).leads _ _

theorem built_parsePlain : Leads c (parsePlain body? c.current.span) (Built levels c) := by
  have hexpr : Leads c (do
      let e ← Expr.parse
      Parse.semicolon
      return .expr e (← Parse.spanFrom c.current.span)) (Built levels c) := by
    refine (Expr.leads_parse hc).bind ?_
    rintro value d ⟨t, ht, hd⟩
    refine (leads_semicolon (hd.lexed hc)).bind ?_
    rintro _ e ⟨semicolon, hsemicolon, he⟩
    exact leads_spanFrom (leads_pure (built_leaf (.expr ht hsemicolon) (hd.trans he) hleading))
  apply leads_kind
  split
  next hopen =>
    split
    · exact (fails_rejectNesting.bind _).leads c _
    · refine (built_parseBraced hbody hc hopen).bind ?_
      rintro _ d ⟨opening, ks, closing, hopening, hclosing, hdepth, hd, rfl⟩
      exact leads_spanFrom (leads_pure (built_braced hleading .block (.refl c) hopening hclosing hdepth hd))
  next hk => exact built_parseForeign hc hleading hk
  iterate 3 next => exact hexpr
  next => exact ((fails_report rfl).bind _).leads c _
  next => exact ((fails_report rfl).bind _).leads c _
  next hk => exact absurd hk hc.kind_ne_invalid
  next => exact ((fails_expected _).bind _).leads c _

theorem built_parseWith : Leads c (parseWith body?) (Built levels c) := by
  have hvisibility : Leads c parseVisibility fun visibility d => ∃ before, Words before visibility.words ∧
      c.Past before d ∧ (visibility = .plain → d = c) := by
    refine leads_kind ?_
    split
    iterate 2 next hk =>
      refine leads_advance (leads_pure ⟨[c.current], congrArg (fun k => [k]) hk, hc.advance hk (by decide), ?_⟩)
      exact fun h => nomatch h
    exact leads_pure ⟨[], rfl, .refl c, fun _ => rfl⟩
  apply leads_token
  refine hvisibility.bind ?_
  rintro visibility d ⟨before, hbefore, hd, hplain⟩
  apply leads_kind
  split
  next hk => exact built_parseModule hbody hc hleading hbefore hd hk
  split
  next hk => exact built_parseProc hbody hc hleading hbefore hd hk
  split
  next hk => exact built_parseVariable hc hleading hbefore hd hk
  split
  next => exact ((fails_expected _).bind _).leads d _
  next hnone =>
    obtain rfl := hplain (not_not.mp hnone)
    exact built_parsePlain hbody hc hleading

end Braced

theorem built_parseList {item : Parse Stmt} (htakes : ∀ c : Cursor, c.tokens ≠ [] → Takes c item)
    (hitem : ∀ c : Cursor, c.Lexed → c.current.leading = [] → Leads c item (Built levels c)) (braced : Bool)
    (hc : c.Lexed) : Leads c (parseList item braced) (ListBuilt levels braced c) := by
  fun_induction parseList item braced c with
  | case1 c comments h =>
      intro _
      obtain ⟨hvalue, -, hnext⟩ := parseList_of_end item h
      rw [hvalue, hnext]
      exact ⟨.nil, c, Nat.zero_le _, .refl c, rfl, rfl, h⟩
  | case2 c comments h s lt t ih =>
      intro hclean
      obtain ⟨hvalue, hreports, hnext⟩ := parseList_of_more item h
      rw [hreports, clean_append] at hclean
      have hresume : resume c.dropLeading s = s.next := if_pos (htakes _ (tokens_ne_nil_of_not_atListEnd h))
      obtain ⟨k, hdepth, hpast, hstmt⟩ := hitem _ hc.dropLeading c.leading_dropLeading hclean.1
      have hhere := hpast.restore k.tokens_ne_nil
      have hrest := ih (hresume ▸ hhere.lexed hc) hclean.2
      obtain ⟨ks, e, hdepths, hpast', hlast, hstmts, hend⟩ := hrest
      rw [hresume] at hpast'
      rw [hvalue, hnext, hstmt, hstmts]
      refine ⟨.cons c.current.leading k ks, e, Nat.max_le.mpr ⟨hdepth, hdepths⟩, hhere.trans hpast', hlast, ?_, hend⟩
      simp [Constructs.stmts]

theorem built_parse (levels : Nat) (hc : c.Lexed) (hleading : c.current.leading = []) :
    Leads c (parse levels) (Built levels c) := by
  induction levels generalizing c with
  | zero => exact built_parseWith (fun _ hbody => nomatch hbody) hc hleading
  | succ levels ih =>
      refine built_parseWith (fun body hbody => ?_) hc hleading
      obtain rfl := Option.some.inj hbody
      exact ⟨levels, Nat.lt_succ_self _, fun c hc => built_parseList (fun _ hc => takes_parse hc levels)
        (fun _ => ih) true hc⟩

end Stmt

open Stmt

/-- The statements of a stream where braces are followed `levels` deep. -/
def statements (levels : Nat) (t : TokenStream) : List Stmt :=
  (parseList (parse levels) false (.ofStream t)).value

/-- The stream holds no fault of lexing and is read without an error where braces are followed `levels` deep. -/
structure ReadsCleanly (levels : Nat) (t : TokenStream) : Prop where
  final : t.final.kind = .endOfFile
  valid : ∀ u ∈ t.tokens, u.kind ≠ .invalid
  clean : Clean (parseList (parse levels) false (.ofStream t)).reports

theorem ReadsCleanly.exists_constructs {t : TokenStream} {levels : Nat} (h : ReadsCleanly levels t) :
    ∃ ks : Constructs, ks.depth ≤ levels ∧ t.tokens = ks.tokens ∧
      statements levels t = ks.stmts ++ t.final.leading.map ofComment := by
  have hlexed : (Cursor.ofStream t).Lexed := ⟨h.final, h.valid⟩
  obtain ⟨ks, e, hdepth, hpast, hlast, hvalue, hend⟩ := built_parseList (fun _ hc => takes_parse hc levels)
    (fun _ => built_parse levels) false hlexed h.clean
  have hnil : e.tokens = [] := by
    rw [hlast] at hend
    rw [← List.length_eq_zero_iff, ← Cursor.length_dropLeading]
    simpa [atListEnd] using hend
  have hfinal : e.current = t.final := by
    rw [Cursor.current, hnil]
    exact hpast.final
  refine ⟨ks, hdepth, ?_, hfinal ▸ hvalue⟩
  have htokens := hpast.tokens
  rwa [hnil, List.append_nil] at htokens

theorem readsCleanly_ofText {text : String} (hlex : Clean (TokenStream.ofText text).reports) {levels : Nat}
    (h : Clean (parseList (parse levels) false (.ofStream (TokenStream.ofText text))).reports) :
    ReadsCleanly levels (TokenStream.ofText text) where
  final := by
    obtain ⟨leading, hfinal⟩ := TokenStream.final_ofText text
    exact congrArg Token.kind hfinal
  valid := fun _ ht => TokenStream.kind_ne_invalid hlex ht
  clean := h

end Surface
end Palimpsest
