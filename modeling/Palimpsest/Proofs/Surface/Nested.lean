import Palimpsest.Proofs.Surface.Replay

/-!
Where statements stand that are read without an error. A statement reaches from its first token to its last,
and the statements of its body stand one after another between the braces.
-/

namespace Palimpsest
namespace Surface

/-- The statements right inside a statement. -/
def Stmt.body : Stmt → List Stmt
  | .moduleDecl _ _ body _ | .procDecl _ _ _ body _ _ | .block body _ => body
  | .comment .. | .varDecl .. | .foreign .. | .expr .. | .bad _ => []

/-- What the statements right inside a statement stand in. -/
def Stmt.bodySpan : Stmt → Span
  | .procDecl _ _ _ _ bodySpan _ => bodySpan
  | s => s.span

mutual

/-- The statements inside a statement, at any depth. -/
def Stmt.inside : Stmt → List Stmt
  | .moduleDecl _ _ body _ | .procDecl _ _ _ body _ _ | .block body _ => allOfList body
  | .comment .. | .varDecl .. | .foreign .. | .expr .. | .bad _ => []

/-- Statements with those inside them. -/
def allOfList : List Stmt → List Stmt
  | [] => []
  | s :: rest => s :: (s.inside ++ allOfList rest)

end

theorem Stmt.inside_eq (s : Stmt) : s.inside = allOfList s.body := by
  cases s <;> simp [Stmt.inside, Stmt.body, allOfList]

theorem mem_allOfList {s : Stmt} {stmts : List Stmt} : s ∈ allOfList stmts ↔ ∃ t ∈ stmts, s = t ∨ s ∈ t.inside := by
  induction stmts with
  | nil => simp [allOfList]
  | cons t rest ih => simp [allOfList, ih, or_assoc]

namespace Cursor.Reached

variable {text : String} {c d : Cursor}

/-- A later place has a later token before it. -/
theorem start_mono (hc : c.Reached text) (hd : d.Reached text) (h : d.tokens.length ≤ c.tokens.length) :
    c.current.span.start ≤ d.current.span.start := by
  cases Nat.lt_or_eq_of_le h with
  | inl hlt => exact Nat.le_trans (hc.start_le_prevStop hd hlt) hd.prevStop_le_start
  | inr heq =>
      obtain ⟨before, after, hsplit, hfrom⟩ := hc.exists_between
      obtain ⟨before', after', hsplit', hto⟩ := hd.exists_between
      have hlength : after.length = after'.length := by rw [← length_after hfrom, ← length_after hto, heq]
      obtain ⟨rfl, rfl⟩ := List.append_inj' (hsplit.symm.trans hsplit') hlength
      rw [← span_dropLeading c, hfrom, ← hto, span_dropLeading]

end Cursor.Reached

namespace Parse

variable {α β : Type} {c : Cursor}

/-- From here the step comes to a value and a place with the property, or reports an error. -/
def Leads (c : Cursor) (x : Parse α) (post : α → Cursor → Prop) : Prop :=
  Clean (x c).reports → post (x c).value (x c).next

theorem Leads.bind {x : Parse α} {f : α → Parse β} {mid : α → Cursor → Prop} {post : β → Cursor → Prop}
    (hx : Leads c x mid) (hf : ∀ a d, mid a d → Leads d (f a) post) : Leads c (x >>= f) post := by
  intro hclean
  obtain ⟨hfirst, hrest⟩ := (clean_append _ _).mp hclean
  exact hf _ _ (hx hfirst) hrest

theorem Leads.imp {x : Parse α} {pre post : α → Cursor → Prop} (hx : Leads c x pre) (h : ∀ a d, pre a d → post a d) :
    Leads c x post := fun hclean => h _ _ (hx hclean)

theorem Leads.map {g : α → β} {x : Parse α} {post : β → Cursor → Prop} (hx : Leads c x fun a => post (g a)) :
    Leads c (g <$> x) post := hx.bind fun _ _ h _ => h

/-- What holds of all that follows holds in the end. -/
theorem Leads.after {f : α → Parse β} {post : β → Cursor → Prop} (hf : ∀ a d, Leads d (f a) post) (x : Parse α) :
    Leads c (x >>= f) post := fun hclean => hf _ _ ((clean_append _ _).mp hclean).2

theorem Fails.leads {x : Parse α} (hx : Fails x) (c : Cursor) (post : α → Cursor → Prop) : Leads c x post :=
  fun hclean => absurd hclean (hx c)

theorem leads_pure {a : α} {post : α → Cursor → Prop} (h : post a c) : Leads c (Pure.pure a) post := fun _ => h

theorem leads_spanFrom {start : Span} {f : Span → Parse β} {post : β → Cursor → Prop}
    (h : Leads c (f (c.spanFrom start)) post) : Leads c (spanFrom start >>= f) post := h

theorem leads_cursor {f : Cursor → Parse β} {post : β → Cursor → Prop} (h : Leads c (f c) post) :
    Leads c (cursor >>= f) post := h

theorem leads_token {f : Token → Parse β} {post : β → Cursor → Prop} (h : Leads c (f c.current) post) :
    Leads c (token >>= f) post := h

theorem leads_kind {f : TokenKind → Parse β} {post : β → Cursor → Prop} (h : Leads c (f c.kind) post) :
    Leads c (kind >>= f) post := h

theorem leads_advance {f : Unit → Parse β} {post : β → Cursor → Prop} (h : Leads c.advance (f ()) post) :
    Leads c (advance >>= f) post := h

theorem leads_eat {k : TokenKind} {f : Bool → Parse β} {post : β → Cursor → Prop}
    (htaken : c.kind = k → Leads c.advance (f true) post) (hleft : c.kind ≠ k → Leads c (f false) post) :
    Leads c (eat k >>= f) post := by
  change Leads c ((if c.kind = k then Parse.advance >>= fun _ => Pure.pure true else Pure.pure false) >>= f) post
  split
  next hk => exact htaken hk
  next hk => exact hleft hk

end Parse

namespace Cursor.Reached

variable {text : String} {c : Cursor}

/-- What is advanced over ends where the next place begins. -/
theorem start_le_advance (h : c.Reached text) (hk : c.kind ≠ .endOfFile) :
    c.current.span.start ≤ c.advance.prevStop :=
  h.start_le_prevStop h.advance (Cursor.length_advance_lt (h.inText.tokens_ne_nil hk))

end Cursor.Reached

namespace Excerpt

open Parse

variable {text : String} {α : Type} {c : Cursor}

/-- A text is a part of itself. -/
def whole (text : String) (hlex : Clean (TokenStream.ofText text).reports) : Excerpt := ⟨text, text, 0, [], hlex⟩

theorem aligned_whole (hlex : Clean (TokenStream.ofText text).reports) (h : c.Reached text) :
    (whole text hlex).Aligned c c := by
  have hshift (t : Token) : t.shift 0 = t := by
    have hcomment (k : Comment) : k.shift 0 = k := rfl
    simp [Token.shift, hcomment, Span.shift]
  refine ⟨h, h, ?_, ?_⟩
  · simp [whole, hshift]
  · simp [whole]

/-- A step that reads the same from a part goes on among the tokens of the text. -/
theorem leads_of_replays (hlex : Clean (TokenStream.ofText text).reports) {shift : α → α} {x y : Parse α}
    (hx : (whole text hlex).Replays 0 shift x y) (hc : c.Reached text) :
    Leads c x fun _ d => d.Reached text ∧ d.tokens.length ≤ c.tokens.length :=
  fun hclean => ⟨(hx c c (aligned_whole hlex hc) hclean (Nat.zero_le _)).next.left, (x c).le⟩

end Excerpt

namespace Stmt

open Parse Excerpt

variable {text : String} {body? : Option (Parse (List Stmt))}

/-- The body of a statement is read by `body?` from a place inside the statement, or there is none. -/
structure Encloses (text : String) (body? : Option (Parse (List Stmt))) (s : Stmt) : Prop where
  within : s.bodySpan.Within s.span
  reads : s.body = [] ∨ ∃ body c, body? = some body ∧ c.Reached text ∧ Clean (body c).reports ∧
    s.body = (body c).value ∧ s.bodySpan.start ≤ c.prevStop ∧ (body c).next.current.span.start ≤ s.bodySpan.stop

/-- What a body is read by keeps to the tokens of the text, and goes on. -/
def Advances (text : String) (body? : Option (Parse (List Stmt))) : Prop :=
  ∀ body, body? = some body → ∀ c : Cursor, c.Reached text →
    Leads c body fun _ d => d.Reached text ∧ c.prevStop ≤ d.current.span.start

/-- What is known of a statement that starts at `start` when it has been read. -/
def Placed (text : String) (body? : Option (Parse (List Stmt))) (start : Span) (s : Stmt) (d : Cursor) : Prop :=
  s.span = d.spanFrom start ∧ s.Encloses text body?

/-- A statement with no body. -/
theorem leads_leaf {c : Cursor} {start : Span} {mk : Span → Stmt}
    (h : ∀ span, (mk span).span = span ∧ (mk span).body = [] ∧ (mk span).bodySpan = span) :
    Leads c (do return mk (← Parse.spanFrom start)) (Placed text body? start) := by
  apply leads_spanFrom
  apply leads_pure
  obtain ⟨hspan, hbody, hbodySpan⟩ := h (c.spanFrom start)
  refine ⟨hspan, ⟨?_, .inl hbody⟩⟩
  rw [hspan, hbodySpan]
  exact ⟨Nat.le_refl _, Nat.le_refl _⟩

theorem leads_parseVariable (visibility : Visibility) (start : Span) (c : Cursor) :
    Leads c (parseVariable visibility start) (Placed text body? start) := by
  rw [parseVariable]
  refine .after (fun kind c => .after (fun _ c => .after (fun name c => .after (fun eaten c => ?_) _) _) _) _
  have hrest (init : Option Expr) (c : Cursor) : Leads c (do
      Parse.semicolon
      return .varDecl visibility kind name init (← Parse.spanFrom start)) (Placed text body? start) :=
    .after (fun _ c => leads_leaf fun _ => ⟨rfl, rfl, rfl⟩) _
  dsimp only
  split
  · exact .after hrest _
  · exact .after hrest _

theorem leads_parseForeign (start : Span) (c : Cursor) :
    Leads c (parseForeign start) (Placed text body? start) := by
  rw [parseForeign]
  refine .after (fun _ c => .after (fun t c => ?_) _) _
  split
  · exact .after (fun _ c => .after (fun _ c => leads_leaf fun _ => ⟨rfl, rfl, rfl⟩) _) _
  · exact .after (fun _ c => leads_leaf fun _ => ⟨rfl, rfl, rfl⟩) _
  · exact ((fails_expected _).bind _).leads c _

/-- Statements read between an opening brace at `c` and the closing one before `d`. -/
structure Between (text : String) (body? : Option (Parse (List Stmt))) (c : Cursor) (stmts : List Stmt) (d : Cursor) :
    Prop where
  next : d.Reached text
  reads : ∃ body c', body? = some body ∧ c'.Reached text ∧ Clean (body c').reports ∧ stmts = (body c').value ∧
    c.current.span.start ≤ c'.prevStop ∧ (body c').next.current.span.start ≤ d.prevStop
  ordered : c.current.span.start ≤ d.prevStop

theorem Between.encloses {c d : Cursor} {stmts : List Stmt} {s : Stmt} (h : Between text body? c stmts d)
    (hbody : s.body = stmts) (hwithin : s.bodySpan.Within s.span) (hstart : s.bodySpan.start ≤ c.current.span.start)
    (hstop : d.prevStop ≤ s.bodySpan.stop) : s.Encloses text body? := by
  obtain ⟨body, c', hsome, hc', hclean, hvalue, hopen, hclose⟩ := h.reads
  refine ⟨hwithin, .inr ⟨body, c', hsome, hc', hclean, hbody.trans hvalue, ?_, ?_⟩⟩
  · exact Nat.le_trans hstart hopen
  · exact Nat.le_trans hclose hstop

theorem leads_parseBraced (hbody : Advances text body?) {c : Cursor} (hc : c.Reached text) (hk : c.kind = .leftBrace) :
    Leads c (parseBraced body?) (Between text body? c) := by
  unfold parseBraced
  cases body? with
  | none => exact (fails_rejectNesting.bind _).leads c _
  | some body =>
      have hopening : c.current.span.start ≤ c.advance.prevStop := hc.start_le_advance (by rw [hk]; decide)
      have hread : Leads c.advance body fun stmts d => d = (body c.advance).next ∧ stmts = (body c.advance).value ∧
          Clean (body c.advance).reports := fun hclean => ⟨rfl, rfl, hclean⟩
      refine leads_token (leads_advance (hread.bind ?_))
      rintro stmts d ⟨rfl, rfl, hclean⟩
      obtain ⟨hnext, hle⟩ := hbody body rfl _ hc.advance hclean
      apply leads_eat
      · intro hclose
        have hclosing := hnext.start_le_advance (by rw [hclose]; decide)
        refine leads_pure ⟨hnext.advance, ⟨body, c.advance, rfl, hc.advance, hclean, rfl, hopening, hclosing⟩, ?_⟩
        exact Nat.le_trans hopening (Nat.le_trans hle hclosing)
      · intro _
        exact Fails.leads (.after (fun _ => (fails_report rfl).bind _) token) _ _

/-- A place where the tokens of the text go on behind some start. -/
def Behind (text : String) (start : Span) (c : Cursor) : Prop := c.Reached text ∧ start.start ≤ c.current.span.start

theorem Behind.leads {start : Span} {c : Cursor} {α : Type} {shift : α → α} {x y : Parse α}
    (hlex : Clean (TokenStream.ofText text).reports) (h : Behind text start c)
    (hx : (whole text hlex).Replays 0 shift x y) : Leads c x fun _ d => Behind text start d := by
  intro hclean
  obtain ⟨hd, hle⟩ := leads_of_replays hlex hx h.1 hclean
  exact ⟨hd, Nat.le_trans h.2 (h.1.start_mono hd hle)⟩

theorem Behind.advance {start : Span} {c : Cursor} (h : Behind text start c) : Behind text start c.advance :=
  ⟨h.1.advance, Nat.le_trans h.2 (h.1.start_mono h.1.advance c.length_advance_le)⟩

section Braced

variable (hlex : Clean (TokenStream.ofText text).reports) (hbody : Advances text body?) {start : Span}
include hlex hbody

theorem leads_parseModule (visibility : Visibility) {c : Cursor} (hc : Behind text start c) :
    Leads c (parseModule body? visibility start) (Placed text body? start) := by
  rw [parseModule]
  refine leads_advance ((hc.advance.leads hlex repeats_name).bind fun name c hc => leads_kind ?_)
  split
  next hk =>
    refine (leads_parseBraced hbody hc.1 hk).bind fun stmts d hd => leads_spanFrom (leads_pure ⟨rfl, ?_⟩)
    exact hd.encloses rfl ⟨Nat.le_refl _, Nat.le_refl _⟩ hc.2 (Nat.le_max_left _ _)
  next => exact ((fails_expected _).bind _).leads c _

theorem leads_parseProc (visibility : Visibility) {c : Cursor} (hc : Behind text start c) :
    Leads c (parseProc body? visibility start) (Placed text body? start) := by
  rw [parseProc]
  refine leads_advance ((hc.advance.leads hlex repeats_name).bind fun name c hc => ?_)
  refine (hc.leads hlex Formal.replays_parseList).bind fun formals c hc => leads_token ?_
  split
  next hk =>
    refine (leads_parseBraced hbody hc.1 hk).bind fun stmts d hd => leads_spanFrom (leads_spanFrom (leads_pure ⟨rfl, ?_⟩))
    refine hd.encloses rfl ⟨hc.2, ?_⟩ (Nat.le_refl _) (Nat.le_max_left _ _)
    exact Nat.max_le.mpr ⟨Nat.le_max_left _ _, Nat.le_trans hd.ordered (Nat.le_max_left _ _)⟩
  next => exact ((fails_expected _).bind _).leads c _

theorem leads_parsePlain {c : Cursor} (hc : Behind text start c) :
    Leads c (parsePlain body? start) (Placed text body? start) := by
  have hleaf (c : Cursor) : Leads c (do
      let v ← Expr.parse
      Parse.semicolon
      return .expr v (← Parse.spanFrom start)) (Placed text body? start) :=
    .after (fun v c => .after (fun _ c => leads_leaf fun _ => ⟨rfl, rfl, rfl⟩) _) _
  apply leads_kind
  split
  next hk =>
    split
    · exact (fails_rejectNesting.bind _).leads c _
    · refine (leads_parseBraced hbody hc.1 hk).bind fun stmts d hd => leads_spanFrom (leads_pure ⟨rfl, ?_⟩)
      exact hd.encloses rfl ⟨Nat.le_refl _, Nat.le_refl _⟩ hc.2 (Nat.le_max_left _ _)
  next => exact leads_parseForeign start c
  iterate 3 next => exact hleaf c
  next => exact ((fails_report rfl).bind _).leads c _
  next => exact ((fails_report rfl).bind _).leads c _
  next hk => exact absurd hk (hc.1.inText.kind_ne_invalid hlex)
  next => exact ((fails_expected _).bind _).leads c _

theorem leads_parseWith {c : Cursor} (hc : c.Reached text) :
    Leads c (parseWith body?) (Placed text body? c.current.span) := by
  apply leads_token
  have hstart : Behind text c.current.span c := ⟨hc, Nat.le_refl _⟩
  refine (hstart.leads hlex repeats_parseVisibility).bind fun visibility d hd => leads_kind ?_
  split
  · exact leads_parseModule hlex hbody visibility hd
  split
  · exact leads_parseProc hlex hbody visibility hd
  split
  · exact leads_parseVariable visibility c.current.span d
  split
  · exact ((fails_expected _).bind _).leads d _
  · exact leads_parsePlain hlex hbody hd

end Braced

/-- What is known of the statements that a list has read from `c` on, up to `d`. -/
structure Listed (text : String) (item : Parse Stmt) (c : Cursor) (stmts : List Stmt) (d : Cursor) : Prop where
  next : d.Reached text
  ordered : stmts.Pairwise fun s t => s.span.stop ≤ t.span.start
  within : ∀ s ∈ stmts, c.prevStop ≤ s.span.start ∧ s.span.stop ≤ d.current.span.start
  forward : c.prevStop ≤ d.current.span.start
  /-- Each is a comment, or was read where no comment stood before it. -/
  sources : ∀ s ∈ stmts, (∃ k ∈ (TokenStream.ofText text).comments, s = ofComment k) ∨
    ∃ c' : Cursor, c'.Reached text ∧ c'.current.leading = [] ∧ c'.tokens ≠ [] ∧ Clean (item c').reports ∧
      s = (item c').value

section Lists

variable {item : Parse Stmt} {c : Cursor}

theorem comment_mem_of_leading (hc : c.Reached text) : ∀ s ∈ c.current.leading.map ofComment,
    ∃ k ∈ (TokenStream.ofText text).comments, s = ofComment k := by
  intro s hs
  obtain ⟨k, hk, rfl⟩ := List.mem_map.mp hs
  exact ⟨k, hc.inText.comments_current k hk, rfl⟩

/-- At the end of a list there may be comments left. -/
theorem listed_comments (hc : c.Reached text) : Listed text item c (c.current.leading.map ofComment) c.dropLeading := by
  obtain ⟨hincreasing, hinside⟩ := hc.comments_between
  constructor
  · exact hc.dropLeading
  · exact List.pairwise_map.mpr hincreasing
  · rw [Cursor.span_dropLeading]
    exact List.forall_mem_map.mpr hinside
  · rw [Cursor.span_dropLeading]
    exact hc.prevStop_le_start
  · exact fun s hs => .inl (comment_mem_of_leading hc s hs)

/-- The comments before a statement, the statement, and those behind it. -/
theorem Listed.cons {s : Stmt} {stmts : List Stmt} {d e : Cursor} (hc : c.Reached text) (hrest : Listed text item d stmts e)
    (hforward : c.current.span.start ≤ d.prevStop) (hspan : s.span = ⟨c.current.span.start, d.prevStop⟩)
    (hsource : ∃ c' : Cursor, c'.Reached text ∧ c'.current.leading = [] ∧ c'.tokens ≠ [] ∧ Clean (item c').reports ∧
      s = (item c').value) : Listed text item c (c.current.leading.map ofComment ++ s :: stmts) e := by
  obtain ⟨hincreasing, hinside⟩ := hc.comments_between
  have hbefore := hc.prevStop_le_start
  have hlast := hrest.forward
  have hlater : ∀ u ∈ s :: stmts, c.current.span.start ≤ u.span.start ∧ u.span.stop ≤ e.current.span.start := by
    refine List.forall_mem_cons.mpr ⟨?_, fun u hu => ?_⟩
    · rw [hspan]
      exact ⟨Nat.le_refl _, hlast⟩
    · obtain ⟨hstart, hstop⟩ := hrest.within u hu
      exact ⟨Nat.le_trans hforward hstart, hstop⟩
  have hend : c.current.span.start ≤ e.current.span.start := Nat.le_trans hforward hlast
  constructor
  · exact hrest.next
  · refine List.pairwise_append.mpr ⟨List.pairwise_map.mpr hincreasing, ?_, List.forall_mem_map.mpr ?_⟩
    · refine List.pairwise_cons.mpr ⟨fun u hu => ?_, hrest.ordered⟩
      rw [hspan]
      exact (hrest.within u hu).1
    · exact fun k hk u hu => Nat.le_trans (hinside k hk).2 (hlater u hu).1
  · refine List.forall_mem_append.mpr ⟨List.forall_mem_map.mpr fun k hk => ?_, fun u hu => ?_⟩
    · exact ⟨(hinside k hk).1, Nat.le_trans (hinside k hk).2 hend⟩
    · exact ⟨Nat.le_trans hbefore (hlater u hu).1, (hlater u hu).2⟩
  · exact Nat.le_trans hbefore hend
  · intro u hu
    cases List.mem_append.mp hu with
    | inl hleading => exact .inl (comment_mem_of_leading hc u hleading)
    | inr hlater =>
        cases List.mem_cons.mp hlater with
        | inl heq => exact .inr (heq ▸ hsource)
        | inr hin => exact hrest.sources u hin

theorem leads_parseList (hlex : Clean (TokenStream.ofText text).reports)
    (hreplays : (whole text hlex).Replays 0 (Stmt.shift 0) item item)
    (htakes : ∀ c : Cursor, c.tokens ≠ [] → Takes c item)
    (hplaced : ∀ c : Cursor, c.Reached text → Leads c item fun s d => s.span = d.spanFrom c.current.span)
    (braced : Bool) (hc : c.Reached text) : Leads c (parseList item braced) (Listed text item c) := by
  fun_induction parseList item braced c with
  | case1 c comments h =>
      intro _
      obtain ⟨hvalue, -, hnext⟩ := parseList_of_end item h
      rw [hvalue, hnext]
      exact listed_comments hc
  | case2 c comments h s lt t ih =>
      intro hclean
      obtain ⟨hvalue, hreports, hnext⟩ := parseList_of_more item h
      rw [hreports, clean_append] at hclean
      have hd := hc.dropLeading
      have hne := tokens_ne_nil_of_not_atListEnd h
      have hresume : resume c.dropLeading s = s.next := if_pos (htakes _ hne)
      have hreached : s.next.Reached text := (leads_of_replays hlex hreplays hd hclean.1).1
      have hrest := ih (hresume ▸ hreached) hclean.2
      rw [hresume] at hrest
      have hforward : c.current.span.start ≤ s.next.prevStop := by
        rw [← Cursor.span_dropLeading]
        exact hd.start_le_prevStop hreached (htakes _ hne)
      have hspan : s.value.span = ⟨c.current.span.start, s.next.prevStop⟩ := by
        rw [hplaced _ hd hclean.1, Cursor.span_dropLeading, Cursor.spanFrom, Nat.max_eq_left hforward]
      rw [hvalue, hnext, hresume]
      exact hrest.cons hc hforward hspan ⟨c.dropLeading, hd, c.leading_dropLeading, hne, hclean.1, rfl⟩

end Lists

/-- What the bodies of a statement are read by. -/
def bodyReader : Nat → Option (Parse (List Stmt))
  | 0 => none
  | levels + 1 => some (parseList (parse levels) true)

theorem parse_eq (levels : Nat) : parse levels = parseWith (bodyReader levels) := by
  cases levels <;> rfl

section Levels

variable (hlex : Clean (TokenStream.ofText text).reports)
include hlex

theorem leads_parse (levels : Nat) {c : Cursor} (hc : c.Reached text) :
    Leads c (parse levels) (Placed text (bodyReader levels) c.current.span) := by
  rw [parse_eq]
  induction levels generalizing c with
  | zero => exact leads_parseWith hlex (fun _ hbody => (by cases hbody)) hc
  | succ levels ih =>
      refine leads_parseWith hlex (fun body hbody c hc hclean => ?_) hc
      obtain rfl := Option.some.inj hbody
      have hlisted := leads_parseList hlex (replays_parse (Nat.le_refl levels)) (fun c hc => takes_parse hc levels)
        (fun c hc hclean => ?_) true hc hclean
      · exact ⟨hlisted.next, hlisted.forward⟩
      · rw [parse_eq] at hclean ⊢
        exact (ih hc hclean).1

theorem leads_parseList_parse (levels : Nat) (braced : Bool) {c : Cursor} (hc : c.Reached text) :
    Leads c (parseList (parse levels) braced) (Listed text (parse levels) c) :=
  leads_parseList hlex (replays_parse (Nat.le_refl levels)) (fun _ hc => takes_parse hc levels)
    (fun _ hc hclean => (leads_parse hlex levels hc hclean).1) braced hc

/-- What holds of the comments of a text and of all that is read from it holds at every depth. -/
theorem forall_allOfList {P : Stmt → Prop} (hcomment : ∀ k ∈ (TokenStream.ofText text).comments, P (ofComment k))
    (hread : ∀ levels ≤ maxNesting, ∀ c : Cursor, c.Reached text → c.current.leading = [] → c.tokens ≠ [] →
      Clean (parse levels c).reports → P (parse levels c).value)
    {levels : Nat} (hlevels : levels ≤ maxNesting) {braced : Bool} {c : Cursor} (hc : c.Reached text)
    (hclean : Clean (parseList (parse levels) braced c).reports) :
    ∀ s ∈ allOfList (parseList (parse levels) braced c).value, P s := by
  induction levels using Nat.strongRecOn generalizing braced c with
  | ind levels ih =>
      intro s hs
      obtain ⟨t, ht, hst⟩ := mem_allOfList.mp hs
      cases (leads_parseList_parse hlex levels braced hc hclean).sources t ht with
      | inl hcomments =>
          obtain ⟨k, hk, rfl⟩ := hcomments
          cases hst with
          | inl heq => exact heq ▸ hcomment k hk
          | inr hin => exact absurd hin List.not_mem_nil
      | inr hsource =>
          obtain ⟨c', hc', hleading, hne, hclean', rfl⟩ := hsource
          cases hst with
          | inl heq => exact heq ▸ hread levels hlevels c' hc' hleading hne hclean'
          | inr hin =>
              rw [inside_eq] at hin
              cases (leads_parse hlex levels hc' hclean').2.reads with
              | inl hnone =>
                  rw [hnone] at hin
                  exact absurd hin List.not_mem_nil
              | inr hsome =>
                  obtain ⟨body, d, hreader, hd, hcleanBody, hvalue, -, -⟩ := hsome
                  cases levels with
                  | zero => cases hreader
                  | succ levels =>
                      obtain rfl := Option.some.inj hreader
                      rw [hvalue] at hin
                      exact ih levels (Nat.lt_succ_self _) (Nat.le_of_succ_le hlevels) hd hcleanBody s hin

end Levels

end Stmt
end Surface
end Palimpsest
