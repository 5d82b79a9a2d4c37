import Palimpsest.Proofs.Surface.Grammar
import Palimpsest.Proofs.Token.Clean

/-!
What a parsing step does to the terminals before it. `Yields` is closed under sequencing, and one rule for
each elementary step turns a parser into what it takes from the terminals. The same rules serve both ways of
reading it: of every run, and of the runs that report no error.
-/

namespace Palimpsest

open Terminal (word)

theorem Token.terminal_of_isSpelled {t : Token} (h : t.kind.isSpelled = true) : t.terminal = ⟨t.kind, t.text⟩ := by
  rw [terminal, if_pos h]

theorem Token.terminal_of_word {t : Token} (h : t.kind.isSpelled = false) : t.terminal = word t.kind := by
  rw [terminal, if_neg (ne_true_of_eq_false h), word]

namespace Surface

theorem eq_first_cons {w : List Terminal} (h : (first w).kind ≠ .endOfFile) : w = first w :: w.tail := by
  cases w with
  | nil => exact absurd rfl h
  | cons x w => rfl

/-- The first terminal is that of a token which is spelled out. -/
theorem eq_spelled_cons {t : Token} {w : List Terminal} {k : TokenKind} (ht : t.terminal = first w)
    (hk : t.kind = k) (hspelled : k.isSpelled = true) : w = ⟨k, t.text⟩ :: w.tail := by
  subst hk
  have hfirst : first w = ⟨t.kind, t.text⟩ := ht.symm.trans (Token.terminal_of_isSpelled hspelled)
  have hend : (first w).kind ≠ .endOfFile := by
    rw [hfirst]
    exact fun h : t.kind = .endOfFile => by simp [h, TokenKind.isSpelled] at hspelled
  rw [← hfirst]
  exact eq_first_cons hend

/-- The cursor stands before these terminals. None of them is a fault of lexing, and literals have values. -/
structure Cursor.Before (c : Cursor) (w : List Terminal) : Prop where
  final : c.final.kind = .endOfFile
  tokens : c.tokens.map Token.terminal = w
  valid : ∀ x ∈ w, x.kind ≠ .invalid
  valued : ∀ x ∈ w, Valued x

namespace Cursor.Before

variable {c : Cursor} {w : List Terminal}

theorem length (h : c.Before w) : c.tokens.length = w.length := by
  rw [← h.tokens, List.length_map]

theorem terminal_current (h : c.Before w) : c.current.terminal = first w := by
  cases htokens : c.tokens with
  | nil =>
      have hword : c.final.kind.isSpelled = false := by rw [h.final]; rfl
      rw [← h.tokens, current, htokens]
      exact (Token.terminal_of_word hword).trans (congrArg word h.final)
  | cons t ts =>
      rw [← h.tokens, current, htokens]
      rfl

theorem kind (h : c.Before w) : c.kind = (first w).kind := congrArg Terminal.kind h.terminal_current

theorem followingKind (h : c.Before w) : c.followingKind = (first w.tail).kind := by
  cases htokens : c.tokens with
  | nil => rw [← h.tokens, Cursor.followingKind, htokens]; rfl
  | cons t ts =>
      rw [← h.tokens, Cursor.followingKind, htokens]
      cases ts <;> rfl

theorem advance (h : c.Before w) : c.advance.Before w.tail where
  final := by
    cases htokens : c.tokens with
    | nil | cons t ts => simpa [Cursor.advance, htokens] using h.final
  tokens := by
    rw [← h.tokens]
    cases htokens : c.tokens with
    | nil | cons t ts => simp [Cursor.advance, htokens]
  valid x hx := h.valid x (List.mem_of_mem_tail hx)
  valued x hx := h.valued x (List.mem_of_mem_tail hx)

theorem dropLeading (h : c.Before w) : c.dropLeading.Before w where
  final := by
    cases htokens : c.tokens with
    | nil | cons t ts => simpa [Cursor.dropLeading, htokens] using h.final
  tokens := by
    rw [← h.tokens]
    cases htokens : c.tokens with
    | nil => simp [Cursor.dropLeading, htokens]
    | cons t ts => simp only [Cursor.dropLeading, htokens, List.map_cons]; rfl
  valid := h.valid
  valued := h.valued

/-- A word that stands first is all of its terminal. -/
theorem eq_word_cons {k : TokenKind} (h : c.Before w) (hk : (first w).kind = k) (hword : k.isWord = true) :
    w = word k :: w.tail := by
  subst hk
  obtain ⟨hspelled, hend⟩ : (first w).kind.isSpelled = false ∧ (first w).kind ≠ .endOfFile := by
    simpa [TokenKind.isWord] using hword
  have hfirst := h.terminal_current
  rw [Token.terminal_of_word ((congrArg TokenKind.isSpelled h.kind).trans hspelled)] at hfirst
  have hkind : word (first w).kind = first w := (congrArg word h.kind).symm.trans hfirst
  rw [hkind]
  exact eq_first_cons hend

theorem ne_invalid (h : c.Before w) : (first w).kind ≠ .invalid := by
  cases w with
  | nil => simp [first, word]
  | cons x w => exact h.valid x List.mem_cons_self

end Cursor.Before

namespace Parse

variable {α β : Type} {sure : Prop} {w : List Terminal}

/-- Before the terminals `w`, `x` reports no error and leads to a value and to terminals as `post` has them.
Unless that is `sure`, it is said of the runs only that report no error. -/
def Yields (sure : Prop) (x : Parse α) (w : List Terminal) (post : α → List Terminal → Prop) : Prop :=
  ∀ c : Cursor, c.Before w → (sure ∨ Clean (x c).reports) →
    Clean (x c).reports ∧ ∃ w', (x c).next.Before w' ∧ post (x c).value w'

namespace Yields

variable {post : β → List Terminal → Prop}

theorem bind {x : Parse α} {f : α → Parse β} (hx : Yields sure x w fun a w' => Yields sure (f a) w' post) :
    Yields sure (x >>= f) w post := by
  intro c hc hsure
  change _ ∨ Clean ((x c).reports ++ (f (x c).value (x c).next).reports) at hsure
  rw [clean_append] at hsure
  obtain ⟨hclean, w', hnext, hf⟩ := hx c hc (hsure.imp_right And.left)
  obtain ⟨hclean', w'', hnext', hpost⟩ := hf _ hnext (hsure.imp_right And.right)
  exact ⟨(clean_append _ _).mpr ⟨hclean, hclean'⟩, w'', hnext', hpost⟩

theorem imp {x : Parse β} {pre : β → List Terminal → Prop} (hx : Yields sure x w pre)
    (h : ∀ b w', pre b w' → post b w') : Yields sure x w post := by
  intro c hc hsure
  obtain ⟨hclean, w', hnext, hpre⟩ := hx c hc hsure
  exact ⟨hclean, w', hnext, h _ w' hpre⟩

/-- Sequencing after a step whose outcome is known. -/
theorem andThen {x : Parse α} {f : α → Parse β} {pre : α → List Terminal → Prop} (hx : Yields sure x w pre)
    (hf : ∀ a w', pre a w' → Yields sure (f a) w' post) : Yields sure (x >>= f) w post := bind (hx.imp hf)

/-- The terminals are those of some cursor. -/
theorem ofBefore {x : Parse β} (h : ∀ c : Cursor, c.Before w → Yields sure x w post) : Yields sure x w post :=
  fun c hc => h c hc c hc

theorem pure {b : β} (h : post b w) : Yields sure (Pure.pure b) w post := fun _ hc _ => ⟨clean_nil, w, hc, h⟩

theorem map {g : α → β} {x : Parse α} (hx : Yields sure x w fun a => post (g a)) : Yields sure (g <$> x) w post :=
  andThen hx fun _ _ h => pure h

theorem kind {f : TokenKind → Parse β} (h : Yields sure (f (first w).kind) w post) :
    Yields sure (Parse.kind >>= f) w post :=
  bind fun _ hc _ => ⟨clean_nil, w, hc, (congrArg (fun k => Yields sure (f k) w post) hc.kind).mpr h⟩

theorem token {f : Token → Parse β} (h : ∀ t : Token, t.terminal = first w → Yields sure (f t) w post) :
    Yields sure (Parse.token >>= f) w post :=
  bind fun c hc _ => ⟨clean_nil, w, hc, h c.current hc.terminal_current⟩

theorem cursor {f : Cursor → Parse β} (h : ∀ c : Cursor, c.Before w → Yields sure (f c) w post) :
    Yields sure (Parse.cursor >>= f) w post :=
  bind fun c hc _ => ⟨clean_nil, w, hc, h c hc⟩

theorem spanFrom {start : Span} {f : Span → Parse β} (h : ∀ span : Span, Yields sure (f span) w post) :
    Yields sure (Parse.spanFrom start >>= f) w post :=
  bind fun _ hc _ => ⟨clean_nil, w, hc, h _⟩

theorem advance {f : Unit → Parse β} (h : Yields sure (f ()) w.tail post) :
    Yields sure (Parse.advance >>= f) w post :=
  bind fun _ hc _ => ⟨clean_nil, w.tail, hc.advance, h⟩

/-- Past a word. -/
theorem word {k : TokenKind} {f : Unit → Parse β} (hk : (first w).kind = k) (hword : k.isWord = true)
    (h : ∀ u, w = Terminal.word k :: u → Yields sure (f ()) u post) : Yields sure (Parse.advance >>= f) w post :=
  ofBefore fun _ hc => advance (h w.tail (hc.eq_word_cons hk hword))

/-- No run that reports an error is without one. -/
theorem ofReport {d : Diagnostic} {post : Unit → List Terminal → Prop} (hsure : ¬ sure) (hd : d.isError = true) :
    Yields sure (report d) w post := by
  intro c _ hclean
  have hnone : d.isError = false := by simpa [report, hsure] using hclean
  exact absurd (hd.symm.trans hnone) (by decide)

theorem ofExpected (what : String) {post : Unit → List Terminal → Prop} (hsure : ¬ sure) :
    Yields sure (expected what) w post := token fun _ _ => ofReport hsure rfl

theorem eat {k : TokenKind} {f : Bool → Parse β} (hword : k.isWord = true)
    (htaken : ∀ u, w = Terminal.word k :: u → Yields sure (f true) u post)
    (hleft : (first w).kind ≠ k → Yields sure (f false) w post) : Yields sure (Parse.eat k >>= f) w post := by
  refine bind (kind ?_)
  split
  · next hk => exact word hk hword fun u hu => pure (htaken u hu)
  · next hk => exact pure (hleft hk)

theorem expect {k : TokenKind} {f : Bool → Parse β} (hword : k.isWord = true) (hsure : sure → (first w).kind = k)
    (h : ∀ u, w = Terminal.word k :: u → Yields sure (f true) u post) : Yields sure (Parse.expect k >>= f) w post := by
  refine bind (eat hword (fun u hu => ?_) fun hk => ?_)
  · exact pure (h u hu)
  · exact bind (ofExpected _ fun hs => hk (hsure hs))

theorem name {f : String → Parse β} (hsure : sure → (first w).kind = .identifier)
    (h : ∀ n u, w = ⟨.identifier, n⟩ :: u → Yields sure (f n) u post) : Yields sure (Parse.name >>= f) w post := by
  refine bind (token fun t ht => ?_)
  have hkind : t.kind = (first w).kind := congrArg Terminal.kind ht
  split
  · next hk => exact advance (pure (h t.text w.tail (eq_spelled_cons ht hk rfl)))
  · next hk => exact bind (ofExpected _ fun hs => hk (hkind.trans (hsure hs)))

theorem semicolon {f : Unit → Parse β} (hsure : sure → (first w).kind = .semicolon)
    (h : ∀ u, w = Terminal.word .semicolon :: u → Yields sure (f ()) u post) :
    Yields sure (Parse.semicolon >>= f) w post := by
  refine bind (kind ?_)
  split
  · next hk => exact fun _ hc _ => ⟨clean_nil, w.tail, hc.advance, h w.tail (hc.eq_word_cons hk rfl)⟩
  · next hk => exact bind (ofExpected _ fun hs => hk (hsure hs))

end Yields
end Parse

section Loops

open Parse

variable {sure : Prop} {w : List Terminal}

/-- One formal, and if a comma follows those after it. -/
theorem Formal.yields_parseMany {post : List Formal → List Terminal → Prop}
    (h : Yields sure parse w fun formal w' =>
      (∀ u, w' = word .comma :: u → Yields sure parseMany u fun formals => post (formal :: formals)) ∧
        ((first w').kind ≠ .comma → post [formal] w')) :
    Yields sure parseMany w post := by
  intro c hc hsure
  by_cases hcomma : (parse c).next.kind = .comma ∧ (parse c).next.tokens ≠ []
  · obtain ⟨hvalue, hreports, hnext⟩ := parseMany_of_comma hcomma
    rw [hreports, clean_append] at hsure
    obtain ⟨hfirst, w', hnext', hmore, -⟩ := h c hc (hsure.imp_right And.left)
    have hw' := hnext'.eq_word_cons (hnext'.kind ▸ hcomma.1) rfl
    obtain ⟨hrest, w'', hlast, hpost⟩ := hmore _ hw' _ hnext'.advance (hsure.imp_right And.right)
    rw [hvalue, hreports, hnext, clean_append]
    exact ⟨⟨hfirst, hrest⟩, w'', hlast, hpost⟩
  · obtain ⟨hvalue, hreports, hnext⟩ := parseMany_of_last hcomma
    rw [hreports] at hsure
    obtain ⟨hfirst, w', hnext', -, hpost⟩ := h c hc hsure
    have hother : (first w').kind ≠ .comma := by
      intro hk
      have hlength := hnext'.length
      rw [hnext'.eq_word_cons hk rfl] at hlength
      exact hcomma ⟨hnext'.kind.trans hk, List.ne_nil_of_length_pos (by rw [hlength]; exact Nat.succ_pos _)⟩
    rw [hvalue, hreports, hnext]
    exact ⟨hfirst, w', hnext', hpost hother⟩

/-- A list of statements ends here. -/
def EndsList (braced : Bool) (w : List Terminal) : Prop := w = [] ∨ braced = true ∧ (first w).kind = .rightBrace

theorem Stmt.atListEnd_iff {braced : Bool} {c : Cursor} (h : c.Before w) :
    atListEnd braced c = true ↔ EndsList braced w := by
  have hempty : c.tokens = [] ↔ w = [] := by rw [← h.tokens, List.map_eq_nil_iff]
  simp [atListEnd, EndsList, hempty, h.kind]

/-- At the end of a list comments only, and before it a statement and those after it. -/
theorem Stmt.yields_parseList {item : Parse Stmt} {braced : Bool} {post : List Stmt → List Terminal → Prop}
    (hend : EndsList braced w → ∀ comments : List Comment, post (comments.map ofComment) w)
    (hmore : ¬ EndsList braced w → Yields sure item w fun s w' => w'.length < w.length ∧
      Yields sure (parseList item braced) w' fun stmts w'' =>
        ∀ comments : List Comment, post (comments.map ofComment ++ s :: stmts) w'') :
    Yields sure (parseList item braced) w post := by
  intro c hc hsure
  by_cases hdone : atListEnd braced c.dropLeading = true
  · obtain ⟨hvalue, hreports, hnext⟩ := parseList_of_end item hdone
    rw [hvalue, hreports, hnext]
    exact ⟨clean_nil, w, hc.dropLeading, hend ((atListEnd_iff hc.dropLeading).mp hdone) _⟩
  · obtain ⟨hvalue, hreports, hnext⟩ := parseList_of_more item hdone
    rw [hreports, clean_append] at hsure
    have hitem := hmore (fun h => hdone ((atListEnd_iff hc.dropLeading).mpr h))
    obtain ⟨hfirst, w', hnext', hlength, hlist⟩ := hitem _ hc.dropLeading (hsure.imp_right And.left)
    rw [← hnext'.length, ← hc.dropLeading.length] at hlength
    -- The item took a terminal, so that the list goes on where it ended.
    have hresume : resume c.dropLeading (item c.dropLeading) = (item c.dropLeading).next := if_pos hlength
    rw [hresume] at hsure hvalue hreports hnext
    obtain ⟨hrest, w'', hlast, hpost⟩ := hlist _ hnext' (hsure.imp_right And.right)
    rw [hvalue, hreports, hnext, clean_append]
    exact ⟨⟨hfirst, hrest⟩, w'', hlast, hpost _⟩

end Loops
end Surface
end Palimpsest
