import Palimpsest.Proofs.Text.Cut
import Palimpsest.Proofs.Text.Encoded
import Palimpsest.Proofs.Token.Clean

/-!
Nothing of a text is lost in its tokens and comments, and nothing is made up. Together they are the lexemes
of the text without the blanks, at the places of these, and what is reported is read off them.
-/

namespace Palimpsest

namespace Utf8

def isAsciiWhitespace (b : UInt8) : Bool := b == 9 || b == 10 || b == 12 || b == 13 || b == 32

theorem isAsciiWhitespace_of_isBlank {c : Char} (h : Lexeme.isBlank c = true) :
    ∀ b ∈ String.utf8EncodeChar c, isAsciiWhitespace b = true := by
  have hall : (String.utf8EncodeChar c).all isAsciiWhitespace = true := by
    simp only [Lexeme.isBlank, Bool.or_eq_true, beq_iff_eq] at h
    rcases h with (((rfl | rfl) | rfl) | rfl) | rfl <;> rfl
  exact List.all_eq_true.mp hall

end Utf8

/-- A comment or a token, where it stands. -/
inductive Piece where
  | comment (c : Comment)
  | token (t : Token)
deriving DecidableEq

namespace Piece

def span : Piece → Span
  | comment c => c.span
  | token t => t.span

def text : Piece → String
  | comment c => c.text
  | token t => t.text

def comment? : Piece → Option Comment
  | comment c => some c
  | token _ => none

def token? : Piece → Option Token
  | comment _ => none
  | token t => some t

end Piece

/-- A token behind the comments before it. -/
def Token.pieces (t : Token) : List Piece := t.leading.map .comment ++ [.token t]

/-- The comments and the tokens of a text, the end of file left out. -/
def TokenStream.pieces (t : TokenStream) : List Piece :=
  t.tokens.flatMap Token.pieces ++ t.final.leading.map .comment

/-- What is reported about a block comment that the text ends in. -/
def Comment.fault (c : Comment) : Diagnostic := .error .unterminatedComment "unterminated block comment" c.span

/-- What is reported about characters that form no token. -/
def Token.fault (t : Token) : Diagnostic :=
  match Lexeme.faultOf t.text.toList with
  | .strayCharacter => .error .invalidCharacter ("unexpected character '" ++ t.text ++ "'") t.span
  | .openString => .error .unterminatedString "unterminated string literal" t.span
  | .openForeign =>
    (Diagnostic.error .unterminatedForeign "unterminated extern block" ⟨t.span.stop, t.span.stop⟩).withLabel
      ⟨t.span.start, t.span.start + 1⟩ "extern block opened here"

namespace TokenStream

theorem filterMap_token?_pieces (t : TokenStream) : t.pieces.filterMap Piece.token? = t.tokens := by
  have hcomments (cs : List Comment) : (cs.map Piece.comment).filterMap Piece.token? = [] := by
    rw [List.filterMap_map]
    exact List.filterMap_eq_nil_iff.mpr fun _ _ => rfl
  have htoken (u : Token) : u.pieces.filterMap Piece.token? = [u] := by
    rw [Token.pieces, List.filterMap_append, hcomments]
    rfl
  rw [pieces, List.filterMap_append, hcomments, List.append_nil]
  induction t.tokens with
  | nil => rfl
  | cons u us ih => rw [List.flatMap_cons, List.filterMap_append, htoken, ih, List.singleton_append]

theorem filterMap_comment?_pieces (t : TokenStream) : t.pieces.filterMap Piece.comment? = t.comments := by
  have hcomments (cs : List Comment) : (cs.map Piece.comment).filterMap Piece.comment? = cs := by
    rw [List.filterMap_map]
    exact List.filterMap_some
  have htoken (u : Token) : u.pieces.filterMap Piece.comment? = u.leading := by
    rw [Token.pieces, List.filterMap_append, hcomments]
    exact List.append_nil u.leading
  rw [pieces, List.filterMap_append, hcomments, comments, all, List.flatMap_append, List.flatMap_singleton]
  congr 1
  induction t.tokens with
  | nil => rfl
  | cons u us ih => rw [List.flatMap_cons, List.filterMap_append, htoken, ih, List.flatMap_cons]

end TokenStream

namespace Lexeme

/-- The pieces that the tokens of placed lexemes make up are the lexemes at their places, the blanks left out. -/
theorem map_place_pieces (stop : Nat) (pending : List Comment) (placed : List (Lexeme × Span)) :
    ((tokens stop pending placed).1.flatMap Token.pieces ++
        (tokens stop pending placed).2.leading.map Piece.comment).map (fun p => (p.text, p.span)) =
      pending.map (fun c => (c.text, c.span)) ++
        (placed.filter fun q => q.1.kind != .blank).map fun q => (q.1.text, q.2) := by
  have hcomments (cs : List Comment) :
      (cs.map Piece.comment).map (fun p => (p.text, p.span)) = cs.map fun c => (c.text, c.span) := by
    rw [List.map_map]
    rfl
  have htoken (t : Token) : t.pieces.map (fun p => (p.text, p.span)) =
      t.leading.map (fun c => (c.text, c.span)) ++ [(t.text, t.span)] := by
    rw [Token.pieces, List.map_append, hcomments]
    rfl
  induction placed generalizing pending with
  | nil =>
      rw [tokens]
      exact (hcomments pending).trans (List.append_nil _).symm
  | cons first rest ih =>
      obtain ⟨⟨kind, chars⟩, span⟩ := first
      cases kind with
      | blank => exact ih pending
      | comment closed =>
          rw [tokens]
          refine (ih _).trans ?_
          simp
      | token kind | faulty fault =>
          simp only [tokens, tokenKind?, List.flatMap_cons, List.append_assoc, List.map_append, htoken]
          rw [← List.map_append, ih]
          simp

/-- A placed lexeme is a part of the text. -/
theorem cuts_of_mem_placeFrom (before : List Char) {ls : List Lexeme} {p : Lexeme × Span}
    (h : p ∈ placeFrom (Utf8.size before) ls) : p.2.Cuts (before ++ ls.flatMap chars) p.1.chars := by
  induction ls generalizing before with
  | nil => cases h
  | cons l ls ih =>
      rw [List.flatMap_cons, ← List.append_assoc]
      cases List.mem_cons.mp h with
      | inl heq =>
          rw [heq]
          exact ⟨before, ls.flatMap chars, rfl, rfl⟩
      | inr hin =>
          apply ih
          rwa [Utf8.size_append]

theorem le_start_of_mem_placeFrom {pos : Nat} {ls : List Lexeme} {p : Lexeme × Span} (h : p ∈ placeFrom pos ls) :
    pos ≤ p.2.start ∧ p.1 ∈ ls ∧ p.2.stop = p.2.start + Utf8.size p.1.chars := by
  induction ls generalizing pos with
  | nil => cases h
  | cons l ls ih =>
      cases List.mem_cons.mp h with
      | inl heq =>
          rw [heq]
          exact ⟨Nat.le_refl _, List.mem_cons_self, rfl⟩
      | inr hin =>
          obtain ⟨hstart, hmem, hstop⟩ := ih hin
          exact ⟨Nat.le_trans (Nat.le_add_right _ _) hstart, List.mem_cons_of_mem l hmem, hstop⟩

theorem pairwise_placeFrom (pos : Nat) (ls : List Lexeme) :
    (placeFrom pos ls).Pairwise fun p q => p.2.stop ≤ q.2.start := by
  induction ls generalizing pos with
  | nil => exact List.Pairwise.nil
  | cons l ls ih =>
      apply List.Pairwise.cons
      · intro p hp
        exact (le_start_of_mem_placeFrom hp).1
      · exact ih _

/-- Each byte of the text is one of the bytes of a lexeme. -/
theorem exists_lexeme_of_byte (pos : Nat) {ls : List Lexeme} {i : Nat}
    (hi : i < Utf8.size (ls.flatMap chars)) :
    ∃ p ∈ placeFrom pos ls, p.2.start ≤ pos + i ∧ pos + i < p.2.stop ∧
      ∀ b, ((ls.flatMap chars).flatMap String.utf8EncodeChar)[i]? = some b →
        b ∈ p.1.chars.flatMap String.utf8EncodeChar := by
  induction ls generalizing pos i with
  | nil => cases hi
  | cons l ls ih =>
      rw [List.flatMap_cons, List.flatMap_append]
      by_cases hfirst : i < Utf8.size l.chars
      · refine ⟨(l, ⟨pos, pos + Utf8.size l.chars⟩), List.mem_cons_self, Nat.le_add_right _ _, ?_, ?_⟩
        · exact Nat.add_lt_add_left hfirst pos
        · intro b hb
          rw [List.getElem?_append_left (by rwa [Utf8.length_encoded])] at hb
          exact List.mem_of_getElem? hb
      · rw [List.flatMap_cons, Utf8.size_append] at hi
        have hle : Utf8.size l.chars ≤ i := Nat.le_of_not_lt hfirst
        obtain ⟨p, hp, hstart, hstop, hbyte⟩ :=
          ih (pos + Utf8.size l.chars) (i := i - Utf8.size l.chars) (by omega)
        refine ⟨p, List.mem_cons_of_mem _ hp, by omega, by omega, ?_⟩
        intro b hb
        rw [List.getElem?_append_right (by rwa [Utf8.length_encoded]), Utf8.length_encoded] at hb
        exact hbyte b hb

/-- A token of placed lexemes is invalid where a lexeme is faulty, and this is what is reported. -/
theorem faults_tokens (stop : Nat) (pending : List Comment) (placed : List (Lexeme × Span))
    (h : ∀ p ∈ placed, Spells p.1.chars p.1.kind) :
    (placed.filterMap fun p => p.1.report? p.2).filter (·.code != .unterminatedComment) =
      ((tokens stop pending placed).1.filter (·.kind == .invalid)).map Token.fault := by
  induction placed generalizing pending with
  | nil => rfl
  | cons first rest ih =>
      obtain ⟨⟨kind, chars⟩, span⟩ := first
      have hfirst := h _ List.mem_cons_self
      have hrest (u : List Comment) := ih u fun p hp => h p (List.mem_cons_of_mem _ hp)
      cases kind with
      | blank => exact hrest pending
      | comment closed =>
          cases closed with
          | true => exact hrest _
          | false => exact hrest _
      | token kind =>
          have hkind : (kind == TokenKind.invalid) = false := beq_eq_false_iff_ne.mpr hfirst.1
          simp only [tokens, tokenKind?, List.filter_cons, hkind, Bool.false_eq_true, ite_false]
          exact hrest []
      | faulty fault =>
          have hfault : faultOf chars = fault := hfirst
          simp only [tokens, tokenKind?, List.filterMap_cons, List.filter_cons, beq_self_eq_true, ite_true,
            List.map_cons, ← hrest [], Token.fault, text, String.toList_ofList, hfault]
          cases fault with
          | strayCharacter | openString | openForeign => rfl

/-- A comment of placed lexemes is left open where a lexeme is, and this is what is reported. -/
theorem faults_comments (stop : Nat) (pending : List Comment) (placed : List (Lexeme × Span))
    (h : ∀ p ∈ placed, Spells p.1.chars p.1.kind) :
    (((tokens stop pending placed).1 ++ [(tokens stop pending placed).2]).flatMap Token.leading |>.filter
        fun c => Comment.leftOpen c.text.toList).map Comment.fault =
      (pending.filter fun c => Comment.leftOpen c.text.toList).map Comment.fault ++
        (placed.filterMap fun p => p.1.report? p.2).filter (·.code == .unterminatedComment) := by
  induction placed generalizing pending with
  | nil => simp [tokens]
  | cons first rest ih =>
      obtain ⟨⟨kind, chars⟩, span⟩ := first
      have hfirst := h _ List.mem_cons_self
      have hrest (u : List Comment) := ih u fun p hp => h p (List.mem_cons_of_mem _ hp)
      cases kind with
      | blank => exact hrest pending
      | comment closed =>
          have hopen : Comment.leftOpen chars = !closed := hfirst
          refine (hrest _).trans ?_
          cases closed <;> simp [text, report?, hopen, Comment.fault, Diagnostic.error]
      | token kind =>
          simp only [tokens, tokenKind?, List.cons_append, List.flatMap_cons, List.filter_append, List.map_append]
          exact congrArg _ (hrest [])
      | faulty fault =>
          simp only [tokens, tokenKind?, List.cons_append, List.flatMap_cons, List.filter_append, List.map_append]
          refine congrArg _ ((hrest []).trans ?_)
          cases fault with
          | strayCharacter | openString | openForeign => rfl

theorem rest_blockComment {outer : Nat} {cs : List Char} (h : (blockComment outer cs).closed = false) :
    (blockComment outer cs).rest = [] := by
  fun_induction blockComment outer cs with
  | case1 => rfl
  | case3 => cases h
  | case2 _ _ ih | case4 _ _ ih | case5 _ _ _ _ _ _ ih => exact ih h

/-- A comment that does not end takes the rest of the text. -/
theorem rest_next_of_open (b : Bool) (c : Char) (cs : List Char) :
    (next b c cs).1.kind = .comment false → (next b c cs).2 = [] := by
  apply next_cases (P := fun r => r.1.kind = .comment false → r.2 = []) b c cs
  case block =>
    intro ds _ _ h
    exact rest_blockComment (LexemeKind.comment.inj h)
  case number =>
    intro _ h
    cases (kind_number c cs).symm.trans h
  case foreign =>
    intro _ _ h
    simp only [foreign, take] at h
    split at h <;> cases h
  case string =>
    intro _ h
    simp only [string, take] at h
    split at h <;> cases h
  case symbol =>
    intro _ h
    unfold symbol at h
    split at h <;> cases h
  case line =>
    intro _ _ _ h
    cases h
  case blank | word =>
    intro _ h
    cases h

theorem length_open_reports (pos : Nat) (b : Bool) (cs : List Char) :
    (((placeFrom pos (lexemes b cs)).filterMap fun p => p.1.report? p.2).filter
      (·.code == .unterminatedComment)).length ≤ 1 := by
  fun_induction lexemes b cs generalizing pos with
  | case1 => exact Nat.zero_le _
  | case2 b c cs l ih =>
      rw [placeFrom, List.filterMap_cons]
      cases hkind : l.1.kind with
      | blank | token _ =>
          simp only [report?, hkind]
          exact ih _
      | comment closed =>
          cases closed with
          | true =>
              simp only [report?, hkind]
              exact ih _
          | false =>
              rw [rest_next_of_open b c cs hkind]
              simp only [report?, hkind, lexemes, placeFrom, List.filterMap_nil]
              exact Nat.le_refl 1
      | faulty fault =>
          cases fault with
          | strayCharacter | openString | openForeign =>
              simp only [report?, hkind]
              exact ih _

end Lexeme

/-- The tokens, comments and reports of a text account for all of it. -/
structure TokenStream.Accounts (t : TokenStream) (text : String) : Prop where
  /-- The pieces are the tokens and the comments, each in the order of the list. -/
  tokens : t.pieces.filterMap Piece.token? = t.tokens
  comments : t.pieces.filterMap Piece.comment? = t.comments
  nonempty : ∀ p ∈ t.pieces, p.span.start < p.span.stop
  increasing : t.pieces.Pairwise fun p q => p.span.stop ≤ q.span.start
  spelled : ∀ p ∈ t.pieces, (SourceText.ofString text).snippet? p.span = some p.text
  /-- What no piece covers is blank. -/
  between : ∀ (i : Nat) (b : UInt8), (Utf8.bytes text)[i]? = some b →
    (∀ p ∈ t.pieces, ¬ (p.span.start ≤ i ∧ i < p.span.stop)) → Utf8.isAsciiWhitespace b = true
  final : ∃ leading, t.final = ⟨.endOfFile, ⟨text.utf8ByteSize, text.utf8ByteSize⟩, "", leading⟩
  kinds : ∀ u ∈ t.tokens, u.kind ≠ .endOfFile
  /-- Each invalid token has one report of its own. -/
  faults : t.reports.filter (·.code != .unterminatedComment) =
    (t.tokens.filter (·.kind == .invalid)).map Token.fault
  /-- So has a block comment that is left open. -/
  open_comments : t.reports.filter (·.code == .unterminatedComment) =
    (t.comments.filter fun c => Comment.leftOpen c.text.toList).map Comment.fault
  length_reports : t.reports.length = t.tokens.countP (·.kind == .invalid) +
    if ∃ c ∈ t.comments, Comment.leftOpen c.text.toList = true then 1 else 0

namespace TokenStream

variable (text : String)

/-- The pieces of a text are its lexemes that are not blank. -/
theorem map_place_pieces_ofText : (ofText text).pieces.map (fun p => (p.text, p.span)) =
    ((Lexeme.placeFrom 0 (lexemes false text.toList)).filter fun q => q.1.kind != .blank).map
      fun q => (q.1.text, q.2) :=
  Lexeme.map_place_pieces _ [] _

theorem spells_of_placed : ∀ q ∈ Lexeme.placeFrom 0 (lexemes false text.toList), Lexeme.Spells q.1.chars q.1.kind :=
  fun _ hq => spells_of_mem_lexemes (Lexeme.le_start_of_mem_placeFrom hq).2.1

theorem exists_lexeme_of_piece {p : Piece} (hp : p ∈ (ofText text).pieces) :
    ∃ q ∈ Lexeme.placeFrom 0 (lexemes false text.toList), q.1.text = p.text ∧ q.2 = p.span := by
  have hplace := List.mem_map_of_mem (f := fun p : Piece => (p.text, p.span)) hp
  rw [map_place_pieces_ofText] at hplace
  obtain ⟨q, hq, heq⟩ := List.mem_map.mp hplace
  obtain ⟨htext, hspan⟩ := Prod.mk.inj heq
  exact ⟨q, (List.mem_filter.mp hq).1, htext, hspan⟩

theorem exists_piece_of_lexeme {q : Lexeme × Span} (hq : q ∈ Lexeme.placeFrom 0 (lexemes false text.toList))
    (hkind : q.1.kind ≠ .blank) : ∃ p ∈ (ofText text).pieces, p.span = q.2 := by
  have hfilter : q ∈ (Lexeme.placeFrom 0 (lexemes false text.toList)).filter fun q => q.1.kind != .blank :=
    List.mem_filter.mpr ⟨hq, bne_iff_ne.mpr hkind⟩
  have hplace := List.mem_map_of_mem (f := fun q : Lexeme × Span => (q.1.text, q.2)) hfilter
  rw [← map_place_pieces_ofText] at hplace
  obtain ⟨p, hp, heq⟩ := List.mem_map.mp hplace
  exact ⟨p, hp, (Prod.mk.inj heq).2⟩

theorem cuts_of_placed {q : Lexeme × Span} (hq : q ∈ Lexeme.placeFrom 0 (lexemes false text.toList)) :
    q.2.Cuts text.toList q.1.chars := by
  have hcuts := Lexeme.cuts_of_mem_placeFrom [] hq
  rwa [List.nil_append, flatMap_chars_lexemes] at hcuts

/-- A piece is a part of the text. -/
theorem cuts_of_piece {p : Piece} (hp : p ∈ (ofText text).pieces) : p.span.Cuts text.toList p.text.toList := by
  obtain ⟨q, hq, htext, hspan⟩ := exists_lexeme_of_piece text hp
  rw [← hspan, ← htext, Lexeme.text, String.toList_ofList]
  exact cuts_of_placed text hq

theorem increasing_pieces : (ofText text).pieces.Pairwise fun p q => p.span.stop ≤ q.span.start := by
  rw [← List.pairwise_map (f := fun p : Piece => (p.text, p.span)) (R := fun a b => a.2.stop ≤ b.2.start),
    map_place_pieces_ofText, List.pairwise_map]
  exact (Lexeme.pairwise_placeFrom _ _).filter _

theorem nonempty_of_piece {p : Piece} (hp : p ∈ (ofText text).pieces) : p.span.start < p.span.stop := by
  obtain ⟨q, hq, -, hspan⟩ := exists_lexeme_of_piece text hp
  obtain ⟨-, hmem, hstop⟩ := Lexeme.le_start_of_mem_placeFrom hq
  have hpos := Utf8.size_pos (chars_ne_nil_of_mem_lexemes hmem)
  rw [← hspan]
  omega

theorem isAsciiWhitespace_of_uncovered {i : Nat} {b : UInt8} (hb : (Utf8.bytes text)[i]? = some b)
    (h : ∀ p ∈ (ofText text).pieces, ¬ (p.span.start ≤ i ∧ i < p.span.stop)) : Utf8.isAsciiWhitespace b = true := by
  have hchars := flatMap_chars_lexemes false text.toList
  have hi : i < Utf8.size ((lexemes false text.toList).flatMap Lexeme.chars) := by
    rw [hchars, Utf8.size_toList, ← Utf8.length_bytes]
    exact (List.getElem?_eq_some_iff.mp hb).1
  obtain ⟨q, hq, hstart, hstop, hbyte⟩ := Lexeme.exists_lexeme_of_byte 0 hi
  rw [Nat.zero_add] at hstart hstop
  have hmem : b ∈ q.1.chars.flatMap String.utf8EncodeChar := by
    apply hbyte
    rwa [hchars, ← Utf8.bytes_ofList, String.ofList_toList]
  have hblank : q.1.kind = .blank := by
    by_contra hkind
    obtain ⟨p, hp, hspan⟩ := exists_piece_of_lexeme text hq hkind
    rw [← hspan] at hstart hstop
    exact h p hp ⟨hstart, hstop⟩
  have hspells := spells_of_placed text q hq
  rw [hblank] at hspells
  obtain ⟨c, hc, hin⟩ := List.mem_flatMap.mp hmem
  exact Utf8.isAsciiWhitespace_of_isBlank (hspells c hc) b hin

theorem kind_ne_endOfFile {t : Token} (ht : t ∈ (ofText text).tokens) : t.kind ≠ .endOfFile := by
  intro hend
  obtain ⟨p, -, hmem, hkind, -, -⟩ := exists_lexeme ht
  have hspells := spells_of_mem_lexemes hmem
  rw [hend] at hkind
  cases hlexeme : p.1.kind with
  | blank | comment _ | faulty _ => simp [Lexeme.tokenKind?, hlexeme] at hkind
  | token k =>
      rw [hlexeme] at hspells
      simp only [Lexeme.tokenKind?, hlexeme, Option.some.injEq] at hkind
      exact hspells.2.1 hkind

theorem filter_reports_open : (ofText text).reports.filter (·.code == .unterminatedComment) =
    ((ofText text).comments.filter fun c => Comment.leftOpen c.text.toList).map Comment.fault :=
  (Lexeme.faults_comments _ [] _ (spells_of_placed text)).symm

theorem filter_reports_rest : (ofText text).reports.filter (·.code != .unterminatedComment) =
    ((ofText text).tokens.filter (·.kind == .invalid)).map Token.fault :=
  Lexeme.faults_tokens _ [] _ (spells_of_placed text)

/-- At most one comment is left open, as it takes the rest of the text. -/
theorem length_filter_open :
    ((ofText text).comments.filter fun c => Comment.leftOpen c.text.toList).length =
      if ∃ c ∈ (ofText text).comments, Comment.leftOpen c.text.toList = true then 1 else 0 := by
  have hle : ((ofText text).comments.filter fun c => Comment.leftOpen c.text.toList).length ≤ 1 := by
    have hreports := Lexeme.length_open_reports 0 false text.toList
    rwa [← List.length_map Comment.fault, ← filter_reports_open]
  split
  next hsome =>
    obtain ⟨c, hc, hopen⟩ := hsome
    exact Nat.le_antisymm hle (List.length_pos_of_mem (List.mem_filter.mpr ⟨hc, hopen⟩))
  next hnone =>
    rw [List.length_eq_zero_iff, List.filter_eq_nil_iff]
    intro c hc hopen
    exact hnone ⟨c, hc, hopen⟩

theorem length_reports_ofText : (ofText text).reports.length = (ofText text).tokens.countP (·.kind == .invalid) +
    if ∃ c ∈ (ofText text).comments, Comment.leftOpen c.text.toList = true then 1 else 0 := by
  have hopen := congrArg List.length (filter_reports_open text)
  have hrest := congrArg List.length (filter_reports_rest text)
  rw [List.length_map] at hopen hrest
  rw [List.countP_eq_length_filter, ← hrest, ← length_filter_open, ← hopen, Nat.add_comm]
  exact List.length_eq_length_filter_add _

/-- Cutting a text into tokens and comments loses nothing and makes nothing up. -/
theorem accounts_ofText : (ofText text).Accounts text where
  tokens := filterMap_token?_pieces _
  comments := filterMap_comment?_pieces _
  nonempty := fun _ hp => nonempty_of_piece text hp
  increasing := increasing_pieces text
  spelled := fun _ hp => (cuts_of_piece text hp).snippet?
  between := fun _ _ hb h => isAsciiWhitespace_of_uncovered text hb h
  final := final_ofText text
  kinds := fun _ ht => kind_ne_endOfFile text ht
  faults := filter_reports_rest text
  open_comments := filter_reports_open text
  length_reports := length_reports_ofText text

end TokenStream

end Palimpsest
