import Palimpsest.Proofs.Surface.Places
import Palimpsest.Proofs.Token.Stream

/-!
What is written in a text, blanks left out. Texts in which the same is written have the same tokens and
comments, at other places, and are read as the same statements.
-/

namespace Palimpsest

/-- A comment or a token, by its exact text. -/
inductive Written where
  | comment (text : String)
  | token (kind : TokenKind) (text : String)
deriving DecidableEq

def Lexeme.written? (l : Lexeme) : Option Written :=
  match l.kind with
  | .blank => none
  | .comment _ => some (.comment l.text)
  | .token kind => some (.token kind l.text)
  | .faulty _ => some (.token .invalid l.text)

/-- The comments and the tokens of a text in order. -/
def written (text : String) : List Written := (lexemes false text.toList).filterMap Lexeme.written?

/-- The unplaced tokens of what is written. `pending` are the comments since the last token. -/
def Written.tokens (pending : List Comment) : List Written → List Token × Token
  | [] => ([], ⟨.endOfFile, default, "", pending⟩)
  | .comment text :: rest => tokens (pending ++ [⟨default, text⟩]) rest
  | .token kind text :: rest =>
    (⟨kind, default, text, pending⟩ :: (tokens [] rest).1, (tokens [] rest).2)

theorem Lexeme.unplaced_tokens (stop : Nat) (pending : List Comment) (placed : List (Lexeme × Span)) :
    ((tokens stop pending placed).1.map Token.unplaced, (tokens stop pending placed).2.unplaced) =
      Written.tokens (pending.map Comment.unplaced) ((placed.map Prod.fst).filterMap written?) := by
  -- A token takes the comments before it, so that the rest is read with none pending.
  have hcons (t : Token) (ts us : List Token × Token) (h : (ts.1.map Token.unplaced, ts.2.unplaced) = us) :
      ((t :: ts.1).map Token.unplaced, ts.2.unplaced) = (t.unplaced :: us.1, us.2) := h ▸ rfl
  induction placed generalizing pending with
  | nil => rfl
  | cons first rest ih =>
      obtain ⟨⟨kind, chars⟩, span⟩ := first
      cases kind with
      | blank => exact ih pending
      | comment closed =>
          have hrest := ih (pending ++ [⟨span, String.ofList chars⟩])
          rw [List.map_append] at hrest
          exact hrest
      | token kind => exact hcons ⟨kind, span, String.ofList chars, pending⟩ _ _ (ih [])
      | faulty fault => exact hcons ⟨.invalid, span, String.ofList chars, pending⟩ _ _ (ih [])

theorem TokenStream.unplaced_ofText {a b : String} (h : written a = written b) :
    (Surface.Cursor.ofStream (ofText a)).unplaced = (Surface.Cursor.ofStream (ofText b)).unplaced := by
  have hcursor (text : String) : (Surface.Cursor.ofStream (ofText text)).unplaced =
      ⟨(Written.tokens [] (written text)).1, (Written.tokens [] (written text)).2, 0⟩ := by
    have htokens := Lexeme.unplaced_tokens (Utf8.size text.toList) [] (Lexeme.placeFrom 0 (lexemes false text.toList))
    rw [Lexeme.map_fst_placeFrom] at htokens
    rw [written, ← List.map_nil, ← htokens]
    rfl
  rw [hcursor, hcursor, h]

namespace Surface

/-- Texts in which the same is written are read as the same statements. -/
theorem unplacedList_parseText {a b : String} (h : written a = written b) :
    unplacedList (parseText a).file.stmts = unplacedList (parseText b).file.stmts := by
  have hstmts (text : String) : unplacedList (parseText text).file.stmts = (Stmt.parseList (Stmt.parse maxNesting) false
      (Cursor.ofStream (TokenStream.ofText text)).unplaced).value := parseTokens_unplaced _
  rw [hstmts, hstmts, TokenStream.unplaced_ofText h]

end Surface
end Palimpsest
