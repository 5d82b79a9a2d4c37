import Palimpsest.Proofs.Surface.Nested
import Palimpsest.Proofs.Token.Foreign

/-!
Foreign code is kept as it was written. Balanced code in braces becomes one token and one statement, and what stands
behind the braces is read as if it stood alone (`captures_foreign`).
-/

namespace Palimpsest
namespace Surface

open Parse

theorem Expr.inner_braced (code : String) : String.ofList (inner ("\x7b" ++ code ++ "\x7d")) = code := by
  simp [inner, String.toList_append]

namespace Foreign

variable (code rest : String)

/-- Some code in braces behind the word that opens it, and a text behind that. -/
def text : String := "extern \x7b" ++ code ++ "\x7d" ++ rest

/-- What lexing makes of the text behind the code. -/
def later : TokenStream := (TokenStream.ofText rest).shift (9 + code.utf8ByteSize)

/-- Where the statement ends: behind the code, and behind a semicolon that follows it. -/
def behind : Cursor := (eat .semicolon ⟨(later code rest).tokens, (later code rest).final, 9 + code.utf8ByteSize⟩).next

/-- The code is one token without a comment, and one statement, and nothing is reported about it. -/
structure Captured : Prop where
  lexed : TokenStream.ofText (text code rest) =
    ⟨.ofForeignWord :: .ofForeignCode code :: (later code rest).tokens, (later code rest).final,
      (later code rest).reports⟩
  comments : (TokenStream.ofText (text code rest)).comments =
    (TokenStream.ofText rest).comments.map (·.shift (9 + code.utf8ByteSize))
  stmts : (parseText (text code rest)).file.stmts = .foreign code ⟨0, (behind code rest).prevStop⟩ ::
    (Stmt.parseList (Stmt.parse maxNesting) false (behind code rest)).value
  reports : (parseText (text code rest)).reports =
    (later code rest).reports ++ (Stmt.parseList (Stmt.parse maxNesting) false (behind code rest)).reports

end Foreign

open Foreign

theorem Parse.reports_eat (k : TokenKind) (c : Cursor) : (eat k c).reports = [] := by
  change ((if c.kind = k then _ else _ : Parse Bool) c).reports = []
  split <;> rfl

theorem Stmt.parse_foreign (levels : Nat) (word code : Token) (hword : word.kind = .kwForeign)
    (hcode : code.kind = .foreignCode) (ts : List Token) (final : Token) (stop : Nat) :
    let next := (eat .semicolon ⟨ts, final, code.span.stop⟩).next
    let s := parse levels ⟨word :: code :: ts, final, stop⟩
    s.value = .foreign (String.ofList (Expr.inner code.text)) (next.spanFrom word.span) ∧ s.reports = [] ∧
      s.next = next := by
  have hk : Cursor.kind ⟨word :: code :: ts, final, stop⟩ = .kwForeign := hword
  dsimp only
  rw [parse_eq, parseWith_plain hk (by decide), parsePlain, bind_of_pure (kind_eq_pure hk)]
  obtain ⟨kind, span, body, leading⟩ := code
  cases hcode
  exact ⟨rfl, (List.append_nil _).trans (reports_eat .semicolon ⟨ts, final, span.stop⟩), rfl⟩

end Surface
end Palimpsest
