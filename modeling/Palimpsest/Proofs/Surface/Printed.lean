import Palimpsest.Proofs.Surface.Literals
import Palimpsest.Proofs.Text.Size

/-!
Values printed as literals and read again. What is printed is one literal whatever the value, but octal
escapes are none that a literal has: a value that needs one is not read back.
-/

namespace Palimpsest
namespace Lexeme

open Quoted

theorem stringBody_escape {e : Char} (he : e ≠ '\n') (cs : List Char) :
    stringBody ('\\' :: e :: cs) = ((stringBody cs).cons e).cons '\\' := by
  rw [stringBody]
  simpa using he

theorem stringBody_plain {c : Char} (hquote : c ≠ '"') (hfeed : c ≠ '\n') (hbackslash : c ≠ '\\') (cs : List Char) :
    stringBody (c :: cs) = (stringBody cs).cons c := by
  rw [stringBody] <;> simp_all

/-- A printed value ends where its closing quote stands. -/
theorem stringBody_quoted (cs : List Char) :
    stringBody (cs.flatMap quoteChar ++ ['"']) = ⟨cs.flatMap quoteChar ++ ['"'], [], true⟩ := by
  induction cs with
  | nil => rfl
  | cons c cs ih =>
      rw [List.flatMap_cons, List.append_assoc]
      apply quoteChar_cases (P := fun q => stringBody (q ++ (cs.flatMap quoteChar ++ ['"'])) =
        ⟨q ++ (cs.flatMap quoteChar ++ ['"']), [], true⟩) c
      case short =>
        intro e he _
        have hfeed : e ≠ '\n' := by
          rintro rfl
          cases he
        simp only [List.cons_append, List.nil_append, stringBody_escape hfeed, ih, Cut.cons]
      case octal =>
        intro d₁ h₁ d₂ h₂ d₃ h₃ _
        obtain ⟨-, hfeed₁, -⟩ := ne_of_mem_octalDigits h₁
        obtain ⟨hquote₂, hfeed₂, hbackslash₂, -⟩ := ne_of_mem_octalDigits h₂
        obtain ⟨hquote₃, hfeed₃, hbackslash₃, -⟩ := ne_of_mem_octalDigits h₃
        simp only [List.cons_append, List.nil_append, stringBody_escape hfeed₁,
          stringBody_plain hquote₂ hfeed₂ hbackslash₂, stringBody_plain hquote₃ hfeed₃ hbackslash₃, ih, Cut.cons]
      case plain =>
        intro hbackslash hquote hfeed _
        simp only [List.cons_append, List.nil_append, stringBody_plain hquote hfeed hbackslash, ih, Cut.cons]

end Lexeme

theorem lexemes_quote (s : String) :
    lexemes false (Quoted.quote s).toList = [⟨.token .stringLiteral, (Quoted.quote s).toList⟩] := by
  rw [Quoted.quote, String.toList_ofList, lexemes]
  have hnext (cs : List Char) : Lexeme.next false '"' cs = Lexeme.string '"' cs := by
    rfl
  simp only [hnext, Lexeme.string, Lexeme.take, Lexeme.stringBody_quoted, ite_true]
  rw [lexemes]

namespace TokenStream

/-- A text that is one token, from its start to its end. -/
def ofToken (kind : TokenKind) (text : String) : TokenStream :=
  let stop := text.utf8ByteSize
  { tokens := [⟨kind, ⟨0, stop⟩, text, []⟩]
    final := ⟨.endOfFile, ⟨stop, stop⟩, "", []⟩
    reports := [] }

theorem ofText_quote (s : String) : ofText (Quoted.quote s) = ofToken .stringLiteral (Quoted.quote s) := by
  rw [ofText, ofChars, lexemes_quote]
  simp only [Lexeme.placeFrom, Lexeme.tokens, Lexeme.tokenKind?, Lexeme.text, Lexeme.report?, Utf8.size_toList,
    String.ofList_toList, Nat.zero_add, List.filterMap_cons_none, List.filterMap_nil, ofToken]

end TokenStream

namespace Surface

open Quoted

theorem inner_quote (s : String) : Expr.inner (quote s) = s.toList.flatMap quoteChar := by
  rw [Expr.inner, quote, String.toList_ofList]
  simp

/-- What reads an octal escape takes the digits after the first for themselves. -/
theorem length_of_spells_quoted {cs value : List Char} (h : Spells (cs.flatMap quoteChar) value) :
    value.length = cs.length + 2 * cs.countP needsOctal := by
  induction cs generalizing value with
  | nil =>
      cases h
      rfl
  | cons c cs ih =>
      rw [List.flatMap_cons] at h
      generalize cs.flatMap quoteChar = body at ih h
      revert h
      apply quoteChar_cases (P := fun q => Spells (q ++ body) value →
        value.length = (c :: cs).length + 2 * (c :: cs).countP needsOctal) c
      case short =>
        intro e he hoctal h
        cases h with
        | plain hc _ => exact absurd rfl hc
        | escape _ h =>
            rw [List.length_cons, ih h, List.length_cons, List.countP_cons_of_neg (by simp [hoctal])]
            omega
        | hex => cases he
      case octal =>
        intro d₁ h₁ d₂ h₂ d₃ h₃ hoctal h
        cases h with
        | plain hc _ => exact absurd rfl hc
        | hex => exact absurd rfl (ne_of_mem_octalDigits h₁).2.2.2
        | escape _ h =>
            cases h with
            | escape | hex => exact absurd rfl (ne_of_mem_octalDigits h₂).2.2.1
            | plain _ h =>
                cases h with
                | escape | hex => exact absurd rfl (ne_of_mem_octalDigits h₃).2.2.1
                | plain _ h =>
                    simp only [List.length_cons, ih h, List.countP_cons_of_pos hoctal]
                    omega
      case plain =>
        intro hbackslash _ _ hoctal h
        cases h with
        | escape | hex => exact absurd rfl hbackslash
        | plain _ h =>
            rw [List.length_cons, ih h, List.length_cons, List.countP_cons_of_neg (by simp [hoctal])]
            omega

theorem spells_quoted {cs : List Char} (h : ∀ c ∈ cs, needsOctal c = false) : Spells (cs.flatMap quoteChar) cs := by
  induction cs with
  | nil => exact .nil
  | cons c cs ih =>
      have hrest := ih (fun d hd => h d (List.mem_cons_of_mem c hd))
      rw [List.flatMap_cons]
      apply quoteChar_cases (P := fun q => Spells (q ++ cs.flatMap quoteChar) (c :: cs)) c
      case short =>
        intro e he _
        exact .escape he hrest
      case octal =>
        intro _ _ _ _ _ _ hoctal
        rw [h c List.mem_cons_self] at hoctal
        cases hoctal
      case plain =>
        intro hbackslash _ _ _
        exact .plain hbackslash hrest

/-- A printed value is one literal that covers all there is, and it is read back as it was exactly if none of
its characters takes an octal escape. -/
theorem quote_readBack (s : String) :
    TokenStream.ofText (quote s) = TokenStream.ofToken .stringLiteral (quote s) ∧
      (unescape (String.ofList (Expr.inner (quote s))) = .ok s ↔ ∀ c ∈ s.toList, needsOctal c = false) := by
  refine ⟨TokenStream.ofText_quote s, ?_⟩
  rw [inner_quote, unescape_eq_ok]
  constructor
  · intro h c hc
    have hlength := length_of_spells_quoted h
    have hnone : s.toList.countP needsOctal = 0 := by omega
    simpa using List.countP_eq_zero.mp hnone c hc
  · exact spells_quoted

/-- Of an octal escape only the first digit is read as one. -/
theorem unescape_quote_control :
    quote "\x01" = "\"\\001\"" ∧
      unescape (String.ofList (Expr.inner (quote "\x01"))) = .ok "\x0001" ∧
      unescape (String.ofList (Expr.inner (quote "\x01"))) ≠ .ok "\x01" := by
  decide

end Surface
end Palimpsest
