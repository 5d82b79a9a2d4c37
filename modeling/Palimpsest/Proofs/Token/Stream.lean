import Palimpsest.Token.Stream
import Palimpsest.Proofs.Text.Size

/-!
Texts of tokens. What a token is spelled like is cut out of the text, so that it is no longer.
-/

namespace Palimpsest

namespace Lexeme

theorem map_fst_placeFrom (pos : Nat) (ls : List Lexeme) : (placeFrom pos ls).map Prod.fst = ls := by
  induction ls generalizing pos with
  | nil => rfl
  | cons l ls ih => exact congrArg (l :: ·) (ih _)

/-- A token is one of the lexemes. -/
theorem exists_lexeme_of_token (stop : Nat) (pending : List Comment) (placed : List (Lexeme × Span)) :
    ∀ t ∈ (tokens stop pending placed).1,
      ∃ p ∈ placed, p.1.tokenKind? = some t.kind ∧ p.1.text = t.text ∧ p.2 = t.span := by
  induction placed generalizing pending with
  | nil => simp [tokens]
  | cons first rest ih =>
      obtain ⟨l, span⟩ := first
      have hlater (u : List Comment) : ∀ t ∈ (tokens stop u rest).1,
          ∃ p ∈ ((l, span) :: rest), p.1.tokenKind? = some t.kind ∧ p.1.text = t.text ∧ p.2 = t.span := by
        intro t ht
        obtain ⟨p, hp, hlexeme⟩ := ih u t ht
        exact ⟨p, List.mem_cons_of_mem _ hp, hlexeme⟩
      rw [tokens]
      cases hkind : l.tokenKind? with
      | some kind =>
          intro t ht
          cases List.mem_cons.mp ht with
          | inl heq => exact ⟨(l, span), List.mem_cons_self, heq ▸ ⟨hkind, rfl, rfl⟩⟩
          | inr hin => exact hlater [] t hin
      | none =>
          cases l.kind with
          | comment _ | blank | token _ | faulty _ => exact hlater _

/-- The end of file is a token of its own, behind all of the text. -/
theorem final_tokens (stop : Nat) (pending : List Comment) (placed : List (Lexeme × Span)) :
    ∃ leading, (tokens stop pending placed).2 = ⟨.endOfFile, ⟨stop, stop⟩, "", leading⟩ := by
  induction placed generalizing pending with
  | nil => exact ⟨pending, rfl⟩
  | cons first rest ih =>
      obtain ⟨⟨kind, chars⟩, span⟩ := first
      cases kind with
      | blank | comment _ | token _ | faulty _ => exact ih _

end Lexeme

theorem size_le_of_mem_lexemes {b : Bool} {cs : List Char} {l : Lexeme} (h : l ∈ lexemes b cs) :
    Utf8.size l.chars ≤ Utf8.size cs := by
  obtain ⟨before, after, hsplit⟩ := List.append_of_mem h
  have hchars := flatMap_chars_lexemes b cs
  rw [hsplit, List.flatMap_append, List.flatMap_cons] at hchars
  rw [← hchars, Utf8.size_append, Utf8.size_append]
  omega

namespace TokenStream

variable {text : String} {t : Token}

theorem exists_lexeme (ht : t ∈ (ofText text).tokens) :
    ∃ p ∈ Lexeme.placeFrom 0 (lexemes false text.toList),
      p.1 ∈ lexemes false text.toList ∧ p.1.tokenKind? = some t.kind ∧ p.1.text = t.text ∧ p.2 = t.span := by
  obtain ⟨p, hp, hlexeme⟩ := Lexeme.exists_lexeme_of_token _ [] _ t ht
  refine ⟨p, hp, ?_, hlexeme⟩
  rw [← Lexeme.map_fst_placeFrom 0 (lexemes false text.toList)]
  exact List.mem_map_of_mem hp

theorem final_ofText (text : String) :
    ∃ leading, (ofText text).final = ⟨.endOfFile, ⟨text.utf8ByteSize, text.utf8ByteSize⟩, "", leading⟩ := by
  rw [← Utf8.size_toList]
  exact Lexeme.final_tokens _ [] _

theorem size_text_le (h : t ∈ (ofText text).all) : t.text.utf8ByteSize ≤ text.utf8ByteSize := by
  cases List.mem_append.mp h with
  | inl hin =>
      obtain ⟨p, -, hmem, -, htext, -⟩ := exists_lexeme hin
      rw [← htext, Lexeme.text, Utf8.utf8ByteSize_ofList, ← Utf8.size_toList text]
      exact size_le_of_mem_lexemes hmem
  | inr hlast =>
      obtain ⟨leading, hfinal⟩ := final_ofText text
      rw [List.mem_singleton.mp hlast, hfinal]
      exact Nat.zero_le _

end TokenStream
end Palimpsest
