import Palimpsest.Proofs.Token.Covered

/-!
Tokens, comments and reports stand in the text that they come from: their spans part no character, and what
they cover is how they are spelled.
-/

namespace Palimpsest

/-- All places that a report points at. -/
def Diagnostic.spans (d : Diagnostic) : List Span := d.primary :: d.labels.map Label.span

theorem Diagnostic.spans_error (code : Code) (message : String) (span : Span) :
    (Diagnostic.error code message span).spans = [span] := rfl

/-- A token is a part of the text, and one in quotes or braces has something of one byte at either end. -/
structure Token.InText (text : String) (t : Token) : Prop where
  cuts : t.span.Cuts text.toList t.text.toList
  quoted : t.kind = .stringLiteral ∨ t.kind = .foreignCode →
    ∃ a body b, t.text.toList = [a] ++ body ++ [b] ∧ a.utf8Size = 1 ∧ b.utf8Size = 1

namespace TokenStream

variable {text : String}

theorem inText {t : Token} (ht : t ∈ (ofText text).tokens) : t.InText text := by
  obtain ⟨p, hp, hmem, hkind, htext, hspan⟩ := exists_lexeme ht
  constructor
  · rw [← hspan, ← htext, Lexeme.text, String.toList_ofList]
    exact cuts_of_placed text hp
  · intro hquoted
    have hspells := spells_of_mem_lexemes hmem
    rw [← htext, Lexeme.text, String.toList_ofList]
    cases hlexeme : p.1.kind with
    | blank | comment _ => simp [Lexeme.tokenKind?, hlexeme] at hkind
    | faulty _ =>
        simp only [Lexeme.tokenKind?, hlexeme, Option.some.injEq] at hkind
        rw [← hkind] at hquoted
        exact absurd hquoted (by decide)
    | token k =>
        simp only [Lexeme.tokenKind?, hlexeme, Option.some.injEq] at hkind
        rw [hlexeme, hkind] at hspells
        cases hquoted with
        | inl hstring =>
            obtain ⟨body, hbody⟩ := hspells.2.2.1 hstring
            exact ⟨'"', body, '"', hbody, by decide, by decide⟩
        | inr hforeign =>
            obtain ⟨body, hbody⟩ := hspells.2.2.2 hforeign
            exact ⟨'\x7b', body, '\x7d', hbody, by decide, by decide⟩

theorem comment_mem_pieces {c : Comment} (hc : c ∈ (ofText text).comments) :
    Piece.comment c ∈ (ofText text).pieces := by
  rw [← filterMap_comment?_pieces] at hc
  obtain ⟨p, hp, hcomment⟩ := List.mem_filterMap.mp hc
  cases p with
  | comment k => exact Option.some.inj hcomment ▸ hp
  | token t => cases hcomment

theorem cuts_of_comment {c : Comment} (hc : c ∈ (ofText text).comments) : c.span.Cuts text.toList c.text.toList :=
  cuts_of_piece text (comment_mem_pieces hc)

/-- What lexing reports points into the text. -/
theorem fits_reports {d : Diagnostic} (hd : d ∈ (ofText text).reports) : ∀ s ∈ d.spans, s.Fits text := by
  obtain ⟨p, hp, hreport⟩ := List.mem_filterMap.mp hd
  have hcuts := cuts_of_placed text hp
  have hspells := spells_of_placed text p hp
  unfold Lexeme.report? at hreport
  split at hreport
  next =>
    cases hreport
    rw [Diagnostic.spans_error]
    exact List.forall_mem_singleton.mpr hcuts.fits
  next =>
    cases hreport
    rw [Diagnostic.spans_error]
    exact List.forall_mem_singleton.mpr hcuts.fits
  next =>
    cases hreport
    rw [Diagnostic.spans_error]
    exact List.forall_mem_singleton.mpr hcuts.fits
  next hkind =>
    cases hreport
    rw [hkind] at hspells
    obtain ⟨ds, hds⟩ := Lexeme.faultOf_eq_openForeign hspells
    rw [hds] at hcuts
    have hbrace : Span.Cuts ⟨p.2.start, p.2.start + 1⟩ text.toList ['\x7b'] := Span.Cuts.inner (a := []) hcuts
    intro s hs
    cases List.mem_cons.mp hs with
    | inl heq => exact heq ▸ Span.Fits.empty hcuts.fits.stop_boundary
    | inr hin => exact List.mem_singleton.mp hin ▸ hbrace.fits
  next => cases hreport

end TokenStream
end Palimpsest
