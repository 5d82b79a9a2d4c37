import Palimpsest.Proofs.Token.Spelled
import Palimpsest.Proofs.Token.Stream

/-!
Texts that lex without an error. What forms no token is reported, so that each of their tokens is of a kind
that the grammar knows.
-/

namespace Palimpsest

/-- Nothing that is reported is an error. -/
def Clean (reports : List Diagnostic) : Prop := ∀ d ∈ reports, d.isError = false

instance (reports : List Diagnostic) : Decidable (Clean reports) :=
  inferInstanceAs (Decidable (∀ d ∈ reports, d.isError = false))

@[simp] theorem clean_nil : Clean [] := by simp [Clean]

@[simp] theorem clean_append (ds es : List Diagnostic) : Clean (ds ++ es) ↔ Clean ds ∧ Clean es := by
  simp [Clean, or_imp, forall_and]

@[simp] theorem clean_singleton (d : Diagnostic) : Clean [d] ↔ d.isError = false := by simp [Clean]

theorem kind_ne_of_mem_lexemes {b : Bool} {cs : List Char} {l : Lexeme} (h : l ∈ lexemes b cs) :
    l.kind ≠ .token .invalid := by
  intro hkind
  have hspells := spells_of_mem_lexemes h
  rw [hkind] at hspells
  exact hspells.1 rfl

/-- What forms no token is reported. -/
theorem Lexeme.isError_of_tokenKind? {l : Lexeme} (span : Span) (hl : l.kind ≠ .token .invalid)
    (hinvalid : l.tokenKind? = some .invalid) : ∃ d, l.report? span = some d ∧ d.isError = true := by
  cases hkind : l.kind with
  | blank | comment _ => simp [tokenKind?, hkind] at hinvalid
  | token k =>
      simp only [tokenKind?, hkind, Option.some.injEq] at hinvalid
      exact absurd (hkind.trans (congrArg LexemeKind.token hinvalid)) hl
  | faulty fault =>
      cases fault with
      | strayCharacter | openString | openForeign => exact ⟨_, by rw [report?, hkind], rfl⟩

theorem TokenStream.kind_ne_invalid {text : String} (hlex : Clean (ofText text).reports) {t : Token}
    (ht : t ∈ (ofText text).tokens) : t.kind ≠ .invalid := by
  intro hinvalid
  obtain ⟨p, hp, hmem, hkind, -, -⟩ := exists_lexeme ht
  obtain ⟨d, hreport, herror⟩ := Lexeme.isError_of_tokenKind? p.2 (kind_ne_of_mem_lexemes hmem)
    (hinvalid ▸ hkind)
  have hclean := hlex d (List.mem_filterMap.mpr ⟨p, hp, hreport⟩)
  exact absurd (hclean.symm.trans herror) (by decide)

end Palimpsest
