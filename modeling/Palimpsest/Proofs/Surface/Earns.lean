import Palimpsest.Proofs.Surface.Spans

/-!
What a step that reports no error takes. A step that needs a token either takes one or reports an error, at the end
of the text too, so that a statement read without an error is never empty.
-/

namespace Palimpsest
namespace Surface

theorem Cursor.advance_of_tokens {c : Cursor} (h : c.tokens = []) : c.advance = c := by
  rw [advance, h]

namespace Cursor.InText

variable {text : String} {c : Cursor}

theorem kind_of_tokens (h : c.InText text) (htokens : c.tokens = []) : c.kind = .endOfFile := by
  obtain ⟨leading, hfinal⟩ := TokenStream.final_ofText text
  have hkind := congrArg Token.kind h.final
  rw [hfinal] at hkind
  rw [Cursor.kind, Cursor.current, htokens]
  exact hkind

theorem tokens_ne_nil (h : c.InText text) (hk : c.kind ≠ .endOfFile) : c.tokens ≠ [] :=
  fun htokens => hk (h.kind_of_tokens htokens)

theorem kind_ne_invalid (h : c.InText text) (hlex : Clean (TokenStream.ofText text).reports) : c.kind ≠ .invalid := by
  cases htokens : c.tokens with
  | nil =>
      rw [h.kind_of_tokens htokens]
      decide
  | cons t ts =>
      have hmem : t.bare ∈ c.tokens.map Token.bare := by
        rw [htokens]
        exact List.mem_cons_self
      obtain ⟨u, hu, hbare⟩ := List.mem_map.mp (h.tokens.subset hmem)
      rw [Cursor.kind, Cursor.current, htokens]
      exact fun hinvalid => TokenStream.kind_ne_invalid hlex hu ((congrArg Token.kind hbare).trans hinvalid)

end Cursor.InText

namespace Parse

variable {α β : Type} {c : Cursor}

/-- The step reports an error, wherever it stands. -/
def Fails (x : Parse α) : Prop := ∀ c, ¬ Clean (x c).reports

theorem Fails.bind {x : Parse α} (hx : Fails x) (f : α → Parse β) : Fails (x >>= f) :=
  fun c hc => hx c ((clean_append _ _).mp hc).1

theorem Fails.after {f : α → Parse β} (hf : ∀ a, Fails (f a)) (x : Parse α) : Fails (x >>= f) :=
  fun _ hc => hf _ _ ((clean_append _ _).mp hc).2

theorem fails_report {d : Diagnostic} (h : d.isError = true) : Fails (report d) := by
  intro c hc
  have hnone := (clean_singleton d).mp hc
  exact absurd (h.symm.trans hnone) (by decide)

theorem fails_expected (what : String) : Fails (expected what) := Fails.after (fun _ => fails_report rfl) token

/-- Without an error the step takes a token here. -/
def Earns (c : Cursor) (x : Parse α) : Prop := Clean (x c).reports → Takes c x

theorem Earns.bind {x : Parse α} (hx : Earns c x) (f : α → Parse β) : Earns c (x >>= f) :=
  fun hc => (hx ((clean_append _ _).mp hc).1).bind f

theorem Earns.after {x : Parse α} {f : α → Parse β} (hx : (x c).next = c) (hf : Earns c (f (x c).value)) :
    Earns c (x >>= f) := by
  intro hc
  have hrest := ((clean_append _ _).mp hc).2
  rw [hx] at hrest
  exact .after hx (hf hrest)

theorem earns_kind {f : TokenKind → Parse β} {x : Parse β} (h : Earns c (f c.kind) ∨ f c.kind = x) :
    Earns c (kind >>= f) ∨ (kind >>= f) c = x c := by
  cases h with
  | inl hearns => exact .inl (.after rfl hearns)
  | inr hsame => exact .inr (congrFun hsame c)

theorem Fails.earns {x : Parse α} (hx : Fails x) (c : Cursor) : Earns c x := fun hc => absurd hc (hx c)

variable {text : String}

/-- A token of a kind that is no end of file is taken. -/
theorem earns_advance {k : TokenKind} (hc : c.InText text) (hk : c.kind = k) (hend : k ≠ .endOfFile) :
    Earns c advance := fun _ => takes_advance (hc.tokens_ne_nil (hk ▸ hend))

theorem eat_of_ne {k : TokenKind} (h : c.kind ≠ k) : (eat k c).next = c ∧ (eat k c).value = false := by
  change ((if c.kind = k then _ else _ : Parse Bool) c).next = c ∧ ((if c.kind = k then _ else _ : Parse Bool) c).value = false
  rw [if_neg h]
  exact ⟨rfl, rfl⟩

theorem earns_eat {k : TokenKind} (hend : k ≠ .endOfFile) (hc : c.InText text) (hk : c.kind = k) : Earns c (eat k) := by
  refine .after rfl ?_
  change Earns c (if c.kind = k then _ else _)
  rw [if_pos hk]
  exact (earns_advance hc hk hend).bind _

theorem earns_name (hc : c.InText text) : Earns c name := by
  refine .after rfl ?_
  split
  next hk => exact (earns_advance hc hk (by decide)).bind _
  next => exact ((fails_expected _).bind _).earns c

end Parse

open Parse

variable {text : String} {c : Cursor} {body? : Option (Parse (List Stmt))}

theorem Expr.earns_parse (hc : c.InText text) : Earns c parse := by
  refine .after rfl ?_
  split
  next hk => exact (earns_advance hc hk (by decide)).bind _
  next hk => exact (earns_advance hc hk (by decide)).bind _
  next hk => exact (earns_advance hc hk (by decide)).bind _
  next => exact ((fails_expected _).bind _).earns c

namespace Formal

/-- An intent takes a token, or there is none. -/
theorem earns_parseIntent (hc : c.InText text) : Earns c parseIntent ∨ parseIntent c = (Pure.pure .plain : Parse _) c := by
  apply earns_kind
  split
  iterate 7 next hk => exact .inl ((earns_advance hc hk (by decide)).bind _)
  exact .inr rfl

theorem earns_parse (hc : c.InText text) : Earns c parse := by
  refine .after rfl ?_
  cases earns_parseIntent hc with
  | inl hintent => exact hintent.bind _
  | inr hstays => exact .after (congrArg Step.next hstays) ((earns_name hc).bind _)

end Formal

namespace Stmt

/-- Nested too deep is always an error. -/
theorem fails_rejectNesting : Fails rejectNesting := .after (fun _ => (fails_report rfl).bind _) token

theorem earns_parseBraced (hc : c.InText text) (hk : c.kind = .leftBrace) : Earns c (parseBraced body?) := by
  refine fun _ => takes_parseBraced (hc.tokens_ne_nil ?_)
  rw [hk]
  decide

/-- A visibility takes a token, or there is none. -/
theorem earns_parseVisibility (hc : c.InText text) :
    Earns c parseVisibility ∨ parseVisibility c = (Pure.pure .plain : Parse _) c := by
  apply earns_kind
  split
  next hk => exact .inl ((earns_advance hc hk (by decide)).bind _)
  next hk => exact .inl ((earns_advance hc hk (by decide)).bind _)
  next => exact .inr rfl

theorem earns_parsePlain (hc : c.InText text) (start : Span) : Earns c (parsePlain body? start) := by
  by_cases hnil : c.tokens = []
  · have hend : c.kind = .endOfFile := hc.kind_of_tokens hnil
    refine .after rfl ?_
    rw [show (Parse.kind c).value = .endOfFile from hend]
    exact ((fails_expected _).bind _).earns c
  · exact fun _ => takes_parsePlain hnil start

/-- Behind the visibility a statement takes a token. -/
theorem earns_unmarked (hc : c.InText text) (visibility : Visibility) (start : Span) :
    Earns c (if c.kind = .kwModule then parseModule body? visibility start
      else if c.kind = .kwProc then parseProc body? visibility start
      else if startsVariable c.kind then parseVariable visibility start
      else if visibility ≠ .plain then do
        Parse.expected "'module', 'proc' or a variable declaration"
        Parse.skipStatement
        return .bad (← Parse.spanFrom start)
      else parsePlain body? start) := by
  split
  next hk => exact (earns_advance hc hk (by decide)).bind _
  split
  next hk => exact (earns_advance hc hk (by decide)).bind _
  split
  next hstarts =>
    refine fun _ => takes_then_advance (hc.tokens_ne_nil fun hend => ?_) _ _
    rw [hend] at hstarts
    cases hstarts
  split
  · exact ((fails_expected _).bind _).earns c
  · exact earns_parsePlain hc start

theorem earns_parseWith (hc : c.InText text) : Earns c (parseWith body?) := by
  refine .after rfl ?_
  cases earns_parseVisibility hc with
  | inl hvisibility => exact hvisibility.bind _
  | inr hstays => exact .after (congrArg Step.next hstays) (.after rfl (earns_unmarked hc _ _))

end Stmt
end Surface
end Palimpsest
