import Palimpsest.Proofs.Surface.Spans
import Palimpsest.Proofs.Token.Part

/-!
The places that parsing comes to when it skips nothing. Behind each of them stand the last tokens of the text,
the first of them perhaps without its comments, and the later of two places ends later.
-/

namespace Palimpsest

namespace Token

theorem lastStop_append_cons (us : List Token) (t : Token) (ts : List Token) :
    lastStop (us ++ t :: ts) = lastStop (t :: ts) := by
  cases hlast : (t :: ts).getLast? with
  | none => cases List.getLast?_eq_none_iff.mp hlast
  | some u => rw [lastStop, List.getLast?_append, hlast, lastStop, hlast, Option.some_or]

/-- The last of some tokens ends after the first starts. -/
theorem start_le_lastStop {t : Token} {ts : List Token} (hspan : ∀ u ∈ t :: ts, u.span.start ≤ u.span.stop)
    (h : (t :: ts).Pairwise fun u v => u.span.stop ≤ v.span.start) : t.span.start ≤ lastStop (t :: ts) := by
  have hfirst := hspan t List.mem_cons_self
  cases hts : ts.getLast? with
  | none =>
      obtain rfl := List.getLast?_eq_none_iff.mp hts
      exact hfirst
  | some u =>
      have hmem := List.mem_of_getLast? hts
      have hlast : lastStop (t :: ts) = u.span.stop := by simp [lastStop, List.getLast?_cons, hts]
      have hbefore := List.rel_of_pairwise_cons h hmem
      have hu := hspan u (List.mem_cons_of_mem t hmem)
      omega

end Token

/-- Where the comments before a token and the token stand. -/
def Token.spans (t : Token) : List Span := t.leading.map Comment.span ++ [t.span]

theorem TokenStream.increasing_spans (text : String) :
    ((ofText text).all.flatMap Token.spans).Pairwise fun s t => s.stop ≤ t.start := by
  have hpieces : ((ofText text).pieces.map Piece.span) ++ [(ofText text).final.span] =
      (ofText text).all.flatMap Token.spans := by
    have hcomments (ks : List Comment) : (ks.map Piece.comment).map Piece.span = ks.map Comment.span := by
      rw [List.map_map]
      rfl
    have htoken (t : Token) : t.pieces.map Piece.span = t.spans := by
      rw [Token.pieces, List.map_append, hcomments]
      rfl
    rw [pieces, all, List.map_append, List.map_flatMap, hcomments, List.flatMap_append, List.flatMap_singleton,
      List.append_assoc]
    simp only [htoken]
    rfl
  rw [← hpieces, List.pairwise_append]
  refine ⟨List.pairwise_map.mpr (increasing_pieces text), List.pairwise_singleton _ _, ?_⟩
  intro s hs t ht
  obtain ⟨p, hp, rfl⟩ := List.mem_map.mp hs
  obtain ⟨leading, hfinal⟩ := final_ofText text
  rw [List.mem_singleton.mp ht, hfinal]
  exact (cuts_of_piece text hp).fits.inside

theorem TokenStream.increasing_tokens (text : String) :
    (ofText text).tokens.Pairwise fun t u => t.span.stop ≤ u.span.start := by
  have hspan {p : Piece} {t : Token} (h : t ∈ p.token?) : p.span = t.span := by
    cases p with
    | comment c => cases h
    | token u => exact congrArg Token.span (Option.some.inj h)
  rw [← filterMap_token?_pieces]
  refine (increasing_pieces text).filterMap _ fun p q hle t ht u hu => ?_
  rwa [← hspan ht, ← hspan hu]

namespace Surface
namespace Cursor

theorem dropLeading_dropLeading (c : Cursor) : c.dropLeading.dropLeading = c.dropLeading := by
  obtain ⟨tokens, final, p⟩ := c
  cases tokens <;> rfl

theorem advance_dropLeading {c : Cursor} (h : c.tokens ≠ []) : c.dropLeading.advance = c.advance := by
  obtain ⟨tokens, final, p⟩ := c
  cases tokens with
  | nil => exact absurd rfl h
  | cons t ts => rfl

theorem prevStop_dropLeading (c : Cursor) : c.dropLeading.prevStop = c.prevStop := by
  obtain ⟨tokens, final, p⟩ := c
  cases tokens <;> rfl

theorem current_dropLeading (c : Cursor) : c.dropLeading.current = c.current.bare := by
  obtain ⟨tokens, final, p⟩ := c
  cases tokens <;> rfl

theorem span_dropLeading (c : Cursor) : c.dropLeading.current.span = c.current.span := by
  rw [current_dropLeading]
  rfl

theorem leading_dropLeading (c : Cursor) : c.dropLeading.current.leading = [] := by
  rw [current_dropLeading]
  rfl

/-- Between two tokens of the text. -/
def between (text : String) (before after : List Token) : Cursor :=
  ⟨after, (TokenStream.ofText text).final, Token.lastStop before⟩

/-- Where the comments and the tokens to come stand, the end of file included. -/
def spans (c : Cursor) : List Span := (c.tokens ++ [c.final]).flatMap Token.spans

theorem exists_spans (c : Cursor) : ∃ rest, c.spans = c.current.spans ++ rest := by
  obtain ⟨tokens, final, p⟩ := c
  cases tokens with
  | nil => exact ⟨[], by simp [spans, current]⟩
  | cons t ts => exact ⟨_, List.flatMap_cons⟩

inductive Reached (text : String) : Cursor → Prop where
  | start : Reached text (ofStream (TokenStream.ofText text))
  | advance {c : Cursor} (h : Reached text c) : Reached text c.advance
  | dropLeading {c : Cursor} (h : Reached text c) : Reached text c.dropLeading

namespace Reached

variable {text : String} {c d : Cursor}

theorem inText (h : c.Reached text) : c.InText text := by
  induction h with
  | start => exact .ofText text
  | advance _ ih => exact ih.advance
  | dropLeading _ ih => exact ih.dropLeading

theorem leading_final (h : c.Reached text) (hfinal : (TokenStream.ofText text).final.leading = []) :
    c.final.leading = [] := by
  induction h with
  | start => exact hfinal
  | @advance c _ ih =>
      obtain ⟨tokens, final, p⟩ := c
      cases tokens with
      | nil | cons t ts => exact ih
  | @dropLeading c _ ih =>
      obtain ⟨tokens, final, p⟩ := c
      cases tokens with
      | nil => rfl
      | cons t ts => exact ih

theorem exists_between (h : c.Reached text) : ∃ before after, (TokenStream.ofText text).tokens = before ++ after ∧
    c.dropLeading = (between text before after).dropLeading := by
  induction h with
  | start => exact ⟨[], _, rfl, rfl⟩
  | dropLeading _ ih =>
      obtain ⟨before, after, htokens, hc⟩ := ih
      exact ⟨before, after, htokens, (dropLeading_dropLeading _).trans hc⟩
  | @advance c _ ih =>
      obtain ⟨before, after, htokens, hc⟩ := ih
      have hlength : c.tokens.length = after.length := by
        rw [← length_dropLeading, hc, length_dropLeading]
        rfl
      cases after with
      | nil =>
          obtain ⟨tokens, final, p⟩ := c
          obtain rfl : tokens = [] := List.length_eq_zero_iff.mp hlength
          exact ⟨before, [], htokens, hc⟩
      | cons t after =>
          refine ⟨before ++ [t], after, htokens.trans (List.append_cons before t after), ?_⟩
          have hne : c.tokens ≠ [] := List.ne_nil_of_length_pos (hlength ▸ Nat.succ_pos _)
          rw [← advance_dropLeading hne, hc, advance_dropLeading (List.cons_ne_nil t after), between, between,
            Token.lastStop_concat]
          rfl

theorem length_after {before after : List Token} (hc : c.dropLeading = (between text before after).dropLeading) :
    c.tokens.length = after.length := by
  rw [← length_dropLeading, hc, length_dropLeading]
  rfl

/-- What is to come stands in order, behind what has been taken. -/
theorem ordered (h : c.Reached text) : c.spans.Pairwise (fun s t => s.stop ≤ t.start) ∧
    ∀ s ∈ c.spans, c.prevStop ≤ s.start := by
  induction h with
  | start => exact ⟨TokenStream.increasing_spans text, fun _ _ => Nat.zero_le _⟩
  | @advance c _ ih =>
      obtain ⟨tokens, final, p⟩ := c
      cases tokens with
      | nil => exact ih
      | cons t ts =>
          rw [spans, List.cons_append, List.flatMap_cons, Token.spans] at ih
          obtain ⟨-, hrest, hlater⟩ := List.pairwise_append.mp ih.1
          refine ⟨hrest, fun s hs => ?_⟩
          exact hlater t.span (List.mem_append_right _ (List.mem_singleton.mpr rfl)) s hs
  | @dropLeading c _ ih =>
      have hless : List.Sublist c.dropLeading.spans c.spans := by
        obtain ⟨tokens, final, p⟩ := c
        cases tokens with
        | nil | cons t ts => simp [Cursor.dropLeading, spans, Token.spans]
      rw [prevStop_dropLeading]
      exact ⟨ih.1.sublist hless, fun s hs => ih.2 s (hless.subset hs)⟩

theorem prevStop_le_start (h : c.Reached text) : c.prevStop ≤ c.current.span.start := by
  obtain ⟨rest, hspans⟩ := exists_spans c
  apply h.ordered.2
  rw [hspans]
  simp [Token.spans]

/-- The comments before the next token stand in order between it and the last. -/
theorem comments_between (h : c.Reached text) :
    c.current.leading.Pairwise (fun k l => k.span.stop ≤ l.span.start) ∧
      ∀ k ∈ c.current.leading, c.prevStop ≤ k.span.start ∧ k.span.stop ≤ c.current.span.start := by
  obtain ⟨rest, hspans⟩ := exists_spans c
  obtain ⟨hincreasing, hafter⟩ := h.ordered
  rw [hspans, Token.spans] at hincreasing hafter
  obtain ⟨hcomments, -, hbefore⟩ := List.pairwise_append.mp (List.pairwise_append.mp hincreasing).1
  refine ⟨List.pairwise_map.mp hcomments, fun k hk => ⟨?_, ?_⟩⟩
  · exact hafter k.span (List.mem_append_left _ (List.mem_append_left _ (List.mem_map_of_mem hk)))
  · exact hbefore k.span (List.mem_map_of_mem hk) c.current.span (List.mem_singleton.mpr rfl)

/-- Between two places stand the tokens that were taken. -/
theorem exists_taken (hc : c.Reached text) (hd : d.Reached text) (h : d.tokens.length < c.tokens.length) :
    ∃ before t mid after, (TokenStream.ofText text).tokens = before ++ (t :: mid ++ after) ∧
      c.dropLeading = (between text before (t :: mid ++ after)).dropLeading ∧
      d.tokens.length = after.length ∧ d.prevStop = Token.lastStop (t :: mid) := by
  obtain ⟨before, rest, hsplit, hfrom⟩ := hc.exists_between
  obtain ⟨upto, after, hsplit', hto⟩ := hd.exists_between
  have hrest := length_after hfrom
  have hafter := length_after hto
  obtain ⟨taken, rfl, rfl⟩ : ∃ taken, upto = before ++ taken ∧ rest = taken ++ after := by
    cases List.append_eq_append_iff.mp (hsplit.symm.trans hsplit') with
    | inl hlonger => exact hlonger
    | inr hshorter =>
        obtain ⟨more, -, rfl⟩ := hshorter
        rw [List.length_append] at hafter
        omega
  cases taken with
  | nil => exact absurd (hafter.trans hrest.symm) (Nat.ne_of_lt h)
  | cons t mid =>
      refine ⟨before, t, mid, after, hsplit, hfrom, hafter, ?_⟩
      rw [← prevStop_dropLeading, hto, prevStop_dropLeading, between, Token.lastStop_append_cons]

/-- What is taken ends behind where it starts. -/
theorem start_le_prevStop (hc : c.Reached text) (hd : d.Reached text) (h : d.tokens.length < c.tokens.length) :
    c.current.span.start ≤ d.prevStop := by
  obtain ⟨before, t, mid, after, hsplit, hfrom, -, hstop⟩ := exists_taken hc hd h
  have hcurrent : c.current.span = t.span := by
    rw [← span_dropLeading, hfrom, span_dropLeading]
    rfl
  rw [hcurrent, hstop]
  apply Token.start_le_lastStop
  · intro u hu
    have hmem : u ∈ (TokenStream.ofText text).tokens := by
      rw [hsplit]
      exact List.mem_append_right _ (List.mem_append_left _ hu)
    exact (TokenStream.inText hmem).cuts.fits.ordered
  · have hincreasing := TokenStream.increasing_tokens text
    rw [hsplit] at hincreasing
    exact (List.pairwise_append.mp (List.pairwise_append.mp hincreasing).2.1).1

end Reached
end Cursor
end Surface
end Palimpsest
