import Palimpsest.Surface.Parser

/-!
Every statement takes a token. A list of statements goes on where the last one ended, and never has to step
over a token itself.
-/

namespace Palimpsest
namespace Surface

theorem Cursor.length_skipStatement_lt {final t : Token} {ts : List Token} {p : Nat} (h : t.kind ≠ .rightBrace) :
    (skipStatement final (t :: ts) p).tokens.length < (t :: ts).length := by
  rw [skipStatement, if_neg h]
  split
  · exact Nat.lt_succ_self _
  · exact Nat.lt_succ_of_le (length_skipStatement_le final ts _)

theorem Cursor.dropLeading_of_leading {c : Cursor} (h : c.current.leading = []) : c.dropLeading = c := by
  obtain ⟨tokens, ⟨kind, span, text, leading⟩, p⟩ := c
  cases tokens with
  | nil =>
      obtain rfl : leading = [] := h
      rfl
  | cons t ts =>
      obtain ⟨kind, span, text, leading⟩ := t
      obtain rfl : leading = [] := h
      rfl

/-- How many braces are open behind a token. -/
def Cursor.openAfter (level : Nat) : TokenKind → Nat
  | .leftBrace => level + 1
  | .rightBrace => level - 1
  | _ => level

theorem Cursor.skipBraced_cons (final t : Token) (level : Nat) (ts : List Token) (p : Nat) :
    skipBraced final level (t :: ts) p =
      if openAfter level t.kind = 0 then ⟨ts, final, t.span.stop⟩
      else skipBraced final (openAfter level t.kind) ts t.span.stop := rfl

theorem Cursor.length_skipBraced_lt (final t : Token) (level : Nat) (ts : List Token) (p : Nat) :
    (skipBraced final level (t :: ts) p).tokens.length < (t :: ts).length := by
  rw [skipBraced_cons]
  split
  · exact Nat.lt_succ_self _
  · exact Nat.lt_succ_of_le (length_skipBraced_le final _ ts _)

namespace Parse

variable {α β : Type} {c : Cursor}

/-- The step takes a token here. -/
def Takes (c : Cursor) (x : Parse α) : Prop := (x c).next.tokens.length < c.tokens.length

theorem Takes.bind {x : Parse α} (hx : Takes c x) (f : α → Parse β) : Takes c (x >>= f) :=
  Nat.lt_of_le_of_lt (f (x c).value (x c).next).le hx

/-- A step that stays where it is leaves it to what follows. -/
theorem Takes.after {x : Parse α} {f : α → Parse β} (hx : (x c).next = c) (hf : Takes c (f (x c).value)) :
    Takes c (x >>= f) := by
  change (f (x c).value (x c).next).next.tokens.length < c.tokens.length
  rw [hx]
  exact hf

/-- A step that yields a value and does nothing else leaves the rest to what follows. -/
theorem bind_of_pure {x : Parse α} {a : α} (h : x c = (pure a : Parse α) c) (f : α → Parse β) :
    (x >>= f) c = f a c :=
  congrArg (fun s : Step c α => (⟨(f s.value s.next).value, s.reports ++ (f s.value s.next).reports,
    (f s.value s.next).next, Nat.le_trans (f s.value s.next).le s.le⟩ : Step c β)) h

theorem kind_eq_pure {k : TokenKind} (hk : c.kind = k) : kind c = (pure k : Parse TokenKind) c := by
  rw [← hk]
  rfl

theorem takes_advance (hc : c.tokens ≠ []) : Takes c advance := Cursor.length_advance_lt hc

/-- Wherever a step leads, to advance from there takes a token. -/
theorem takes_then_advance (hc : c.tokens ≠ []) (x : Parse α) (f : Unit → Parse β) :
    Takes c (x >>= fun _ => advance >>= f) := by
  by_cases hnext : (x c).next.tokens = []
  · apply Takes.bind (x := x)
    rw [Takes, hnext]
    exact List.length_pos_iff.mpr hc
  · have hadvance := (takes_advance hnext).bind f
    exact Nat.lt_of_lt_of_le hadvance (x c).le

theorem takes_skipStatement (hc : c.tokens ≠ []) (hk : c.kind ≠ .rightBrace) : Takes c skipStatement := by
  obtain ⟨tokens, final, p⟩ := c
  cases tokens with
  | nil => exact absurd rfl hc
  | cons t ts => exact Cursor.length_skipStatement_lt hk

theorem takes_skipBraced (hc : c.tokens ≠ []) : Takes c skipBraced := by
  obtain ⟨tokens, final, p⟩ := c
  cases tokens with
  | nil => exact absurd rfl hc
  | cons t ts => exact Cursor.length_skipBraced_lt final t 0 ts p

end Parse

namespace Stmt

open Parse

variable {c : Cursor} {body? : Option (Parse (List Stmt))}

theorem takes_rejectNesting (hc : c.tokens ≠ []) : Takes c rejectNesting :=
  .after rfl (.after rfl ((takes_skipBraced hc).bind _))

theorem takes_parseBraced (hc : c.tokens ≠ []) : Takes c (parseBraced body?) := by
  unfold parseBraced
  cases body? with
  | none => exact (takes_rejectNesting hc).bind _
  | some body => exact .after rfl ((takes_advance hc).bind _)

theorem takes_expr (hc : c.tokens ≠ []) (hk : c.kind = .identifier ∨ c.kind = .intLiteral ∨ c.kind = .stringLiteral) :
    Takes c Expr.parse := by
  refine .after rfl ?_
  split
  next => exact (takes_advance hc).bind _
  next => exact (takes_advance hc).bind _
  next => exact (takes_advance hc).bind _
  next hname hint hstring =>
    cases hk with
    | inl hk => exact absurd hk hname
    | inr hk =>
        cases hk with
        | inl hk => exact absurd hk hint
        | inr hk => exact absurd hk hstring

theorem takes_parsePlain (hc : c.tokens ≠ []) (start : Span) : Takes c (parsePlain body? start) := by
  refine .after rfl ?_
  split
  next =>
    split
    next => exact (takes_rejectNesting hc).bind _
    next => exact (takes_parseBraced hc).bind _
  next => exact (takes_advance hc).bind _
  next hk => exact (takes_expr hc (.inl hk)).bind _
  next hk => exact (takes_expr hc (.inr (.inl hk))).bind _
  next hk => exact (takes_expr hc (.inr (.inr hk))).bind _
  next => exact .after rfl ((takes_advance hc).bind _)
  next => exact .after rfl ((takes_advance hc).bind _)
  next hk =>
    refine (takes_skipStatement hc ?_).bind _
    intro hbrace
    cases hk.symm.trans hbrace
  next => exact .after rfl ((takes_advance hc).bind _)

/-- A visibility is a token, or nothing is taken. -/
theorem takes_parseVisibility (hc : c.tokens ≠ []) :
    Takes c parseVisibility ∨ (parseVisibility c).next = c ∧ (parseVisibility c).value = .plain := by
  have hkind (f : TokenKind → Parse Visibility)
      (hf : Takes c (f c.kind) ∨ (f c.kind c).next = c ∧ (f c.kind c).value = .plain) :
      Takes c (kind >>= f) ∨ ((kind >>= f) c).next = c ∧ ((kind >>= f) c).value = .plain := hf
  apply hkind
  split
  · exact .inl ((takes_advance hc).bind _)
  · exact .inl ((takes_advance hc).bind _)
  · exact .inr ⟨rfl, rfl⟩

theorem takes_parseWith (hc : c.tokens ≠ []) : Takes c (parseWith body?) := by
  refine .after rfl ?_
  cases takes_parseVisibility hc with
  | inl htakes => exact htakes.bind _
  | inr hplain =>
      refine .after hplain.1 (.after rfl ?_)
      rw [hplain.2]
      split
      · exact (takes_advance hc).bind _
      split
      · exact (takes_advance hc).bind _
      split
      · exact takes_then_advance hc _ _
      · exact takes_parsePlain hc _

/-- A statement that starts with no word of a declaration. -/
theorem parseWith_plain {k : TokenKind} (hk : c.kind = k)
    (hother : (k ≠ .kwPublic ∧ k ≠ .kwPrivate) ∧ k ≠ .kwModule ∧ k ≠ .kwProc ∧ startsVariable k = false) :
    parseWith body? c = parsePlain body? c.current.span c := by
  have htoken : Parse.token c = (pure c.current : Parse Token) c := rfl
  have hkind := Parse.kind_eq_pure hk
  have hvisibility : parseVisibility c = (pure .plain : Parse Visibility) c := by
    rw [parseVisibility, Parse.bind_of_pure hkind]
    split
    · exact absurd rfl hother.1.1
    · exact absurd rfl hother.1.2
    · rfl
  rw [parseWith, Parse.bind_of_pure htoken, Parse.bind_of_pure hvisibility, Parse.bind_of_pure hkind,
    if_neg hother.2.1, if_neg hother.2.2.1, hother.2.2.2]
  rfl

/-- Every statement takes a token, whatever it starts with. -/
theorem takes_parse (hc : c.tokens ≠ []) (levels : Nat) : Takes c (parse levels) := by
  cases levels with
  | zero | succ levels => exact takes_parseWith hc

/-- A list goes on where its statement ended. -/
theorem resume_parse (hc : c.tokens ≠ []) (levels : Nat) : resume c (parse levels c) = (parse levels c).next :=
  if_pos (takes_parse hc levels)

/-- A list that no comment is in front of starts with a statement, and goes on where that ends. -/
theorem parseList_first {levels : Nat} {c : Cursor} (hleading : c.current.leading = []) (hne : c.tokens ≠ []) :
    (parseList (parse levels) false c).value =
        (parse levels c).value :: (parseList (parse levels) false (parse levels c).next).value ∧
      (parseList (parse levels) false c).reports =
        (parse levels c).reports ++ (parseList (parse levels) false (parse levels c).next).reports := by
  have hdrop := Cursor.dropLeading_of_leading hleading
  have hmore : ¬ atListEnd false c.dropLeading = true := by
    rw [hdrop]
    simp [atListEnd, hne]
  obtain ⟨hvalue, hreports, -⟩ := parseList_of_more (parse levels) hmore
  rw [hdrop, resume_parse hne, hleading] at hvalue
  rw [hdrop, resume_parse hne] at hreports
  exact ⟨hvalue, hreports⟩

end Stmt

/-- A text that starts with a token has a statement from there on, and the others from where that ends. -/
theorem parseText_first {text : String} {t : Token} {ts : List Token} {final : Token} {reports : List Diagnostic}
    (hlexed : TokenStream.ofText text = ⟨t :: ts, final, reports⟩) (hleading : t.leading = []) :
    let s := Stmt.parse maxNesting ⟨t :: ts, final, 0⟩
    let later := Stmt.parseList (Stmt.parse maxNesting) false s.next
    (parseText text).file.stmts = s.value :: later.value ∧
      (parseText text).reports = reports ++ (s.reports ++ later.reports) := by
  obtain ⟨hvalue, hreports⟩ := @Stmt.parseList_first maxNesting ⟨t :: ts, final, 0⟩ hleading (List.cons_ne_nil _ _)
  refine ⟨(congrArg (fun t => (parseTokens t).1) hlexed).trans hvalue, ?_⟩
  change (TokenStream.ofText text).reports ++ (parseTokens (TokenStream.ofText text)).2 = _
  rw [hlexed]
  exact congrArg (reports ++ ·) hreports

end Surface
end Palimpsest
