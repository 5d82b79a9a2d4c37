import Palimpsest.Proofs.Surface.Recognized
import Palimpsest.Proofs.Surface.Rubbish

/-!
A statement that makes no sense leaves its neighbours alone: what stands before it and behind its semicolon is read as
if it stood alone, at the top of a file and between braces.
-/

namespace Palimpsest

/-- One stream behind another. Comments at the end of the first stand before what follows. -/
def TokenStream.append (s t : TokenStream) : TokenStream :=
  match t.tokens with
  | [] => ⟨s.tokens, { t.final with leading := s.final.leading ++ t.final.leading }, s.reports ++ t.reports⟩
  | u :: us => ⟨s.tokens ++ { u with leading := s.final.leading ++ u.leading } :: us, t.final, s.reports ++ t.reports⟩

/-- The stream between braces. Comments at its end stand before the closing one. -/
def TokenStream.between (t : TokenStream) (opening closing : Token) : List Token :=
  opening :: (t.tokens ++ [{ closing with leading := t.final.leading }])

namespace Surface

open Parse Stmt
open Token (withLeading)

/-- The stream is one stray token or more, and a semicolon, without comments. -/
structure Senseless (t : TokenStream) : Prop where
  tokens : ∃ first rest semi, t.tokens = first :: (rest ++ [semi]) ∧ (∀ u ∈ first :: rest, Stray u) ∧
    semi.kind = .semicolon ∧ semi.leading = []
  leading : t.final.leading = []

variable {levels : Nat} {a g b : TokenStream}

theorem Senseless.rubbish (h : Senseless g) : ∃ t ts semi, g.tokens = t :: ts ∧ t.kind ≠ .semicolon ∧ t.leading = [] ∧
    Rubbish semi g.tokens ∧ semi.kind = .semicolon ∧ semi.leading = [] := by
  obtain ⟨first, rest, semi, htokens, hstray, hsemi, hleading⟩ := h.tokens
  have hrubbish (ts : List Token) (h : ∀ u ∈ ts, Stray u) : Rubbish semi (ts ++ [semi]) := by
    induction ts with
    | nil => exact .last
    | cons t ts ih =>
        obtain ⟨ht, hts⟩ := List.forall_mem_cons.mp h
        exact .cons ht (ih hts)
  have hfirst := hstray first List.mem_cons_self
  rw [htokens]
  exact ⟨first, _, semi, rfl, hfirst.kind_ne.2.2.1, hfirst.leading_eq, hrubbish (first :: rest) hstray, hsemi, hleading⟩

theorem append_append (hg : Senseless g) : (a.append (g.append b)).tokens =
      a.tokens ++ (withLeading a.final.leading g.tokens ++ b.tokens) ∧ (a.append (g.append b)).final = b.final := by
  obtain ⟨t, ts, semi, htokens, -, hleading, -⟩ := hg.rubbish
  have hbehind : (g.append b).tokens = g.tokens ++ b.tokens ∧ (g.append b).final = b.final := by
    rw [TokenStream.append, hg.leading]
    split
    · next hb => exact ⟨by rw [hb, List.append_nil], rfl⟩
    · next hb => exact ⟨by rw [hb]; rfl, rfl⟩
  rw [TokenStream.append, hbehind.1, htokens]
  refine ⟨?_, hbehind.2⟩
  simp [withLeading, hleading]

/-- Before anything but a semicolon the three are read one after the other. -/
theorem goesOn_neighbours (ha : ReadsCleanly levels a) (hg : Senseless g) (hb : ReadsCleanly levels b) :
    statements levels g ≠ [] ∧ ∃ stmts errors, statements levels b = stmts ++ b.final.leading.map ofComment ∧
      ∀ braced more final q, (∀ p, Cursor.kind ⟨more, final, p⟩ ≠ .semicolon) → ∃ r,
        GoesOn (parse levels) braced ⟨(a.append (g.append b)).tokens ++ more, final, q⟩
          (statements levels a ++ statements levels g ++ stmts) errors ⟨more, final, r⟩ := by
  obtain ⟨t, ts, semi, htokens, hfirst, hbare, hrubbish, hsemi, hleading⟩ := hg.rubbish
  obtain ⟨ks, hdepth, hks, ha⟩ := ha.exists_constructs
  obtain ⟨ls, hdepth', hls, hb⟩ := hb.exists_constructs
  obtain ⟨stmts, errors, hne, hgoes⟩ := goesOn_rubbish hsemi hleading levels hrubbish
  have halone : statements levels g = stmts := by
    have hvalue := (hgoes false [] [] g.final 0).value
    have hend : atListEnd false (Cursor.dropLeading ⟨[], g.final, semi.span.stop⟩) = true := rfl
    rw [Token.withLeading_of_bare (hrubbish.bare hleading), List.append_nil, (parseList_of_end _ hend).1] at hvalue
    refine hvalue.trans ?_
    rw [show Cursor.current ⟨[], g.final, semi.span.stop⟩ = g.final from rfl, hg.leading]
    simp
  refine ⟨halone ▸ hne, ls.stmts, errors, hb, fun braced more final q hmore => ?_⟩
  refine ⟨Token.endOf semi.span.stop ls.tokens, ?_⟩
  have hsecond := hgoes braced a.final.leading (ls.tokens ++ more) final (Token.endOf q ks.tokens)
  have hthird := ls.goesOn levels braced more final semi.span.stop hmore
  have hone := ks.goesOn levels braced (withLeading a.final.leading g.tokens ++ (ls.tokens ++ more)) final q fun p => by
    rw [htokens]
    exact hfirst
  rw [(ks.cut_of_depth_le hdepth).1, (ks.cut_of_depth_le hdepth).2] at hone
  rw [(ls.cut_of_depth_le hdepth').1, (ls.cut_of_depth_le hdepth').2] at hthird
  have hall := (hone.trans hsecond).trans hthird
  rw [(append_append hg).1, hks, hls, ha, halone]
  simpa using hall

/-- A statement that makes no sense is read by itself, between the statements before it and those behind it; so it
is at the top of a file, and between braces that are followed. -/
theorem neighbours_kept (ha : ReadsCleanly levels a) (hg : Senseless g) (hb : ReadsCleanly levels b) :
    statements levels g ≠ [] ∧
      statements levels (a.append (g.append b)) = statements levels a ++ statements levels g ++ statements levels b ∧
      ∀ (opening closing : Token) (more : List Token) (final : Token) (q : Nat), closing.kind = .rightBrace →
        (parseBraced (bodyReader (levels + 1))
            ⟨(a.append (g.append b)).between opening closing ++ more, final, q⟩).value =
          statements levels a ++ statements levels g ++ statements levels b ∧
        (parseBraced (bodyReader (levels + 1))
            ⟨(a.append (g.append b)).between opening closing ++ more, final, q⟩).next =
          ⟨more, final, closing.span.stop⟩ := by
  obtain ⟨hne, stmts, errors, hstmts, hgoes⟩ := goesOn_neighbours ha hg hb
  obtain ⟨htokens, hfinal⟩ := append_append (a := a) (b := b) hg
  refine ⟨hne, ?_, fun opening closing more final q hclosing => ?_⟩
  · obtain ⟨r, hfile⟩ := hgoes false [] b.final 0 fun p => by
      exact fun hsemicolon => by cases hb.final.symm.trans hsemicolon
    have hvalue := hfile.value
    have hend : atListEnd false (Cursor.dropLeading ⟨[], b.final, r⟩) = true := rfl
    rw [(parseList_of_end _ hend).1, List.append_nil, List.append_assoc] at hvalue
    rw [hstmts, statements, Cursor.ofStream, hfinal]
    exact hvalue
  · have hclose : ({ closing with leading := b.final.leading } : Token).kind = .rightBrace := hclosing
    obtain ⟨r, hbody⟩ := hgoes true ({ closing with leading := b.final.leading } :: more) final opening.span.stop
      fun p hsemicolon => by cases hclose.symm.trans hsemicolon
    have hruns := runs_braced (q := q) hclose hbody
    rw [TokenStream.between, hfinal]
    refine ⟨hruns.value.trans ?_, hruns.next.trans ?_⟩
    · rw [hstmts, List.append_assoc]
    · simp

theorem neighbours_kept_nameless :
    let a := TokenStream.ofText "var a; // last"
    let g := TokenStream.ofText "proc ( 1;"
    let b := TokenStream.ofText "module m \x7b \x7d"
    (ReadsCleanly 1 a ∧ Senseless g ∧ ReadsCleanly 1 b) ∧
      statements 1 (a.append (g.append b)) = statements 1 a ++ statements 1 g ++ statements 1 b := by
  intro a g b
  have ha : ReadsCleanly 1 a := ⟨by decide +kernel, by decide +kernel, by decide +kernel⟩
  have hb : ReadsCleanly 1 b := ⟨by decide +kernel, by decide +kernel, by decide +kernel⟩
  have hstray (k : TokenKind) (span : Span) (text : String) (hk : k ≠ .leftBrace ∧ k ≠ .rightBrace ∧ k ≠ .semicolon ∧
      k ≠ .foreignCode ∧ k ≠ .endOfFile) : Stray ⟨k, span, text, []⟩ := ⟨hk, rfl⟩
  have hg : Senseless g := by
    refine ⟨⟨⟨.kwProc, ⟨0, 4⟩, "proc", []⟩, [⟨.leftParen, ⟨5, 6⟩, "(", []⟩, ⟨.intLiteral, ⟨7, 8⟩, "1", []⟩],
      ⟨.semicolon, ⟨8, 9⟩, ";", []⟩, by decide +kernel, ?_, rfl, rfl⟩, by decide +kernel⟩
    intro u hu
    simp only [List.mem_cons, List.not_mem_nil, or_false] at hu
    obtain rfl | rfl | rfl := hu
    all_goals exact hstray _ _ _ (by decide)
  exact ⟨⟨ha, hg, hb⟩, (neighbours_kept ha hg hb).2.1⟩

end Surface
end Palimpsest
