import Palimpsest.Proofs.Token.Part

/-!
Foreign code as the pieces that it falls into. Braces count only between literals and comments, and a scan that
starts behind an opening brace ends at the brace that closes it, so that a foreign block is cut out as one token and
the tokens behind it are those of a text of their own.
-/

namespace Palimpsest

/-- A piece of foreign code. -/
inductive ForeignItem where
  | plain (c : Char)
  | opening
  | closing
  | literal (quote : Char) (body : List Char)
  | lineComment (body : List Char)
  | blockComment (body : List Char)

namespace ForeignItem

/-- What may stand between two quotes: backslashes with what they stand before, and no quote or line feed besides. -/
inductive Quotable (q : Char) : List Char → Prop where
  | nil : Quotable q []
  | plain {c : Char} {cs : List Char} (hc : c ∉ [q, '\\', '\n']) (h : Quotable q cs) : Quotable q (c :: cs)
  | escape (c : Char) {cs : List Char} (h : Quotable q cs) : Quotable q ('\\' :: c :: cs)

/-- Characters read from left to right as pieces of foreign code. Comments do not nest. -/
inductive Reads : List Char → List ForeignItem → Prop where
  | nil : Reads [] []
  | plain {c : Char} {cs : List Char} {items : List ForeignItem} (hc : c ∉ ['\x7b', '\x7d', '"', '\''])
      (hcomment : c = '/' → cs.head? ≠ some '/' ∧ cs.head? ≠ some '*') (h : Reads cs items) :
      Reads (c :: cs) (plain c :: items)
  | opening {cs : List Char} {items : List ForeignItem} (h : Reads cs items) :
      Reads ('\x7b' :: cs) (opening :: items)
  | closing {cs : List Char} {items : List ForeignItem} (h : Reads cs items) :
      Reads ('\x7d' :: cs) (closing :: items)
  | literal {q : Char} {body cs : List Char} {items : List ForeignItem} (hq : q = '"' ∨ q = '\'')
      (hbody : Quotable q body) (h : Reads cs items) : Reads (q :: (body ++ q :: cs)) (literal q body :: items)
  | lineComment {body cs : List Char} {items : List ForeignItem} (hbody : '\n' ∉ body) (h : Reads cs items) :
      Reads ('/' :: '/' :: (body ++ '\n' :: cs)) (lineComment body :: items)
  | blockComment {body cs : List Char} {items : List ForeignItem} (hbody : ¬['*', '/'] <:+: body)
      (h : Reads cs items) : Reads ('/' :: '*' :: (body ++ '*' :: '/' :: cs)) (blockComment body :: items)

/-- How many braces are open behind some pieces; none where one closes that was not opened. -/
def openAfter? : Nat → List ForeignItem → Option Nat
  | outer, [] => some outer
  | outer, opening :: items => openAfter? (outer + 1) items
  | 0, closing :: _ => none
  | outer + 1, closing :: items => openAfter? outer items
  | outer, _ :: items => openAfter? outer items

/-- All braces that are opened are closed, and none besides. -/
def Balanced (items : List ForeignItem) : Prop := openAfter? 0 items = some 0

instance (items : List ForeignItem) : Decidable (Balanced items) :=
  inferInstanceAs (Decidable (openAfter? 0 items = some 0))

end ForeignItem

namespace Lexeme

open ForeignItem (Quotable)

variable {outer : Nat} {q : Char} {body cs front rest : List Char} {closed : Bool}

theorem foreignBody_plain {c : Char} (hc : c ∉ ['\x7b', '\x7d', '"', '\''])
    (hcomment : c = '/' → cs.head? ≠ some '/' ∧ cs.head? ≠ some '*')
    (h : foreignBody .code outer cs = ⟨front, rest, closed⟩) :
    foreignBody .code outer (c :: cs) = ⟨c :: front, rest, closed⟩ := by
  simp only [List.mem_cons, List.not_mem_nil, or_false, not_or] at hc
  obtain ⟨hopening, hclosing, hdouble, hsingle⟩ := hc
  rw [foreignBody.eq_6, if_neg hopening, if_neg (not_or.mpr ⟨hdouble, hsingle⟩), h]
  · rfl
  · exact fun ds hslash hds => (hcomment hslash).1 (hds ▸ rfl)
  · exact fun ds hslash hds => (hcomment hslash).2 (hds ▸ rfl)
  · exact fun _ => hclosing
  · exact fun _ _ => hclosing

theorem foreignBody_opening (h : foreignBody .code (outer + 1) cs = ⟨front, rest, closed⟩) :
    foreignBody .code outer ('\x7b' :: cs) = ⟨'\x7b' :: front, rest, closed⟩ := by
  rw [foreignBody.eq_6, if_pos rfl, h] <;> simp [Cut.cons]

theorem foreignBody_closing (h : foreignBody .code outer cs = ⟨front, rest, closed⟩) :
    foreignBody .code (outer + 1) ('\x7d' :: cs) = ⟨'\x7d' :: front, rest, closed⟩ := by
  rw [foreignBody, h]
  rfl

theorem foreignBody_quoted (hbody : Quotable q body) (hq : q ≠ '\\')
    (h : foreignBody .code outer cs = ⟨front, rest, closed⟩) :
    foreignBody (.quoted q) outer (body ++ q :: cs) = ⟨body ++ q :: front, rest, closed⟩ := by
  induction hbody with
  | nil =>
      rw [List.nil_append, foreignBody.eq_8, if_pos (.inl rfl), h]
      · rfl
      · exact fun _ _ hbackslash _ => hq hbackslash
  | plain hc _ ih =>
      simp only [List.mem_cons, List.not_mem_nil, or_false, not_or] at hc
      obtain ⟨hquote, hbackslash, hfeed⟩ := hc
      rw [List.cons_append, foreignBody.eq_8, if_neg (not_or.mpr ⟨hquote, hfeed⟩), ih]
      · rfl
      · exact fun _ _ hc _ => hbackslash hc
  | escape c _ ih =>
      rw [List.cons_append, List.cons_append, foreignBody, ih]
      rfl

theorem foreignBody_literal (hq : q = '"' ∨ q = '\'') (hbody : Quotable q body)
    (h : foreignBody .code outer cs = ⟨front, rest, closed⟩) :
    foreignBody .code outer (q :: (body ++ q :: cs)) = ⟨q :: (body ++ q :: front), rest, closed⟩ := by
  have hne : q ≠ '\\' ∧ q ≠ '/' ∧ q ≠ '\x7b' ∧ q ≠ '\x7d' := by
    rcases hq with rfl | rfl <;> decide
  obtain ⟨hbackslash, hslash, hopening, hclosing⟩ := hne
  rw [foreignBody.eq_6, if_neg hopening, if_pos hq, foreignBody_quoted hbody hbackslash h]
  · rfl
  · exact fun _ hc _ => hslash hc
  · exact fun _ hc _ => hslash hc
  · exact fun _ => hclosing
  · exact fun _ _ => hclosing

theorem foreignBody_lineComment (hbody : '\n' ∉ body) (h : foreignBody .code outer cs = ⟨front, rest, closed⟩) :
    foreignBody .lineComment outer (body ++ '\n' :: cs) = ⟨body ++ '\n' :: front, rest, closed⟩ := by
  induction body with
  | nil =>
      rw [List.nil_append, foreignBody, if_pos rfl, h]
      rfl
  | cons c body ih =>
      obtain ⟨hc, hrest⟩ := not_or.mp (mt List.mem_cons.mpr hbody)
      rw [List.cons_append, foreignBody, if_neg (Ne.symm hc), ih hrest]
      rfl

theorem foreignBody_blockComment (hbody : ¬['*', '/'] <:+: body)
    (h : foreignBody .code outer cs = ⟨front, rest, closed⟩) :
    foreignBody .blockComment outer (body ++ '*' :: '/' :: cs) = ⟨body ++ '*' :: '/' :: front, rest, closed⟩ := by
  induction body with
  | nil =>
      rw [List.nil_append, foreignBody, h]
      rfl
  | cons c body ih =>
      rw [List.cons_append, foreignBody.eq_11, ih fun hsub => hbody (hsub.trans (List.suffix_cons c body).isInfix)]
      · rfl
      · -- A star before the end of the body stands before another star, or the body has the end of a comment in it.
        intro ds hc hds
        cases body with
        | nil => exact absurd (List.cons.inj hds).1 (by decide)
        | cons d body =>
            obtain ⟨hd, -⟩ := List.cons.inj hds
            exact hbody ⟨[], body, by rw [hc, hd]; rfl⟩

/-- The brace behind balanced code closes it. The number of braces that are open is what the scan counts. -/
theorem foreignBody_of_reads {items : List ForeignItem} (h : ForeignItem.Reads cs items)
    (hopen : ForeignItem.openAfter? outer items = some 0) (more : List Char) :
    foreignBody .code outer (cs ++ '\x7d' :: more) = ⟨cs ++ ['\x7d'], more, true⟩ := by
  induction h generalizing outer with
  | nil =>
      obtain rfl : outer = 0 := Option.some.inj hopen
      rfl
  | @plain c cs items hc hcomment _ ih =>
      refine foreignBody_plain hc (fun hslash => ?_) (ih hopen)
      cases cs with
      | nil => exact ⟨by simp, by simp⟩
      | cons d ds => exact hcomment hslash
  | opening _ ih => exact foreignBody_opening (ih hopen)
  | closing _ ih =>
      cases outer with
      | zero => cases hopen
      | succ outer => exact foreignBody_closing (ih hopen)
  | literal hq hbody _ ih =>
      have hscan := foreignBody_literal hq hbody (ih hopen)
      simpa using hscan
  | lineComment hbody _ ih =>
      have hscan := foreignBody_lineComment hbody (ih hopen)
      simp only [List.cons_append, List.append_assoc]
      rw [foreignBody, hscan]
      rfl
  | blockComment hbody _ ih =>
      have hscan := foreignBody_blockComment hbody (ih hopen)
      simp only [List.cons_append, List.append_assoc]
      rw [foreignBody, hscan]
      rfl

/-- The lexemes of some code in braces behind the word that opens it. -/
def ofForeign (code : List Char) : List Lexeme :=
  [⟨.token .kwForeign, "extern".toList⟩, ⟨.blank, [' ']⟩, ⟨.token .foreignCode, '\x7b' :: (code ++ ['\x7d'])⟩]

theorem size_braced (code : List Char) : Utf8.size ('\x7b' :: (code ++ ['\x7d'])) = 2 + Utf8.size code := by
  rw [Utf8.size_cons, Utf8.size_append, Nat.add_left_comm]
  exact Nat.add_comm _ 2

theorem placeFrom_ofForeign (code : List Char) : placeFrom 0 (ofForeign code) =
    [(⟨.token .kwForeign, "extern".toList⟩, ⟨0, 6⟩), (⟨.blank, [' ']⟩, ⟨6, 7⟩),
      (⟨.token .foreignCode, '\x7b' :: (code ++ ['\x7d'])⟩, ⟨7, 9 + Utf8.size code⟩)] := by
  simp only [ofForeign, placeFrom, size_braced, ← Nat.add_assoc]
  rfl

theorem size_ofForeign (code : List Char) : Utf8.size ((ofForeign code).flatMap chars) = 9 + Utf8.size code := by
  have hchars : (ofForeign code).flatMap chars = "extern ".toList ++ '\x7b' :: (code ++ ['\x7d']) := by
    simp [ofForeign]
  rw [hchars, Utf8.size_append, size_braced, ← Nat.add_assoc]
  rfl

theorem lexemes_foreign {items : List ForeignItem} (h : ForeignItem.Reads cs items)
    (hbalanced : ForeignItem.Balanced items) (more : List Char) :
    lexemes false ("extern \x7b".toList ++ (cs ++ '\x7d' :: more)) = ofForeign cs ++ lexemes false more := by
  have hcode : next true '\x7b' (cs ++ '\x7d' :: more) =
      (⟨.token .foreignCode, '\x7b' :: (cs ++ ['\x7d'])⟩, more) := by
    have hnext : next true '\x7b' (cs ++ '\x7d' :: more) = foreign '\x7b' (cs ++ '\x7d' :: more) := rfl
    rw [hnext, foreign, foreignBody_of_reads h hbalanced]
    rfl
  have hword : next false 'e' ("xtern \x7b".toList ++ (cs ++ '\x7d' :: more)) =
      (⟨.token .kwForeign, "extern".toList⟩, ' ' :: '\x7b' :: (cs ++ '\x7d' :: more)) := rfl
  have hblank : next true ' ' ('\x7b' :: (cs ++ '\x7d' :: more)) =
      (⟨.blank, [' ']⟩, '\x7b' :: (cs ++ '\x7d' :: more)) := rfl
  calc lexemes false ('e' :: ("xtern \x7b".toList ++ (cs ++ '\x7d' :: more)))
    _ = ⟨.token .kwForeign, "extern".toList⟩ :: lexemes true (' ' :: '\x7b' :: (cs ++ '\x7d' :: more)) := by
        rw [lexemes, hword]
        rfl
    _ = ⟨.token .kwForeign, "extern".toList⟩ :: ⟨.blank, [' ']⟩ :: lexemes true ('\x7b' :: (cs ++ '\x7d' :: more)) := by
        rw [lexemes, hblank]
        rfl
    _ = ⟨.token .kwForeign, "extern".toList⟩ :: ⟨.blank, [' ']⟩ ::
          ⟨.token .foreignCode, '\x7b' :: (cs ++ ['\x7d'])⟩ :: lexemes false more := by
        rw [lexemes, hcode]
        rfl

end Lexeme

/-- The word that opens a foreign block, at the start of a text. -/
def Token.ofForeignWord : Token := ⟨.kwForeign, ⟨0, 6⟩, "extern", []⟩

/-- The body of a foreign block, braces included, one blank behind that word. -/
def Token.ofForeignCode (code : String) : Token :=
  ⟨.foreignCode, ⟨7, 9 + code.utf8ByteSize⟩, "\x7b" ++ code ++ "\x7d", []⟩

namespace TokenStream

/-- Balanced code in braces, behind the word that opens it, is one token, and lexing goes on right behind it. -/
theorem ofText_foreign {code : String} {items : List ForeignItem} (hreads : ForeignItem.Reads code.toList items)
    (hbalanced : ForeignItem.Balanced items) (rest : String) :
    ofText ("extern \x7b" ++ code ++ "\x7d" ++ rest) =
      let later := (ofText rest).shift (9 + code.utf8ByteSize)
      ⟨.ofForeignWord :: .ofForeignCode code :: later.tokens, later.final, later.reports⟩ := by
  have hchars : ("extern \x7b" ++ code ++ "\x7d" ++ rest).toList =
      "extern \x7b".toList ++ (code.toList ++ '\x7d' :: rest.toList) := by
    simp [String.toList_append]
  have htext : String.ofList ('\x7b' :: (code.toList ++ ['\x7d'])) = "\x7b" ++ code ++ "\x7d" :=
    String.toList_injective (by simp [String.toList_append])
  have hlex := (congrArg (lexemes false) hchars).trans (Lexeme.lexemes_foreign hreads hbalanced rest.toList)
  have htokens (stop : Nat) : Lexeme.tokens stop [] (Lexeme.placeFrom 0 (Lexeme.ofForeign code.toList)) =
      ([.ofForeignWord, .ofForeignCode code], ⟨.endOfFile, ⟨stop, stop⟩, "", []⟩) := by
    rw [Lexeme.placeFrom_ofForeign, Utf8.size_toList, Token.ofForeignCode, ← htext]
    rfl
  rw [ofText_of_lexemes hlex htokens, Lexeme.size_ofForeign, Utf8.size_toList, Lexeme.placeFrom_ofForeign]
  rfl

end TokenStream
end Palimpsest
