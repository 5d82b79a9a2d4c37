import Palimpsest.Proofs.Surface.Literals
import Palimpsest.Proofs.Text.Cut
import Palimpsest.Proofs.Text.Quoted
import Palimpsest.Proofs.Token.Recut

/-!
Bodies of string literals. A body is decoded exactly if it falls into characters and escapes, and is refused at the
first backslash that starts no escape. What lexing takes for a string literal has its backslashes in pairs with
what they stand before, so that no backslash is left over and every quote inside is escaped.
-/

namespace Palimpsest
namespace Quoted

/-- The escapes of one character, and what they mean. -/
def shortEscapes : List (Char × Char) :=
  [('n', '\n'), ('t', '\t'), ('r', '\r'), ('0', '\x00'), ('\\', '\\'), ('"', '"'), ('\'', '\'')]

/-- A hex digit in either case, and its value. -/
def HexDigit (c : Char) (n : Nat) : Prop := n < 16 ∧ (c = n.digitChar ∨ c = n.digitChar.toUpper)

/-- A character or an escape, and the character that it means. -/
inductive Means : List Char → Char → Prop where
  | plain {c : Char} (hc : c ≠ '\\') : Means [c] c
  | short {e c : Char} (he : (e, c) ∈ shortEscapes) : Means ['\\', e] c
  | hex {a b : Char} {m n : Nat} (ha : HexDigit a m) (hb : HexDigit b n) :
      Means ['\\', 'x', a, b] (Char.ofNat (16 * m + n))

/-- A body is made of characters and escapes, and its value of what they mean. -/
def Decodes (body value : List Char) : Prop :=
  ∃ parts : List (List Char × Char), (∀ p ∈ parts, Means p.1 p.2) ∧
    body = parts.flatMap Prod.fst ∧ value = parts.map Prod.snd

/-- An escape, or a character that is no backslash, stands in front. -/
def Starts (cs : List Char) : Prop := ∃ part c rest, Means part c ∧ cs = part ++ rest

theorem mem_shortEscapes {e c : Char} : (e, c) ∈ shortEscapes ↔ simpleEscape? e = some c := by
  constructor
  · intro h
    have hall : ∀ p ∈ shortEscapes, simpleEscape? p.1 = some p.2 := by decide
    exact hall (e, c) h
  · intro h
    unfold simpleEscape? at h
    split at h <;> cases h <;> decide

theorem hexDigit_iff {c : Char} {n : Nat} : HexDigit c n ↔ isHexDigit c = true ∧ n = hexValue c := by
  constructor
  · intro h
    obtain ⟨hlt, hc⟩ := h
    have hall : ∀ k < 16, (isHexDigit k.digitChar = true ∧ k = hexValue k.digitChar) ∧
        isHexDigit k.digitChar.toUpper = true ∧ k = hexValue k.digitChar.toUpper := by decide
    cases hc with
    | inl hc => exact hc ▸ (hall n hlt).1
    | inr hc => exact hc ▸ (hall n hlt).2
  · intro h
    obtain ⟨hdigit, rfl⟩ := h
    have hall : ∀ k < 128, isHexDigit (Char.ofNat k) = true → hexValue (Char.ofNat k) < 16 ∧
        (Char.ofNat k = (hexValue (Char.ofNat k)).digitChar ∨
          Char.ofNat k = (hexValue (Char.ofNat k)).digitChar.toUpper) := by decide
    have hascii := Char.utf8Size_eq_one_iff.mp (utf8Size_of_isHexDigit hdigit)
    have hlt : c.toNat < 128 := Nat.lt_succ_of_le (UInt32.le_iff_toNat_le.mp hascii)
    have h := hall c.toNat hlt
    rw [Char.ofNat_toNat] at h
    exact h hdigit

theorem Decodes.cons {part body value : List Char} {c : Char} (hpart : Means part c) (h : Decodes body value) :
    Decodes (part ++ body) (c :: value) := by
  obtain ⟨parts, hparts, rfl, rfl⟩ := h
  exact ⟨(part, c) :: parts, List.forall_mem_cons.mpr ⟨hpart, hparts⟩, rfl, rfl⟩

/-- The grammar's literals are those that fall into parts. -/
theorem spells_iff_decodes {body value : List Char} : Surface.Spells body value ↔ Decodes body value := by
  constructor
  · intro h
    induction h with
    | nil => exact ⟨[], by simp, rfl, rfl⟩
    | plain hc _ ih => exact ih.cons (.plain hc)
    | escape he _ ih => exact ih.cons (.short (mem_shortEscapes.mpr he))
    | hex ha hb _ ih => exact ih.cons (.hex (hexDigit_iff.mpr ⟨ha, rfl⟩) (hexDigit_iff.mpr ⟨hb, rfl⟩))
  · intro h
    obtain ⟨parts, hparts, rfl, rfl⟩ := h
    induction parts with
    | nil => exact .nil
    | cons p rest ih =>
        obtain ⟨part, c⟩ := p
        obtain ⟨hfirst, hrest⟩ := List.forall_mem_cons.mp hparts
        change Means part c at hfirst
        cases hfirst with
        | plain hc => exact .plain hc (ih hrest)
        | short he => exact .escape (mem_shortEscapes.mp he) (ih hrest)
        | hex ha hb =>
            obtain ⟨hdigit, rfl⟩ := hexDigit_iff.mp ha
            obtain ⟨hdigit', rfl⟩ := hexDigit_iff.mp hb
            exact .hex hdigit hdigit' (ih hrest)

section Refused

/-- What a backslash has to stand before. -/
theorem starts_backslash {cs : List Char} : Starts ('\\' :: cs) ↔
    (∃ e c rest, cs = e :: rest ∧ simpleEscape? e = some c) ∨
      ∃ a b rest, cs = 'x' :: a :: b :: rest ∧ isHexDigit a = true ∧ isHexDigit b = true := by
  constructor
  · intro h
    obtain ⟨part, c, rest, hpart, heq⟩ := h
    cases hpart with
    | plain hc => exact absurd (List.cons.inj heq).1.symm hc
    | @short e _ he => exact .inl ⟨e, c, rest, (List.cons.inj heq).2, mem_shortEscapes.mp he⟩
    | @hex a b _ _ ha hb =>
        exact .inr ⟨a, b, rest, (List.cons.inj heq).2, (hexDigit_iff.mp ha).1, (hexDigit_iff.mp hb).1⟩
  · intro h
    cases h with
    | inl hshort =>
        obtain ⟨e, c, rest, rfl, he⟩ := hshort
        exact ⟨['\\', e], c, rest, .short (mem_shortEscapes.mpr he), rfl⟩
    | inr hhex =>
        obtain ⟨a, b, rest, rfl, ha, hb⟩ := hhex
        exact ⟨['\\', 'x', a, b], _, rest, .hex (hexDigit_iff.mpr ⟨ha, rfl⟩) (hexDigit_iff.mpr ⟨hb, rfl⟩), rfl⟩

/-- Decoding stops at a backslash: all before it is decoded, and no escape starts there. -/
def Stops (e : EscapeError) (offset : Nat) (cs : List Char) : Prop :=
  ∃ before after value, cs = before ++ '\\' :: after ∧ e.offset = offset + Utf8.size before ∧
    Decodes before value ∧ ¬Starts ('\\' :: after)

theorem Stops.here {e : EscapeError} {after : List Char} (hstarts : ¬Starts ('\\' :: after)) :
    Stops e e.offset ('\\' :: after) :=
  ⟨[], after, [], rfl, rfl, ⟨[], by simp, rfl, rfl⟩, hstarts⟩

theorem Stops.behind {e : EscapeError} {offset : Nat} {part cs : List Char} {c : Char} (hpart : Means part c)
    (h : Stops e (offset + Utf8.size part) cs) : Stops e offset (part ++ cs) := by
  obtain ⟨before, after, value, rfl, hoffset, hdecodes, hstarts⟩ := h
  refine ⟨part ++ before, after, c :: value, (List.append_assoc _ _ _).symm, ?_, hdecodes.cons hpart, hstarts⟩
  rw [hoffset, Utf8.size_append, Nat.add_assoc]

theorem stops_of_unescapeFrom {offset : Nat} {cs : List Char} {e : EscapeError}
    (h : unescapeFrom offset cs = .error e) : Stops e offset cs := by
  fun_induction unescapeFrom offset cs with
  | case1 => cases h
  | case2 offset =>
      cases h
      exact .here (by simp [starts_backslash])
  | case3 offset =>
      cases h
      exact .here (by simp [starts_backslash, simpleEscape?])
  | case4 offset a =>
      cases h
      exact .here (by simp [starts_backslash, simpleEscape?])
  | case5 offset a b cs hdigits ih =>
      rw [Bool.and_eq_true] at hdigits
      apply Stops.behind (.hex (hexDigit_iff.mpr ⟨hdigits.1, rfl⟩) (hexDigit_iff.mpr ⟨hdigits.2, rfl⟩))
      rw [size_hexEscape hdigits.1 hdigits.2]
      exact ih (cons_eq_error h)
  | case6 offset a b cs hdigits =>
      cases h
      exact .here (by simpa [starts_backslash, simpleEscape?] using hdigits)
  | case7 offset e cs _ _ _ c hescape ih =>
      apply Stops.behind (.short (mem_shortEscapes.mpr hescape))
      rw [size_shortEscape hescape]
      exact ih (cons_eq_error h)
  | case8 offset e cs _ _ hmore hnone =>
      cases h
      refine .here ?_
      rw [starts_backslash]
      intro hstarts
      cases hstarts with
      | inl hshort =>
          obtain ⟨_, c, rest, heq, hsome⟩ := hshort
          rw [← (List.cons.inj heq).1, hnone] at hsome
          cases hsome
      | inr hhex =>
          obtain ⟨a, b, rest, heq, -, -⟩ := hhex
          exact hmore a b rest (List.cons.inj heq).1 (List.cons.inj heq).2
  | case9 offset c cs hend _ _ _ hbackslash ih =>
      exact .behind (.plain (ne_backslash hend hbackslash)) (ih (cons_eq_error h))

theorem Decodes.starts {body value : List Char} (h : Decodes body value) (hne : body ≠ []) : Starts body := by
  obtain ⟨parts, hparts, rfl, rfl⟩ := h
  cases parts with
  | nil => exact absurd rfl hne
  | cons p rest => exact ⟨p.1, p.2, rest.flatMap Prod.fst, hparts p List.mem_cons_self, rfl⟩

/-- Where a front part is decoded, decoding goes on behind it. -/
theorem starts_behind {front rest value whole : List Char} (hfront : Surface.Spells front value)
    (h : Surface.Spells (front ++ rest) whole) (hne : rest ≠ []) : Starts rest := by
  induction hfront generalizing whole with
  | nil => exact (spells_iff_decodes.mp h).starts hne
  | @plain _ body _ hc _ ih =>
      rw [List.cons_append] at h
      generalize body ++ rest = tail at h ih
      cases h with
      | plain _ h => exact ih h
      | escape | hex => exact absurd rfl hc
  | @escape _ _ body _ he _ ih =>
      simp only [List.cons_append] at h
      generalize body ++ rest = tail at h ih
      cases h with
      | plain hc => exact absurd rfl hc
      | escape _ h => exact ih h
      | hex => cases he
  | @hex _ _ body _ _ _ _ ih =>
      simp only [List.cons_append] at h
      generalize body ++ rest = tail at h ih
      cases h with
      | plain hc => exact absurd rfl hc
      | escape he => cases he
      | hex _ _ h => exact ih h

/-- A body is refused at the first backslash that starts no escape: what stands before it is decoded, every
backslash there that is not part of an escape starts one, and what is blamed is a part of the body. -/
structure Refuses (body : String) (e : EscapeError) : Prop where
  backslash : ∃ before after value, body.toList = before ++ '\\' :: after ∧ e.offset = Utf8.size before ∧
    Decodes before value ∧ ¬Starts ('\\' :: after) ∧
      ∀ front rest value', before = front ++ '\\' :: rest → Decodes front value' → Starts ('\\' :: rest)
  fits : Span.Fits body ⟨e.offset, e.offset + e.length⟩

theorem unescapeFrom_of_error {body : String} {e : EscapeError} (h : unescape body = .error e) :
    unescapeFrom 0 body.toList = .error e := by
  rw [unescape] at h
  cases hfrom : unescapeFrom 0 body.toList with
  | error e' =>
      rw [hfrom] at h
      exact congrArg Except.error (Except.error.inj h)
  | ok value =>
      rw [hfrom] at h
      cases h

theorem refuses_of_unescape {body : String} {e : EscapeError} (h : unescape body = .error e) : Refuses body e := by
  have hfrom := unescapeFrom_of_error h
  constructor
  case backslash =>
    obtain ⟨before, after, value, hbody, hoffset, hdecodes, hstarts⟩ := stops_of_unescapeFrom hfrom
    rw [Nat.zero_add] at hoffset
    refine ⟨before, after, value, hbody, hoffset, hdecodes, hstarts, ?_⟩
    intro front rest value' hsplit hfront
    exact starts_behind (spells_iff_decodes.mpr hfront) (spells_iff_decodes.mpr (hsplit ▸ hdecodes)) (by simp)
  case fits =>
    obtain ⟨before, bad, after, hbody, hoffset, hlength⟩ := covers_of_unescapeFrom hfrom
    rw [Nat.zero_add] at hoffset
    exact Span.Cuts.fits ⟨before, after, hbody, by rw [hoffset, hlength]⟩

end Refused
end Quoted

namespace Lexeme

theorem next_quote (b : Bool) (cs : List Char) : next b '"' cs = string '"' cs := by
  cases b <;> rfl

/-- The characters of a string literal between its quotes are paired. -/
theorem paired_next {b : Bool} {c : Char} {cs : List Char} (h : (next b c cs).1.kind = .token .stringLiteral) :
    ∃ body, (next b c cs).1.chars = '"' :: body ++ ['"'] ∧ Quoted.Paired body := by
  have hspells := spells_next b c cs
  rw [h] at hspells
  obtain ⟨body, hbody⟩ := hspells.2.2.1 rfl
  -- Only a quote starts a lexeme with a quote in front.
  obtain rfl : c = '"' := by
    have hchars := (chars_next_eq_cons b c cs).1
    rw [hbody] at hchars
    exact (List.cons.inj hchars).1.symm
  rw [next_quote] at h ⊢
  cases hclosed : (stringBody cs).closed with
  | false => simp [string, take, hclosed] at h
  | true =>
      obtain ⟨inside, hfront, hpaired⟩ := closing_stringBody cs hclosed
      exact ⟨inside, congrArg ('"' :: ·) hfront, hpaired⟩

end Lexeme

namespace Surface

/-- What is between the quotes of a string literal. -/
theorem paired_inner {text : String} {t : Token} (ht : t ∈ (TokenStream.ofText text).tokens)
    (hkind : t.kind = .stringLiteral) :
    t.text.toList = '"' :: Expr.inner t.text ++ ['"'] ∧ Quoted.Paired (Expr.inner t.text) := by
  obtain ⟨p, -, hmem, hlexeme, htext, -⟩ := TokenStream.exists_lexeme ht
  have hstring : p.1.kind = .token .stringLiteral := by
    rw [hkind] at hlexeme
    cases hp : p.1.kind with
    | blank | comment _ | faulty _ => simp [Lexeme.tokenKind?, hp] at hlexeme
    | token kind => simpa [Lexeme.tokenKind?, hp] using hlexeme
  have hall := forall_mem_lexemes (P := fun l => l.kind = .token .stringLiteral →
    ∃ body, l.chars = '"' :: body ++ ['"'] ∧ Quoted.Paired body) fun _ _ _ => Lexeme.paired_next
  obtain ⟨body, hbody, hpaired⟩ := hall false text.toList p.1 hmem hstring
  have hchars : t.text.toList = '"' :: body ++ ['"'] := by
    rw [← htext, Lexeme.text, String.toList_ofList, hbody]
  have hinner : Expr.inner t.text = body := by simp [Expr.inner, hchars]
  exact hinner ▸ ⟨hchars, hpaired⟩

/-- Escapes are decoded exactly, and where a literal ends is where decoding it would end. -/
theorem escapes_decoded :
    (∀ body value, Quoted.unescape body = .ok value ↔ Quoted.Decodes body.toList value.toList) ∧
      (∀ body e, Quoted.unescape body = .error e → Quoted.Refuses body e) ∧
      ∀ text, ∀ t ∈ (TokenStream.ofText text).tokens, t.kind = .stringLiteral →
        t.text.toList = '"' :: Expr.inner t.text ++ ['"'] ∧
        (∀ e, Quoted.unescape (String.ofList (Expr.inner t.text)) = .error e → e.fault ≠ .loneBackslash) ∧
        ∀ before after, Expr.inner t.text = before ++ '"' :: after →
          ∃ front, before = front ++ ['\\'] ∧ Quoted.Paired front := by
  refine ⟨?decoded, fun body e => Quoted.refuses_of_unescape, ?literal⟩
  case decoded =>
    intro body value
    rw [← Quoted.spells_iff_decodes, ← unescape_eq_ok, String.ofList_toList]
  case literal =>
    intro text t ht hkind
    obtain ⟨hquotes, hpaired⟩ := paired_inner ht hkind
    refine ⟨hquotes, ?_, fun before after => hpaired.quote⟩
    intro e herror
    have hfrom := Quoted.unescapeFrom_of_error herror
    rw [String.toList_ofList] at hfrom
    exact hpaired.fault_ne hfrom

/-- An escaped quote ends neither the literal nor what is decoded of it; a hex escape that is cut short does. -/
theorem escapes_decoded_short :
    (Quoted.unescape "\\x41\\\"" = .ok "A\"" ∧ Quoted.Decodes "\\x41\\\"".toList "A\"".toList) ∧
      (Quoted.unescape "a\\\"\\x4" = .error ⟨3, 3, .badHex⟩ ∧ Quoted.Refuses "a\\\"\\x4" ⟨3, 3, .badHex⟩) ∧
      (⟨.stringLiteral, ⟨1, 9⟩, "\"a\\\"\\x4\"", []⟩ : Token) ∈ (TokenStream.ofText " \"a\\\"\\x4\";").tokens ∧
      ∃ front, ['a', '\\'] = front ++ ['\\'] ∧ Quoted.Paired front := by
  have hok : Quoted.unescape "\\x41\\\"" = .ok "A\"" := by decide
  have herror : Quoted.unescape "a\\\"\\x4" = .error ⟨3, 3, .badHex⟩ := by decide
  have htoken : (⟨.stringLiteral, ⟨1, 9⟩, "\"a\\\"\\x4\"", []⟩ : Token) ∈
      (TokenStream.ofText " \"a\\\"\\x4\";").tokens := by
    decide +kernel
  obtain ⟨hdecoded, hrefused, hliteral⟩ := escapes_decoded
  refine ⟨⟨hok, (hdecoded _ _).mp hok⟩, ⟨herror, hrefused _ _ herror⟩, htoken, ?_⟩
  exact (hliteral _ _ htoken rfl).2.2 ['a', '\\'] ['\\', 'x', '4'] (by decide)

end Surface
end Palimpsest
