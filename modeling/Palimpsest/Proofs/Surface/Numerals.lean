import Palimpsest.Proofs.Surface.Escapes
import Palimpsest.Proofs.Surface.Literals
import Palimpsest.Proofs.Surface.Nested
import Palimpsest.Proofs.Token.Part

/-!
Integer literals. A text that starts with a digit starts with the longest numeral there is, as one token, and the
statement that the token opens has the number that the digits write, or an error in its place (`reads_numeral`).
-/

namespace Palimpsest
namespace Surface

open Lexeme (Cut isHexPart isDecimalPart)

/-- Digits of a base with underscores between them, and the values of the digits in order. -/
inductive Digits (base : Nat) : List Char → List Nat → Prop where
  | nil : Digits base [] []
  | digit {c : Char} {n : Nat} {cs : List Char} {ns : List Nat} (hc : Quoted.HexDigit c n) (hn : n < base)
      (h : Digits base cs ns) : Digits base (c :: cs) (n :: ns)
  | underscore {cs : List Char} {ns : List Nat} (h : Digits base cs ns) : Digits base ('_' :: cs) ns

/-- What an integer literal looks like, its base, and the values of its digits. -/
inductive Numeral : List Char → Nat → List Nat → Prop where
  | hex {x : Char} {body : List Char} {ns : List Nat} (hx : x = 'x' ∨ x = 'X') (h : Digits 16 body ns) :
      Numeral ('0' :: x :: body) 16 ns
  | decimal {cs : List Char} {ns : List Nat} (h : Digits 10 cs ns) : Numeral cs 10 ns

/-- The predicate tells the digits of a base and underscores from other characters. -/
def Recognizes (p : Char → Bool) (base : Nat) : Prop := ∀ c, p c = true ↔ c = '_' ∨ ∃ n < base, Quoted.HexDigit c n

theorem recognizes_isHexPart : Recognizes isHexPart 16 := by
  intro c
  rw [isHexPart, Bool.or_eq_true, beq_iff_eq, or_comm]
  refine or_congr_right ⟨fun h => ?_, fun h => ?_⟩
  · have hdigit : Quoted.HexDigit c (Quoted.hexValue c) := Quoted.hexDigit_iff.mpr ⟨h, rfl⟩
    exact ⟨_, hdigit.1, hdigit⟩
  · obtain ⟨n, -, hdigit⟩ := h
    exact (Quoted.hexDigit_iff.mp hdigit).1

theorem recognizes_isDecimalPart : Recognizes isDecimalPart 10 := by
  intro c
  rw [isDecimalPart, Bool.or_eq_true, beq_iff_eq, or_comm]
  refine or_congr_right ⟨fun h => ?_, fun h => ?_⟩
  · have hdigit : Quoted.HexDigit c (Quoted.hexValue c) :=
      Quoted.hexDigit_iff.mpr ⟨by simp [Quoted.isHexDigit, h], rfl⟩
    refine ⟨_, ?_, hdigit⟩
    rw [Quoted.hexValue, if_pos h]
    simp only [Char.isDigit, Bool.and_eq_true, decide_eq_true_eq] at h
    have hle : c.toNat ≤ 57 := UInt32.le_iff_toNat_le.mp h.2
    omega
  · obtain ⟨n, hn, -, hdigit⟩ := h
    have hall : ∀ k < 10, k.digitChar.isDigit = true ∧ k.digitChar.toUpper.isDigit = true := by decide
    cases hdigit with
    | inl hc => exact hc ▸ (hall n hn).1
    | inr hc => exact hc ▸ (hall n hn).2

variable {p : Char → Bool} {base : Nat} {cs : List Char} {ns : List Nat}

theorem digits_iff (hp : Recognizes p base) : Digits base cs ns ↔ (∀ c ∈ cs, p c = true) ∧ ns = digitsOf cs := by
  constructor
  · intro h
    induction h with
    | nil => exact ⟨fun _ hc => absurd hc List.not_mem_nil, rfl⟩
    | @digit c n cs ns hc hn _ ih =>
        obtain ⟨hall, rfl⟩ := ih
        obtain ⟨hdigit, rfl⟩ := Quoted.hexDigit_iff.mp hc
        have hne : c ≠ '_' := by
          rintro rfl
          exact absurd hdigit (by decide)
        refine ⟨List.forall_mem_cons.mpr ⟨(hp c).mpr (.inr ⟨_, hn, hc⟩), hall⟩, ?_⟩
        simp [digitsOf, hne]
    | underscore _ ih =>
        obtain ⟨hall, rfl⟩ := ih
        exact ⟨List.forall_mem_cons.mpr ⟨(hp '_').mpr (.inl rfl), hall⟩, rfl⟩
  · rintro ⟨hall, rfl⟩
    induction cs with
    | nil => exact .nil
    | cons c cs ih =>
        obtain ⟨hc, hrest⟩ := List.forall_mem_cons.mp hall
        by_cases hunderscore : c = '_'
        · rw [hunderscore]
          exact .underscore (ih hrest)
        · obtain ⟨n, hn, hdigit⟩ := ((hp c).mp hc).resolve_left hunderscore
          obtain ⟨-, rfl⟩ := Quoted.hexDigit_iff.mp hdigit
          have hcons : digitsOf (c :: cs) = Quoted.hexValue c :: digitsOf cs := by simp [digitsOf, hunderscore]
          rw [hcons]
          exact .digit hdigit hn (ih hrest)

theorem digits_takeWhile (hp : Recognizes p base) (cs : List Char) :
    Digits base (cs.takeWhile p) (digitsOf (cs.takeWhile p)) :=
  (digits_iff hp).mpr ⟨List.all_eq_true.mp List.all_takeWhile, rfl⟩

/-- Digits in front are among those that a scan takes. -/
theorem Digits.prefix_takeWhile (hp : Recognizes p base) {w : List Char} (h : Digits base w ns) (hw : w <+: cs) :
    w <+: cs.takeWhile p := by
  obtain ⟨rest, rfl⟩ := hw
  rw [List.takeWhile_append_of_pos ((digits_iff hp).mp h).1]
  exact List.prefix_append _ _

section Lexing

open Lexeme

variable {d : Char}

theorem numberCut_hex {x : Char} (hx : x = 'x' ∨ x = 'X') (ds : List Char) :
    numberCut '0' (x :: ds) = (Cut.ofPredicate isHexPart ds).cons x := if_pos ⟨rfl, hx⟩

theorem numberCut_decimal (hplain : ∀ x ds, d :: cs = '0' :: x :: ds → ¬(x = 'x' ∨ x = 'X')) :
    numberCut d cs = Cut.ofPredicate isDecimalPart cs := by
  cases cs with
  | nil => rfl
  | cons x ds => exact if_neg fun h => hplain x ds (by rw [h.1]) h.2

theorem isDecimalPart_of_isDigit (hd : d.isDigit = true) : isDecimalPart d = true ∧ d ≠ '_' := by
  refine ⟨by rw [isDecimalPart, hd, Bool.true_or], ?_⟩
  rintro rfl
  exact absurd hd (by decide)

theorem Numeral.prefix_hex {x : Char} (hx : x = 'x' ∨ x = 'X') {w ds : List Char} (h : Numeral w base ns)
    (hw : w <+: '0' :: x :: ds) : w <+: '0' :: x :: ds.takeWhile isHexPart := by
  cases h with
  | hex _ h =>
      obtain ⟨-, hw⟩ := List.cons_prefix_cons.mp hw
      obtain ⟨rfl, hbody⟩ := List.cons_prefix_cons.mp hw
      have htaken := h.prefix_takeWhile recognizes_isHexPart hbody
      exact List.cons_prefix_cons.mpr ⟨rfl, List.cons_prefix_cons.mpr ⟨rfl, htaken⟩⟩
  | decimal h =>
      -- The letter is no decimal digit, so that the zero stands alone.
      have hzero := h.prefix_takeWhile recognizes_isDecimalPart hw
      have hletter : isDecimalPart x = false := by
        rcases hx with rfl | rfl <;> decide
      have htake : ('0' :: x :: ds).takeWhile isDecimalPart = ['0'] := by
        rw [List.takeWhile_cons_of_pos (by decide), List.takeWhile_cons_of_neg (by simp [hletter])]
      rw [htake] at hzero
      exact hzero.trans (List.cons_prefix_cons.mpr ⟨rfl, List.nil_prefix⟩)

theorem Numeral.prefix_decimal (hplain : ∀ x ds, cs = '0' :: x :: ds → ¬(x = 'x' ∨ x = 'X')) {w : List Char}
    (h : Numeral w base ns) (hw : w <+: cs) : w <+: cs.takeWhile isDecimalPart := by
  cases h with
  | hex hx _ =>
      obtain ⟨rest, hrest⟩ := hw
      exact absurd hx (hplain _ _ hrest.symm)
  | decimal h => exact h.prefix_takeWhile recognizes_isDecimalPart hw

/-- What lexing takes is a numeral, and every other in front of the text is a part of it. -/
theorem exists_numeral (hd : d.isDigit = true) (cs : List Char) :
    ∃ base ns, Numeral (d :: (numberCut d cs).front) base ns ∧ (ns = [] → base = 16) ∧
      ∀ w base' ns', Numeral w base' ns' → w <+: d :: cs → w <+: d :: (numberCut d cs).front := by
  by_cases hhex : ∃ x ds, d :: cs = '0' :: x :: ds ∧ (x = 'x' ∨ x = 'X')
  · obtain ⟨x, ds, hds, hx⟩ := hhex
    obtain ⟨rfl, rfl⟩ := List.cons.inj hds
    rw [numberCut_hex hx]
    exact ⟨16, _, .hex hx (digits_takeWhile recognizes_isHexPart ds), fun _ => rfl, fun _ _ _ h => h.prefix_hex hx⟩
  · have hplain : ∀ x ds, d :: cs = '0' :: x :: ds → ¬(x = 'x' ∨ x = 'X') :=
      fun x ds hds hx => hhex ⟨x, ds, hds, hx⟩
    obtain ⟨hpart, hne⟩ := isDecimalPart_of_isDigit hd
    have hfront : d :: (numberCut d cs).front = (d :: cs).takeWhile isDecimalPart := by
      rw [numberCut_decimal hplain, List.takeWhile_cons_of_pos hpart]
      rfl
    have hdigit : digitsOf ((d :: cs).takeWhile isDecimalPart) ≠ [] := by
      simp [digitsOf, List.takeWhile_cons_of_pos hpart, hne]
    rw [hfront]
    exact ⟨10, _, .decimal (digits_takeWhile recognizes_isDecimalPart (d :: cs)), fun hnil => absurd hnil hdigit,
      fun _ _ _ h => h.prefix_decimal hplain⟩

theorem next_digit (hd : d.isDigit = true) (cs : List Char) :
    next false d cs = (⟨.token .intLiteral, d :: (numberCut d cs).front⟩, (numberCut d cs).rest) := by
  obtain ⟨hpart, hne⟩ := isDecimalPart_of_isDigit hd
  obtain ⟨n, hn, -, hdigit⟩ := ((recognizes_isDecimalPart d).mp hpart).resolve_left hne
  have hall : ∀ k < 10, k.digitChar.toUpper = k.digitChar ∧
      isBlank k.digitChar = false ∧ k.digitChar ≠ '/' ∧ isWordStart k.digitChar = false := by decide
  obtain ⟨hupper, hblank, hslash, hword⟩ := hall n hn
  rw [hupper, or_self] at hdigit
  rw [← hdigit] at hblank hslash hword
  have hplain : next false d cs = plain false d cs :=
    next_of_plain false (by simp [hblank]) fun _ _ hcomment => absurd hcomment hslash
  rw [hplain, plain, if_neg (fun h => absurd h.1 (by decide)), if_neg (by simp [hword]), if_pos hd, number_eq]
  rfl

end Lexing

namespace Numeral

/-- The number that digits write, the first of them the highest. -/
def value (base : Nat) (ns : List Nat) : Nat := Nat.ofDigits base ns.reverse

/-- An integer literal at the start of a text. -/
def token (literal : String) : Token := ⟨.intLiteral, ⟨0, literal.utf8ByteSize⟩, literal, []⟩

/-- The expression that a literal is read as and what is reported about it: a number, if there is a digit and the
number has a place in 64 bits, and an error else. -/
structure Means (t : Token) (base : Nat) (ns : List Nat) (e : Expr) (reports : List Diagnostic) : Prop where
  fits : ns ≠ [] → value base ns < 2 ^ 64 → (∃ n : UInt64, n.toNat = value base ns ∧ e = .int n t.span) ∧ reports = []
  overflows : 2 ^ 64 ≤ value base ns → e = .bad t.span ∧ reports =
    [.error .integerOverflow ("integer literal '" ++ t.text ++ "' does not fit in 64 bits") t.span]
  empty : ns = [] → e = .bad t.span ∧ reports = [.error .unexpectedToken "integer literal has no digits" t.span]

theorem spec {literal : List Char} (h : Numeral literal base ns) :
    (Expr.numeral literal).1.map Quoted.hexValue = ns ∧ (Expr.numeral literal).2 = base := by
  cases h with
  | hex hx h =>
      rw [numeral_hex hx]
      exact ⟨((digits_iff recognizes_isHexPart).mp h).2.symm, rfl⟩
  | decimal h =>
      obtain ⟨hall, rfl⟩ := (digits_iff recognizes_isDecimalPart).mp h
      have hplain : ∀ x body, literal = '0' :: x :: body → x ≠ 'x' ∧ x ≠ 'X' := by
        rintro x body rfl
        have hx := hall x (List.mem_cons_of_mem _ List.mem_cons_self)
        exact ⟨by rintro rfl; exact absurd hx (by decide), by rintro rfl; exact absurd hx (by decide)⟩
      rw [numeral_decimal hplain]
      exact ⟨rfl, rfl⟩

theorem means_ofInt {t : Token} (h : Numeral t.text.toList base ns) (c : Cursor) :
    Means t base ns (Expr.ofInt t c).value (Expr.ofInt t c).reports ∧ (Expr.ofInt t c).next = c := by
  obtain ⟨hdigits, hbase⟩ := h.spec
  have hvalue : Expr.valueOf (Expr.numeral t.text.toList).2 (Expr.numeral t.text.toList).1 = value base ns := by
    rw [valueOf_eq, hdigits, hbase]
    rfl
  have hempty : (Expr.numeral t.text.toList).1.isEmpty = true ↔ ns = [] := by
    rw [← hdigits, List.isEmpty_iff, List.map_eq_nil_iff]
  unfold Expr.ofInt
  dsimp only
  rw [hvalue]
  split
  · next hnone =>
    have hnil := hempty.mp hnone
    refine ⟨?_, Eq.refl c⟩
    constructor
    · exact fun hne => absurd hnil hne
    · intro hlarge
      rw [hnil] at hlarge
      exact absurd hlarge (by simp [value])
    · exact fun _ => ⟨rfl, rfl⟩
  · next hsome =>
    have hne : ns ≠ [] := fun hnil => hsome (hempty.mpr hnil)
    split
    · next hsize =>
      have hn : (UInt64.ofNat (value base ns)).toNat = value base ns := UInt64.toNat_ofNat_of_lt hsize
      exact ⟨⟨fun _ _ => ⟨⟨_, hn, rfl⟩, rfl⟩, fun hlarge => absurd hsize (Nat.not_lt.mpr hlarge),
        fun hnil => absurd hnil hne⟩, rfl⟩
    · next hsize =>
      exact ⟨⟨fun _ hfits => absurd hfits hsize, fun _ => ⟨rfl, rfl⟩, fun hnil => absurd hnil hne⟩, rfl⟩

variable (literal rest : String)

/-- What lexing makes of the text behind the literal. -/
def later : TokenStream := (TokenStream.ofText rest).shift literal.utf8ByteSize

/-- The end of the statement, where a semicolon is wanted. -/
def ended : Step ⟨(later literal rest).tokens, (later literal rest).final, literal.utf8ByteSize⟩ Unit :=
  Parse.semicolon _

theorem ofText_literal (hlex : lexemes false (literal ++ rest).toList =
    ⟨.token .intLiteral, literal.toList⟩ :: lexemes false rest.toList) :
    TokenStream.ofText (literal ++ rest) =
      ⟨token literal :: (later literal rest).tokens, (later literal rest).final, (later literal rest).reports⟩ := by
  have htokens (stop : Nat) : Lexeme.tokens stop [] (Lexeme.placeFrom 0 [⟨.token .intLiteral, literal.toList⟩]) =
      ([token literal], ⟨.endOfFile, ⟨stop, stop⟩, "", []⟩) := by
    simp [Lexeme.tokens, Lexeme.placeFrom, Lexeme.tokenKind?, token, Lexeme.text, Utf8.size_toList]
  have hcons : lexemes false (literal ++ rest).toList =
      [⟨.token .intLiteral, literal.toList⟩] ++ lexemes false rest.toList := hlex
  have hlexed := TokenStream.ofText_of_lexemes hcons htokens
  rw [List.flatMap_singleton, Utf8.size_toList] at hlexed
  exact hlexed

/-- The text starts with the literal: no longer numeral stands there, it is one token, and the statement that it
opens has what it means. -/
structure Opens (text : String) (base : Nat) (ns : List Nat) : Prop where
  split : text = literal ++ rest
  numeral : Numeral literal.toList base ns
  hex : ns = [] → base = 16
  longest : ∀ w base' ns', Numeral w base' ns' → w <+: text.toList → w <+: literal.toList
  lexed : TokenStream.ofText text =
    ⟨token literal :: (later literal rest).tokens, (later literal rest).final, (later literal rest).reports⟩
  parsed : ∃ e reports, Means (token literal) base ns e reports ∧
    (parseText text).file.stmts = .expr e ⟨0, (ended literal rest).next.prevStop⟩ ::
      (Stmt.parseList (Stmt.parse maxNesting) false (ended literal rest).next).value ∧
    (parseText text).reports = (later literal rest).reports ++ (reports ++ ((ended literal rest).reports ++
      (Stmt.parseList (Stmt.parse maxNesting) false (ended literal rest).next).reports))

end Numeral

theorem Expr.parse_int {t : Token} (ht : t.kind = .intLiteral) (ts : List Token) (final : Token) (stop : Nat) :
    let s := parse ⟨t :: ts, final, stop⟩
    let value := ofInt t ⟨ts, final, t.span.stop⟩
    s.value = value.value ∧ s.reports = value.reports ∧ s.next = value.next := by
  obtain ⟨kind, span, text, leading⟩ := t
  cases ht
  exact ⟨rfl, rfl, rfl⟩

/-- A statement that starts with a literal is an expression up to a semicolon. -/
theorem Stmt.parse_literal (levels : Nat) {t : Token} (ht : t.kind = .intLiteral) (ts : List Token) (final : Token)
    (stop : Nat) :
    let s := parse levels ⟨t :: ts, final, stop⟩
    let value := Expr.parse ⟨t :: ts, final, stop⟩
    s.value = .expr value.value ((Parse.semicolon value.next).next.spanFrom t.span) ∧
      s.reports = value.reports ++ (Parse.semicolon value.next).reports ∧
      s.next = (Parse.semicolon value.next).next := by
  have hk : Cursor.kind ⟨t :: ts, final, stop⟩ = .intLiteral := ht
  dsimp only
  rw [parse_eq, parseWith_plain hk (by decide), parsePlain, Parse.bind_of_pure (Parse.kind_eq_pure hk)]
  exact ⟨rfl, congrArg (_ ++ ·) (List.append_nil _), rfl⟩

theorem Numeral.parsed_of_lexed {text literal rest : String} (h : Numeral literal.toList base ns)
    (hlexed : TokenStream.ofText text =
      ⟨token literal :: (later literal rest).tokens, (later literal rest).final, (later literal rest).reports⟩) :
    ∃ e reports, Means (token literal) base ns e reports ∧
      (parseText text).file.stmts = .expr e ⟨0, (ended literal rest).next.prevStop⟩ ::
        (Stmt.parseList (Stmt.parse maxNesting) false (ended literal rest).next).value ∧
      (parseText text).reports = (later literal rest).reports ++ (reports ++ ((ended literal rest).reports ++
        (Stmt.parseList (Stmt.parse maxNesting) false (ended literal rest).next).reports)) := by
  obtain ⟨hmeans, hstay⟩ := means_ofInt (t := token literal) h
    ⟨(later literal rest).tokens, (later literal rest).final, literal.utf8ByteSize⟩
  obtain ⟨hvalue, hreports, hnext⟩ :=
    Expr.parse_int (t := token literal) rfl (later literal rest).tokens (later literal rest).final 0
  obtain ⟨hstmt, hstmtReports, hstmtNext⟩ :=
    Stmt.parse_literal maxNesting (t := token literal) rfl (later literal rest).tokens (later literal rest).final 0
  obtain ⟨hstmts, hall⟩ := parseText_first hlexed rfl
  have hspan : (ended literal rest).next.spanFrom (token literal).span = ⟨0, (ended literal rest).next.prevStop⟩ := by
    rw [token, Cursor.spanFrom, Nat.max_zero]
  rw [hnext.trans hstay] at hstmt hstmtReports hstmtNext
  rw [hstmt, hstmtNext, hvalue] at hstmts
  rw [hstmtReports, hstmtNext, hreports, List.append_assoc] at hall
  rw [← hspan]
  exact ⟨_, _, hmeans, hstmts, hall⟩

end Surface
end Palimpsest
