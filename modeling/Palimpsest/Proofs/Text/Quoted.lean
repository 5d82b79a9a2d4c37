import Palimpsest.Proofs.Text.Size
import Palimpsest.Text.Quoted

/-!
Bad escapes and where they stand. What is blamed is a part of the body, counted in whole characters. Where each
backslash has something to stand before, none is left over at the end. A value is printed character by character, with
an escape for whatever would end the literal or the line.
-/

namespace Palimpsest
namespace Quoted

theorem blamedAfterHex_eq (cs : List Char) : ∃ a b, cs = a ++ b ∧ blamedAfterHex cs = Utf8.size a := by
  unfold blamedAfterHex
  split
  · exact ⟨[], [], rfl, rfl⟩
  · next a =>
    split
    · exact ⟨[a], [], rfl, rfl⟩
    · exact ⟨[], [a], rfl, rfl⟩
  · next a b cs =>
    split
    next hsize => exact ⟨[a], b :: cs, rfl, hsize.symm⟩
    next =>
      split
      next ha =>
        split
        next hb => exact ⟨[a, b], cs, rfl, by simp [ha, hb]⟩
        next => exact ⟨[], a :: b :: cs, rfl, rfl⟩
      next => exact ⟨[], a :: b :: cs, rfl, rfl⟩

/-- A bad escape covers a part of the characters behind `offset` bytes. -/
def EscapeError.Covers (e : EscapeError) (offset : Nat) (cs : List Char) : Prop :=
  ∃ before bad after, cs = before ++ bad ++ after ∧ e.offset = offset + Utf8.size before ∧ e.length = Utf8.size bad

namespace EscapeError.Covers

variable {e : EscapeError} {offset : Nat} {cs : List Char}

theorem append (front : List Char) (h : e.Covers (offset + Utf8.size front) cs) : e.Covers offset (front ++ cs) := by
  obtain ⟨before, bad, after, rfl, hoffset, hlength⟩ := h
  refine ⟨front ++ before, bad, after, ?_, ?_, hlength⟩
  · simp only [List.append_assoc]
  · rw [hoffset, Utf8.size_append, Nat.add_assoc]

/-- A bad hex escape covers what is blamed behind it. -/
theorem hex (offset : Nat) (cs : List Char) :
    Covers ⟨offset, 2 + blamedAfterHex cs, .badHex⟩ offset ('\\' :: 'x' :: cs) := by
  obtain ⟨a, b, rfl, hsize⟩ := blamedAfterHex_eq cs
  refine ⟨[], '\\' :: 'x' :: a, b, rfl, rfl, ?_⟩
  rw [hsize, Utf8.size_cons, Utf8.size_cons, ← Nat.add_assoc]
  rfl

end EscapeError.Covers

theorem utf8Size_of_isHexDigit {c : Char} (h : isHexDigit c = true) : c.utf8Size = 1 := by
  rw [Char.utf8Size_eq_one_iff]
  simp only [isHexDigit, Char.isDigit, Bool.or_eq_true, Bool.and_eq_true, decide_eq_true_eq, Char.le_def] at h
  rcases h with (h | h) | h <;> exact UInt32.le_trans h.2 (by decide)

theorem utf8Size_of_simpleEscape? {e c : Char} (h : simpleEscape? e = some c) : e.utf8Size = 1 := by
  unfold simpleEscape? at h
  split at h <;> first | rfl | cases h

theorem size_hexEscape {a b : Char} (ha : isHexDigit a = true) (hb : isHexDigit b = true) :
    Utf8.size ['\\', 'x', a, b] = 4 := by
  simp only [Utf8.size_cons, Utf8.size_nil, utf8Size_of_isHexDigit ha, utf8Size_of_isHexDigit hb]
  rfl

theorem size_shortEscape {e c : Char} (h : simpleEscape? e = some c) : Utf8.size ['\\', e] = 2 := by
  simp only [Utf8.size_cons, Utf8.size_nil, utf8Size_of_simpleEscape? h]
  rfl

theorem cons_eq_error {x : Except EscapeError (List Char)} {c : Char} {e : EscapeError}
    (h : (do let rest ← x; return c :: rest) = .error e) : x = .error e := by
  cases x with
  | error _ => exact h
  | ok rest => cases h

/-- What no case for a backslash takes is none. -/
theorem ne_backslash {c : Char} {cs : List Char} (hend : c = '\\' → cs = [] → False)
    (hmore : ∀ e rest, c = '\\' → cs = e :: rest → False) : c ≠ '\\' := by
  intro hc
  cases cs with
  | nil => exact hend hc rfl
  | cons e rest => exact hmore e rest hc rfl

theorem covers_of_unescapeFrom {offset : Nat} {cs : List Char} {e : EscapeError}
    (h : unescapeFrom offset cs = .error e) : e.Covers offset cs := by
  fun_induction unescapeFrom offset cs with
  | case1 => cases h
  | case2 offset =>
      cases h
      exact ⟨[], ['\\'], [], rfl, rfl, rfl⟩
  | case3 offset =>
      cases h
      exact .hex offset []
  | case4 offset a =>
      cases h
      exact .hex offset [a]
  | case5 offset a b cs hdigits ih =>
      rw [Bool.and_eq_true] at hdigits
      apply EscapeError.Covers.append ['\\', 'x', a, b]
      rw [size_hexEscape hdigits.1 hdigits.2]
      exact ih (cons_eq_error h)
  | case6 offset a b cs =>
      cases h
      exact .hex offset (a :: b :: cs)
  | case7 offset e cs _ _ _ c hescape ih =>
      apply EscapeError.Covers.append ['\\', e]
      rw [size_shortEscape hescape]
      exact ih (cons_eq_error h)
  | case8 offset e cs =>
      cases h
      exact ⟨[], ['\\', e], cs, rfl, rfl, rfl⟩
  | case9 offset c cs _ _ _ _ _ ih => exact (ih (cons_eq_error h)).append [c]

/-- Characters whose backslashes each take the next one along, and that have no quote of their own. -/
inductive Paired : List Char → Prop where
  | nil : Paired []
  | plain {c : Char} {cs : List Char} (hbackslash : c ≠ '\\') (hquote : c ≠ '"') (h : Paired cs) : Paired (c :: cs)
  | escape (e : Char) {cs : List Char} (h : Paired cs) : Paired ('\\' :: e :: cs)

namespace Paired

variable {cs : List Char}

/-- A quote is there only as what a backslash takes along. -/
theorem quote (h : Paired cs) {before after : List Char} (heq : cs = before ++ '"' :: after) :
    ∃ front, before = front ++ ['\\'] ∧ Paired front := by
  induction h generalizing before with
  | nil => simp at heq
  | @plain c _ hbackslash hquote _ ih =>
      cases before with
      | nil => exact absurd (List.cons.inj heq).1 hquote
      | cons d ds =>
          obtain ⟨rfl, hds⟩ := List.cons.inj heq
          obtain ⟨front, rfl, hfront⟩ := ih hds
          exact ⟨c :: front, rfl, .plain hbackslash hquote hfront⟩
  | escape e _ ih =>
      cases before with
      | nil => exact absurd (List.cons.inj heq).1 (by decide)
      | cons d ds =>
          obtain ⟨rfl, hds⟩ := List.cons.inj heq
          cases ds with
          | nil => exact ⟨[], rfl, .nil⟩
          | cons d ds =>
              obtain ⟨rfl, hinner⟩ := List.cons.inj hds
              obtain ⟨front, rfl, hfront⟩ := ih hinner
              exact ⟨'\\' :: e :: front, rfl, .escape e hfront⟩

theorem of_cons (h : Paired (c :: cs)) (hc : c ≠ '\\') : Paired cs := by
  cases h with
  | plain _ _ h => exact h
  | escape => exact absurd rfl hc

theorem of_escape {e : Char} (h : Paired ('\\' :: e :: cs)) : Paired cs := by
  cases h with
  | plain hc => exact absurd rfl hc
  | escape _ h => exact h

theorem fault_ne (h : Paired cs) {offset : Nat} {e : EscapeError} (herror : unescapeFrom offset cs = .error e) :
    e.fault ≠ .loneBackslash := by
  fun_induction unescapeFrom offset cs with
  | case1 => cases herror
  | case2 =>
      cases h with
      | plain hc => exact absurd rfl hc
  | case3 | case4 | case6 | case8 =>
      cases herror
      intro hfault
      cases hfault
  | case5 offset a b cs hdigits ih =>
      rw [Bool.and_eq_true] at hdigits
      have hdigit {c : Char} (hc : isHexDigit c = true) : c ≠ '\\' := by
        intro heq
        rw [heq] at hc
        cases hc
      exact ih ((h.of_escape.of_cons (hdigit hdigits.1)).of_cons (hdigit hdigits.2)) (cons_eq_error herror)
  | case7 offset e cs _ _ _ c _ ih => exact ih h.of_escape (cons_eq_error herror)
  | case9 offset c cs hend _ _ _ hmore ih => exact ih (h.of_cons (ne_backslash hend hmore)) (cons_eq_error herror)

end Paired

/-- Control characters that are printed in octal, for want of a short escape. -/
def needsOctal (c : Char) : Bool :=
  (c.toNat < 32 || c.toNat == 127) && c != '\n' && c != '\t' && c != '\r'

def octalDigits : List Char := ['0', '1', '2', '3', '4', '5', '6', '7']

theorem octalDigit_mem (n : Nat) : octalDigit n ∈ octalDigits := by
  have hall : ∀ k < 8, Char.ofNat (48 + k) ∈ octalDigits := by decide
  exact hall _ (Nat.mod_lt n (by decide))

theorem ne_of_mem_octalDigits {d : Char} (h : d ∈ octalDigits) : d ≠ '"' ∧ d ≠ '\n' ∧ d ≠ '\\' ∧ d ≠ 'x' := by
  have hall : octalDigits.all (fun d => d != '"' && d != '\n' && d != '\\' && d != 'x') = true := rfl
  simpa [and_assoc] using List.all_eq_true.mp hall d h

/-- The ways to print a character. -/
theorem quoteChar_cases {P : List Char → Prop} (c : Char)
    (short : ∀ e, simpleEscape? e = some c → needsOctal c = false → P ['\\', e])
    (octal : ∀ d₁ ∈ octalDigits, ∀ d₂ ∈ octalDigits, ∀ d₃ ∈ octalDigits, needsOctal c = true → P ['\\', d₁, d₂, d₃])
    (plain : c ≠ '\\' → c ≠ '"' → c ≠ '\n' → needsOctal c = false → P [c]) : P (quoteChar c) := by
  unfold quoteChar
  split
  next h => exact h ▸ short '\\' (by rw [h]; rfl) (by rw [h]; decide)
  next hbackslash =>
    split
    next h => exact h ▸ short '"' (by rw [h]; rfl) (by rw [h]; decide)
    next hquote =>
      split
      next h => exact short 'n' (by rw [h]; rfl) (by rw [h]; decide)
      next hfeed =>
        split
        next h => exact short 't' (by rw [h]; rfl) (by rw [h]; decide)
        next htab =>
          split
          next h => exact short 'r' (by rw [h]; rfl) (by rw [h]; decide)
          next hreturn =>
            split
            next h =>
              apply octal _ (octalDigit_mem _) _ (octalDigit_mem _) _ (octalDigit_mem _)
              simpa [needsOctal, hfeed, htab, hreturn] using h
            next h =>
              apply plain hbackslash hquote hfeed
              simpa [needsOctal, hfeed, htab, hreturn] using h

theorem newline_not_mem_quoteChar (c : Char) : '\n' ∉ quoteChar c := by
  apply quoteChar_cases (P := fun q => '\n' ∉ q) c
  case short =>
    intro e he _ hmem
    simp only [List.mem_cons, List.not_mem_nil, or_false] at hmem
    obtain heq | rfl := hmem
    · cases heq
    · cases he
  case octal =>
    intro d₁ h₁ d₂ h₂ d₃ h₃ _ hmem
    simp only [List.mem_cons, List.not_mem_nil, or_false] at hmem
    obtain heq | rfl | rfl | rfl := hmem
    · cases heq
    · exact (ne_of_mem_octalDigits h₁).2.1 rfl
    · exact (ne_of_mem_octalDigits h₂).2.1 rfl
    · exact (ne_of_mem_octalDigits h₃).2.1 rfl
  case plain =>
    intro _ _ hfeed _ hmem
    exact hfeed (List.mem_singleton.mp hmem).symm

theorem newline_not_mem_quote (s : String) : '\n' ∉ (quote s).toList := by
  intro hmem
  rw [quote, String.toList_ofList, List.mem_cons, List.mem_append, List.mem_flatMap, List.mem_singleton] at hmem
  obtain heq | ⟨c, _, hc⟩ | heq := hmem
  · cases heq
  · exact newline_not_mem_quoteChar c hc
  · cases heq

end Quoted
end Palimpsest
