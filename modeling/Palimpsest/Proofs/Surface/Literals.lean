import Palimpsest.Proofs.Surface.Yields
import Palimpsest.Proofs.Text.Quoted

/-!
Literals and expressions. The values that are computed are those of the grammar, and a literal without a
value is an error. Of an expression one rule says both what a run without an error has read, and that there
is no error where an expression stands.
-/

namespace Palimpsest
namespace Surface

theorem cons_eq_ok {ε : Type} {x : Except ε (List Char)} {c : Char} {value : List Char} :
    (do let rest ← x; return c :: rest) = Except.ok value ↔ ∃ rest, x = .ok rest ∧ c :: rest = value := by
  cases x with
  | error e => simp
  | ok rest => simp

theorem unescapeFrom_eq_ok (offset : Nat) {body value : List Char} :
    Quoted.unescapeFrom offset body = .ok value ↔ Spells body value := by
  constructor
  · intro h
    fun_induction Quoted.unescapeFrom offset body generalizing value with
    | case1 => cases h; exact .nil
    | case2 | case3 | case4 | case6 | case8 => cases h
    | case5 offset a b cs hdigits ih =>
        obtain ⟨rest, hrest, rfl⟩ := cons_eq_ok.mp h
        rw [Bool.and_eq_true] at hdigits
        exact .hex hdigits.1 hdigits.2 (ih hrest)
    | case7 offset e cs _ _ _ c hescape ih =>
        obtain ⟨rest, hrest, rfl⟩ := cons_eq_ok.mp h
        exact .escape hescape (ih hrest)
    | case9 offset c cs hend _ _ _ hbackslash ih =>
        obtain ⟨rest, hrest, rfl⟩ := cons_eq_ok.mp h
        exact .plain (Quoted.ne_backslash hend hbackslash) (ih hrest)
  · intro h
    induction h generalizing offset with
    | nil => rfl
    | plain hc _ ih =>
        rw [Quoted.unescapeFrom.eq_def]
        split <;> simp_all
    | @escape e c body value he _ ih =>
        have hx : e ≠ 'x' := by
          rintro rfl
          cases he
        simp [Quoted.unescapeFrom, hx, he, ih]
    | hex ha hb _ ih => simp [Quoted.unescapeFrom, ha, hb, ih]

theorem unescape_eq_ok {body : List Char} {value : String} :
    Quoted.unescape (String.ofList body) = .ok value ↔ Spells body value.toList := by
  rw [← unescapeFrom_eq_ok 0, Quoted.unescape, String.toList_ofList]
  cases Quoted.unescapeFrom 0 body with
  | error e => simp [Except.map]
  | ok cs => simp [Except.map, String.ext_iff]

theorem valueOf_eq (base : Nat) (digits : List Char) :
    Expr.valueOf base digits = Nat.ofDigits base (digits.map Quoted.hexValue).reverse := by
  rw [Nat.ofDigits_eq_foldr, List.foldr_reverse, List.foldl_map, Expr.valueOf]
  simp only [Nat.cast_id, Nat.add_comm]

theorem numeral_hex {x : Char} (hx : x = 'x' ∨ x = 'X') (body : List Char) :
    Expr.numeral ('0' :: x :: body) = (body.filter (· != '_'), 16) := by
  cases hx with
  | inl hx | inr hx => rw [hx]; rfl

theorem numeral_decimal {literal : List Char} (hplain : ∀ x body, literal = '0' :: x :: body → x ≠ 'x' ∧ x ≠ 'X') :
    Expr.numeral literal = (literal.filter (· != '_'), 10) := by
  rw [Expr.numeral.eq_def]
  split
  · next body => exact absurd rfl (hplain 'x' body rfl).1
  · next body => exact absurd rfl (hplain 'X' body rfl).2
  · rfl

theorem counts_iff {literal : List Char} {n : Nat} : Counts literal n ↔
    (Expr.numeral literal).1 ≠ [] ∧ n = Expr.valueOf (Expr.numeral literal).2 (Expr.numeral literal).1 := by
  have hdigits (cs : List Char) : digitsOf cs ≠ [] ↔ cs.filter (· != '_') ≠ [] := not_congr List.map_eq_nil_iff
  rw [valueOf_eq]
  constructor
  · intro h
    cases h with
    | hex hx h => rw [numeral_hex hx]; exact ⟨(hdigits _).mp h, rfl⟩
    | decimal hplain h => rw [numeral_decimal hplain]; exact ⟨(hdigits _).mp h, rfl⟩
  · rintro ⟨h, rfl⟩
    by_cases hhex : ∃ x body, literal = '0' :: x :: body ∧ (x = 'x' ∨ x = 'X')
    · obtain ⟨x, body, rfl, hx⟩ := hhex
      rw [numeral_hex hx] at h ⊢
      exact .hex hx ((hdigits _).mpr h)
    · have hplain : ∀ x body, literal = '0' :: x :: body → x ≠ 'x' ∧ x ≠ 'X' :=
        fun x body hl => not_or.mp fun hx => hhex ⟨x, body, hl, hx⟩
      rw [numeral_decimal hplain] at h ⊢
      exact .decimal hplain ((hdigits _).mpr h)

namespace Expr

open Parse

variable {sure : Prop} {w : List Terminal}

theorem yields_ofInt {t : Token} (hsure : sure → ∃ value : UInt64, Counts t.text.toList value.toNat) :
    Yields sure (ofInt t) w fun e w' => (ExprPhrase.int t.text).Gives e ∧ w' = w := by
  simp only [counts_iff] at hsure
  rw [ofInt]
  dsimp only
  split
  · next hempty =>
    refine .bind (.ofReport (fun hs => ?_) rfl)
    obtain ⟨value, hdigits, -⟩ := hsure hs
    exact hdigits (List.isEmpty_iff.mp hempty)
  · next hdigits =>
    split
    · next hsize =>
      refine .pure ⟨.int t.span (counts_iff.mpr ⟨fun h => hdigits (List.isEmpty_iff.mpr h), ?_⟩), rfl⟩
      exact UInt64.toNat_ofNat_of_lt hsize
    · next hsize =>
      refine .bind (.ofReport (fun hs => ?_) rfl)
      obtain ⟨value, -, hvalue⟩ := hsure hs
      exact hsize (hvalue ▸ value.toNat_lt_size)

theorem yields_ofString {t : Token} (hsure : sure → ∃ value, Spells (inner t.text) value) :
    Yields sure (ofString t) w fun e w' => (ExprPhrase.str t.text).Gives e ∧ w' = w := by
  rw [ofString]
  cases hvalue : Quoted.unescape (String.ofList (inner t.text)) with
  | ok value =>
      have hgives : (ExprPhrase.str t.text).Gives (.str value t.span) := .str t.span (unescape_eq_ok.mp hvalue)
      dsimp only
      split
      -- A NUL character is warned of, which is no error.
      · exact .bind fun _ hc _ => ⟨by simp [report]; rfl, w, hc, .pure ⟨hgives, rfl⟩⟩
      · exact .pure ⟨hgives, rfl⟩
  | error e =>
      refine .bind (.ofReport (fun hs => ?_) rfl)
      obtain ⟨value, hspells⟩ := hsure hs
      have hok : Quoted.unescape (String.ofList (inner t.text)) = .ok (String.ofList value) :=
        unescape_eq_ok.mpr (String.toList_ofList ▸ hspells)
      exact absurd (hvalue.symm.trans hok) (by simp)

/-- Where an expression stands, it is read, and where one is read without an error, it stood there. -/
theorem yields_parse (hsure : sure → ∃ e : ExprPhrase, first w = e.terminal) :
    Yields sure parse w fun e w' => ∃ p : ExprPhrase, w = p.terminal :: w' ∧ p.Gives e := by
  refine .ofBefore fun c hc => .token fun t ht => ?_
  have hvalued {k : TokenKind} (hw : w = ⟨k, t.text⟩ :: w.tail) : Valued ⟨k, t.text⟩ :=
    hc.valued _ (hw ▸ List.mem_cons_self)
  split
  · next hk => exact .advance (.pure ⟨.identifier t.text, eq_spelled_cons ht hk rfl, .identifier t.text t.span⟩)
  · next hk =>
    have hw := eq_spelled_cons ht hk rfl
    refine .advance ((yields_ofInt fun _ => (hvalued hw).1 rfl).imp ?_)
    rintro e w' ⟨hgives, rfl⟩
    exact ⟨.int t.text, hw, hgives⟩
  · next hk =>
    have hw := eq_spelled_cons ht hk rfl
    refine .advance ((yields_ofString fun _ => (hvalued hw).2 rfl).imp ?_)
    rintro e w' ⟨hgives, rfl⟩
    exact ⟨.str t.text, hw, hgives⟩
  · next hname hint hstr =>
    refine .bind (.ofExpected _ fun hs => ?_)
    obtain ⟨e, he⟩ := hsure hs
    have hkind : t.kind = e.terminal.kind := congrArg Terminal.kind (ht.trans he)
    cases e with
    | identifier name => exact hname hkind
    | int literal => exact hint hkind
    | str literal => exact hstr hkind

end Expr
end Surface
end Palimpsest
