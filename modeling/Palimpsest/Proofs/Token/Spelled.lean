import Palimpsest.Proofs.Text.Quoted
import Palimpsest.Token.Stream

/-!
What the characters of a lexeme tell about its kind. Blank, comment, literal and faulty lexemes are told
apart by how they start, and whether they are complete by what they hold.
-/

namespace Palimpsest

namespace Comment

/-- How many block comments are open behind some characters when `outer` are open before them. -/
def openAfter : Nat → List Char → Nat
  | outer, [] => outer
  | outer, '/' :: '*' :: cs => openAfter (outer + 1) cs
  | outer + 1, '*' :: '/' :: cs => openAfter outer cs
  | outer, _ :: cs => openAfter outer cs

/-- Whether characters start a block comment that they do not end. -/
def leftOpen : List Char → Bool
  | '/' :: '*' :: cs => openAfter 1 cs != 0
  | _ => false

end Comment

namespace Lexeme

/-- What is wrong with characters that form no token. -/
def faultOf : List Char → LexFault
  | '"' :: _ => .openString
  | '\x7b' :: _ => .openForeign
  | _ => .strayCharacter

theorem faultOf_eq_openForeign {cs : List Char} (h : faultOf cs = .openForeign) : ∃ ds, cs = '\x7b' :: ds := by
  unfold faultOf at h
  split at h
  · cases h
  · exact ⟨_, rfl⟩
  · cases h

/-- What the characters of a lexeme of some kind are like. -/
def Spells (chars : List Char) : LexemeKind → Prop
  | .blank => ∀ c ∈ chars, isBlank c = true
  | .comment closed => Comment.leftOpen chars = !closed
  | .token kind => kind ≠ .invalid ∧ kind ≠ .endOfFile ∧
      (kind = .stringLiteral → ∃ body, chars = '"' :: body ++ ['"']) ∧
      (kind = .foreignCode → ∃ body, chars = '\x7b' :: body ++ ['\x7d'])
  | .faulty fault => faultOf chars = fault

/-- The ways in which the next lexeme starts. -/
theorem next_cases {P : Lexeme × List Char → Prop} (b : Bool) (c : Char) (cs : List Char)
    (blank : isBlank c = true → P (take .blank c (Cut.ofPredicate isBlank cs)))
    (line : ∀ ds, c = '/' → cs = '/' :: ds →
      P (take (.comment true) '/' ((Cut.ofPredicate (· != '\n') ds).cons '/')))
    (block : ∀ ds, c = '/' → cs = '*' :: ds →
      P (take (.comment (blockComment 0 ds).closed) '/' ((blockComment 0 ds).cons '*')))
    (foreign : b = true → c = '\x7b' → P (foreign '\x7b' cs))
    (word : isWordStart c = true → P (word c cs))
    (number : c.isDigit = true → P (number c cs))
    (string : c = '"' → P (string '"' cs))
    (symbol : c ≠ '"' → P (symbol c cs)) : P (next b c cs) := by
  unfold next
  split
  next hblank => exact blank hblank
  next =>
    split
    next ds _ => exact line ds rfl rfl
    next ds _ => exact block ds rfl rfl
    next =>
      split
      next h => exact h.2 ▸ foreign h.1 h.2
      next =>
        split
        next h => exact word h
        next =>
          split
          next h => exact number h
          next =>
            split
            next h => exact h ▸ string h
            next h => exact symbol h

/-- What a comment is cut from starts like what is cut off. -/
theorem front_blockComment_cons {outer : Nat} {cs ds : List Char} {c : Char}
    (h : (blockComment outer cs).front = c :: ds) : ∃ es, cs = c :: es := by
  have happend := append_blockComment outer cs
  rw [h] at happend
  exact ⟨ds ++ (blockComment outer cs).rest, happend.symm⟩

theorem openAfter_blockComment (outer : Nat) (cs : List Char) :
    (Comment.openAfter (outer + 1) (blockComment outer cs).front = 0) ↔ (blockComment outer cs).closed = true := by
  fun_induction blockComment outer cs with
  | case1 outer => simp [Comment.openAfter]
  | case2 outer cs ih => simpa [Cut.cons, Comment.openAfter] using ih
  | case3 cs => simp [Comment.openAfter]
  | case4 outer cs ih => simpa [Cut.cons, Comment.openAfter] using ih
  | case5 outer c cs hopen hlast hinner ih =>
      -- What is cut off starts like what it is cut from, so that no pair begins at `c` there either.
      rw [Cut.cons, Comment.openAfter]
      · exact ih
      · intro ds hc hfront
        obtain ⟨es, hcs⟩ := front_blockComment_cons hfront
        exact hopen es hc hcs
      · intro inner ds hinside hc hfront
        obtain ⟨es, hcs⟩ := front_blockComment_cons hfront
        cases outer with
        | zero => exact hlast es rfl hc hcs
        | succ outer => exact hinner outer es rfl hc hcs

theorem closing_stringBody (cs : List Char) (h : (stringBody cs).closed = true) :
    ∃ body, (stringBody cs).front = body ++ ['"'] ∧ Quoted.Paired body := by
  fun_induction stringBody cs with
  | case1 | case3 | case4 => cases h
  | case2 cs => exact ⟨[], rfl, .nil⟩
  | case5 c cs _ ih =>
      obtain ⟨body, hbody, hpaired⟩ := ih h
      exact ⟨'\\' :: c :: body, by simp [Cut.cons, hbody], .escape c hpaired⟩
  | case6 c cs hquote _ _ hbackslash ih =>
      obtain ⟨body, hbody, hpaired⟩ := ih h
      have hend (hcs : cs = []) : False := by
        rw [hcs] at h
        cases h
      exact ⟨c :: body, by simp [Cut.cons, hbody], .plain (Quoted.ne_backslash (fun _ => hend) hbackslash) hquote hpaired⟩

theorem closing_foreignBody (mode : ForeignMode) (outer : Nat) (cs : List Char)
    (h : (foreignBody mode outer cs).closed = true) :
    ∃ body, (foreignBody mode outer cs).front = body ++ ['\x7d'] := by
  -- A closing brace ends the front part once, and every other step only puts characters before it.
  have hcons (c : Char) {k : Cut} (hk : ∃ body, k.front = body ++ ['\x7d']) :
      ∃ body, (k.cons c).front = body ++ ['\x7d'] := by
    obtain ⟨body, hbody⟩ := hk
    exact ⟨c :: body, congrArg (c :: ·) hbody⟩
  fun_induction foreignBody mode outer cs with
  | case1 => cases h
  | case4 => exact ⟨[], rfl⟩
  | case2 _ _ ih | case3 _ _ ih | case9 _ _ _ _ ih | case14 _ _ ih => exact hcons _ (hcons _ (ih h))
  | case5 _ _ ih | case6 _ _ _ _ _ _ ih | case7 _ _ _ _ _ _ _ _ _ ih | case8 _ _ _ _ _ _ _ _ _ ih
  | case10 _ _ _ _ _ _ ih | case11 _ _ _ _ _ _ ih | case12 _ _ ih | case13 _ _ _ _ ih
  | case15 _ _ _ _ ih => exact hcons _ (ih h)

theorem mem_keywords {s : String} {k : TokenKind} (h : TokenKind.ofKeyword? s = some k) :
    k ≠ .invalid ∧ k ≠ .endOfFile ∧ k ≠ .stringLiteral ∧ k ≠ .foreignCode := by
  obtain ⟨before, after, hsplit, -⟩ := List.lookup_eq_some_iff.mp h
  have hmem : (s, k) ∈ TokenKind.keywords := by
    rw [hsplit]
    simp
  have hall : ∀ p ∈ TokenKind.keywords,
      p.2 ≠ .invalid ∧ p.2 ≠ .endOfFile ∧ p.2 ≠ .stringLiteral ∧ p.2 ≠ .foreignCode := by decide
  exact hall _ hmem

/-- Kinds of tokens that say nothing about the characters they are made of. -/
theorem Spells.of_ne {chars : List Char} {k : TokenKind}
    (h : k ≠ .invalid ∧ k ≠ .endOfFile ∧ k ≠ .stringLiteral ∧ k ≠ .foreignCode) : Spells chars (.token k) :=
  ⟨h.1, h.2.1, fun hk => absurd hk h.2.2.1, fun hk => absurd hk h.2.2.2⟩

theorem spells_word (c : Char) (cs : List Char) : Spells (word c cs).1.chars (word c cs).1.kind := by
  apply Spells.of_ne
  cases hk : TokenKind.ofKeyword? (String.ofList (c :: (Cut.ofPredicate isWordPart cs).front)) with
  | none => decide
  | some k => exact mem_keywords hk

theorem kind_number (c : Char) (cs : List Char) : (number c cs).1.kind = .token .intLiteral := by
  unfold number
  split
  · split <;> rfl
  · rfl

theorem spells_string (cs : List Char) : Spells (string '"' cs).1.chars (string '"' cs).1.kind := by
  cases hclosed : (stringBody cs).closed with
  | false =>
      simp only [string, take, hclosed, Bool.false_eq_true, ite_false]
      rfl
  | true =>
      obtain ⟨body, hbody, -⟩ := closing_stringBody cs hclosed
      simp only [string, take, hclosed, ite_true, hbody]
      exact ⟨by decide, by decide, fun _ => ⟨body, rfl⟩, fun h => absurd h (by decide)⟩

theorem spells_foreign (cs : List Char) : Spells (foreign '\x7b' cs).1.chars (foreign '\x7b' cs).1.kind := by
  cases hclosed : (foreignBody .code 0 cs).closed with
  | false =>
      simp only [foreign, take, hclosed, Bool.false_eq_true, ite_false]
      rfl
  | true =>
      obtain ⟨body, hbody⟩ := closing_foreignBody .code 0 cs hclosed
      simp only [foreign, take, hclosed, ite_true, hbody]
      exact ⟨by decide, by decide, fun h => absurd h (by decide), fun _ => ⟨body, rfl⟩⟩

theorem spells_symbol (c : Char) (cs : List Char) (hquote : c ≠ '"') :
    Spells (symbol c cs).1.chars (symbol c cs).1.kind := by
  unfold symbol
  cases hk : TokenKind.ofPunctuation? c with
  | some k =>
      apply Spells.of_ne
      unfold TokenKind.ofPunctuation? at hk
      split at hk <;> cases hk <;> decide
  | none =>
      have hbrace : c ≠ '\x7b' := by
        intro hc
        rw [hc] at hk
        cases hk
      change faultOf [c] = .strayCharacter
      unfold faultOf
      grind

theorem spells_blockComment (cs : List Char) :
    Comment.leftOpen ('/' :: '*' :: (blockComment 0 cs).front) = !(blockComment 0 cs).closed := by
  have hafter := openAfter_blockComment 0 cs
  cases hclosed : (blockComment 0 cs).closed with
  | false =>
      rw [hclosed] at hafter
      simpa [Comment.leftOpen] using hafter
  | true =>
      rw [hclosed] at hafter
      simpa [Comment.leftOpen] using hafter

/-- The characters of the next lexeme are what its kind says. -/
theorem spells_next (b : Bool) (c : Char) (cs : List Char) :
    Spells (next b c cs).1.chars (next b c cs).1.kind := by
  apply next_cases (P := fun r => Spells r.1.chars r.1.kind) b c cs
  case blank =>
    intro hblank x hx
    cases List.mem_cons.mp hx with
    | inl heq => exact heq ▸ hblank
    | inr hin => exact List.all_eq_true.mp List.all_takeWhile x hin
  case line =>
    intro ds _ _
    rfl
  case block =>
    intro ds _ _
    exact spells_blockComment ds
  case foreign =>
    intro _ _
    exact spells_foreign cs
  case word =>
    intro _
    exact spells_word c cs
  case number =>
    intro _
    rw [kind_number]
    exact Spells.of_ne (by decide)
  case string =>
    intro _
    exact spells_string cs
  case symbol =>
    intro hquote
    exact spells_symbol c cs hquote

end Lexeme

/-- What holds of the next lexeme, whatever follows, holds of all. -/
theorem forall_mem_lexemes {P : Lexeme → Prop} (h : ∀ b c cs, P (Lexeme.next b c cs).1) (b : Bool) (cs : List Char) :
    ∀ l ∈ lexemes b cs, P l := by
  intro l hl
  fun_induction lexemes b cs with
  | case1 => cases hl
  | case2 b c cs m ih =>
      cases List.mem_cons.mp hl with
      | inl heq => exact heq ▸ h b c cs
      | inr hin => exact ih hin

theorem spells_of_mem_lexemes {b : Bool} {cs : List Char} {l : Lexeme} (h : l ∈ lexemes b cs) :
    Lexeme.Spells l.chars l.kind :=
  forall_mem_lexemes (P := fun l => Lexeme.Spells l.chars l.kind) Lexeme.spells_next b cs l h

theorem chars_ne_nil_of_mem_lexemes {b : Bool} {cs : List Char} {l : Lexeme} (h : l ∈ lexemes b cs) :
    l.chars ≠ [] :=
  forall_mem_lexemes (P := fun l => l.chars ≠ []) Lexeme.chars_next_ne_nil b cs l h

end Palimpsest
