import Palimpsest.Proofs.Surface.Complete
import Palimpsest.Proofs.Surface.Sound

/-!
The parser accepts exactly its grammar. A text that lexes without an error, with literals that have values,
parses without an error if and only if its tokens are derived by the grammar. There is one derivation then,
and what is returned is its tree.
-/

namespace Palimpsest
namespace Surface

theorem before_ofText {text : String} (hlex : Clean (TokenStream.ofText text).reports)
    (hvalued : ∀ t ∈ (TokenStream.ofText text).tokens, Valued t.terminal) :
    (Cursor.ofStream (TokenStream.ofText text)).Before ((TokenStream.ofText text).tokens.map Token.terminal) where
  final := by
    obtain ⟨leading, hfinal⟩ := TokenStream.final_ofText text
    exact congrArg Token.kind hfinal
  tokens := rfl
  valid := List.forall_mem_map.mpr fun _ ht => TokenStream.kind_ne_invalid hlex ht
  valued := List.forall_mem_map.mpr hvalued

def Expr.isWhole : Expr → Bool
  | .bad _ => false
  | _ => true

mutual

/-- No statement or expression in it is bad. -/
def Stmt.isWhole : Stmt → Bool
  | .bad _ => false
  | .moduleDecl _ _ body _ | .procDecl _ _ _ body _ _ | .block body _ => isWholeList body
  | .varDecl _ _ _ init _ => init.all Expr.isWhole
  | .expr e _ => e.isWhole
  | .comment .. | .foreign .. => true

def isWholeList : List Stmt → Bool
  | [] => true
  | s :: rest => s.isWhole && isWholeList rest

end

theorem ExprPhrase.Gives.isWhole {p : ExprPhrase} {e : Expr} (h : p.Gives e) : e.isWhole = true := by
  cases h with
  | identifier | int | str => rfl

mutual

theorem Phrase.Gives.isWhole {p : Phrase} {s : Stmt} : p.Gives s → s.isWhole = true
  | .moduleDecl _ _ _ h | .procDecl _ _ _ _ _ h | .block _ h => h.isWhole
  | .varDecl _ _ _ _ h => by
      cases h with
      | none => rfl
      | some h => exact h.isWhole
  | .foreign .. => rfl
  | .expr _ h => h.isWhole

theorem GivesList.isWhole {ps : List Phrase} {stmts : List Stmt} : GivesList ps stmts → isWholeList stmts = true
  | .nil => rfl
  | .comment _ _ h => h.isWhole
  | .cons hfirst hrest => by rw [isWholeList, hfirst.isWhole, hrest.isWhole]; rfl

end

theorem clean_parseText_iff {text : String} (hlex : Clean (TokenStream.ofText text).reports) :
    Clean (parseText text).reports ↔ Clean (parseTokens (TokenStream.ofText text)).2 := by
  change Clean (_ ++ _) ↔ _
  rw [clean_append, and_iff_right hlex]
  rfl

theorem frontiers_unique {phrases others : List Phrase} (h : frontiers others = frontiers phrases) :
    others = phrases := by
  have heq : frontiers others ++ [] = frontiers phrases ++ [] := by rw [h]
  exact (frontiers_inj others phrases (.inr rfl) (.inr rfl) heq).1

theorem Derives.unique {phrases others : List Phrase} {tokens : List Token} (h : Derives phrases tokens)
    (ho : Derives others tokens) : others = phrases := frontiers_unique (ho.frontier.trans h.frontier.symm)

section Texts

variable {text : String} (hlex : Clean (TokenStream.ofText text).reports)
  (hvalued : ∀ t ∈ (TokenStream.ofText text).tokens, Valued t.terminal)
include hlex hvalued

/-- What is read without an error is the tree of phrases that derive the tokens. -/
theorem exists_phrases {levels : Nat}
    (h : Clean (Stmt.parseList (Stmt.parse levels) false (.ofStream (TokenStream.ofText text))).reports) :
    ∃ phrases, frontiers phrases = (TokenStream.ofText text).tokens.map Token.terminal ∧ depths phrases ≤ levels ∧
      GivesList phrases (Stmt.parseList (Stmt.parse levels) false (.ofStream (TokenStream.ofText text))).value := by
  obtain ⟨-, w', -, ⟨ps, hdepth, hw, hps⟩, hend⟩ := Stmt.parseList_sound (Stmt.parse_sound levels) false _ _
    (before_ofText hlex hvalued) (.inr h)
  obtain rfl : w' = [] := by simpa [EndsList] using hend
  exact ⟨ps, by rw [hw, List.append_nil], Nat.le_of_lt_succ hdepth, hps⟩

/-- What phrases derive is read without an error where braces are followed as deep as they are nested. -/
theorem clean_of_frontiers {phrases : List Phrase} {levels : Nat}
    (h : frontiers phrases = (TokenStream.ofText text).tokens.map Token.terminal) (hdepth : depths phrases ≤ levels) :
    Clean (Stmt.parseList (Stmt.parse levels) false (.ofStream (TokenStream.ofText text))).reports := by
  have hbefore := before_ofText hlex hvalued
  rw [← h, ← List.append_nil (frontiers phrases)] at hbefore
  have hitem (p : Phrase) (hp : p.depth ≤ levels) (rest : List Terminal) (hrest : Follows rest) :=
    Stmt.parse_complete levels hp hrest
  exact (Stmt.parseList_complete hitem hdepth (.inl rfl) _ hbefore (.inl trivial)).1

theorem derives_of_clean (h : Clean (parseText text).reports) :
    ∃ phrases, Derives phrases (TokenStream.ofText text).tokens ∧ GivesList phrases (parseText text).file.stmts := by
  obtain ⟨ps, hw, hdepth, hps⟩ := exists_phrases hlex hvalued ((clean_parseText_iff hlex).mp h)
  exact ⟨ps, ⟨hw, hdepth⟩, hps⟩

theorem Derives.clean {phrases : List Phrase} (h : Derives phrases (TokenStream.ofText text).tokens) :
    Clean (parseText text).reports :=
  (clean_parseText_iff hlex).mpr (clean_of_frontiers hlex hvalued h.frontier h.depth)

end Texts

/-- The parser reports no error for exactly the texts whose tokens the grammar derives. There is one
derivation then, and the statements returned are its tree. -/
theorem parseText_clean_iff {text : String} (hlex : Clean (TokenStream.ofText text).reports)
    (hvalued : ∀ t ∈ (TokenStream.ofText text).tokens, Valued t.terminal) :
    (Clean (parseText text).reports ↔ ∃ phrases, Derives phrases (TokenStream.ofText text).tokens) ∧
      ∀ phrases, Derives phrases (TokenStream.ofText text).tokens →
        (∀ others, Derives others (TokenStream.ofText text).tokens → others = phrases) ∧
          GivesList phrases (parseText text).file.stmts ∧ isWholeList (parseText text).file.stmts = true := by
  refine ⟨⟨fun h => ?_, fun ⟨phrases, hp⟩ => hp.clean hlex hvalued⟩, fun phrases hp => ?_⟩
  · obtain ⟨phrases, hp, -⟩ := derives_of_clean hlex hvalued h
    exact ⟨phrases, hp⟩
  · obtain ⟨others, ho, hgives⟩ := derives_of_clean hlex hvalued (hp.clean hlex hvalued)
    obtain rfl := hp.unique ho
    exact ⟨fun _ h => hp.unique h, hgives, hgives.isWhole⟩

theorem parseText_clean_iff_module :
    (Clean (TokenStream.ofText "module M \x7b const ref x = 0x1F; // c\n\x7d").reports ∧
      ∀ t ∈ (TokenStream.ofText "module M \x7b const ref x = 0x1F; // c\n\x7d").tokens, Valued t.terminal) ∧
    Clean (parseText "module M \x7b const ref x = 0x1F; // c\n\x7d").reports ∧
    GivesList [.moduleDecl .plain "M" [.varDecl .plain .constRef "x" (some (.int "0x1F"))]]
      (parseText "module M \x7b const ref x = 0x1F; // c\n\x7d").file.stmts := by
  have hlex : Clean (TokenStream.ofText "module M \x7b const ref x = 0x1F; // c\n\x7d").reports := by decide +kernel
  have hderives : Derives [.moduleDecl .plain "M" [.varDecl .plain .constRef "x" (some (.int "0x1F"))]]
      (TokenStream.ofText "module M \x7b const ref x = 0x1F; // c\n\x7d").tokens :=
    ⟨by decide +kernel, by decide +kernel⟩
  have hvalued : ∀ t ∈ (TokenStream.ofText "module M \x7b const ref x = 0x1F; // c\n\x7d").tokens,
      Valued t.terminal := by
    have hcounts : Counts "0x1F".toList (31 : UInt64).toNat := counts_iff.mpr (by decide)
    have hliterals : ∀ t ∈ (TokenStream.ofText "module M \x7b const ref x = 0x1F; // c\n\x7d").tokens,
        (t.terminal.kind = .intLiteral → t.terminal.text = "0x1F") ∧ t.terminal.kind ≠ .stringLiteral := by
      decide +kernel
    exact fun t ht => ⟨fun hk => ⟨31, (hliterals t ht).1 hk ▸ hcounts⟩, fun hk => absurd hk (hliterals t ht).2⟩
  have hmain := parseText_clean_iff hlex hvalued
  exact ⟨⟨hlex, hvalued⟩, hmain.1.mpr ⟨_, hderives⟩, (hmain.2 _ hderives).2.1⟩

end Surface
end Palimpsest
