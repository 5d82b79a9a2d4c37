import Palimpsest.Proofs.Surface.Accepted
import Palimpsest.Proofs.Surface.Nested

/-!
Parsing is local. In a text that parses without an error every statement, at whatever depth, stands inside the
one around it and apart from its neighbours, and the part of the text that it covers parses to that statement
alone.
-/

namespace Palimpsest
namespace Surface

/-- What stands right inside a statement stands in order in its body. -/
structure Stmt.Nests (s : Stmt) : Prop where
  within : s.bodySpan.Within s.span
  inside : ∀ t ∈ s.body, t.span.Within s.bodySpan
  ordered : s.body.Pairwise fun t u => t.span.stop ≤ u.span.start

/-- The part of a text that the statement covers parses without an error to the statement alone, with all spans
counted from the start of the part. -/
def Stmt.ReadsAlone (text : String) (s : Stmt) : Prop :=
  ∃ (part : String) (alone : Stmt), (SourceText.ofString text).snippet? s.span = some part ∧
    Clean (parseText part).reports ∧ (parseText part).file.stmts = [alone] ∧ alone.shift s.span.start = s

/-- Statements stand in the text one after another and inside one another, and each can be read by itself. -/
structure ParsesLocally (text : String) : Prop where
  within : ∀ s ∈ (parseText text).file.stmts, s.span.Within (parseText text).file.span
  ordered : (parseText text).file.stmts.Pairwise fun s t => s.span.stop ≤ t.span.start
  nests : ∀ s ∈ allOfList (parseText text).file.stmts, s.Nests
  alone : ∀ s ∈ allOfList (parseText text).file.stmts, s.ReadsAlone text

namespace Stmt

open Parse Excerpt

variable {text : String}

/-- No statement starts with foreign code. -/
theorem not_clean_of_foreignCode {levels : Nat} {c : Cursor} (hk : c.kind = .foreignCode) :
    ¬ Clean (parse levels c).reports := by
  rw [parse_eq]
  have hunmarked : Leads c parseVisibility fun _ d => d = c := by
    apply leads_kind
    split
    next hpublic => cases hk.symm.trans hpublic
    next hprivate => cases hk.symm.trans hprivate
    next => exact leads_pure rfl
  have hfails : Leads c (parseWith (bodyReader levels)) fun _ _ => False := by
    refine leads_token (hunmarked.bind fun visibility d hd => leads_kind ?_)
    rw [hd, hk, if_neg (by decide), if_neg (by decide), if_neg (by decide)]
    split
    · exact ((fails_expected _).bind _).leads c _
    · apply leads_kind
      rw [hk]
      exact ((fails_expected _).bind _).leads c _
  exact hfails

/-- A list that holds one statement, up to the end of the text. -/
theorem parseList_single {levels : Nat} {c : Cursor} (hleading : c.current.leading = []) (hne : c.tokens ≠ [])
    (hend : (parse levels c).next.tokens = []) (hfinal : (parse levels c).next.final.leading = []) :
    (parseList (parse levels) false c).value = [(parse levels c).value] ∧
      (parseList (parse levels) false c).reports = (parse levels c).reports := by
  have hcurrent : (parse levels c).next.current.leading = [] := by
    rw [Cursor.current, hend]
    exact hfinal
  have hlast : atListEnd false (parse levels c).next.dropLeading = true := by
    rw [Cursor.dropLeading_of_leading hcurrent]
    simp [atListEnd, hend]
  obtain ⟨hvalue, hreports⟩ := parseList_first hleading hne
  obtain ⟨hvalue', hreports', -⟩ := parseList_of_end (parse levels) hlast
  rw [hvalue', hcurrent] at hvalue
  rw [hreports', List.append_nil] at hreports
  exact ⟨hvalue, hreports⟩

section Read

variable (hlex : Clean (TokenStream.ofText text).reports) {levels : Nat} {c : Cursor}
include hlex

theorem nests_of_read (hc : c.Reached text) (hclean : Clean (parse levels c).reports) : (parse levels c).value.Nests := by
  have hplaced := (leads_parse hlex levels hc hclean).2
  cases hplaced.reads with
  | inl hnone => exact ⟨hplaced.within, by simp [hnone], by simp [hnone]⟩
  | inr hsome =>
      obtain ⟨body, d, hreader, hd, hcleanBody, hvalue, hstart, hstop⟩ := hsome
      cases levels with
      | zero => cases hreader
      | succ levels =>
          obtain rfl := Option.some.inj hreader
          have hlisted := leads_parseList_parse hlex levels true hd hcleanBody
          rw [← hvalue] at hlisted
          refine ⟨hplaced.within, fun t ht => ?_, hlisted.ordered⟩
          obtain ⟨hfirst, hlast⟩ := hlisted.within t ht
          exact ⟨Nat.le_trans hstart hfirst, Nat.le_trans hlast hstop⟩

/-- What is read from one place to another, from a token that is no foreign code, is a text of its own. -/
theorem exists_excerpt {d : Cursor} (hc : c.Reached text) (hleading : c.current.leading = []) (hd : d.Reached text)
    (hlt : d.tokens.length < c.tokens.length) (hcode : c.kind ≠ .foreignCode) :
    ∃ part after, d.tokens.length = after.length ∧
      Span.Cuts ⟨c.current.span.start, d.prevStop⟩ text.toList part.toList ∧
      Clean (TokenStream.ofText part).reports ∧ (TokenStream.ofText part).final.leading = [] ∧
      Aligned ⟨text, part, c.current.span.start, after, hlex⟩ c (Cursor.ofStream (TokenStream.ofText part)) := by
  obtain ⟨before, t, mid, after, hsplit, hfrom, hlength, hstop⟩ := hc.exists_taken hd hlt
  rw [Cursor.dropLeading_of_leading hleading] at hfrom
  have hkind : c.kind = t.kind := by rw [hfrom]; rfl
  have hstart : c.current.span.start = t.span.start := by rw [hfrom]; rfl
  obtain ⟨part, hcuts, hclean, hfinal, htokens⟩ := TokenStream.exists_part hlex hsplit (hkind ▸ hcode)
  have hbefore := hc.prevStop_le_start
  rw [hstart] at hbefore ⊢
  rw [hstop]
  refine ⟨part, after, hlength, hcuts, hclean, hfinal, ⟨hc, .start, ?_, ?_⟩⟩
  · rw [hfrom]
    exact congrArg (· ++ after) htokens.symm
  · exact (Nat.max_eq_right hbefore).trans (Nat.zero_add _).symm

theorem readsAlone_of_read (hlevels : levels ≤ maxNesting) (hc : c.Reached text) (hleading : c.current.leading = [])
    (hne : c.tokens ≠ []) (hclean : Clean (parse levels c).reports) : (parse levels c).value.ReadsAlone text := by
  have hnext := (leads_of_replays hlex (replays_parse (Nat.le_refl levels)) hc hclean).1
  have htakes : (parse levels c).next.tokens.length < c.tokens.length := takes_parse hne levels
  obtain ⟨part, after, hlength, hcuts, hcleanPart, hfinal, halign⟩ := exists_excerpt hlex hc hleading hnext htakes
    fun hk => not_clean_of_foreignCode hk hclean
  have hreplayed := replays_parse hlevels c _ halign hclean (Nat.le_of_eq hlength.symm)
  -- The part has no token left behind its statement, and no comment at either end.
  have hne' := halign.ne_nil (hlength ▸ htakes)
  have hleading' : (Cursor.ofStream (TokenStream.ofText part)).current.leading = [] := by
    have hshifted := congrArg Token.leading (halign.current hne')
    rw [hleading] at hshifted
    exact List.map_eq_nil_iff.mp hshifted.symm
  have hend : (parse maxNesting (Cursor.ofStream (TokenStream.ofText part))).next.tokens = [] := by
    have hcount : (parse levels c).next.tokens.length =
        (parse maxNesting (Cursor.ofStream (TokenStream.ofText part))).next.tokens.length + after.length :=
      hreplayed.next.length
    exact List.length_eq_zero_iff.mp (by omega)
  obtain ⟨hvalue, hreports⟩ := parseList_single hleading' hne' hend (hreplayed.next.right.leading_final hfinal)
  have hspan : (parse levels c).value.span = ⟨c.current.span.start, (parse levels c).next.prevStop⟩ := by
    rw [(leads_parse hlex levels hc hclean).1, Cursor.spanFrom, Nat.max_eq_left hcuts.fits.ordered]
  refine ⟨part, (parse maxNesting (Cursor.ofStream (TokenStream.ofText part))).value, ?_, ?_, hvalue, ?_⟩
  · rw [hspan]
    exact hcuts.snippet?
  · refine (clean_append _ _).mpr ⟨hcleanPart, ?_⟩
    exact hreports ▸ hreplayed.clean
  · rw [hspan]
    exact hreplayed.value.symm

end Read

theorem nests_comment (k : Comment) : (ofComment k).Nests :=
  ⟨⟨Nat.le_refl _, Nat.le_refl _⟩, fun _ ht => absurd ht List.not_mem_nil, .nil⟩

/-- A comment is a statement of its own. -/
theorem readsAlone_comment (hlex : Clean (TokenStream.ofText text).reports) {k : Comment}
    (hk : k ∈ (TokenStream.ofText text).comments) : (ofComment k).ReadsAlone text := by
  obtain ⟨part, hcuts, hclean, htokens, hleading⟩ := TokenStream.exists_part_of_comment hlex hk
  obtain ⟨alone, hfinal, hshift⟩ := List.map_eq_singleton_iff.mp hleading
  have hend : atListEnd false (Cursor.ofStream (TokenStream.ofText part)).dropLeading = true := by
    have hnil : (Cursor.ofStream (TokenStream.ofText part)).dropLeading.tokens = [] := by
      apply List.length_eq_zero_iff.mp
      rw [Cursor.length_dropLeading]
      exact congrArg List.length htokens
    simp [atListEnd, hnil]
  have hcurrent : (Cursor.ofStream (TokenStream.ofText part)).current = (TokenStream.ofText part).final := by
    rw [Cursor.current, show (Cursor.ofStream (TokenStream.ofText part)).tokens = [] from htokens]
    rfl
  obtain ⟨hvalue, hreports, -⟩ := parseList_of_end (parse maxNesting) hend
  rw [hcurrent, hfinal] at hvalue
  refine ⟨part, ofComment alone, ?_, ?_, hvalue, ?_⟩
  · exact hcuts.snippet?
  · refine (clean_append _ _).mpr ⟨hclean, ?_⟩
    exact hreports ▸ clean_nil
  · exact congrArg ofComment hshift

end Stmt

end Surface
end Palimpsest
