import Palimpsest.Proofs.Token.InText
import Palimpsest.Proofs.Token.Recut

/-!
Parts of a text on their own. From the start of a token to the end of a later one a part has the tokens that
stand there, counted from its own start (`TokenStream.exists_part`); a comment alone has that comment and no
token (`TokenStream.exists_part_of_comment`). Behind a token the rest of a text has the tokens and the reports that
it has alone (`TokenStream.ofText_of_lexemes`).
-/

namespace Palimpsest

def Comment.shift (c : Comment) (n : Nat) : Comment := { c with span := c.span.shift n }

def Token.shift (t : Token) (n : Nat) : Token :=
  { t with span := t.span.shift n, leading := t.leading.map (·.shift n) }

def Label.shift (l : Label) (n : Nat) : Label := { l with span := l.span.shift n }

def Diagnostic.shift (d : Diagnostic) (n : Nat) : Diagnostic :=
  { d with primary := d.primary.shift n, labels := d.labels.map (·.shift n) }

theorem Token.kind_shift (t : Token) (n : Nat) : (t.shift n).kind = t.kind := rfl

theorem Token.text_shift (t : Token) (n : Nat) : (t.shift n).text = t.text := rfl

namespace Lexeme

theorem placeFrom_append (pos : Nat) (ls ms : List Lexeme) :
    placeFrom pos (ls ++ ms) = placeFrom pos ls ++ placeFrom (pos + Utf8.size (ls.flatMap chars)) ms := by
  induction ls generalizing pos with
  | nil => rfl
  | cons l ls ih =>
      rw [List.cons_append, placeFrom, ih, List.flatMap_cons, Utf8.size_append, Nat.add_assoc]
      rfl

theorem placeFrom_shift (pos n : Nat) (ls : List Lexeme) :
    placeFrom (pos + n) ls = (placeFrom pos ls).map fun p => (p.1, p.2.shift n) := by
  induction ls generalizing pos with
  | nil => rfl
  | cons l ls ih =>
      rw [placeFrom, placeFrom, List.map_cons, ← ih, Span.shift, Nat.add_right_comm]

/-- Placed lexemes in a row stand from where the first of them starts. -/
theorem placeFrom_segment {pos : Nat} {ls : List Lexeme} {before placed after : List (Lexeme × Span)}
    (h : placeFrom pos ls = before ++ (placed ++ after)) :
    ls = before.map Prod.fst ++ (placed.map Prod.fst ++ after.map Prod.fst) ∧
      placed = placeFrom (pos + Utf8.size ((before.map Prod.fst).flatMap chars)) (placed.map Prod.fst) := by
  have hls : ls = before.map Prod.fst ++ (placed.map Prod.fst ++ after.map Prod.fst) := by
    rw [← List.map_append, ← List.map_append, ← h, map_fst_placeFrom]
  have hlength (pos : Nat) (ps : List (Lexeme × Span)) : ps.length = (placeFrom pos (ps.map Prod.fst)).length := by
    have hmapped := congrArg List.length (map_fst_placeFrom pos (ps.map Prod.fst))
    simpa using hmapped.symm
  refine ⟨hls, ?_⟩
  rw [hls, placeFrom_append, placeFrom_append] at h
  have hrest := (List.append_inj h.symm (hlength pos before)).2
  exact (List.append_inj hrest (hlength _ placed)).1

theorem stop_of_placeFrom {pos : Nat} {ls : List Lexeme} {before : List (Lexeme × Span)} {p : Lexeme × Span}
    (h : placeFrom pos ls = before ++ [p]) : p.2.stop = pos + Utf8.size (ls.flatMap chars) := by
  obtain ⟨hls, hlast⟩ := placeFrom_segment (h.trans (congrArg (before ++ ·) (List.append_nil [p]).symm))
  have hstop := congrArg (fun q => q.2.stop) (List.cons.inj hlast).1
  rw [hls]
  simpa [Nat.add_assoc] using hstop

theorem tokens_shift (stop n : Nat) (pending : List Comment) (placed : List (Lexeme × Span)) :
    tokens (stop + n) (pending.map (·.shift n)) (placed.map fun p => (p.1, p.2.shift n)) =
      ((tokens stop pending placed).1.map (·.shift n), (tokens stop pending placed).2.shift n) := by
  induction placed generalizing pending with
  | nil => rfl
  | cons first rest ih =>
      obtain ⟨⟨kind, chars⟩, span⟩ := first
      cases kind with
      | blank => exact ih pending
      | comment closed =>
          have hrest := ih (pending ++ [⟨span, String.ofList chars⟩])
          rw [List.map_append] at hrest
          exact hrest
      | token kind | faulty fault =>
          have hrest := ih []
          rw [List.map_nil] at hrest
          simp only [List.map_cons, tokens, tokenKind?, hrest]
          rfl

theorem tokens_append (stop : Nat) (pending : List Comment) (placed more : List (Lexeme × Span)) :
    tokens stop pending (placed ++ more) =
      ((tokens stop pending placed).1 ++ (tokens stop (tokens stop pending placed).2.leading more).1,
        (tokens stop (tokens stop pending placed).2.leading more).2) := by
  induction placed generalizing pending with
  | nil => rfl
  | cons first placed ih =>
      obtain ⟨⟨kind, chars⟩, span⟩ := first
      cases kind with
      | blank => exact ih pending
      | comment closed => exact ih (pending ++ [⟨span, String.ofList chars⟩])
      | token kind | faulty fault =>
          simp only [List.cons_append, tokens, tokenKind?, ih []]

theorem report?_shift (l : Lexeme) (span : Span) (n : Nat) :
    l.report? (span.shift n) = (l.report? span).map (·.shift n) := by
  obtain ⟨kind, chars⟩ := l
  cases kind with
  | blank | token _ => rfl
  | comment closed => cases closed <;> rfl
  | faulty fault =>
      cases fault with
      | strayCharacter | openString => rfl
      | openForeign =>
          simp [report?, Diagnostic.shift, Diagnostic.withLabel, Diagnostic.error, Label.shift, Span.shift,
            Nat.add_right_comm]

/-- From a token on, without the comments before it, the tokens are those of the lexemes from there on. -/
theorem tokens_suffix {stop : Nat} {pending : List Comment} {placed : List (Lexeme × Span)} {us vs : List Token}
    {t : Token} (h : (tokens stop pending placed).1 = us ++ t :: vs) :
    ∃ before p after, placed = before ++ p :: after ∧ p.1.tokenKind? = some t.kind ∧ p.2 = t.span ∧
      (tokens stop [] (p :: after)).1 = { t with leading := [] } :: vs := by
  induction placed generalizing pending us with
  | nil => simp [tokens] at h
  | cons first rest ih =>
      have hlater {pending : List Comment} {us : List Token} (h : (tokens stop pending rest).1 = us ++ t :: vs) :
          ∃ before p after, first :: rest = before ++ p :: after ∧ p.1.tokenKind? = some t.kind ∧ p.2 = t.span ∧
            (tokens stop [] (p :: after)).1 = { t with leading := [] } :: vs := by
        obtain ⟨before, p, after, hrest, hp⟩ := ih h
        exact ⟨first :: before, p, after, congrArg (first :: ·) hrest, hp⟩
      obtain ⟨⟨kind, chars⟩, span⟩ := first
      cases kind with
      | blank | comment closed => exact hlater h
      | token kind | faulty fault =>
          simp only [tokens, tokenKind?] at h
          cases us with
          | cons u us => exact hlater (List.cons.inj h).2
          | nil =>
              obtain ⟨rfl, hvs⟩ := List.cons.inj h
              exact ⟨[], _, rest, rfl, rfl, rfl, congrArg (_ :: ·) hvs⟩

/-- Up to a token, the tokens are those of the lexemes up to there, with no comment behind them. -/
theorem tokens_prefix {stop : Nat} {pending : List Comment} {placed : List (Lexeme × Span)} {us vs : List Token}
    {t : Token} (h : (tokens stop pending placed).1 = us ++ t :: vs) :
    ∃ before p after, placed = before ++ p :: after ∧ p.2 = t.span ∧
      ∀ stop, tokens stop pending (before ++ [p]) = (us ++ [t], ⟨.endOfFile, ⟨stop, stop⟩, "", []⟩) := by
  induction placed generalizing pending us with
  | nil => simp [tokens] at h
  | cons first rest ih =>
      obtain ⟨⟨kind, chars⟩, span⟩ := first
      cases kind with
      | blank | comment closed =>
          obtain ⟨before, p, after, hrest, hspan, htokens⟩ := ih h
          exact ⟨_ :: before, p, after, congrArg (_ :: ·) hrest, hspan, htokens⟩
      | token kind | faulty fault =>
          simp only [tokens, tokenKind?] at h
          cases us with
          | cons u us =>
              obtain ⟨rfl, hus⟩ := List.cons.inj h
              obtain ⟨before, p, after, hrest, hspan, htokens⟩ := ih hus
              refine ⟨_ :: before, p, after, congrArg (_ :: ·) hrest, hspan, fun stop => ?_⟩
              simp only [List.cons_append, tokens, tokenKind?, htokens]
          | nil =>
              obtain ⟨rfl, -⟩ := List.cons.inj h
              exact ⟨[], _, rest, rfl, rfl, fun stop => rfl⟩

/-- Nothing is reported about such a lexeme, wherever it stands. -/
def Faultless (l : Lexeme) : Prop := l.kind ≠ .comment false ∧ ∀ fault, l.kind ≠ .faulty fault

/-- All that lexing reports is an error. -/
theorem faultless_iff (l : Lexeme) (span : Span) : l.Faultless ↔ ∀ d, l.report? span = some d → d.isError = false := by
  obtain ⟨kind, chars⟩ := l
  cases kind with
  | blank | token kind => simp [Faultless, report?]
  | comment closed =>
      cases closed with
      | true => simp [Faultless, report?]
      | false => simp [Faultless, report?, Diagnostic.error, Diagnostic.isError, Severity.isError]
  | faulty fault =>
      cases fault with
      | strayCharacter | openString | openForeign =>
          simp [Faultless, report?, Diagnostic.error, Diagnostic.withLabel, Diagnostic.isError, Severity.isError]

theorem opensForeign_of_tokenKind? {l : Lexeme} {kind : TokenKind} (h : l.tokenKind? = some kind) (b : Bool) :
    l.opensForeign b = l.opensForeign false := by
  obtain ⟨k, chars⟩ := l
  cases k with
  | blank | comment _ => cases h
  | token _ | faulty _ => rfl

end Lexeme

/-- Where the last of some tokens ends. -/
def Token.lastStop (ts : List Token) : Nat := (ts.getLast?.map fun t => t.span.stop).getD 0

theorem Token.lastStop_concat (ts : List Token) (t : Token) : lastStop (ts ++ [t]) = t.span.stop := by
  simp [lastStop]

namespace TokenStream

theorem clean_reports_iff (text : String) :
    Clean (ofText text).reports ↔ ∀ l ∈ lexemes false text.toList, l.Faultless := by
  have hplaced : (lexemes false text.toList) = (Lexeme.placeFrom 0 (lexemes false text.toList)).map Prod.fst :=
    (Lexeme.map_fst_placeFrom _ _).symm
  rw [hplaced, List.forall_mem_map]
  constructor
  · intro h p hp
    exact (p.1.faultless_iff p.2).mpr fun d hd => h d (List.mem_filterMap.mpr ⟨p, hp, hd⟩)
  · intro h d hd
    obtain ⟨p, hp, hreport⟩ := List.mem_filterMap.mp hd
    exact (p.1.faultless_iff p.2).mp (h p hp) d hreport

variable {text : String}

/-- Lexemes of a text in a row make up a text of their own. -/
theorem exists_part_of_placed (hlex : Clean (ofText text).reports) {before after : List (Lexeme × Span)}
    {p : Lexeme × Span} {ps : List (Lexeme × Span)}
    (h : Lexeme.placeFrom 0 (lexemes false text.toList) = before ++ (p :: ps ++ after))
    (hkind : p.1.kind ≠ .token .foreignCode)
    (hflag : (∀ b, p.1.opensForeign b = p.1.opensForeign false) ∨ ps = []) :
    ∃ part : String, p :: ps = Lexeme.placeFrom p.2.start (lexemes false part.toList) ∧
      Span.Cuts ⟨p.2.start, p.2.start + part.utf8ByteSize⟩ text.toList part.toList ∧
      Clean (ofText part).reports := by
  obtain ⟨hls, hplaced⟩ := Lexeme.placeFrom_segment h
  have hfault := (clean_reports_iff text).mp hlex
  have hmem : ∀ l ∈ (p :: ps).map Prod.fst, l ∈ lexemes false text.toList := by
    intro l hl
    rw [hls]
    exact List.mem_append_right _ (List.mem_append_left _ hl)
  have hfirst : p.1 ∈ lexemes false text.toList := hmem p.1 List.mem_cons_self
  have hlexemes : lexemes false (((p :: ps).map Prod.fst).flatMap Lexeme.chars) = p.1 :: ps.map Prod.fst := by
    refine lexemes_false (lexemes_of_segment hls) ⟨hkind, (hfault p.1 hfirst).2 _⟩ ?_
    exact hflag.imp (fun hsame => hsame _) fun hnil => by rw [hnil, List.map_nil]
  have hstart : p.2.start = Utf8.size ((before.map Prod.fst).flatMap Lexeme.chars) := by
    have hhead := congrArg (fun q => q.2.start) (List.cons.inj hplaced).1
    exact hhead.trans (Nat.zero_add _)
  refine ⟨String.ofList (((p :: ps).map Prod.fst).flatMap Lexeme.chars), ?_⟩
  rw [String.toList_ofList, clean_reports_iff, String.toList_ofList, hlexemes]
  refine ⟨?_, ?_, fun l hl => hfault l (hmem l hl)⟩
  · rw [hstart]
    rw [Nat.zero_add] at hplaced
    exact hplaced
  · rw [Utf8.utf8ByteSize_ofList]
    refine ⟨(before.map Prod.fst).flatMap Lexeme.chars, (after.map Prod.fst).flatMap Lexeme.chars, ?_, ?_⟩
    · rw [List.append_assoc, ← List.flatMap_append, ← List.flatMap_append, ← hls, flatMap_chars_lexemes]
    · rw [hstart]

/-- The tokens of a text, counted from where it stands in another, are those of its lexemes there. -/
theorem shift_ofText (part : String) (n : Nat) :
    ((ofText part).tokens.map (·.shift n), (ofText part).final.shift n) =
      Lexeme.tokens (part.utf8ByteSize + n) [] (Lexeme.placeFrom n (lexemes false part.toList)) := by
  rw [← Utf8.size_toList, ← Nat.zero_add n, Lexeme.placeFrom_shift, Nat.zero_add]
  exact (Lexeme.tokens_shift (Utf8.size part.toList) n [] _).symm

/-- The tokens of a text and what is reported about them, as they are behind `n` bytes of another text. -/
def shift (t : TokenStream) (n : Nat) : TokenStream :=
  ⟨t.tokens.map (·.shift n), t.final.shift n, t.reports.map (·.shift n)⟩

theorem comments_shift (t : TokenStream) (n : Nat) : (t.shift n).comments = t.comments.map (·.shift n) := by
  simp [comments, all, shift, Token.shift, List.flatMap_map, List.map_flatMap]

/-- Behind lexemes of which the last is no comment, the tokens of a text are those that the rest has alone. -/
theorem ofText_of_lexemes {text rest : String} {ls : List Lexeme} {ts : List Token}
    (hlex : lexemes false text.toList = ls ++ lexemes false rest.toList)
    (htokens : ∀ stop, Lexeme.tokens stop [] (Lexeme.placeFrom 0 ls) = (ts, ⟨.endOfFile, ⟨stop, stop⟩, "", []⟩)) :
    ofText text =
      { tokens := ts ++ ((ofText rest).shift (Utf8.size (ls.flatMap Lexeme.chars))).tokens
        final := ((ofText rest).shift (Utf8.size (ls.flatMap Lexeme.chars))).final
        reports := (Lexeme.placeFrom 0 ls).filterMap (fun p => p.1.report? p.2) ++
          ((ofText rest).shift (Utf8.size (ls.flatMap Lexeme.chars))).reports } := by
  have hsize : Utf8.size text.toList = rest.utf8ByteSize + Utf8.size (ls.flatMap Lexeme.chars) := by
    rw [← flatMap_chars_lexemes false text.toList, hlex, List.flatMap_append, flatMap_chars_lexemes,
      Utf8.size_append, Utf8.size_toList, Nat.add_comm]
  have hshift := shift_ofText rest (Utf8.size (ls.flatMap Lexeme.chars))
  have hreports (n : Nat) : (Lexeme.placeFrom n (lexemes false rest.toList)).filterMap (fun p => p.1.report? p.2) =
      ((ofText rest).shift n).reports := by
    rw [← Nat.zero_add n, Lexeme.placeFrom_shift, List.filterMap_map, Nat.zero_add]
    simp only [Function.comp_def, Lexeme.report?_shift]
    exact List.map_filterMap.symm
  obtain ⟨hlater, hfinal⟩ := Prod.mk.inj hshift
  rw [ofText, ofChars, hlex, Lexeme.placeFrom_append, Nat.zero_add, Lexeme.tokens_append, htokens, hsize,
    List.filterMap_append, hreports]
  rw [← hshift]
  rfl

/-- From the start of a token, unless it is foreign code, to the end of a later one, or of the same. -/
theorem exists_part (hlex : Clean (ofText text).reports) {before mid after : List Token} {t : Token}
    (h : (ofText text).tokens = before ++ (t :: mid ++ after)) (hkind : t.kind ≠ .foreignCode) :
    ∃ part : String, Span.Cuts ⟨t.span.start, Token.lastStop (t :: mid)⟩ text.toList part.toList ∧
      Clean (ofText part).reports ∧ (ofText part).final.leading = [] ∧
      (ofText part).tokens.map (·.shift t.span.start) = { t with leading := [] } :: mid := by
  obtain ⟨front, p, rest, hplaced, hpkind, hpspan, htokens⟩ := Lexeme.tokens_suffix h
  obtain ⟨us, l, hmid⟩ := (List.eq_nil_or_concat' ({ t with leading := [] } :: mid)).resolve_left (List.cons_ne_nil _ _)
  change (Lexeme.tokens _ [] (p :: rest)).1 = ({ t with leading := [] } :: mid) ++ after at htokens
  rw [hmid, List.append_assoc, List.singleton_append] at htokens
  have hlast : Token.lastStop (t :: mid) = l.span.stop := by
    rw [← Token.lastStop_concat us l, ← hmid]
    cases mid <;> rfl
  obtain ⟨inner, q, back, hsplit, hqspan, hinner⟩ := Lexeme.tokens_prefix htokens
  obtain ⟨ps, hps⟩ : ∃ ps, inner ++ [q] = p :: ps := by
    cases inner with
    | nil =>
        obtain ⟨rfl, -⟩ := List.cons.inj hsplit
        exact ⟨[], rfl⟩
    | cons x xs =>
        obtain ⟨rfl, -⟩ := List.cons.inj hsplit
        exact ⟨xs ++ [q], rfl⟩
  have hall : Lexeme.placeFrom 0 (lexemes false text.toList) = front ++ (p :: ps ++ back) := by
    rw [hplaced, hsplit, ← hps, List.append_assoc, List.singleton_append]
  have hcode : p.1.kind ≠ .token .foreignCode := by
    intro hcode
    rw [Lexeme.tokenKind?, hcode] at hpkind
    exact hkind (Option.some.inj hpkind).symm
  obtain ⟨part, hpart, hcuts, hclean⟩ :=
    exists_part_of_placed hlex hall hcode (.inl (Lexeme.opensForeign_of_tokenKind? hpkind))
  have hstop : q.2.stop = p.2.start + part.utf8ByteSize := by
    rw [Lexeme.stop_of_placeFrom (hpart.symm.trans hps.symm), flatMap_chars_lexemes, Utf8.size_toList]
  rw [← hstop, hqspan, hpspan, ← hlast] at hcuts
  have hshift := shift_ofText part t.span.start
  rw [← hpspan, ← hpart, ← hps, hinner, hpspan] at hshift
  obtain ⟨htokens, hfinal⟩ := Prod.mk.inj hshift
  refine ⟨part, hcuts, hclean, ?_, htokens.trans hmid.symm⟩
  exact List.map_eq_nil_iff.mp (congrArg Token.leading hfinal)

end TokenStream

/-- The comments of placed lexemes are lexemes, or were pending before. -/
theorem Lexeme.exists_lexeme_of_comment (stop : Nat) (pending : List Comment) (placed : List (Lexeme × Span)) :
    ∀ k ∈ ((tokens stop pending placed).1 ++ [(tokens stop pending placed).2]).flatMap Token.leading,
      k ∈ pending ∨ ∃ p ∈ placed, ∃ closed, p.1.kind = .comment closed ∧ k = ⟨p.2, p.1.text⟩ := by
  induction placed generalizing pending with
  | nil =>
      intro k hk
      rw [tokens, List.nil_append, List.flatMap_singleton] at hk
      exact .inl hk
  | cons first rest ih =>
      have hlater (k : Comment) (h : ∃ p ∈ rest, ∃ closed, p.1.kind = .comment closed ∧ k = ⟨p.2, p.1.text⟩) :
          ∃ p ∈ first :: rest, ∃ closed, p.1.kind = .comment closed ∧ k = ⟨p.2, p.1.text⟩ :=
        h.imp fun p hp => hp.imp_left (List.mem_cons_of_mem first)
      obtain ⟨⟨kind, chars⟩, span⟩ := first
      intro k hk
      cases kind with
      | blank => exact (ih pending k hk).imp_right (hlater k)
      | comment closed =>
          cases ih _ k hk with
          | inr hrest => exact .inr (hlater k hrest)
          | inl hpending =>
              cases List.mem_append.mp hpending with
              | inl hbefore => exact .inl hbefore
              | inr hlast => exact .inr ⟨_, List.mem_cons_self, closed, rfl, List.mem_singleton.mp hlast⟩
      | token kind | faulty fault =>
          cases List.mem_append.mp hk with
          | inl hbefore => exact .inl hbefore
          | inr hrest =>
              cases ih [] k hrest with
              | inl hnil => cases hnil
              | inr hsome => exact .inr (hlater k hsome)

namespace TokenStream

variable {text : String}

/-- A comment is a text of its own. -/
theorem exists_part_of_comment (hlex : Clean (ofText text).reports) {k : Comment} (hk : k ∈ (ofText text).comments) :
    ∃ part : String, k.span.Cuts text.toList part.toList ∧ Clean (ofText part).reports ∧
      (ofText part).tokens = [] ∧ (ofText part).final.leading.map (·.shift k.span.start) = [k] := by
  obtain ⟨p, hp, closed, hkind, rfl⟩ := (Lexeme.exists_lexeme_of_comment _ [] _ k hk).resolve_left List.not_mem_nil
  obtain ⟨front, back, hplaced⟩ := List.append_of_mem hp
  have hall : Lexeme.placeFrom 0 (lexemes false text.toList) = front ++ ([p] ++ back) := hplaced
  obtain ⟨part, hpart, hcuts, hclean⟩ := exists_part_of_placed hlex hall (by simp [hkind]) (.inr rfl)
  have hlone : Lexeme.placeFrom p.2.start (lexemes false part.toList) = [] ++ [p] := hpart.symm
  have hstop : p.2.stop = p.2.start + part.utf8ByteSize := by
    rw [Lexeme.stop_of_placeFrom hlone, flatMap_chars_lexemes, Utf8.size_toList]
  rw [← hstop] at hcuts
  have hshift := shift_ofText part p.2.start
  rw [← hpart] at hshift
  obtain ⟨⟨kind, chars⟩, span⟩ := p
  obtain rfl : kind = .comment closed := hkind
  obtain ⟨htokens, hfinal⟩ := Prod.mk.inj hshift
  exact ⟨part, hcuts, hclean, List.map_eq_nil_iff.mp htokens, congrArg Token.leading hfinal⟩

end TokenStream
end Palimpsest
