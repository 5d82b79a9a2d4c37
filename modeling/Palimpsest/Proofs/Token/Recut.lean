import Palimpsest.Proofs.Token.Clean

/-!
Where a lexeme ends does not depend on how much follows it. Of the lexemes of a text those that stand in a
row are the lexemes of the characters that they cover (`lexemes_of_segment`).
-/

namespace Palimpsest
namespace Lexeme

/-- If less of the rest follows, the same is cut off. -/
def Recuts (F : List Char → Cut) (cs : List Char) : Prop :=
  ∀ r y, (F cs).rest = r ++ y → F ((F cs).front ++ r) = { F cs with rest := r }

section Cuts

variable {F G : List Char → Cut} {p cs : List Char}

theorem recuts_stop {b : Bool} (h : ∀ ds y, cs = ds ++ y → F (p ++ ds) = ⟨p, ds, b⟩) :
    Recuts F (p ++ cs) := by
  have hall := h cs [] (List.append_nil cs).symm
  intro r y hr
  rw [hall] at hr ⊢
  exact h r y hr

theorem recuts_prepend
    (h : ∀ ds y, cs = ds ++ y → F (p ++ ds) = ⟨p ++ (G ds).front, (G ds).rest, (G ds).closed⟩)
    (happend : (G cs).front ++ (G cs).rest = cs) (hG : Recuts G cs) : Recuts F (p ++ cs) := by
  have hall := h cs [] (List.append_nil cs).symm
  intro r y hr
  rw [hall] at hr ⊢
  have hcs : cs = ((G cs).front ++ r) ++ y := by
    rw [List.append_assoc, ← hr, happend]
  have hless := h _ y hcs
  rw [hG r y hr, ← List.append_assoc] at hless
  exact hless

theorem recuts_nil {b : Bool} (h : F [] = ⟨[], [], b⟩) : Recuts F [] := by
  refine recuts_stop (p := []) (b := b) fun ds y hds => ?_
  obtain ⟨rfl, -⟩ := List.append_eq_nil_iff.mp hds.symm
  exact h

/-- What a part of some characters starts with, they start with. -/
theorem eq_cons_of_isPrefix {ds es y : List Char} {x : Char} (h : cs = ds ++ y) (hd : ds = x :: es) :
    cs = x :: (es ++ y) := by
  rw [h, hd, List.cons_append]

end Cuts

theorem recuts_ofPredicate (p : Char → Bool) (cs : List Char) : Recuts (Cut.ofPredicate p) cs := by
  induction cs with
  | nil => exact recuts_nil rfl
  | cons c cs ih =>
      cases hc : p c with
      | true =>
          refine recuts_prepend (p := [c]) (fun ds y _ => ?_) (Cut.append_ofPredicate p cs) ih
          simp [Cut.ofPredicate, hc]
      | false =>
          refine recuts_stop (p := []) (b := true) fun ds y hds => ?_
          cases ds with
          | nil => rfl
          | cons d ds =>
              obtain ⟨rfl, -⟩ := List.cons.inj hds
              simp [Cut.ofPredicate, hc]

theorem recuts_blockComment (outer : Nat) (cs : List Char) : Recuts (blockComment outer) cs := by
  fun_induction blockComment outer cs with
  | case1 outer => exact recuts_nil rfl
  | case2 outer cs ih => exact recuts_prepend (p := ['/', '*']) (fun _ _ _ => rfl) (append_blockComment _ cs) ih
  | case3 cs => exact recuts_stop (p := ['*', '/']) fun _ _ _ => rfl
  | case4 outer cs ih => exact recuts_prepend (p := ['*', '/']) (fun _ _ _ => rfl) (append_blockComment _ cs) ih
  | case5 outer c cs hopen hlast hinner ih =>
      refine recuts_prepend (p := [c]) (fun ds y hds => ?_) (append_blockComment outer cs) ih
      apply blockComment.eq_5
      · exact fun es hc hd => hopen _ hc (eq_cons_of_isPrefix hds hd)
      · exact fun es ho hc hd => hlast _ ho hc (eq_cons_of_isPrefix hds hd)
      · exact fun inner es ho hc hd => hinner inner _ ho hc (eq_cons_of_isPrefix hds hd)

theorem recuts_stringBody (cs : List Char) : Recuts stringBody cs := by
  -- A line feed ends the string where it stands, and so does the end.
  have hline {p es : List Char} (hend : stringBody p = ⟨p, [], false⟩)
      (hfeed : ∀ ds, stringBody (p ++ '\n' :: ds) = ⟨p, '\n' :: ds, false⟩) : Recuts stringBody (p ++ '\n' :: es) := by
    refine recuts_stop (b := false) fun ds y hds => ?_
    cases ds with
    | nil => rwa [List.append_nil]
    | cons d ds =>
        obtain ⟨rfl, -⟩ := List.cons.inj hds
        exact hfeed ds
  fun_induction stringBody cs with
  | case1 => exact recuts_nil rfl
  | case2 cs => exact recuts_stop (p := ['"']) fun _ _ _ => rfl
  | case3 cs => exact hline (p := []) rfl fun _ => rfl
  | case4 cs => exact hline (p := ['\\']) rfl fun _ => rfl
  | case5 c cs hc ih =>
      refine recuts_prepend (p := ['\\', c]) (fun ds y _ => ?_) (append_stringBody cs) ih
      exact stringBody.eq_5 c ds hc
  | case6 c cs hquote hfeed hline hescape ih =>
      refine recuts_prepend (p := [c]) (fun ds y hds => ?_) (append_stringBody cs) ih
      apply stringBody.eq_6
      · exact hquote
      · exact hfeed
      · exact fun es hc hd => hline _ hc (eq_cons_of_isPrefix hds hd)
      · exact fun e es hc hd => hescape e _ hc (eq_cons_of_isPrefix hds hd)

theorem recuts_foreignBody (mode : ForeignMode) (outer : Nat) (cs : List Char) :
    Recuts (foreignBody mode outer) cs := by
  fun_induction foreignBody mode outer cs with
  | case1 => exact recuts_nil rfl
  | case2 outer cs ih =>
      exact recuts_prepend (p := ['/', '/']) (fun _ _ _ => rfl) (append_foreignBody _ _ cs) ih
  | case3 outer cs ih =>
      exact recuts_prepend (p := ['/', '*']) (fun _ _ _ => rfl) (append_foreignBody _ _ cs) ih
  | case4 cs => exact recuts_stop (p := ['\x7d']) fun _ _ _ => rfl
  | case5 outer cs ih => exact recuts_prepend (p := ['\x7d']) (fun _ _ _ => rfl) (append_foreignBody _ _ cs) ih
  | case6 outer cs hline hblock hzero hsucc ih =>
      exact recuts_prepend (p := ['\x7b']) (fun _ _ _ => rfl) (append_foreignBody _ _ cs) ih
  | case7 outer c cs hline hblock hzero hsucc hbrace hquote ih =>
      refine recuts_prepend (p := [c]) (fun ds y hds => ?_) (append_foreignBody _ _ cs) ih
      rw [List.singleton_append, foreignBody.eq_6 _ _ _ _ _ hzero hsucc, if_neg hbrace, if_pos hquote]
      · rfl
      · exact fun es hc hd => hline _ hc (eq_cons_of_isPrefix hds hd)
      · exact fun es hc hd => hblock _ hc (eq_cons_of_isPrefix hds hd)
  | case8 outer c cs hline hblock hzero hsucc hbrace hquote ih =>
      refine recuts_prepend (p := [c]) (fun ds y hds => ?_) (append_foreignBody _ _ cs) ih
      rw [List.singleton_append, foreignBody.eq_6 _ _ _ _ _ hzero hsucc, if_neg hbrace, if_neg hquote]
      · rfl
      · exact fun es hc hd => hline _ hc (eq_cons_of_isPrefix hds hd)
      · exact fun es hc hd => hblock _ hc (eq_cons_of_isPrefix hds hd)
  | case9 q outer c cs ih =>
      exact recuts_prepend (p := ['\\', c]) (fun _ _ _ => rfl) (append_foreignBody _ _ cs) ih
  | case10 q outer c cs hescape hend ih =>
      refine recuts_prepend (p := [c]) (fun ds y hds => ?_) (append_foreignBody _ _ cs) ih
      rw [List.singleton_append, foreignBody.eq_8, if_pos hend]
      · rfl
      · exact fun e es hc hd => hescape e _ hc (eq_cons_of_isPrefix hds hd)
  | case11 q outer c cs hescape hend ih =>
      refine recuts_prepend (p := [c]) (fun ds y hds => ?_) (append_foreignBody _ _ cs) ih
      rw [List.singleton_append, foreignBody.eq_8, if_neg hend]
      · rfl
      · exact fun e es hc hd => hescape e _ hc (eq_cons_of_isPrefix hds hd)
  | case12 outer cs ih => exact recuts_prepend (p := ['\n']) (fun _ _ _ => rfl) (append_foreignBody _ _ cs) ih
  | case13 outer c cs hfeed ih =>
      refine recuts_prepend (p := [c]) (fun ds y _ => ?_) (append_foreignBody _ _ cs) ih
      rw [List.singleton_append, foreignBody.eq_9, if_neg hfeed]
      rfl
  | case14 outer cs ih =>
      exact recuts_prepend (p := ['*', '/']) (fun _ _ _ => rfl) (append_foreignBody _ _ cs) ih
  | case15 outer c cs hclose ih =>
      refine recuts_prepend (p := [c]) (fun ds y hds => ?_) (append_foreignBody _ _ cs) ih
      apply foreignBody.eq_11
      exact fun es hc hd => hclose _ hc (eq_cons_of_isPrefix hds hd)

/-- The digits of a number that starts with `c`, with its prefix. -/
def numberCut (c : Char) : List Char → Cut
  | x :: ds =>
    if c = '0' ∧ (x = 'x' ∨ x = 'X') then (Cut.ofPredicate isHexPart ds).cons x
    else Cut.ofPredicate isDecimalPart (x :: ds)
  | [] => Cut.ofPredicate isDecimalPart []

theorem number_eq (c : Char) (cs : List Char) : number c cs = take (.token .intLiteral) c (numberCut c cs) := by
  cases cs with
  | nil => rfl
  | cons x ds =>
      rw [number, numberCut]
      split <;> rfl

theorem recuts_numberCut (c : Char) (cs : List Char) : Recuts (numberCut c) cs := by
  cases cs with
  | nil => exact recuts_nil rfl
  | cons x ds =>
      by_cases hhex : c = '0' ∧ (x = 'x' ∨ x = 'X')
      · refine recuts_prepend (p := [x]) (fun es y _ => ?_) (Cut.append_ofPredicate isHexPart ds)
          (recuts_ofPredicate isHexPart ds)
        exact if_pos hhex
      · refine recuts_prepend (p := []) (fun es y hes => ?_) (Cut.append_ofPredicate isDecimalPart (x :: ds))
          (recuts_ofPredicate isDecimalPart (x :: ds))
        cases es with
        | nil => rfl
        | cons e es =>
            obtain ⟨rfl, -⟩ := List.cons.inj hes
            exact if_neg hhex

/-- If less follows a lexeme, it is the same lexeme. -/
def Relexes (F : List Char → Lexeme × List Char) (cs : List Char) : Prop :=
  ∀ r y, (F cs).2 = r ++ y → F ((F cs).1.chars.tail ++ r) = ((F cs).1, r)

/-- The kind of a lexeme is read off what is cut off. -/
theorem relexes_take {G : List Char → Cut} {cs : List Char} (kind : List Char → Bool → LexemeKind) (c : Char)
    (hG : Recuts G cs) : Relexes (fun ds => take (kind (G ds).front (G ds).closed) c (G ds)) cs := by
  intro r y h
  have hless : G ((G cs).front ++ r) = { G cs with rest := r } := hG r y h
  simp only [take, List.tail_cons, hless]

theorem relexes_symbol (c : Char) (cs : List Char) : Relexes (symbol c) cs := by
  intro r y _
  unfold symbol
  split <;> rfl

/-- The lexeme that starts with `c`, if this starts neither a blank nor a comment. -/
def plain (b : Bool) (c : Char) (cs : List Char) : Lexeme × List Char :=
  if b ∧ c = '\x7b' then foreign c cs
  else if isWordStart c then word c cs
  else if c.isDigit then number c cs
  else if c = '"' then string c cs
  else symbol c cs

theorem relexes_plain (b : Bool) (c : Char) (cs : List Char) : Relexes (plain b c) cs := by
  unfold plain
  split
  · exact relexes_take (fun _ closed => if closed then .token .foreignCode else .faulty .openForeign) c
      (recuts_foreignBody .code 0 cs)
  split
  · exact relexes_take
      (fun front _ => .token ((TokenKind.ofKeyword? (String.ofList (c :: front))).getD .identifier)) c
      (recuts_ofPredicate isWordPart cs)
  split
  · rw [show number c = _ from funext (number_eq c)]
    exact relexes_take (fun _ _ => .token .intLiteral) c (recuts_numberCut c cs)
  split
  · exact relexes_take (fun _ closed => if closed then .token .stringLiteral else .faulty .openString) c
      (recuts_stringBody cs)
  · exact relexes_symbol c cs

theorem chars_next_eq_cons (b : Bool) (c : Char) (cs : List Char) :
    (next b c cs).1.chars = c :: (next b c cs).1.chars.tail ∧
      (next b c cs).1.chars.tail ++ (next b c cs).2 = cs := by
  have happend := append_next b c cs
  cases hchars : (next b c cs).1.chars with
  | nil => exact absurd hchars (chars_next_ne_nil b c cs)
  | cons d ds =>
      rw [hchars] at happend
      obtain ⟨rfl, hds⟩ := List.cons.inj happend
      exact ⟨rfl, hds⟩

theorem next_of_plain (b : Bool) {c : Char} {cs : List Char} (hblank : ¬ isBlank c = true)
    (hcomment : ∀ x ds, c = '/' → cs = x :: ds → x ≠ '/' ∧ x ≠ '*') : next b c cs = plain b c cs := by
  unfold next
  rw [if_neg hblank]
  split
  · exact absurd rfl (hcomment '/' _ rfl rfl).1
  · exact absurd rfl (hcomment '*' _ rfl rfl).2
  · rfl

theorem relexes_next (b : Bool) (c : Char) (cs : List Char) : Relexes (next b c) cs := by
  by_cases hblank : isBlank c = true
  · have hnext (ds : List Char) : next b c ds = take .blank c (Cut.ofPredicate isBlank ds) := if_pos hblank
    rw [show next b c = _ from funext hnext]
    exact relexes_take (fun _ _ => .blank) c (recuts_ofPredicate isBlank cs)
  by_cases hline : c = '/' ∧ ∃ ds, cs = '/' :: ds
  · obtain ⟨rfl, ds, rfl⟩ := hline
    intro r y h
    have hless : Cut.ofPredicate (· != '\n') ((Cut.ofPredicate (· != '\n') ds).front ++ r) = _ :=
      recuts_ofPredicate _ ds r y h
    change take (.comment true) '/' ((Cut.ofPredicate (· != '\n') (_ ++ r)).cons '/') = _
    rw [hless]
    rfl
  by_cases hblock : c = '/' ∧ ∃ ds, cs = '*' :: ds
  · obtain ⟨rfl, ds, rfl⟩ := hblock
    intro r y h
    have hless := recuts_blockComment 0 ds r y h
    change take (.comment (blockComment 0 (_ ++ r)).closed) '/' ((blockComment 0 (_ ++ r)).cons '*') = _
    rw [hless]
    rfl
  · have hcomment : ∀ x ds, c = '/' → cs = x :: ds → x ≠ '/' ∧ x ≠ '*' := by
      intro x ds hc hcs
      constructor
      · exact fun hx => hline ⟨hc, ds, hx ▸ hcs⟩
      · exact fun hx => hblock ⟨hc, ds, hx ▸ hcs⟩
    have hall := next_of_plain b hblank hcomment
    have happend := (chars_next_eq_cons b c cs).2
    intro r y h
    rw [h, ← List.append_assoc] at happend
    rw [next_of_plain b hblank fun x ds hc hd => hcomment x _ hc (eq_cons_of_isPrefix happend.symm hd)]
    rw [hall] at h ⊢
    exact relexes_plain b c cs r y h

end Lexeme

open Lexeme

/-- Whether the next token stands right after the word that opens a foreign block, behind some lexemes. -/
def opensForeignAfter (b : Bool) (ls : List Lexeme) : Bool := ls.foldl (fun b l => l.opensForeign b) b

theorem lexemes_cons (b : Bool) {cs : List Char} {l : Lexeme} {ls : List Lexeme} (h : lexemes b cs = l :: ls) :
    ∃ c ds, cs = c :: ds ∧ (next b c ds).1 = l ∧ ls = lexemes (l.opensForeign b) (next b c ds).2 := by
  cases cs with
  | nil => rw [lexemes] at h; cases h
  | cons c ds =>
      rw [lexemes] at h
      obtain ⟨rfl, rfl⟩ := List.cons.inj h
      exact ⟨c, ds, rfl, rfl, rfl⟩

/-- The last lexemes of some characters are those of the last characters. -/
theorem lexemes_suffix {b : Bool} {cs : List Char} {ls ms : List Lexeme} (h : lexemes b cs = ls ++ ms) :
    lexemes (opensForeignAfter b ls) (ms.flatMap chars) = ms := by
  induction ls generalizing b cs with
  | nil =>
      rw [List.nil_append] at h
      rw [← h, flatMap_chars_lexemes]
      rfl
  | cons l ls ih =>
      obtain ⟨c, ds, rfl, rfl, hrest⟩ := lexemes_cons b h
      exact ih hrest.symm

/-- The first lexemes of some characters are those of the first characters. -/
theorem lexemes_prefix {b : Bool} {cs : List Char} {ls ms : List Lexeme} (h : lexemes b cs = ls ++ ms) :
    lexemes b (ls.flatMap chars) = ls := by
  induction ls generalizing b cs with
  | nil => rw [List.flatMap_nil, lexemes]
  | cons l ls ih =>
      obtain ⟨c, ds, rfl, rfl, hrest⟩ := lexemes_cons b h
      have hafter : (next b c ds).2 = ls.flatMap chars ++ ms.flatMap chars := by
        rw [← List.flatMap_append, ← flatMap_chars_lexemes _ (next b c ds).2, ← hrest]
        rfl
      have hnext : next b c ((next b c ds).1.chars.tail ++ ls.flatMap chars) = _ := relexes_next b c ds _ _ hafter
      rw [List.flatMap_cons, (chars_next_eq_cons b c ds).1, List.cons_append, lexemes, hnext, ih hrest.symm]

/-- Lexemes in a row are those of the characters that they cover. -/
theorem lexemes_of_segment {b : Bool} {cs : List Char} {ls ms ns : List Lexeme} (h : lexemes b cs = ls ++ (ms ++ ns)) :
    lexemes (opensForeignAfter b ls) (ms.flatMap chars) = ms :=
  lexemes_prefix (lexemes_suffix h)

/-- Only a brace of foreign code is told by what stands before it. -/
theorem Lexeme.next_false {b : Bool} {c : Char} {cs : List Char}
    (h : (next b c cs).1.kind ≠ .token .foreignCode ∧ (next b c cs).1.kind ≠ .faulty .openForeign) :
    next false c cs = next b c cs := by
  by_cases hbrace : b = true ∧ c = '\x7b'
  · obtain ⟨rfl, rfl⟩ := hbrace
    have hnext : (next true '\x7b' cs).1.kind =
        if (foreignBody .code 0 cs).closed then .token .foreignCode else .faulty .openForeign := rfl
    rw [hnext] at h
    cases hclosed : (foreignBody .code 0 cs).closed with
    | true => simp [hclosed] at h
    | false => simp [hclosed] at h
  · unfold next
    rw [if_neg hbrace]
    simp

/-- The characters that start with a token are lexed by themselves, unless that is foreign code. -/
theorem lexemes_false {b : Bool} {cs : List Char} {l : Lexeme} {ls : List Lexeme} (h : lexemes b cs = l :: ls)
    (hkind : l.kind ≠ .token .foreignCode ∧ l.kind ≠ .faulty .openForeign)
    (hflag : l.opensForeign b = l.opensForeign false ∨ ls = []) : lexemes false cs = l :: ls := by
  obtain ⟨c, ds, rfl, rfl, hrest⟩ := lexemes_cons b h
  rw [lexemes, next_false hkind]
  cases hflag with
  | inl hsame => rw [← hsame, ← hrest]
  | inr hnil =>
      have hdone : (next b c ds).2 = [] := by
        rw [← flatMap_chars_lexemes _ (next b c ds).2, ← hrest, hnil, List.flatMap_nil]
      rw [hdone, lexemes, hnil]

end Palimpsest
