import Mathlib.Data.List.TakeWhile
import Mathlib.Data.Nat.SuccPred
import Mathlib.Data.Prod.Lex
import Palimpsest.Proofs.Text.Cut
import Palimpsest.Proofs.Text.Encoded
import Palimpsest.Text.Location

/-!
Lines and columns against the bytes of a text. Every offset stands on one line, and on that line the search among
the line starts is done away with: number, column and text of the line are read off the characters around it. A text
that is written line by line is split into these lines.
-/

namespace Palimpsest

theorem toList_pushn (s : String) (c : Char) (n : Nat) : (s.pushn c n).toList = s.toList ++ List.replicate n c := by
  rw [String.pushn_eq_repeat_push]
  induction n with
  | zero => simp [Nat.repeat]
  | succ n ih => rw [Nat.repeat, String.toList_push, ih, List.replicate_succ', List.append_assoc]

/-- Lines that are written one after another, each with its end, are what the text is split into. -/
theorem splitOn_join {lines : List String} (h : ∀ l ∈ lines, '\n' ∉ l.toList) :
    (String.join (lines.map (· ++ "\n"))).toList.splitOn '\n' = lines.map String.toList ++ [[]] := by
  induction lines with
  | nil => rfl
  | cons l rest ih =>
      obtain ⟨hl, hrest⟩ := List.forall_mem_cons.mp h
      have hjoin : (String.join ((l :: rest).map (· ++ "\n"))).toList =
          l.toList ++ '\n' :: (String.join (rest.map (· ++ "\n"))).toList := by
        simp
      rw [hjoin, List.splitOn_append_cons_self_of_not_mem hl, ih hrest]
      rfl

section Starts

theorem lineStartsFrom_append (pos : Nat) (a b : List Char) :
    lineStartsFrom pos (a ++ b) = lineStartsFrom pos a ++ lineStartsFrom (pos + Utf8.size a) b := by
  induction a generalizing pos with
  | nil => rfl
  | cons c a ih =>
      simp only [List.cons_append, lineStartsFrom, ih, Utf8.size_cons, Nat.add_assoc]
      split <;> rfl

theorem lineStartsFrom_of_not_mem (pos : Nat) {cs : List Char} (h : '\n' ∉ cs) : lineStartsFrom pos cs = [] := by
  induction cs generalizing pos with
  | nil => rfl
  | cons c cs ih =>
      obtain ⟨hc, hcs⟩ := not_or.mp (mt List.mem_cons.mpr h)
      rw [lineStartsFrom]
      exact (if_neg fun heq => hc heq.symm).trans (ih _ hcs)

theorem length_lineStartsFrom (pos : Nat) (cs : List Char) : (lineStartsFrom pos cs).length = cs.count '\n' := by
  induction cs generalizing pos with
  | nil => rfl
  | cons c cs ih =>
      rw [lineStartsFrom, List.count_cons]
      by_cases hc : c = '\n'
      · simp [hc, ih]
      · simp [hc, ih]

theorem le_of_mem_lineStartsFrom {pos n : Nat} {cs : List Char} (h : n ∈ lineStartsFrom pos cs) :
    n ≤ pos + Utf8.size cs := by
  induction cs generalizing pos with
  | nil => cases h
  | cons c cs ih =>
      rw [Utf8.size_cons, ← Nat.add_assoc]
      rw [lineStartsFrom] at h
      split at h
      · cases List.mem_cons.mp h with
        | inl heq => exact heq ▸ Nat.le_add_right _ _
        | inr hin => exact ih hin
      · exact ih h

end Starts

/-- Where an offset stands: what is above its line, the line, and behind it the line feed that ends it and what is
below, unless the text ends. -/
structure OnLine (cs : List Char) (p : Nat) (above body behind : List Char) : Prop where
  split : cs = above ++ (body ++ behind)
  opened : above = [] ∨ ∃ before, above = before ++ ['\n']
  unbroken : '\n' ∉ body
  closed : behind = [] ∨ ∃ below, behind = '\n' :: below
  start : Utf8.size above ≤ p
  stop : p ≤ Utf8.size above + Utf8.size body

/-- A line feed in front starts a line, and nothing else changes. -/
theorem OnLine.feed {cs above body behind : List Char} {p : Nat} (h : OnLine cs p above body behind) :
    OnLine ('\n' :: cs) (p + 1) ('\n' :: above) body behind := by
  have hsize : '\n'.utf8Size = 1 := by decide
  refine ⟨congrArg ('\n' :: ·) h.split, .inr ?_, h.unbroken, h.closed, ?_, ?_⟩
  · cases h.opened with
    | inl hnil => exact ⟨[], by rw [hnil]; rfl⟩
    | inr hfeed =>
        obtain ⟨before, hbefore⟩ := hfeed
        exact ⟨'\n' :: before, by rw [hbefore]; rfl⟩
  · have := h.start
    rw [Utf8.size_cons]
    omega
  · have := h.stop
    rw [Utf8.size_cons]
    omega

/-- Another character in front is on the line of what follows it, unless that is on a later line. -/
theorem OnLine.char {c : Char} {cs above body behind : List Char} {p : Nat} (hc : c ≠ '\n')
    (h : OnLine cs (p - c.utf8Size) above body behind) :
    ∃ above body behind, OnLine (c :: cs) p above body behind := by
  cases h.opened with
  | inl hnil =>
      subst hnil
      refine ⟨[], c :: body, behind, ⟨congrArg (c :: ·) h.split, .inl rfl, ?_, h.closed, Nat.zero_le p, ?_⟩⟩
      · exact mt List.mem_cons.mp (not_or.mpr ⟨fun heq => hc heq.symm, h.unbroken⟩)
      · have := h.stop
        rw [Utf8.size_cons]
        omega
  | inr hfeed =>
      obtain ⟨before, rfl⟩ := hfeed
      have hstart := h.start
      have hstop := h.stop
      rw [Utf8.size_append, Utf8.size_cons] at hstart hstop
      have hpos := '\n'.utf8Size_pos
      refine ⟨c :: (before ++ ['\n']), body, behind,
        ⟨congrArg (c :: ·) h.split, .inr ⟨c :: before, rfl⟩, h.unbroken, h.closed, ?_, ?_⟩⟩
      · rw [Utf8.size_cons, Utf8.size_append, Utf8.size_cons]
        omega
      · rw [Utf8.size_cons, Utf8.size_append, Utf8.size_cons]
        omega

theorem exists_onLine {cs : List Char} {p : Nat} (h : p ≤ Utf8.size cs) :
    ∃ above body behind, OnLine cs p above body behind := by
  induction cs generalizing p with
  | nil => exact ⟨[], [], [], ⟨rfl, .inl rfl, by simp, .inl rfl, Nat.zero_le p, h⟩⟩
  | cons c cs ih =>
      rw [Utf8.size_cons] at h
      by_cases hc : c = '\n'
      · subst hc
        cases p with
        | zero => exact ⟨[], [], '\n' :: cs, ⟨rfl, .inl rfl, by simp, .inr ⟨cs, rfl⟩, Nat.le_refl 0, Nat.le_refl 0⟩⟩
        | succ p =>
            have hsize : '\n'.utf8Size = 1 := by decide
            obtain ⟨above, body, behind, hline⟩ := ih (p := p) (by omega)
            exact ⟨_, _, _, hline.feed⟩
      · obtain ⟨above, body, behind, hline⟩ := ih (p := p - c.utf8Size) (by omega)
        exact hline.char hc

namespace OnLine

variable {cs above body behind : List Char} {p : Nat}

theorem le_size (h : OnLine cs p above body behind) : p ≤ Utf8.size cs := by
  have hstop := h.stop
  rw [h.split, Utf8.size_append, Utf8.size_append]
  omega

/-- Offsets from the start of the line to its end stand on the same line. -/
theorem move (h : OnLine cs p above body behind) {q : Nat} (hstart : Utf8.size above ≤ q)
    (hstop : q ≤ Utf8.size above + Utf8.size body) : OnLine cs q above body behind :=
  { h with start := hstart, stop := hstop }

theorem lineStarts (h : OnLine cs p above body behind) : 0 :: lineStartsFrom 0 cs =
    (0 :: lineStartsFrom 0 above) ++ lineStartsFrom (Utf8.size above + Utf8.size body) behind := by
  rw [h.split, lineStartsFrom_append, lineStartsFrom_append, lineStartsFrom_of_not_mem _ h.unbroken, Nat.zero_add]
  rfl

/-- The line starts where the last line feed above it ends. -/
theorem getLast?_lineStarts (h : OnLine cs p above body behind) :
    (0 :: lineStartsFrom 0 above).getLast? = some (Utf8.size above) := by
  cases h.opened with
  | inl hnil =>
      rw [hnil]
      rfl
  | inr hfeed =>
      obtain ⟨before, rfl⟩ := hfeed
      have hlast : lineStartsFrom (Utf8.size before) ['\n'] = [Utf8.size before + '\n'.utf8Size] := rfl
      rw [lineStartsFrom_append, Nat.zero_add, hlast, ← List.cons_append, List.getLast?_concat, Utf8.size_append]
      rfl

theorem le_start (h : OnLine cs p above body behind) : ∀ n ∈ 0 :: lineStartsFrom 0 above, n ≤ p := by
  intro n hn
  have hstart := h.start
  cases List.mem_cons.mp hn with
  | inl hzero => omega
  | inr hin =>
      have := le_of_mem_lineStartsFrom hin
      omega

theorem takeWhile_lineStarts (h : OnLine cs p above body behind) :
    (0 :: lineStartsFrom 0 cs).takeWhile (· ≤ p) = 0 :: lineStartsFrom 0 above := by
  have hbefore : (0 :: lineStartsFrom 0 above).takeWhile (· ≤ p) = 0 :: lineStartsFrom 0 above :=
    List.takeWhile_eq_self_iff.mpr fun n hn => decide_eq_true (h.le_start n hn)
  have hafter : (lineStartsFrom (Utf8.size above + Utf8.size body) behind).takeWhile (· ≤ p) = [] := by
    cases h.closed with
    | inl hnil =>
        rw [hnil]
        rfl
    | inr hfeed =>
        obtain ⟨below, rfl⟩ := hfeed
        have hpos := '\n'.utf8Size_pos
        have hstop := h.stop
        rw [lineStartsFrom]
        exact List.takeWhile_cons_of_neg (by simp; omega)
  rw [h.lineStarts, List.takeWhile_append_of_pos fun n hn => decide_eq_true (h.le_start n hn), hafter, List.append_nil]

end OnLine

namespace SourceText

variable {t : SourceText} {p : Nat} {above body behind : List Char}

theorem size_eq (t : SourceText) : t.size = Utf8.size t.content.toList := (Utf8.size_toList t.content).symm

theorem lineCol_min (t : SourceText) (o : Nat) : t.lineCol (min o t.size) = t.lineCol o := by
  simp only [lineCol, Nat.min_assoc, Nat.min_self]

/-- An offset is on the line behind the line feeds above it. -/
theorem lineCol_onLine (h : OnLine t.content.toList p above body behind) :
    t.lineCol p = (above.count '\n' + 1, p - Utf8.size above + 1) := by
  have hp : min p t.size = p := Nat.min_eq_left (t.size_eq ▸ h.le_size)
  have hlast : (0 :: lineStartsFrom 0 above).getLastD 0 = Utf8.size above := by
    rw [List.getLastD_eq_getLast?, h.getLast?_lineStarts, Option.getD_some]
  simp only [lineCol, hp, t.starts_eq, h.takeWhile_lineStarts, hlast]
  rw [List.length_cons, length_lineStartsFrom]

theorem trimLineEnd_concat_feed (cs : List Char) : trimLineEnd (cs ++ ['\n']) = trimLineEnd cs := by
  simp [trimLineEnd]

theorem lineText?_onLine (h : OnLine t.content.toList p above body behind) :
    t.lineText? (above.count '\n' + 1) = some (String.ofList (trimLineEnd body)) := by
  have hlength : (0 :: lineStartsFrom 0 above).length = above.count '\n' + 1 := by
    rw [List.length_cons, length_lineStartsFrom]
  have hstarts : t.lineStarts =
      (0 :: lineStartsFrom 0 above) ++ lineStartsFrom (Utf8.size above + Utf8.size body) behind :=
    t.starts_eq.trans h.lineStarts
  have hstart : t.lineStarts[above.count '\n']? = some (Utf8.size above) := by
    rw [hstarts, List.getElem?_append_left (by omega), ← h.getLast?_lineStarts, List.getLast?_eq_getElem?, hlength,
      Nat.add_sub_cancel]
  have htext {line rest : List Char} (hsplit : t.content.toList = above ++ line ++ rest)
      (hstop : t.lineStarts[above.count '\n' + 1]?.getD t.size = Utf8.size above + Utf8.size line) :
      t.lineText? (above.count '\n' + 1) = some (String.ofList (trimLineEnd line)) := by
    have hslice : Utf8.slice? t.content.toList (Utf8.size above) (Utf8.size above + Utf8.size line) = some line :=
      hsplit ▸ Utf8.slice?_append above line rest
    simp [lineText?, hstart, hstop, hslice]
  cases h.closed with
  | inl hnil =>
      subst hnil
      have hsplit : t.content.toList = above ++ body ++ [] := by rw [h.split, ← List.append_assoc]
      apply htext hsplit
      rw [hstarts, lineStartsFrom, List.append_nil, List.getElem?_eq_none (Nat.le_of_eq hlength), Option.getD_none,
        size_eq, hsplit, List.append_nil, Utf8.size_append]
  | inr hfeed =>
      obtain ⟨below, rfl⟩ := hfeed
      have hsplit : t.content.toList = above ++ (body ++ ['\n']) ++ below := by
        rw [h.split, List.append_assoc, List.append_assoc, List.singleton_append]
      rw [← trimLineEnd_concat_feed]
      apply htext hsplit
      rw [hstarts, ← hlength, List.getElem?_append_right (Nat.le_refl _), Nat.sub_self, Utf8.size_append,
        ← Nat.add_assoc]
      rfl

end SourceText

namespace Utf8

def lineFeed : UInt8 := 10

def carriageReturn : UInt8 := 13

/-- How many line feeds there are before a byte. -/
def feedsBefore (bs : List UInt8) (p : Nat) : Nat := (bs.take p).count lineFeed

/-- How many bytes there are between the last line feed before a byte, or the start if there is none, and the byte. -/
def sinceFeed (bs : List UInt8) (p : Nat) : Nat := ((bs.take p).reverse.takeWhile (· != lineFeed)).length

/-- A byte is in the line feeds and carriage returns that end its line. -/
def InLineEnd (bs : List UInt8) (p : Nat) : Prop :=
  ∀ q b, p ≤ q → feedsBefore bs q = feedsBefore bs p → bs[q]? = some b → b = lineFeed ∨ b = carriageReturn

section Steps

variable {bs : List UInt8} {p : Nat} {b : UInt8}

theorem feedsBefore_succ (h : bs[p]? = some b) :
    feedsBefore bs (p + 1) = feedsBefore bs p + if b = lineFeed then 1 else 0 := by
  rw [feedsBefore, List.take_add_one, h, List.count_append, Option.toList_some, List.count_singleton]
  simp [feedsBefore]

theorem sinceFeed_succ (h : bs[p]? = some b) :
    sinceFeed bs (p + 1) = if b = lineFeed then 0 else sinceFeed bs p + 1 := by
  rw [sinceFeed, List.take_add_one, h, Option.toList_some, List.reverse_concat]
  by_cases hb : b = lineFeed
  · simp [hb]
  · simp [hb, sinceFeed]

theorem feedsBefore_mono {q : Nat} (h : p ≤ q) : feedsBefore bs p ≤ feedsBefore bs q :=
  (List.take_sublist_take_left h).count_le lineFeed

end Steps

theorem lineFeed_mem_encodeChar {c : Char} : lineFeed ∈ String.utf8EncodeChar c ↔ c = '\n' :=
  mem_encodeChar (d := '\n') (by decide)

theorem carriageReturn_mem_encodeChar {c : Char} : carriageReturn ∈ String.utf8EncodeChar c ↔ c = '\r' :=
  mem_encodeChar (d := '\r') (by decide)

theorem lineFeed_mem_encoded {cs : List Char} : lineFeed ∈ cs.flatMap String.utf8EncodeChar ↔ '\n' ∈ cs := by
  simp [lineFeed_mem_encodeChar]

theorem count_lineFeed_encoded (cs : List Char) :
    (cs.flatMap String.utf8EncodeChar).count lineFeed = cs.count '\n' := by
  induction cs with
  | nil => rfl
  | cons c cs ih =>
      rw [List.flatMap_cons, List.count_append, ih, List.count_cons, Nat.add_comm]
      by_cases hc : c = '\n'
      · subst hc
        rfl
      · have hfree : lineFeed ∉ String.utf8EncodeChar c := mt lineFeed_mem_encodeChar.mp hc
        simp [hc, List.count_eq_zero_of_not_mem hfree]

end Utf8

namespace OnLine

open Utf8

variable {cs above body behind : List Char} {p : Nat}

theorem take_encoded (h : OnLine cs p above body behind) : (cs.flatMap String.utf8EncodeChar).take p =
    above.flatMap String.utf8EncodeChar ++ (body.flatMap String.utf8EncodeChar).take (p - size above) := by
  have hstart := h.start
  have hstop := h.stop
  rw [h.split, List.flatMap_append, List.flatMap_append, List.take_append, List.take_append, length_encoded,
    length_encoded, List.take_of_length_le (by rw [length_encoded]; exact hstart),
    show p - size above - size body = 0 by omega, List.take_zero, List.append_nil]

theorem feedsBefore (h : OnLine cs p above body behind) :
    feedsBefore (cs.flatMap String.utf8EncodeChar) p = above.count '\n' := by
  have hfree : lineFeed ∉ (body.flatMap String.utf8EncodeChar).take (p - size above) :=
    fun hmem => h.unbroken (lineFeed_mem_encoded.mp (List.mem_of_mem_take hmem))
  rw [Utf8.feedsBefore, h.take_encoded, List.count_append, count_lineFeed_encoded, List.count_eq_zero_of_not_mem hfree,
    Nat.add_zero]

theorem sinceFeed (h : OnLine cs p above body behind) :
    sinceFeed (cs.flatMap String.utf8EncodeChar) p = p - size above := by
  have hstop := h.stop
  have hfree : ∀ b ∈ ((body.flatMap String.utf8EncodeChar).take (p - size above)).reverse, (b != lineFeed) = true := by
    intro b hb
    rw [bne_iff_ne]
    rintro rfl
    exact h.unbroken (lineFeed_mem_encoded.mp (List.mem_of_mem_take (List.mem_reverse.mp hb)))
  have habove : (above.flatMap String.utf8EncodeChar).reverse.takeWhile (· != lineFeed) = [] := by
    cases h.opened with
    | inl hnil =>
        rw [hnil]
        rfl
    | inr hfeed =>
        obtain ⟨before, rfl⟩ := hfeed
        have hlast : ['\n'].flatMap String.utf8EncodeChar = [lineFeed] := rfl
        rw [List.flatMap_append, hlast, List.reverse_concat]
        rfl
  rw [Utf8.sinceFeed, h.take_encoded, List.reverse_append, List.takeWhile_append_of_pos hfree, habove, List.append_nil,
    List.length_reverse, List.length_take, length_encoded]
  omega

end OnLine

namespace SourceText

open Utf8

theorem exists_trimLineEnd (cs : List Char) : ∃ ends, cs = trimLineEnd cs ++ ends ∧
    (∀ c ∈ ends, c = '\n' ∨ c = '\r') ∧ ∀ c ∈ (trimLineEnd cs).getLast?, c ≠ '\n' ∧ c ≠ '\r' := by
  refine ⟨(cs.reverse.takeWhile fun c => c == '\n' || c == '\r').reverse, ?_, ?_, ?_⟩
  · rw [trimLineEnd, ← List.reverse_append, List.takeWhile_append_dropWhile, List.reverse_reverse]
  · intro c hc
    have hend := List.all_eq_true.mp List.all_takeWhile c (List.mem_reverse.mp hc)
    simpa using hend
  · intro c hc
    rw [trimLineEnd, List.getLast?_reverse] at hc
    have hend := List.head?_dropWhile_not (fun c => c == '\n' || c == '\r') cs.reverse
    rw [hc] at hend
    simpa using hend

end SourceText

namespace OnLine

open Utf8

variable {cs above body behind : List Char} {p : Nat}

/-- The number of line feeds before it tells on which line a byte is. -/
theorem le_of_feedsBefore (h : OnLine cs p above body behind) {q : Nat} (hq : q < size cs)
    (hfeeds : Utf8.feedsBefore (cs.flatMap String.utf8EncodeChar) q =
      Utf8.feedsBefore (cs.flatMap String.utf8EncodeChar) p) : q ≤ size above + size body := by
  cases h.closed with
  | inl hnil =>
      rw [h.split, hnil, size_append, size_append] at hq
      exact Nat.le_of_lt hq
  | inr hfeed =>
      obtain ⟨below, rfl⟩ := hfeed
      by_contra hlater
      have hend : (cs.flatMap String.utf8EncodeChar)[size above + size body]? = some lineFeed := by
        rw [h.split, List.flatMap_append, List.flatMap_append, ← length_encoded, ← length_encoded,
          List.getElem?_append_right (Nat.le_add_right _ _), Nat.add_sub_cancel_left,
          List.getElem?_append_right (Nat.le_refl _), Nat.sub_self]
        rfl
      have hmono : Utf8.feedsBefore (cs.flatMap String.utf8EncodeChar) (size above + size body + 1) ≤
          Utf8.feedsBefore (cs.flatMap String.utf8EncodeChar) q := feedsBefore_mono (Nat.lt_of_not_le hlater)
      have hline := h.move (q := size above + size body) (Nat.le_add_right _ _) (Nat.le_refl _)
      rw [feedsBefore_succ hend, hline.feedsBefore, hfeeds, h.feedsBefore, if_pos rfl] at hmono
      omega

/-- The bytes of a line from its start. -/
theorem getElem?_encoded {front rest : List Char} (h : OnLine cs p above (front ++ rest) behind)
    (hp : p < size above + size front) :
    (cs.flatMap String.utf8EncodeChar)[p]? = (front.flatMap String.utf8EncodeChar)[p - size above]? := by
  have hstart := h.start
  rw [h.split]
  simp only [List.flatMap_append, List.append_assoc]
  rw [List.getElem?_append_right (by rwa [length_encoded]), length_encoded,
    List.getElem?_append_left (by rw [length_encoded]; omega)]

theorem le_of_inLineEnd {shown ends : List Char} (h : OnLine cs p above (shown ++ ends) behind)
    (hlast : ∀ c, shown.getLast? = some c → c ≠ '\n' ∧ c ≠ '\r')
    (hend : InLineEnd (cs.flatMap String.utf8EncodeChar) p) : size above + size shown ≤ p := by
  have hstart := h.start
  by_contra hlt
  -- The last byte that is shown is on the line, and no part of the line end.
  cases hshown : shown.getLast? with
  | none =>
      rw [List.getLast?_eq_none_iff.mp hshown, size_nil] at hlt
      omega
  | some c =>
      obtain ⟨b, hmem, hget⟩ := exists_last_byte hshown
      have hpos : 0 < size shown := size_pos (List.ne_nil_of_mem (List.mem_of_getLast? hshown))
      have hmove := h.move (q := size above + (size shown - 1)) (by omega) (by rw [size_append]; omega)
      rw [← Nat.add_sub_cancel_left (size above) (size shown - 1), ← hmove.getElem?_encoded (by omega)] at hget
      have hb := hend _ b (by omega) (hmove.feedsBefore.trans h.feedsBefore.symm) hget
      obtain ⟨hfeed, hreturn⟩ := hlast c hshown
      cases hb with
      | inl hb => exact hfeed (lineFeed_mem_encodeChar.mp (hb ▸ hmem))
      | inr hb => exact hreturn (carriageReturn_mem_encodeChar.mp (hb ▸ hmem))

theorem inLineEnd_of_le {shown ends : List Char} (h : OnLine cs p above (shown ++ ends) behind)
    (hends : ∀ c ∈ ends, c = '\n' ∨ c = '\r') (hle : size above + size shown ≤ p) :
    InLineEnd (cs.flatMap String.utf8EncodeChar) p := by
  intro q b hq hfeeds hget
  have hlt : q < size cs := by
    rw [← length_encoded]
    exact (List.getElem?_eq_some_iff.mp hget).1
  have hqstop := h.le_of_feedsBefore hlt hfeeds
  rw [size_append] at hqstop
  rw [h.split] at hget
  simp only [List.flatMap_append, List.append_assoc] at hget
  rw [List.getElem?_append_right (by rw [length_encoded]; omega),
    List.getElem?_append_right (by rw [length_encoded, length_encoded]; omega), length_encoded,
    length_encoded] at hget
  -- The byte is of the line end, or it is the line feed after it.
  by_cases hin : q - size above - size shown < size ends
  · rw [List.getElem?_append_left (by rwa [length_encoded])] at hget
    obtain ⟨c, hc, hmem⟩ := List.mem_flatMap.mp (List.mem_of_getElem? hget)
    cases hends c hc with
    | inl hfeed =>
        rw [hfeed] at hmem
        exact .inl (List.mem_singleton.mp hmem)
    | inr hreturn =>
        rw [hreturn] at hmem
        exact .inr (List.mem_singleton.mp hmem)
  · rw [List.getElem?_append_right (by rw [length_encoded]; omega), length_encoded,
      show q - size above - size shown - size ends = 0 by omega] at hget
    cases h.closed with
    | inl hnil =>
        rw [hnil] at hget
        cases hget
    | inr hfeed =>
        obtain ⟨below, rfl⟩ := hfeed
        exact .inl (Option.some.inj hget).symm

/-- What the text of a line is cut short by is its line end. -/
theorem inLineEnd_iff (h : OnLine cs p above body behind) : InLineEnd (cs.flatMap String.utf8EncodeChar) p ↔
    size above + size (SourceText.trimLineEnd body) ≤ p := by
  obtain ⟨ends, hbody, hends, hlast⟩ := SourceText.exists_trimLineEnd body
  generalize SourceText.trimLineEnd body = shown at hbody hlast ⊢
  subst hbody
  exact ⟨h.le_of_inLineEnd hlast, h.inLineEnd_of_le hends⟩

end OnLine

namespace SourceText

open Utf8

/-- The byte of a line that stands in a column. -/
def byteAt? (line : String) (column : Nat) : Option UInt8 := (bytes line)[column - 1]?

theorem exists_onLine_min (t : SourceText) (o : Nat) :
    ∃ above body behind, OnLine t.content.toList (min o t.size) above body behind :=
  exists_onLine (t.size_eq ▸ Nat.min_le_right o t.size)

theorem lineCol_eq (t : SourceText) (o : Nat) : t.lineCol o = (1 + feedsBefore (bytes t.content) (min o t.size),
    1 + sinceFeed (bytes t.content) (min o t.size)) := by
  obtain ⟨above, body, behind, h⟩ := t.exists_onLine_min o
  rw [← lineCol_min, lineCol_onLine h, bytes_eq_flatMap, h.feedsBefore, h.sinceFeed, Nat.add_comm 1, Nat.add_comm 1]

/-- From a byte to the next the line grows, or the column does on the same line. -/
theorem lineCol_lt_succ (t : SourceText) {p : Nat} (h : p < t.size) :
    toLex (t.lineCol p) < toLex (t.lineCol (p + 1)) := by
  have hlength : p < (bytes t.content).length := by
    rw [length_bytes]
    exact h
  have hget := List.getElem?_eq_getElem hlength
  rw [lineCol_eq, lineCol_eq, Nat.min_eq_left (Nat.le_of_lt h), Nat.min_eq_left h, feedsBefore_succ hget,
    sinceFeed_succ hget, Prod.Lex.toLex_lt_toLex]
  split
  · exact .inl (by dsimp only; omega)
  · exact .inr ⟨by dsimp only; omega, by dsimp only; omega⟩

theorem increasing_lineCol (t : SourceText) : StrictMonoOn (fun o => toLex (t.lineCol o)) (Set.Iic t.size) :=
  strictMonoOn_of_lt_add_one Set.ordConnected_Iic fun _ _ _ hsucc => t.lineCol_lt_succ hsucc

theorem byteAt?_lineCol (t : SourceText) (o : Nat) : ∃ line, t.lineText? (t.lineCol o).1 = some line ∧
    (¬InLineEnd (bytes t.content) (min o t.size) →
      byteAt? line (t.lineCol o).2 = (bytes t.content)[min o t.size]? ∧ min o t.size < t.size) ∧
    (InLineEnd (bytes t.content) (min o t.size) → byteAt? line (t.lineCol o).2 = none) := by
  obtain ⟨above, body, behind, h⟩ := t.exists_onLine_min o
  rw [← lineCol_min, lineCol_onLine h, bytes_eq_flatMap, h.inLineEnd_iff]
  refine ⟨_, lineText?_onLine h, ?_, ?_⟩
  · intro hshown
    obtain ⟨ends, hbody, -⟩ := exists_trimLineEnd body
    generalize trimLineEnd body = shown at hbody hshown ⊢
    subst hbody
    rw [byteAt?, bytes_ofList, Nat.add_sub_cancel, h.getElem?_encoded (Nat.lt_of_not_le hshown)]
    have hsize := t.size_eq
    rw [h.split, size_append, size_append, size_append] at hsize
    exact ⟨rfl, by omega⟩
  · intro hend
    rw [byteAt?, bytes_ofList, Nat.add_sub_cancel]
    apply List.getElem?_eq_none
    rw [length_encoded]
    omega

end SourceText
end Palimpsest
