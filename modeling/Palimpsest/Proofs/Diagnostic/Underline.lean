import Palimpsest.Diagnostic.Terminal
import Palimpsest.Proofs.Text.Lines

/-!
The underline of a report. It stands as many columns in as there are bytes before the span on its line, and has as
many marks as the span has bytes there. So it is under the characters of the span exactly if these, and those before
them, take one byte each.
-/

namespace Palimpsest

namespace Utf8

theorem utf8Size_eq_one_iff (c : Char) : c.utf8Size = 1 ↔ c.toNat < 128 := by
  rw [Char.utf8Size_eq_one_iff, UInt32.le_iff_toNat_le]
  exact Nat.lt_succ_iff.symm

theorem length_le_size (cs : List Char) : cs.length ≤ size cs := by
  induction cs with
  | nil => exact Nat.le_refl 0
  | cons c cs ih =>
      have := c.utf8Size_pos
      rw [List.length_cons, size_cons]
      omega

/-- Only characters below 128 take one byte each. -/
theorem size_eq_length_iff (cs : List Char) : size cs = cs.length ↔ ∀ c ∈ cs, c.toNat < 128 := by
  induction cs with
  | nil => simp
  | cons c cs ih =>
      have := c.utf8Size_pos
      have := length_le_size cs
      rw [List.forall_mem_cons, ← ih, ← utf8Size_eq_one_iff, size_cons, List.length_cons]
      omega

end Utf8

namespace SourceText

theorem trimLineEnd_append {a b : List Char} (h : trimLineEnd b ≠ []) : trimLineEnd (a ++ b) = a ++ trimLineEnd b := by
  have hne : (b.reverse.dropWhile fun c => c == '\n' || c == '\r').isEmpty = false := by
    rw [List.isEmpty_eq_false_iff]
    exact fun hnil => h (congrArg List.reverse hnil)
  rw [trimLineEnd, List.reverse_append, List.dropWhile_append, hne, if_neg Bool.false_ne_true, List.reverse_append,
    List.reverse_reverse]
  rfl

theorem trimLineEnd_isPrefix (cs : List Char) : trimLineEnd cs <+: cs := by
  obtain ⟨ends, hcs, -⟩ := exists_trimLineEnd cs
  exact ⟨ends, hcs.symm⟩

end SourceText

namespace Span

/-- The characters on its line before a span. -/
def lead (text : String) (s : Span) : List Char :=
  (((Utf8.take? text.toList s.start).getD []).reverse.takeWhile (· != '\n')).reverse

/-- The characters of its line that are shown from where a span starts. -/
def shownFrom (text : String) (s : Span) : List Char :=
  SourceText.trimLineEnd (((Utf8.drop? text.toList s.start).getD []).takeWhile (· != '\n'))

/-- The characters of a span that are shown on the line on which it starts. -/
def shown (text : String) (s : Span) : List Char :=
  (s.shownFrom text).take ((Utf8.slice? text.toList s.start s.stop).getD []).length

section Shown

variable {text : String} {before part after : List Char}

theorem shownFrom_eq (h : text.toList = before ++ part ++ after) (stop : Nat) :
    shownFrom text ⟨Utf8.size before, stop⟩ = SourceText.trimLineEnd ((part ++ after).takeWhile (· != '\n')) := by
  rw [shownFrom, h, List.append_assoc, Utf8.drop?_size_append, Option.getD_some]

theorem lead_eq (h : text.toList = before ++ part ++ after) (stop : Nat) :
    lead text ⟨Utf8.size before, stop⟩ = (before.reverse.takeWhile (· != '\n')).reverse := by
  rw [lead, h, List.append_assoc, Utf8.take?_size_append, Option.getD_some]

/-- The line on which a span starts. -/
theorem exists_onLine (h : text.toList = before ++ part ++ after) (stop : Nat) :
    ∃ above behind, OnLine text.toList (Utf8.size before) above
      (lead text ⟨Utf8.size before, stop⟩ ++ (part ++ after).takeWhile (· != '\n')) behind ∧
      before = above ++ lead text ⟨Utf8.size before, stop⟩ := by
  have hfree (cs : List Char) : '\n' ∉ cs.takeWhile (· != '\n') := by
    intro hmem
    have hne := List.all_eq_true.mp List.all_takeWhile _ hmem
    simp at hne
  have hfeed (cs : List Char) : cs.dropWhile (· != '\n') = [] ∨ ∃ rest, cs.dropWhile (· != '\n') = '\n' :: rest := by
    have hhead := List.head?_dropWhile_not (· != '\n') cs
    cases hrest : cs.dropWhile (· != '\n') with
    | nil => exact .inl rfl
    | cons c rest =>
        rw [hrest] at hhead
        exact .inr ⟨rest, congrArg (· :: rest) (bne_eq_false_iff_eq.mp hhead)⟩
  have hbefore : before = (before.reverse.dropWhile (· != '\n')).reverse ++ lead text ⟨Utf8.size before, stop⟩ := by
    rw [lead_eq h, ← List.reverse_append, List.takeWhile_append_dropWhile, List.reverse_reverse]
  refine ⟨_, (part ++ after).dropWhile (· != '\n'), ⟨?_, ?_, ?_, hfeed _, ?_, ?_⟩, hbefore⟩
  · rw [← List.append_assoc, ← List.append_assoc, ← hbefore, List.append_assoc, List.takeWhile_append_dropWhile, h,
      List.append_assoc]
  · refine (hfeed before.reverse).imp (fun hnil => by rw [hnil, List.reverse_nil]) ?_
    rintro ⟨rest, hrest⟩
    exact ⟨rest.reverse, by rw [hrest, List.reverse_cons]⟩
  · rw [List.mem_append, not_or, lead_eq h, List.mem_reverse]
    exact ⟨hfree _, hfree _⟩
  · conv_rhs => rw [hbefore, Utf8.size_append]
    exact Nat.le_add_right _ _
  · conv_lhs => rw [hbefore, Utf8.size_append]
    rw [Utf8.size_append]
    omega

/-- Of what is covered and what is shown one is the start of the other. -/
theorem size_shown (h : text.toList = before ++ part ++ after) :
    Utf8.size (shown text ⟨Utf8.size before, Utf8.size before + Utf8.size part⟩) =
      min (Utf8.size part) (Utf8.size (shownFrom text ⟨Utf8.size before, Utf8.size before + Utf8.size part⟩)) := by
  have hslice : Utf8.slice? text.toList (Utf8.size before) (Utf8.size before + Utf8.size part) = some part :=
    h ▸ Utf8.slice?_append before part after
  rw [shown, hslice, Option.getD_some]
  have hprefix : shownFrom text ⟨Utf8.size before, Utf8.size before + Utf8.size part⟩ <+: part ++ after := by
    rw [shownFrom_eq h]
    exact (SourceText.trimLineEnd_isPrefix _).trans (List.takeWhile_prefix _)
  generalize shownFrom text ⟨Utf8.size before, Utf8.size before + Utf8.size part⟩ = line at hprefix
  cases List.prefix_or_prefix_of_prefix hprefix (List.prefix_append part after) with
  | inl hshort =>
      have hle := Utf8.size_le_of_sublist hshort.sublist
      rw [List.take_of_length_le hshort.length_le, Nat.min_eq_right hle]
  | inr hlong =>
      have hle := Utf8.size_le_of_sublist hlong.sublist
      rw [← List.prefix_iff_eq_take.mp hlong, Nat.min_eq_left hle]

end Shown
end Span

namespace Diagnostic
namespace Terminal

/-- The lines that a plain report has behind its header and its place, for the line it is about and the underline. -/
def pointer (d : Diagnostic) (path text : String) : List String :=
  ((lines false d path (.ofString text)).drop 3).take 2

/-- A line of a text, and below it spaces and marks, behind gutters of the same width. -/
def Underlined (rows : List String) (line : List Char) (indent marks : Nat) : Prop :=
  ∃ gutter edge : String, gutter.length = edge.length ∧
    rows = [gutter ++ String.ofList line, edge ++ spaces indent ++ "".pushn '^' marks]

theorem Underlined.unique {rows : List String} {line : List Char} {n m n' m' : Nat} (h : Underlined rows line n m)
    (h' : Underlined rows line n' m') : n = n' ∧ m = m' := by
  obtain ⟨gutter, edge, hwidth, rfl⟩ := h
  obtain ⟨gutter', edge', hwidth', hrows⟩ := h'
  obtain ⟨hline, hunder⟩ : gutter ++ String.ofList line = gutter' ++ String.ofList line ∧
      edge ++ spaces n ++ "".pushn '^' m = edge' ++ spaces n' ++ "".pushn '^' m' := by
    simpa using hrows
  have hgutter : gutter.length = gutter'.length := by
    have hlength := congrArg String.length hline
    rw [String.length_append, String.length_append] at hlength
    omega
  have hchars := congrArg String.toList hunder
  simp only [String.toList_append, spaces, toList_pushn, String.toList_empty, List.nil_append,
    List.append_assoc] at hchars
  have hmarks := (List.append_inj hchars (by rw [String.length_toList, String.length_toList]; omega)).2
  have hcount (c : Char) := congrArg (List.count c) hmarks
  have hspaces := hcount ' '
  have hcarets := hcount '^'
  simp only [List.count_append, List.count_replicate] at hspaces hcarets
  exact ⟨by simpa using hspaces, by simpa using hcarets⟩

variable {d : Diagnostic} {text : String}

theorem pointer_eq (path : String) (hlabels : d.labels = []) (hdummy : d.primary.isDummy = false) :
    pointer d path text = excerpt (.ofString text) d.primary '^' ""
      (toString ((SourceText.ofString text).lineCol d.primary.start).1).length := by
  simp only [pointer, lines, body, gutterWidth, hdummy, hlabels]
  rfl

theorem underlined_pointer (path : String) (hlabels : d.labels = []) (hdummy : d.primary.isDummy = false)
    (hfits : d.primary.Fits text) (hshown : d.primary.shownFrom text ≠ []) :
    Underlined (pointer d path text) (d.primary.lead text ++ d.primary.shownFrom text)
      (Utf8.size (d.primary.lead text)) (max 1 (Utf8.size (d.primary.shown text))) := by
  obtain ⟨part, before, after, htext, hspan⟩ := hfits.exists_cuts
  obtain ⟨above, behind, honline, hbefore⟩ := Span.exists_onLine htext (Utf8.size before + Utf8.size part)
  rw [← hspan] at honline hbefore
  have hlead : Utf8.size before - Utf8.size above = Utf8.size (d.primary.lead text) := by
    conv_lhs => rw [hbefore, Utf8.size_append, Nat.add_sub_cancel_left]
  have hstart : d.primary.start = Utf8.size before := by rw [hspan]
  have hfrom : d.primary.shownFrom text = SourceText.trimLineEnd ((part ++ after).takeWhile (· != '\n')) := by
    rw [hspan, Span.shownFrom_eq htext]
  have hlength : d.primary.length = Utf8.size part := by
    rw [hspan, Span.length, Nat.add_sub_cancel_left]
  have hposition : (SourceText.ofString text).lineCol d.primary.start =
      (above.count '\n' + 1, Utf8.size (d.primary.lead text) + 1) := by
    rw [hstart, SourceText.lineCol_onLine honline, hlead]
  have hline : (SourceText.ofString text).lineText? (above.count '\n' + 1) =
      some (String.ofList (d.primary.lead text ++ d.primary.shownFrom text)) := by
    rw [SourceText.lineText?_onLine honline, SourceText.trimLineEnd_append (hfrom ▸ hshown), hfrom]
  have hwidth : Utf8.size (d.primary.shown text) =
      min d.primary.length (Utf8.size (d.primary.shownFrom text)) := by
    rw [hlength, hspan, Span.size_shown htext]
  rw [pointer_eq path hlabels hdummy, excerpt, hposition]
  simp only [hline, hwidth, Option.getD_some, Nat.add_sub_cancel, Utf8.utf8ByteSize_ofList, Utf8.size_append,
    Nat.add_sub_cancel_left]
  refine ⟨toString (above.count '\n' + 1) ++ " | ", spaces (toString (above.count '\n' + 1)).length ++ " | ", ?_, ?_⟩
  · rw [String.length_append, String.length_append, spaces, String.length_pushn]
    simp
  · have hpad (number : String) : padLeft number.length number = number := by
      rw [padLeft, Nat.sub_self]
      exact String.empty_append
    rw [hpad, Nat.max_comm]
    simp

/-- The underline goes by bytes, and so stands under the characters exactly if these take one byte each. -/
theorem underlined_iff_ascii (path : String) (hlabels : d.labels = []) (hdummy : d.primary.isDummy = false)
    (hfits : d.primary.Fits text) (hshown : d.primary.shownFrom text ≠ []) :
    Underlined (pointer d path text) (d.primary.lead text ++ d.primary.shownFrom text)
        (Utf8.size (d.primary.lead text)) (max 1 (Utf8.size (d.primary.shown text))) ∧
      (Underlined (pointer d path text) (d.primary.lead text ++ d.primary.shownFrom text)
          (d.primary.lead text).length (max 1 (d.primary.shown text).length) ↔
        ∀ c ∈ d.primary.lead text ++ d.primary.shown text, c.toNat < 128) := by
  have hbytes := underlined_pointer path hlabels hdummy hfits hshown
  refine ⟨hbytes, ?_⟩
  rw [← Utf8.size_eq_length_iff, Utf8.size_append, List.length_append]
  have hlead := Utf8.length_le_size (d.primary.lead text)
  have hunder := Utf8.length_le_size (d.primary.shown text)
  constructor
  · intro hchars
    obtain ⟨hindent, hmarks⟩ := hbytes.unique hchars
    have hnone : (d.primary.shown text).length = 0 → Utf8.size (d.primary.shown text) = 0 := by
      intro hzero
      rw [List.length_eq_zero_iff.mp hzero]
      rfl
    omega
  · intro hascii
    have hindent : Utf8.size (d.primary.lead text) = (d.primary.lead text).length := by omega
    have hmarks : Utf8.size (d.primary.shown text) = (d.primary.shown text).length := by omega
    rwa [hindent, hmarks] at hbytes

theorem underlined_iff_ascii_brace :
    let d := Diagnostic.error .unexpectedToken "expected ';', found '\x7d'" ⟨10, 11⟩
    let text := "var a = 1 \x7d\n"
    d.labels = [] ∧ d.primary.isDummy = false ∧ d.primary.Fits text ∧ d.primary.shownFrom text ≠ [] ∧
      Underlined (pointer d "demo.chpl" text) "var a = 1 \x7d".toList 10 1 := by
  intro d text
  have hcuts : d.primary.Cuts text.toList ['\x7d'] := ⟨"var a = 1 ".toList, ['\n'], by decide, by decide⟩
  have hfits : d.primary.Fits text := hcuts.fits
  have hshown : d.primary.shownFrom text ≠ [] := by decide
  have hascii : (d.primary.lead text ++ d.primary.shown text).all (·.toNat < 128) = true := by decide
  have hunder := (underlined_iff_ascii "demo.chpl" (d := d) rfl rfl hfits hshown).2.mpr fun c hc =>
    of_decide_eq_true (List.all_eq_true.mp hascii c hc)
  have hline : d.primary.lead text ++ d.primary.shownFrom text = "var a = 1 \x7d".toList := by decide
  have hindent : (d.primary.lead text).length = 10 := by decide
  have hmarks : max 1 (d.primary.shown text).length = 1 := by decide
  rw [hline, hindent, hmarks] at hunder
  exact ⟨rfl, rfl, hfits, hshown, hunder⟩

/-- An escape that is none, behind a character of two bytes and with another in it. -/
def wideEscape : Diagnostic := .error .invalidEscape "'\\x' must be followed by two hex digits" ⟨3, 7⟩

/-- Behind a character of two bytes the underline stands too far in, and it is too long under another. -/
theorem underlined_past_wide :
    let text := "\"é\\xé\";"
    wideEscape.labels = [] ∧ wideEscape.primary.isDummy = false ∧ wideEscape.primary.Fits text ∧
      wideEscape.primary.shownFrom text ≠ [] ∧ wideEscape.primary.lead text = ['"', 'é'] ∧
      wideEscape.primary.shown text = ['\\', 'x', 'é'] ∧
      pointer wideEscape "demo.chpl" text = ["1 | \"é\\xé\";", "  |    ^^^^"] ∧
      ¬Underlined (pointer wideEscape "demo.chpl" text)
        (wideEscape.primary.lead text ++ wideEscape.primary.shownFrom text) (wideEscape.primary.lead text).length
        (max 1 (wideEscape.primary.shown text).length) := by
  intro text
  have hcuts : wideEscape.primary.Cuts text.toList ['\\', 'x', 'é'] :=
    ⟨['"', 'é'], ['"', ';'], by decide, by decide⟩
  have hfits : wideEscape.primary.Fits text := hcuts.fits
  have hshown : wideEscape.primary.shownFrom text ≠ [] := by decide
  refine ⟨rfl, rfl, hfits, hshown, by decide, by decide, by decide, fun hchars => ?_⟩
  have hindent := ((underlined_pointer "demo.chpl" rfl rfl hfits hshown).unique hchars).1
  exact absurd hindent (by decide)

end Terminal
end Diagnostic
end Palimpsest
