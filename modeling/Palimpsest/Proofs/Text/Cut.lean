import Palimpsest.Proofs.Text.Size
import Palimpsest.Text.Location

/-!
Parts of a text and where they stand. An offset that parts the characters of a text is no place inside one of
them, and a span between two such offsets can be cut out.
-/

namespace Palimpsest

/-- An offset between two characters of a text or at one of its ends. -/
def Boundary (text : String) (n : Nat) : Prop := String.Pos.Raw.IsValid text ⟨n⟩

namespace Boundary

variable {text : String} {n m : Nat}

theorem of_append {before after : List Char} (h : text.toList = before ++ after) :
    Boundary text (Utf8.size before) := by
  refine String.Pos.Raw.isValid_iff_exists_append.mpr ⟨String.ofList before, String.ofList after, ?_, ?_⟩
  · rw [← String.ofList_append, ← h, String.ofList_toList]
  · exact congrArg String.Pos.Raw.mk (Utf8.utf8ByteSize_ofList before).symm

theorem zero : Boundary text 0 := of_append (List.nil_append text.toList).symm

theorem size : Boundary text text.utf8ByteSize := by
  rw [← Utf8.size_toList]
  exact of_append (List.append_nil _).symm

theorem le_size (h : Boundary text n) : n ≤ text.utf8ByteSize := by
  obtain ⟨a, b, htext, hn⟩ := String.Pos.Raw.isValid_iff_exists_append.mp h
  have hsize : n = a.utf8ByteSize := congrArg String.Pos.Raw.byteIdx hn
  rw [hsize, htext, String.utf8ByteSize_append]
  exact Nat.le_add_right _ _

theorem max (hn : Boundary text n) (hm : Boundary text m) : Boundary text (max n m) := by
  cases Nat.le_total n m with
  | inl hle => rwa [Nat.max_eq_right hle]
  | inr hle => rwa [Nat.max_eq_left hle]

end Boundary

namespace Span

/-- A span that lies in a text and parts none of its characters. -/
structure Fits (text : String) (s : Span) : Prop where
  ordered : s.start ≤ s.stop
  inside : s.stop ≤ text.utf8ByteSize
  start_boundary : Boundary text s.start
  stop_boundary : Boundary text s.stop

theorem Fits.of_boundary {text : String} {s : Span} (hordered : s.start ≤ s.stop) (hstart : Boundary text s.start)
    (hstop : Boundary text s.stop) : s.Fits text := ⟨hordered, hstop.le_size, hstart, hstop⟩

/-- An empty span at a boundary. -/
theorem Fits.empty {text : String} {n : Nat} (h : Boundary text n) : Fits text ⟨n, n⟩ :=
  .of_boundary (Nat.le_refl n) h h

/-- The part of some characters that stands at a span. -/
def Cuts (s : Span) (cs part : List Char) : Prop :=
  ∃ before after, cs = before ++ part ++ after ∧ s = ⟨Utf8.size before, Utf8.size before + Utf8.size part⟩

namespace Cuts

variable {s : Span} {cs part : List Char}

theorem slice? (h : s.Cuts cs part) : Utf8.slice? cs s.start s.stop = some part := by
  obtain ⟨before, after, rfl, rfl⟩ := h
  exact Utf8.slice?_append before part after

theorem snippet?_ofList {text : String} (h : s.Cuts text.toList part) :
    (SourceText.ofString text).snippet? s = some (String.ofList part) := by
  rw [SourceText.snippet?, SourceText.content_ofString, h.slice?, Option.map_some]

theorem snippet? {text part : String} (h : s.Cuts text.toList part.toList) :
    (SourceText.ofString text).snippet? s = some part := by
  rw [h.snippet?_ofList, String.ofList_toList]

/-- A part of a part is a part. -/
theorem inner {a b c : List Char} (h : s.Cuts cs (a ++ b ++ c)) :
    Cuts ⟨s.start + Utf8.size a, s.start + Utf8.size a + Utf8.size b⟩ cs b := by
  obtain ⟨before, after, rfl, rfl⟩ := h
  refine ⟨before ++ a, c ++ after, ?_, ?_⟩
  · simp only [List.append_assoc]
  · rw [Utf8.size_append before a]

theorem fits {text : String} (h : s.Cuts text.toList part) : s.Fits text := by
  obtain ⟨before, after, htext, rfl⟩ := h
  apply Fits.of_boundary
  · exact Nat.le_add_right _ _
  · exact Boundary.of_append (htext.trans (List.append_assoc before part after))
  · rw [← Utf8.size_append]
    exact Boundary.of_append htext

end Cuts

/-- A span that parts no character covers a part of the text. -/
theorem Fits.exists_cuts {text : String} {s : Span} (h : s.Fits text) : ∃ part, s.Cuts text.toList part := by
  obtain ⟨a, b, hstart, ha⟩ := String.Pos.Raw.isValid_iff_exists_append.mp h.start_boundary
  obtain ⟨c, d, hstop, hc⟩ := String.Pos.Raw.isValid_iff_exists_append.mp h.stop_boundary
  have hasize : s.start = Utf8.size a.toList := (congrArg String.Pos.Raw.byteIdx ha).trans (Utf8.size_toList a).symm
  have hcsize : s.stop = Utf8.size c.toList := (congrArg String.Pos.Raw.byteIdx hc).trans (Utf8.size_toList c).symm
  have hsplit : a.toList ++ b.toList = c.toList ++ d.toList := by
    rw [← String.toList_append, ← String.toList_append, ← hstart, hstop]
  have hcuts {part : List Char} (hpart : c.toList = a.toList ++ part) : s.Cuts text.toList part := by
    refine ⟨a.toList, d.toList, ?_, ?_⟩
    · rw [hstop, String.toList_append, hpart]
    · rw [← Utf8.size_append, ← hpart, ← hasize, ← hcsize]
  cases List.append_eq_append_iff.mp hsplit with
  | inl hlonger => exact ⟨_, hcuts hlonger.choose_spec.1⟩
  | inr hshorter =>
      obtain ⟨rest, hrest, -⟩ := hshorter
      have hordered := h.ordered
      rw [hasize, hcsize, hrest, Utf8.size_append] at hordered
      have hnil : rest = [] := by
        by_contra hne
        have := Utf8.size_pos hne
        omega
      exact ⟨[], hcuts (by rw [hrest, hnil, List.append_nil, List.append_nil])⟩

end Span
end Palimpsest
