import Palimpsest.Proofs.Text.Lines

/-!
Lines and columns in words of 32 bits. In a text shorter than 2^32 bytes they are the lines and columns without
bound, up to the one place that words do not reach: the end of 2^32 - 1 bytes in a single line, or of as many line
feeds.
-/

namespace Palimpsest

namespace Utf8

theorem feedsBefore_le (bs : List UInt8) (p : Nat) : feedsBefore bs p ≤ p :=
  List.count_le_length.trans (List.length_take_le p bs)

theorem sinceFeed_le (bs : List UInt8) (p : Nat) : sinceFeed bs p ≤ p := by
  have hwhile := (List.takeWhile_prefix (· != lineFeed) (l := (bs.take p).reverse)).length_le
  rw [List.length_reverse] at hwhile
  exact hwhile.trans (List.length_take_le p bs)

theorem feedsBefore_length_iff (bs : List UInt8) :
    feedsBefore bs bs.length = bs.length ↔ ∀ b ∈ bs, b = lineFeed := by
  rw [feedsBefore, List.take_length, List.count_eq_length]
  exact forall₂_congr fun b _ => eq_comm

theorem sinceFeed_length_iff (bs : List UInt8) : sinceFeed bs bs.length = bs.length ↔ lineFeed ∉ bs := by
  have hself : sinceFeed bs bs.length = bs.length ↔ bs.reverse.takeWhile (· != lineFeed) = bs.reverse := by
    rw [sinceFeed, List.take_length]
    constructor
    · intro h
      exact (List.takeWhile_prefix _).eq_of_length (by rw [h, List.length_reverse])
    · intro h
      rw [h, List.length_reverse]
  rw [hself, List.takeWhile_eq_self_iff]
  constructor
  · intro h hmem
    simpa using h lineFeed (List.mem_reverse.mpr hmem)
  · intro h b hb
    rw [bne_iff_ne]
    intro heq
    exact h (heq ▸ List.mem_reverse.mp hb)

end Utf8

namespace SourceText

open Utf8

variable {t : SourceText}

theorem wordSum?_one {n : Nat} (h : n < 2 ^ 32) :
    wordSum? (UInt32.ofNat n) 1 = if n + 1 < 2 ^ 32 then some (UInt32.ofNat (n + 1)) else none := by
  rw [wordSum?, UInt32.toNat_ofNat_of_lt' h, UInt32.ofNat_add]
  rfl

theorem takeWhile_map_ofNat {starts : List Nat} (h : ∀ n ∈ starts, n < 2 ^ 32) (p : UInt32) :
    (starts.map UInt32.ofNat).takeWhile (· ≤ p) = (starts.takeWhile (· ≤ p.toNat)).map UInt32.ofNat := by
  induction starts with
  | nil => rfl
  | cons n rest ih =>
      obtain ⟨hn, hrest⟩ := List.forall_mem_cons.mp h
      have hle : UInt32.ofNat n ≤ p ↔ n ≤ p.toNat := by rw [UInt32.le_iff_toNat_le, UInt32.toNat_ofNat_of_lt' hn]
      by_cases hp : n ≤ p.toNat
      · rw [List.map_cons, List.takeWhile_cons_of_pos (by simpa [hle] using hp),
          List.takeWhile_cons_of_pos (by simpa using hp), List.map_cons, ih hrest]
      · rw [List.map_cons, List.takeWhile_cons_of_neg (by simpa [hle] using hp),
          List.takeWhile_cons_of_neg (by simpa using hp), List.map_nil]

theorem le_of_mem_lineStarts {n : Nat} (h : n ∈ t.lineStarts) : n ≤ t.size := by
  rw [t.starts_eq] at h
  cases List.mem_cons.mp h with
  | inl hzero => omega
  | inr hin =>
      have := le_of_mem_lineStartsFrom hin
      rw [t.size_eq]
      omega

/-- A line starts at or before the offsets that are on it. -/
theorem lineStart_le (t : SourceText) (p : Nat) : (t.lineStarts.takeWhile (· ≤ p)).getLastD 0 ≤ p := by
  rw [List.getLastD_eq_getLast?]
  cases h : (t.lineStarts.takeWhile (· ≤ p)).getLast? with
  | none => exact Nat.zero_le p
  | some n => simpa using List.all_eq_true.mp List.all_takeWhile n (List.mem_of_getLast? h)

/-- The search among the words of the table finds what the search among the line starts does. -/
theorem lineColWord?_eq_bind (hsize : t.size < 2 ^ 32) (o : UInt32) : t.lineColWord? o =
    (wordSum? (UInt32.ofNat ((t.lineCol o.toNat).1 - 1)) 1).bind fun line =>
      (wordSum? (UInt32.ofNat ((t.lineCol o.toNat).2 - 1)) 1).bind fun column => some (line, column) := by
  have hp : (min o (UInt32.ofNat t.size)).toNat = min o.toNat t.size := by
    rw [UInt32.toNat_min, UInt32.toNat_ofNat_of_lt' hsize]
  have hstarts : ∀ n ∈ t.lineStarts, n < 2 ^ 32 := fun n hn => Nat.lt_of_le_of_lt (le_of_mem_lineStarts hn) hsize
  have hstart := t.lineStart_le (min o.toNat t.size)
  have hcolumn : min o (UInt32.ofNat t.size) -
      ((t.lineStarts.takeWhile (· ≤ min o.toNat t.size)).map UInt32.ofNat).getLastD 0 =
        UInt32.ofNat ((t.lineCol o.toNat).2 - 1) := by
    have hlast := List.getLastD_map (f := UInt32.ofNat) (l := t.lineStarts.takeWhile (· ≤ min o.toNat t.size)) (a := 0)
    rw [lineCol, Nat.add_sub_cancel, UInt32.ofNat_sub hstart, ← hp, UInt32.ofNat_toNat, hp]
    exact congrArg _ hlast
  simp only [lineColWord?, takeWhile_map_ofNat hstarts, hp, hcolumn, List.length_map]
  rfl

/-- The words hold the line and the column, unless one of them is too large for a word. -/
theorem lineColWord?_eq (hsize : t.size < 2 ^ 32) (o : UInt32) : t.lineColWord? o =
    if (t.lineCol o.toNat).1 < 2 ^ 32 ∧ (t.lineCol o.toNat).2 < 2 ^ 32 then
      some (UInt32.ofNat (t.lineCol o.toNat).1, UInt32.ofNat (t.lineCol o.toNat).2)
    else none := by
  have hp : min o.toNat t.size < 2 ^ 32 := Nat.lt_of_le_of_lt (Nat.min_le_right _ _) hsize
  have hfeeds := feedsBefore_le (bytes t.content) (min o.toNat t.size)
  have hsince := sinceFeed_le (bytes t.content) (min o.toNat t.size)
  rw [lineColWord?_eq_bind hsize, lineCol_eq]
  generalize feedsBefore (bytes t.content) (min o.toNat t.size) = feeds at hfeeds ⊢
  generalize sinceFeed (bytes t.content) (min o.toNat t.size) = since at hsince ⊢
  dsimp only
  rw [Nat.add_sub_cancel_left, Nat.add_sub_cancel_left, wordSum?_one (by omega), wordSum?_one (by omega),
    Nat.add_comm 1, Nat.add_comm 1]
  by_cases hline : feeds + 1 < 2 ^ 32
  · by_cases hcolumn : since + 1 < 2 ^ 32
    · rw [if_pos hline, if_pos hcolumn, if_pos ⟨hline, hcolumn⟩]
      rfl
    · rw [if_pos hline, if_neg hcolumn, if_neg (mt And.right hcolumn)]
      rfl
  · rw [if_neg hline, if_neg (mt And.left hline)]
    rfl

/-- The end of a text of 2^32 - 1 bytes that are one line, or nothing but line feeds. -/
def Unreached (t : SourceText) (o : UInt32) : Prop :=
  min o.toNat t.size = 2 ^ 32 - 1 ∧ (lineFeed ∉ bytes t.content ∨ ∀ b ∈ bytes t.content, b = lineFeed)

theorem lineColWord?_eq_none_iff (hsize : t.size < 2 ^ 32) (o : UInt32) : t.lineColWord? o = none ↔ t.Unreached o := by
  have hle : min o.toNat t.size ≤ t.size := Nat.min_le_right _ _
  have hfeeds := feedsBefore_le (bytes t.content) (min o.toNat t.size)
  have hsince := sinceFeed_le (bytes t.content) (min o.toNat t.size)
  have hlength : (bytes t.content).length = t.size := length_bytes t.content
  have hall := feedsBefore_length_iff (bytes t.content)
  have hnone := sinceFeed_length_iff (bytes t.content)
  rw [hlength] at hall hnone
  rw [lineColWord?_eq hsize, lineCol_eq, Unreached, ← hall, ← hnone]
  generalize min o.toNat t.size = p at hle hfeeds hsince ⊢
  constructor
  · intro h
    have hlarge : ¬(1 + feedsBefore (bytes t.content) p < 2 ^ 32 ∧ 1 + sinceFeed (bytes t.content) p < 2 ^ 32) := by
      intro hfits
      rw [if_pos hfits] at h
      cases h
    obtain rfl : p = t.size := by omega
    omega
  · intro h
    obtain ⟨hp, hend⟩ := h
    obtain rfl : p = t.size := by omega
    apply if_neg
    dsimp only
    omega

theorem lineCol_of_lineColWord? (hsize : t.size < 2 ^ 32) {o line column : UInt32}
    (h : t.lineColWord? o = some (line, column)) : t.lineCol o.toNat = (line.toNat, column.toNat) := by
  rw [lineColWord?_eq hsize] at h
  split at h
  · rename_i hfits
    cases h
    rw [UInt32.toNat_ofNat_of_lt' hfits.1, UInt32.toNat_ofNat_of_lt' hfits.2]
  · cases h

/-- Every byte has its line and column, and only the end of the text may have none. -/
theorem exists_lineColWord? (hsize : t.size < 2 ^ 32) {o : UInt32} (ho : o.toNat < t.size) :
    ∃ pos, t.lineColWord? o = some pos := by
  apply Option.ne_none_iff_exists'.mp
  intro hnone
  have hend := ((lineColWord?_eq_none_iff hsize o).mp hnone).1
  omega

/-- Lines and columns in words say where the bytes of a text are. -/
structure Locates (t : SourceText) : Prop where
  reached : ∀ o, t.lineColWord? o = none ↔ t.Unreached o
  position : ∀ o line column, t.lineColWord? o = some (line, column) →
    line.toNat = 1 + feedsBefore (bytes t.content) (min o.toNat t.size) ∧
      column.toNat = 1 + sinceFeed (bytes t.content) (min o.toNat t.size)
  /-- The words are the line and the column that other statements speak of. -/
  plain : ∀ o line column, t.lineColWord? o = some (line, column) → t.lineCol o.toNat = (line.toNat, column.toNat)
  increasing : ∀ o o' pos pos', o < o' → o'.toNat ≤ t.size → t.lineColWord? o = some pos →
    t.lineColWord? o' = some pos' → toLex pos < toLex pos'
  injective : Set.InjOn t.lineColWord? {o | o.toNat ≤ t.size}
  /-- The line is there. Its text has the byte at its column, if that is not in the line end, which it lacks. -/
  line : ∀ o line column, t.lineColWord? o = some (line, column) → ∃ text, t.lineText? line.toNat = some text ∧
    (¬InLineEnd (bytes t.content) (min o.toNat t.size) →
      byteAt? text column.toNat = (bytes t.content)[min o.toNat t.size]? ∧ min o.toNat t.size < t.size) ∧
    (InLineEnd (bytes t.content) (min o.toNat t.size) → byteAt? text column.toNat = none)
  resolved : ∀ path start stop, start < stop → stop.toNat ≤ t.size → ∃ first last,
    t.lineColWord? start = some first ∧ t.lineColWord? (stop - 1) = some last ∧
    Location.resolveWord? path start stop t = some ⟨path, ⟨start.toNat, stop.toNat⟩, first.1.toNat, first.2.toNat,
      last.1.toNat, last.2.toNat⟩

theorem lt_of_word_lt (hsize : t.size < 2 ^ 32) {o o' : UInt32} {pos pos' : UInt32 × UInt32} (hlt : o < o')
    (hle : o'.toNat ≤ t.size) (h : t.lineColWord? o = some pos) (h' : t.lineColWord? o' = some pos') :
    toLex pos < toLex pos' := by
  obtain ⟨line, column⟩ := pos
  obtain ⟨line', column'⟩ := pos'
  rw [UInt32.lt_iff_toNat_lt] at hlt
  have hnat := t.increasing_lineCol (Set.mem_Iic.mpr (Nat.le_trans (Nat.le_of_lt hlt) hle)) (Set.mem_Iic.mpr hle) hlt
  simp only [lineCol_of_lineColWord? hsize h, lineCol_of_lineColWord? hsize h', Prod.Lex.toLex_lt_toLex] at hnat
  rw [Prod.Lex.toLex_lt_toLex]
  simpa only [UInt32.lt_iff_toNat_lt, UInt32.toNat_inj] using hnat

theorem injOn_lineColWord? (hsize : t.size < 2 ^ 32) : Set.InjOn t.lineColWord? {o | o.toNat ≤ t.size} := by
  intro o ho o' ho' h
  rw [Set.mem_ofPred_eq] at ho ho'
  rw [← UInt32.toNat_inj]
  cases hpos : t.lineColWord? o with
  | none =>
      have hend := ((lineColWord?_eq_none_iff hsize o).mp hpos).1
      have hend' := ((lineColWord?_eq_none_iff hsize o').mp (h ▸ hpos)).1
      omega
  | some pos =>
      obtain ⟨line, column⟩ := pos
      have heq := (lineCol_of_lineColWord? hsize hpos).trans (lineCol_of_lineColWord? hsize (h ▸ hpos)).symm
      exact t.increasing_lineCol.injOn (Set.mem_Iic.mpr ho) (Set.mem_Iic.mpr ho') (congrArg toLex heq)

theorem resolveWord?_eq (hsize : t.size < 2 ^ 32) (path : String) {start stop : UInt32} (hlt : start < stop)
    (hle : stop.toNat ≤ t.size) : ∃ first last,
      t.lineColWord? start = some first ∧ t.lineColWord? (stop - 1) = some last ∧
      Location.resolveWord? path start stop t = some ⟨path, ⟨start.toNat, stop.toNat⟩, first.1.toNat, first.2.toNat,
        last.1.toNat, last.2.toNat⟩ := by
  rw [UInt32.lt_iff_toNat_lt] at hlt
  have hone : (1 : UInt32) ≤ stop := by
    rw [UInt32.le_iff_toNat_le, UInt32.toNat_one]
    omega
  have hstop : (stop - 1).toNat = stop.toNat - 1 := UInt32.toNat_sub_of_le stop 1 hone
  have hpos : stop ≠ 0 := by
    intro hzero
    rw [hzero, UInt32.toNat_zero] at hlt
    omega
  have hmax : max (if stop = 0 then 0 else stop - 1) start = stop - 1 := by
    rw [if_neg hpos, ← UInt32.toNat_inj, UInt32.toNat_max]
    omega
  obtain ⟨first, hfirst⟩ := exists_lineColWord? hsize (o := start) (by omega)
  obtain ⟨last, hlast⟩ := exists_lineColWord? hsize (o := stop - 1) (by omega)
  refine ⟨first, last, hfirst, hlast, ?_⟩
  rw [Location.resolveWord?, hmax, hfirst, hlast]
  rfl

/-- In a text shorter than 2^32 bytes every offset that words reach has the line and column that the bytes before it
say, and there its byte is. -/
theorem locates (hsize : t.size < 2 ^ 32) : t.Locates where
  reached := lineColWord?_eq_none_iff hsize
  position := by
    intro o line column h
    have heq := (lineCol_of_lineColWord? hsize h).symm.trans (t.lineCol_eq o.toNat)
    exact Prod.mk.inj heq
  plain := fun _ _ _ h => lineCol_of_lineColWord? hsize h
  increasing := fun _ _ _ _ hlt hle h h' => lt_of_word_lt hsize hlt hle h h'
  injective := injOn_lineColWord? hsize
  line := by
    intro o line column h
    have hbyte := t.byteAt?_lineCol o.toNat
    rwa [lineCol_of_lineColWord? hsize h] at hbyte
  resolved := fun path _ _ hlt hle => resolveWord?_eq hsize path hlt hle

theorem locates_sample : (ofString "a\né;\r\n").size < 2 ^ 32 ∧ (ofString "a\né;\r\n").Locates ∧
    [0, 1, 2, 4, 6, 7, 9].map (ofString "a\né;\r\n").lineColWord? =
      [some (1, 1), some (1, 2), some (2, 1), some (2, 3), some (2, 5), some (3, 1), some (3, 1)] := by
  have hsize : (ofString "a\né;\r\n").size < 2 ^ 32 := by decide
  exact ⟨hsize, locates hsize, by decide⟩

/-- A text of one line. -/
def singleLine (n : Nat) : SourceText := ofString (String.ofList (List.replicate n 'a'))

theorem toList_singleLine (n : Nat) : (singleLine n).content.toList = List.replicate n 'a' := by
  rw [singleLine, content_ofString, String.toList_ofList]

theorem size_singleLine (n : Nat) : (singleLine n).size = n := by
  rw [size_eq, toList_singleLine]
  induction n with
  | zero => rfl
  | succ n ih =>
      rw [List.replicate_succ, size_cons, ih, Nat.add_comm]
      rfl

theorem lineCol_singleLine (n : Nat) : (singleLine n).lineCol n = (1, n + 1) := by
  have hsize := size_singleLine n
  rw [size_eq, toList_singleLine] at hsize
  have hfeed : '\n' ∉ List.replicate n 'a' := by
    intro hmem
    cases List.eq_of_mem_replicate hmem
  have hline : OnLine (singleLine n).content.toList n [] (List.replicate n 'a') [] := by
    refine ⟨?_, .inl rfl, hfeed, .inl rfl, Nat.zero_le n, ?_⟩
    · rw [toList_singleLine, List.append_nil, List.nil_append]
    · rw [size_nil, hsize, Nat.zero_add]
  exact lineCol_onLine hline

/-- Behind 2^32 - 1 bytes of one line the column is 2^32, which is no word. -/
theorem lineColWord?_singleLine : (singleLine (2 ^ 32 - 1)).size < 2 ^ 32 ∧
    (singleLine (2 ^ 32 - 1)).lineCol (2 ^ 32 - 1) = (1, 2 ^ 32) ∧
    (singleLine (2 ^ 32 - 1)).lineColWord? 4294967295 = none := by
  have hlt : (singleLine (2 ^ 32 - 1)).size < 2 ^ 32 := by
    rw [size_singleLine]
    omega
  have hoffset : (4294967295 : UInt32).toNat = 2 ^ 32 - 1 := by decide
  have hcolumn := lineCol_singleLine (2 ^ 32 - 1)
  refine ⟨hlt, hcolumn, ?_⟩
  rw [lineColWord?_eq hlt, hoffset, hcolumn]
  exact if_neg (mt And.right (Nat.lt_irrefl _))

end SourceText
end Palimpsest
