/-!
Byte offsets into a list of characters. Offsets count the bytes of the UTF-8 form, and an offset inside
a character is no position: the cuts answer `none` there, as they do past the end.
-/

namespace Palimpsest
namespace Utf8

/-- The number of bytes of the UTF-8 form. -/
def size : List Char → Nat
  | [] => 0
  | c :: cs => c.utf8Size + size cs

/-- What follows the first `n` bytes. -/
def drop? : List Char → Nat → Option (List Char)
  | cs, 0 => some cs
  | [], _ + 1 => none
  | c :: cs, n + 1 => if c.utf8Size ≤ n + 1 then drop? cs (n + 1 - c.utf8Size) else none

/-- The first `n` bytes. -/
def take? : List Char → Nat → Option (List Char)
  | _, 0 => some []
  | [], _ + 1 => none
  | c :: cs, n + 1 =>
    if c.utf8Size ≤ n + 1 then (take? cs (n + 1 - c.utf8Size)).map (c :: ·) else none

/-- The characters from byte `start` up to byte `stop`. -/
def slice? (cs : List Char) (start stop : Nat) : Option (List Char) :=
  if start ≤ stop then (drop? cs start).bind (take? · (stop - start)) else none

/-- The bytes of the UTF-8 form. -/
def bytes (s : String) : List UInt8 := s.toUTF8.toList

@[simp] theorem size_nil : size [] = 0 := rfl

@[simp] theorem size_cons (c : Char) (cs : List Char) : size (c :: cs) = c.utf8Size + size cs := rfl

@[simp] theorem size_append (a b : List Char) : size (a ++ b) = size a + size b := by
  induction a with
  | nil => simp
  | cons c a ih => simp [ih, Nat.add_assoc]

theorem size_pos {cs : List Char} (h : cs ≠ []) : 0 < size cs := by
  cases cs with
  | nil => contradiction
  | cons c cs => have := c.utf8Size_pos; simp only [size_cons]; omega

theorem drop?_size_append (a b : List Char) : drop? (a ++ b) (size a) = some b := by
  induction a with
  | nil => simp [drop?]
  | cons c a ih =>
    have h := c.utf8Size_pos
    obtain ⟨n, hn⟩ : ∃ n, c.utf8Size + size a = n + 1 := ⟨c.utf8Size + size a - 1, by omega⟩
    simp only [List.cons_append, size_cons, hn, drop?]
    rw [if_pos (by omega), show n + 1 - c.utf8Size = size a by omega, ih]

theorem take?_size_append (a b : List Char) : take? (a ++ b) (size a) = some a := by
  induction a with
  | nil => simp [take?]
  | cons c a ih =>
    have h := c.utf8Size_pos
    obtain ⟨n, hn⟩ : ∃ n, c.utf8Size + size a = n + 1 := ⟨c.utf8Size + size a - 1, by omega⟩
    simp only [List.cons_append, size_cons, hn, take?]
    rw [if_pos (by omega), show n + 1 - c.utf8Size = size a by omega, ih]
    rfl

/-- A cut at the ends of a part gives back the part. -/
theorem slice?_append (a b c : List Char) :
    slice? (a ++ b ++ c) (size a) (size a + size b) = some b := by
  simp [slice?, List.append_assoc, drop?_size_append, take?_size_append]

end Utf8
end Palimpsest
