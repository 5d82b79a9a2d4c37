import Mathlib.Algebra.Ring.Nat
import Palimpsest.Hash.Content

/-!
Bytes that tell what they are made of. A number that fits is told by its bytes, a string by its own, and a
string behind its length from what follows it.
-/

namespace Palimpsest

namespace Utf8

theorem toList_loop (b : ByteArray) (i : Nat) (r : List UInt8) :
    ByteArray.toList.loop b i r = r.reverse ++ b.data.toList.drop i := by
  fun_induction ByteArray.toList.loop b i r with
  | case1 i r hlt ih =>
      have hget : i < b.data.toList.length := hlt
      rw [ih, List.reverse_cons, List.append_assoc, List.drop_eq_getElem_cons hget]
      simp [ByteArray.get!, getElem!_pos b.data i hlt]
  | case2 i r hge =>
      have hdrop : b.data.toList.drop i = [] := List.drop_eq_nil_of_le (Nat.le_of_not_lt hge)
      rw [hdrop, List.append_nil]

theorem bytes_eq (s : String) : bytes s = s.toByteArray.data.toList := by
  have h := toList_loop s.toByteArray 0 []
  simpa [bytes, ByteArray.toList] using h

theorem length_bytes (s : String) : (bytes s).length = s.utf8ByteSize := by
  rw [bytes_eq, Array.length_toList]
  rfl

theorem bytes_inj {s s' : String} (h : bytes s = bytes s') : s = s' := by
  rw [bytes_eq, bytes_eq] at h
  exact String.toByteArray_inj.mp (ByteArray.ext (Array.toList_inj.mp h))

end Utf8

namespace Bytes

@[simp] theorem length_littleEndian (n x : Nat) : (littleEndian n x).length = n := by
  induction n generalizing x with
  | zero => rfl
  | succ n ih => simp [littleEndian, ih]

/-- Bytes tell a number up to what does not fit in them. -/
theorem mod_eq_of_littleEndian {n x y : Nat} (h : littleEndian n x = littleEndian n y) :
    x % 256 ^ n = y % 256 ^ n := by
  induction n generalizing x y with
  | zero => simp [Nat.mod_one]
  | succ n ih =>
      obtain ⟨hlow, hrest⟩ := List.cons.inj h
      have hbyte : x % 256 = y % 256 := congrArg UInt8.toNat hlow
      rw [Nat.pow_succ', Nat.mod_mul, Nat.mod_mul, hbyte, ih hrest]

theorem count_inj {a b : Nat} (ha : a < 2 ^ 64) (hb : b < 2 ^ 64) (h : count a = count b) : a = b := by
  have hmod : a % 2 ^ 64 = b % 2 ^ 64 := mod_eq_of_littleEndian h
  rwa [Nat.mod_eq_of_lt ha, Nat.mod_eq_of_lt hb] at hmod

theorem word64_inj {x y : UInt64} (h : word64 x = word64 y) : x = y :=
  UInt64.toNat_inj.mp (count_inj x.toNat_lt y.toNat_lt h)

@[simp] theorem length_count (n : Nat) : (count n).length = 8 := length_littleEndian 8 n

@[simp] theorem length_word64 (x : UInt64) : (word64 x).length = 8 := length_littleEndian 8 _

theorem length_string (s : String) : (string s).length = 8 + s.utf8ByteSize := by
  rw [string, List.length_append, length_count, Utf8.length_bytes]

/-- Strings of the same length end where the other ends. -/
theorem string_append_inj_of_size {s s' : String} {a a' : List UInt8}
    (hsize : s.utf8ByteSize = s'.utf8ByteSize) (h : string s ++ a = string s' ++ a') : s = s' ∧ a = a' := by
  obtain ⟨hstring, hrest⟩ := List.append_inj h (by rw [length_string, length_string, hsize])
  refine ⟨Utf8.bytes_inj ?_, hrest⟩
  rw [string, string] at hstring
  exact (List.append_inj hstring (by simp)).2

/-- Where what follows has the same length there is no doubt where strings end. -/
theorem string_append_inj {s s' : String} {a a' : List UInt8} (hlength : a.length = a'.length)
    (h : string s ++ a = string s' ++ a') : s = s' ∧ a = a' := by
  refine string_append_inj_of_size ?_ h
  have htotal := congrArg List.length h
  simp only [List.length_append, length_string] at htotal
  omega

/-- Strings that fit are told from what follows them. -/
theorem string_append_inj_of_lt {s s' : String} {a a' : List UInt8} (hs : s.utf8ByteSize < 2 ^ 64)
    (hs' : s'.utf8ByteSize < 2 ^ 64) (h : string s ++ a = string s' ++ a') : s = s' ∧ a = a' := by
  refine string_append_inj_of_size ?_ h
  rw [string, string, List.append_assoc, List.append_assoc] at h
  exact count_inj hs hs' (List.append_inj h (by simp)).1

end Bytes

namespace ContentHash

@[simp] theorem length_bytes (h : ContentHash) : h.bytes.length = 16 := by simp [bytes]

theorem bytes_inj {a b : ContentHash} (h : a.bytes = b.bytes) : a = b := by
  obtain ⟨hlow, hhigh⟩ := List.append_inj h (by simp)
  cases a
  cases b
  simp only at hlow hhigh
  rw [Bytes.word64_inj hlow, Bytes.word64_inj hhigh]

theorem length_flatMap_bytes (hs : List ContentHash) : (hs.flatMap bytes).length = 16 * hs.length := by
  induction hs with
  | nil => rfl
  | cons h rest ih =>
      rw [List.flatMap_cons, List.length_append, ih, length_bytes, List.length_cons]
      omega

theorem flatMap_bytes_inj {as bs : List ContentHash} (h : as.flatMap bytes = bs.flatMap bytes) : as = bs := by
  induction as generalizing bs with
  | nil =>
      have hlength := congrArg List.length h
      rw [length_flatMap_bytes, length_flatMap_bytes] at hlength
      cases bs with
      | nil => rfl
      | cons b rest => simp at hlength
  | cons a rest ih =>
      cases bs with
      | nil =>
          have hlength := congrArg List.length h
          rw [length_flatMap_bytes, length_flatMap_bytes] at hlength
          simp at hlength
      | cons b rest' =>
          rw [List.flatMap_cons, List.flatMap_cons] at h
          obtain ⟨hfirst, hrest⟩ := List.append_inj h (by simp)
          rw [bytes_inj hfirst, ih hrest]

end ContentHash
end Palimpsest
