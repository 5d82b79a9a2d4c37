import Palimpsest.Proofs.Hash.Bytes
import Palimpsest.Proofs.Text.Size

/-!
Characters and the bytes of their UTF-8 form. A byte below 128 is a character by itself and stands in the form of
no other, so that such characters can be looked for among the bytes.
-/

namespace Palimpsest
namespace Utf8

theorem bytes_ofList (cs : List Char) : bytes (String.ofList cs) = cs.flatMap String.utf8EncodeChar := by
  rw [bytes_eq, String.toByteArray_ofList]
  simp [List.utf8Encode]

theorem bytes_eq_flatMap (s : String) : bytes s = s.toList.flatMap String.utf8EncodeChar := by
  rw [← bytes_ofList, String.ofList_toList]

theorem length_encoded (cs : List Char) : (cs.flatMap String.utf8EncodeChar).length = size cs := by
  induction cs with
  | nil => rfl
  | cons c cs ih => rw [List.flatMap_cons, List.length_append, ih, String.length_utf8EncodeChar, size_cons]

/-- One byte below 128, or only bytes from there on. -/
theorem encodeChar_cases (c : Char) : c.toNat < 128 ∧ String.utf8EncodeChar c = [UInt8.ofNat c.toNat] ∨
    128 ≤ c.toNat ∧ ∀ b ∈ String.utf8EncodeChar c, 128 ≤ b.toNat := by
  unfold String.utf8EncodeChar
  dsimp only
  split
  next h => exact .inl ⟨Nat.lt_succ_of_le h, rfl⟩
  next h =>
    refine .inr ⟨Nat.not_le.mp h, ?_⟩
    split
    · simp only [List.forall_mem_cons, UInt8.toNat_ofNat']
      refine ⟨?_, ?_, by simp⟩ <;> omega
    · split
      · simp only [List.forall_mem_cons, UInt8.toNat_ofNat']
        refine ⟨?_, ?_, ?_, by simp⟩ <;> omega
      · simp only [List.forall_mem_cons, UInt8.toNat_ofNat']
        refine ⟨?_, ?_, ?_, ?_, by simp⟩ <;> omega

/-- A byte below 128 stands for its character only. -/
theorem mem_encodeChar {c d : Char} (hd : d.toNat < 128) : UInt8.ofNat d.toNat ∈ String.utf8EncodeChar c ↔ c = d := by
  have hvalue {n : Nat} (hn : n < 128) : (UInt8.ofNat n).toNat = n := Nat.mod_eq_of_lt (by omega)
  cases encodeChar_cases c with
  | inl hascii =>
      obtain ⟨hc, hencode⟩ := hascii
      rw [hencode, List.mem_singleton]
      constructor
      · intro h
        have hnat := congrArg UInt8.toNat h
        rw [hvalue hd, hvalue hc] at hnat
        exact Char.toNat_inj.mp hnat.symm
      · intro h
        rw [h]
  | inr hwide =>
      obtain ⟨hc, hbytes⟩ := hwide
      constructor
      · intro h
        have hle := hbytes _ h
        rw [hvalue hd] at hle
        omega
      · rintro rfl
        omega

/-- The last byte of some characters is one of the last character. -/
theorem exists_last_byte {cs : List Char} {c : Char} (h : cs.getLast? = some c) :
    ∃ b ∈ String.utf8EncodeChar c, (cs.flatMap String.utf8EncodeChar)[size cs - 1]? = some b := by
  obtain ⟨front, rfl⟩ := List.getLast?_eq_some_iff.mp h
  have hlast := List.getLast?_eq_some_getLast (String.utf8EncodeChar_ne_nil (c := c))
  refine ⟨_, List.getLast_mem String.utf8EncodeChar_ne_nil, ?_⟩
  rw [← length_encoded, ← List.getLast?_eq_getElem?, List.flatMap_append, List.flatMap_singleton, List.getLast?_append,
    hlast, Option.some_or]

end Utf8
end Palimpsest
