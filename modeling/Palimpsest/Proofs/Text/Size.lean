import Mathlib.Algebra.Order.BigOperators.Group.List
import Mathlib.Algebra.Order.Group.Nat
import Mathlib.Algebra.Ring.Nat
import Palimpsest.Files
import Palimpsest.Text.Utf8

/-!
Sizes of texts and of what is cut out of them. The name that a path stands for is no longer than the path.
-/

namespace Palimpsest

namespace Utf8

theorem utf8ByteSize_ofList (cs : List Char) : (String.ofList cs).utf8ByteSize = size cs := by
  induction cs with
  | nil => rfl
  | cons c cs ih =>
      rw [← List.singleton_append, String.ofList_append, String.utf8ByteSize_append, ih]
      simp

theorem size_toList (s : String) : size s.toList = s.utf8ByteSize := by
  rw [← utf8ByteSize_ofList, String.ofList_toList]

theorem size_le_of_sublist {a b : List Char} (h : a.Sublist b) : size a ≤ size b := by
  induction h with
  | slnil => exact Nat.le_refl _
  | cons c _ ih =>
      rw [size_cons]
      omega
  | cons_cons c _ ih =>
      rw [size_cons, size_cons]
      omega

end Utf8

namespace Path

theorem split_cons (c : Char) (cs : List Char) :
    split (c :: cs) =
      match split cs with
      | [] => [[c]]
      | part :: rest => if c = '/' then [] :: part :: rest else (c :: part) :: rest := rfl

theorem sum_size_split_le (cs : List Char) : ((split cs).map Utf8.size).sum ≤ Utf8.size cs := by
  induction cs with
  | nil => simp [split]
  | cons c cs ih =>
      rw [split_cons]
      cases hsplit : split cs with
      | nil => simp
      | cons part rest =>
          rw [hsplit] at ih
          simp only [List.map_cons, List.sum_cons] at ih
          by_cases hc : c = '/'
          · simp only [hc, ite_true, List.map_cons, List.sum_cons, Utf8.size_nil, Utf8.size_cons]
            omega
          · simp only [hc, ite_false, List.map_cons, List.sum_cons, Utf8.size_cons]
            omega

theorem size_part_le {path part : String} (h : part ∈ parts path) : part.utf8ByteSize ≤ path.utf8ByteSize := by
  obtain ⟨cs, hcs, rfl⟩ := List.mem_map.mp (List.mem_filter.mp h).1
  have hle : Utf8.size cs ≤ ((split path.toList).map Utf8.size).sum :=
    List.single_le_sum (fun _ _ => Nat.zero_le _) _ (List.mem_map_of_mem hcs)
  rw [Utf8.utf8ByteSize_ofList, ← Utf8.size_toList path]
  exact Nat.le_trans hle (sum_size_split_le path.toList)

theorem size_stemOf_le (name : String) : (stemOf name).utf8ByteSize ≤ name.utf8ByteSize := by
  have hdropped : ((name.toList.reverse.dropWhile (· != '.')).drop 1).Sublist name.toList.reverse :=
    (List.drop_sublist 1 _).trans (List.dropWhile_sublist _)
  have hbefore : ((name.toList.reverse.dropWhile (· != '.')).drop 1).reverse.Sublist name.toList := by
    simpa using hdropped.reverse
  rw [stemOf]
  split
  · exact Nat.le_refl _
  · rw [Utf8.utf8ByteSize_ofList, ← Utf8.size_toList name]
    exact Utf8.size_le_of_sublist hbefore

theorem size_stem_le (path : String) : (stem path).utf8ByteSize ≤ path.utf8ByteSize := by
  rw [stem]
  cases hname : fileName? path with
  | none => exact Nat.le_refl _
  | some name =>
      have hlast : (parts path).getLast? = some name := (Option.filter_eq_some_iff.mp hname).1
      exact Nat.le_trans (size_stemOf_le name) (size_part_le (List.mem_of_getLast? hlast))

end Path
end Palimpsest
