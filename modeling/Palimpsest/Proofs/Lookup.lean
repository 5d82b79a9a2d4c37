/-!
Looking up keys in lists of entries.
-/

namespace Palimpsest

variable {K A : Type} [DecidableEq K]

theorem lookup_filter_key (p : K → Bool) (entries : List (K × A)) (k : K) :
    (entries.filter fun e => p e.1).lookup k = if p k then entries.lookup k else none := by
  induction entries with
  | nil => simp
  | cons e rest ih =>
      obtain ⟨first, a⟩ := e
      by_cases h : k = first
      · subst h
        by_cases hp : p k <;> simp [hp, ih]
      · by_cases hp : p first <;> simp [hp, beq_false_of_ne h, List.lookup_cons, ih]

theorem lookup_eq_some_of_mem {entries : List (K × A)} (h : (entries.map Prod.fst).Nodup) {k : K} {a : A}
    (hmem : (k, a) ∈ entries) : entries.lookup k = some a := by
  induction entries with
  | nil => simp at hmem
  | cons e rest ih =>
      obtain ⟨hnot, hrest⟩ := List.nodup_cons.mp h
      cases List.mem_cons.mp hmem with
      | inl heq => simp [← heq]
      | inr hin =>
          obtain ⟨first, other⟩ := e
          have hne : k ≠ first := by
            rintro rfl
            exact hnot (List.mem_map.mpr ⟨(k, a), hin, rfl⟩)
          rw [List.lookup_cons, beq_false_of_ne hne]
          exact ih hrest hin

theorem lookup_isSome_iff {entries : List (K × A)} {k : K} :
    (entries.lookup k).isSome = true ↔ k ∈ entries.map Prod.fst := by
  induction entries with
  | nil => simp
  | cons e rest ih =>
      obtain ⟨first, a⟩ := e
      by_cases h : k = first
      · simp [h]
      · simp only [List.lookup_cons, beq_false_of_ne h, ih, List.map_cons, List.mem_cons, h, false_or]

end Palimpsest
