/-!
A ledger of strings. Each string has one number, given in the order in which strings first come in.
-/

namespace Palimpsest

/-- The strings by number, none twice. -/
structure Interner where
  names : List String
  nodup : names.Nodup := by simp

namespace Interner

def empty : Interner := ⟨[], List.nodup_nil⟩

instance : Inhabited Interner := ⟨empty⟩

def size (n : Interner) : Nat := n.names.length

def number? (n : Interner) (s : String) : Option Nat := n.names.idxOf? s

def name? (n : Interner) (id : Nat) : Option String := n.names[id]?

/-- The ledger with `s` in it. -/
def add (n : Interner) (s : String) : Interner :=
  if h : s ∈ n.names then n
  else ⟨n.names ++ [s], by
    rw [List.nodup_append]
    exact ⟨n.nodup, by simp, by intro a ha b hb e; simp at hb; exact h (hb ▸ e ▸ ha)⟩⟩

/-- The number of `s`, which comes in if it is new. -/
def intern (n : Interner) (s : String) : Nat × Interner :=
  ((n.number? s).getD n.size, n.add s)

def addAll (n : Interner) (ss : List String) : Interner := ss.foldl add n

end Interner
end Palimpsest
