/-!
Half-open ranges of byte offsets within one text. The dummy span stands for "no position"; it is the
unit of `merge`.
-/

namespace Palimpsest

/-- The bytes from `start` up to, and without, `stop`. -/
structure Span where
  start : Nat
  stop : Nat
deriving DecidableEq, Repr, Inhabited

namespace Span

/-- The position of something that is nowhere in a text. -/
def dummy : Span := ⟨4294967295, 4294967295⟩

def isDummy (s : Span) : Bool := s == dummy

def length (s : Span) : Nat := s.stop - s.start

def isEmpty (s : Span) : Bool := s.start == s.stop

/-- The smallest span that covers both; the dummy span adds nothing. -/
def merge (a b : Span) : Span :=
  if a.isDummy then b
  else if b.isDummy then a
  else ⟨min a.start b.start, max a.stop b.stop⟩

/-- `s` moved `n` bytes towards the end of the text. -/
def shift (s : Span) (n : Nat) : Span := ⟨s.start + n, s.stop + n⟩

/-- Every byte of `s` is a byte of `t`. -/
def Within (s t : Span) : Prop := t.start ≤ s.start ∧ s.stop ≤ t.stop

instance (s t : Span) : Decidable (s.Within t) := inferInstanceAs (Decidable (_ ∧ _))

theorem merge_dummy_left (s : Span) : dummy.merge s = s := by simp [merge, isDummy]

theorem merge_dummy_right (s : Span) : s.merge dummy = s := by
  by_cases h : s = dummy <;> simp [merge, isDummy, h]

end Span
end Palimpsest
