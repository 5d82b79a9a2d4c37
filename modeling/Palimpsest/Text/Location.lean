import Palimpsest.Text.Span
import Palimpsest.Text.Utf8

/-!
A text together with the offsets at which its lines start, and where spans of it lie in a named file. Lines
and columns count from one, columns in bytes; an offset past the end is taken as the end. In words of 32 bits
there is no line or column that does not fit.
-/

namespace Palimpsest

/-- The offsets after each line feed of `cs`, which starts at offset `pos`. -/
def lineStartsFrom (pos : Nat) : List Char → List Nat
  | [] => []
  | c :: cs =>
    let next := pos + c.utf8Size
    if c = '\n' then next :: lineStartsFrom next cs else lineStartsFrom next cs

/-- A text and where its lines start. -/
structure SourceText where
  content : String
  lineStarts : List Nat
  starts_eq : lineStarts = 0 :: lineStartsFrom 0 content.toList

namespace SourceText

def ofString (s : String) : SourceText := ⟨s, 0 :: lineStartsFrom 0 s.toList, rfl⟩

instance : Inhabited SourceText := ⟨ofString ""⟩

/-- Two texts with the same characters are the same text. -/
theorem ext {a b : SourceText} (h : a.content = b.content) : a = b := by
  cases a with
  | mk s l hl => cases b with
    | mk t m hm => cases h; cases hl; cases hm; rfl

instance : DecidableEq SourceText := fun a b =>
  if h : a.content = b.content then isTrue (ext h) else isFalse (fun e => h (congrArg _ e))

@[simp] theorem content_ofString (s : String) : (ofString s).content = s := rfl

@[simp] theorem ofString_content (t : SourceText) : ofString t.content = t := ext rfl

def size (t : SourceText) : Nat := t.content.utf8ByteSize

def lineCount (t : SourceText) : Nat := t.lineStarts.length

/-- Line and column of a byte offset: the last line that starts at or before it. -/
def lineCol (t : SourceText) (offset : Nat) : Nat × Nat :=
  let p := min offset t.size
  let before := t.lineStarts.takeWhile (· ≤ p)
  (before.length, p - before.getLastD 0 + 1)

/-- A sum of words of 32 bits, where it is one. -/
def wordSum? (a b : UInt32) : Option UInt32 := if a.toNat + b.toNat < UInt32.size then some (a + b) else none

/-- Line and column of a byte offset in words of 32 bits, unless they do not fit. -/
def lineColWord? (t : SourceText) (offset : UInt32) : Option (UInt32 × UInt32) := do
  let p := min offset (UInt32.ofNat t.size)
  let before := (t.lineStarts.map UInt32.ofNat).takeWhile (· ≤ p)
  let line ← wordSum? (UInt32.ofNat (before.length - 1)) 1
  let column ← wordSum? (p - before.getLastD 0) 1
  return (line, column)

/-- The text of a span; `none` where an end is out of range or inside a character. -/
def snippet? (t : SourceText) (s : Span) : Option String :=
  (Utf8.slice? t.content.toList s.start s.stop).map String.ofList

/-- `cs` without the line feeds and carriage returns at its end. -/
def trimLineEnd (cs : List Char) : List Char :=
  (cs.reverse.dropWhile fun c => c == '\n' || c == '\r').reverse

/-- A line by its number, without its line end. -/
def lineText? (t : SourceText) (line : Nat) : Option String := do
  let index ← if line = 0 then none else some (line - 1)
  let start ← t.lineStarts[index]?
  let stop := t.lineStarts[index + 1]?.getD t.size
  let cs ← Utf8.slice? t.content.toList start stop
  return String.ofList (trimLineEnd cs)

end SourceText

/-- A span of the file `path` with the lines and columns of its ends, both inclusive. -/
structure Location where
  path : String
  span : Span
  startLine : Nat
  startCol : Nat
  endLine : Nat
  endCol : Nat
deriving DecidableEq, Repr, Inhabited

namespace Location

/-- An empty span has its start for its last byte. -/
def resolve (path : String) (span : Span) (text : SourceText) : Location :=
  let first := text.lineCol span.start
  let last := text.lineCol (max (span.stop - 1) span.start)
  { path, span, startLine := first.1, startCol := first.2, endLine := last.1, endCol := last.2 }

/-- The same with ends in words of 32 bits. -/
def resolveWord? (path : String) (start stop : UInt32) (text : SourceText) : Option Location := do
  let first ← text.lineColWord? start
  let last ← text.lineColWord? (max (if stop = 0 then 0 else stop - 1) start)
  return { path, span := ⟨start.toNat, stop.toNat⟩, startLine := first.1.toNat, startCol := first.2.toNat
           endLine := last.1.toNat, endCol := last.2.toNat }

def display (l : Location) : String :=
  l.path ++ ":" ++ toString l.startLine ++ ":" ++ toString l.startCol

end Location

end Palimpsest
