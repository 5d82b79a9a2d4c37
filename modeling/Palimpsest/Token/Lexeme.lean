import Palimpsest.Token.Kind
import Palimpsest.Text.Quoted

/-!
A text cut into lexemes: blanks, comments, tokens and what is none of these. Nothing is lost: the
lexemes one after another are the text (`flatMap_chars_lexemes`).
-/

namespace Palimpsest

/-- Why characters form no token. -/
inductive LexFault where
  | strayCharacter
  | openString
  | openForeign
deriving DecidableEq, Repr, Inhabited

inductive LexemeKind where
  | blank
  | comment (closed : Bool)
  | token (kind : TokenKind)
  | faulty (fault : LexFault)
deriving DecidableEq, Repr, Inhabited

structure Lexeme where
  kind : LexemeKind
  chars : List Char
deriving DecidableEq, Repr, Inhabited

namespace Lexeme

def isBlank (c : Char) : Bool :=
  c == ' ' || c == '\t' || c == '\n' || c == '\x0c' || c == '\r'

def isWordStart (c : Char) : Bool := c.isAlpha || c == '_'

def isWordPart (c : Char) : Bool := c.isAlphanum || c == '_' || c == '$'

def isDecimalPart (c : Char) : Bool := c.isDigit || c == '_'

def isHexPart (c : Char) : Bool := Quoted.isHexDigit c || c == '_'

/-- The front part of some characters, the rest, and whether the front part is complete. -/
structure Cut where
  front : List Char
  rest : List Char
  closed : Bool
deriving DecidableEq, Repr, Inhabited

namespace Cut

def cons (c : Char) (k : Cut) : Cut := { k with front := c :: k.front }

def ofPredicate (p : Char → Bool) (cs : List Char) : Cut := ⟨cs.takeWhile p, cs.dropWhile p, true⟩

end Cut

/-- Cuts after the end of a block comment that is open inside `outer` others. -/
def blockComment : Nat → List Char → Cut
  | _, [] => ⟨[], [], false⟩
  | outer, '/' :: '*' :: cs => ((blockComment (outer + 1) cs).cons '*').cons '/'
  | 0, '*' :: '/' :: cs => ⟨['*', '/'], cs, true⟩
  | outer + 1, '*' :: '/' :: cs => ((blockComment outer cs).cons '/').cons '*'
  | outer, c :: cs => (blockComment outer cs).cons c

/-- Cuts after the closing quote of a string; a string ends on its line. -/
def stringBody : List Char → Cut
  | [] => ⟨[], [], false⟩
  | '"' :: cs => ⟨['"'], cs, true⟩
  | '\n' :: cs => ⟨[], '\n' :: cs, false⟩
  | '\\' :: '\n' :: cs => ⟨['\\'], '\n' :: cs, false⟩
  | '\\' :: c :: cs => ((stringBody cs).cons c).cons '\\'
  | c :: cs => (stringBody cs).cons c

/-- Where a scan of foreign code is. -/
inductive ForeignMode where
  | code
  | quoted (quote : Char)
  | lineComment
  | blockComment
deriving DecidableEq, Repr, Inhabited

/-- Cuts after the brace that closes foreign code `outer` braces deep. Braces in literals and comments
do not count, and comments do not nest. -/
def foreignBody : ForeignMode → Nat → List Char → Cut
  | _, _, [] => ⟨[], [], false⟩
  | .code, outer, '/' :: '/' :: cs => ((foreignBody .lineComment outer cs).cons '/').cons '/'
  | .code, outer, '/' :: '*' :: cs => ((foreignBody .blockComment outer cs).cons '*').cons '/'
  | .code, 0, '\x7d' :: cs => ⟨['\x7d'], cs, true⟩
  | .code, outer + 1, '\x7d' :: cs => (foreignBody .code outer cs).cons '\x7d'
  | .code, outer, c :: cs =>
    if c = '\x7b' then (foreignBody .code (outer + 1) cs).cons c
    else if c = '"' ∨ c = '\'' then (foreignBody (.quoted c) outer cs).cons c
    else (foreignBody .code outer cs).cons c
  | .quoted q, outer, '\\' :: c :: cs => ((foreignBody (.quoted q) outer cs).cons c).cons '\\'
  | .quoted q, outer, c :: cs =>
    if c = q ∨ c = '\n' then (foreignBody .code outer cs).cons c
    else (foreignBody (.quoted q) outer cs).cons c
  | .lineComment, outer, c :: cs =>
    if c = '\n' then (foreignBody .code outer cs).cons c
    else (foreignBody .lineComment outer cs).cons c
  | .blockComment, outer, '*' :: '/' :: cs => ((foreignBody .code outer cs).cons '/').cons '*'
  | .blockComment, outer, c :: cs => (foreignBody .blockComment outer cs).cons c

/-- A lexeme of kind `kind` that starts with `c`, and the characters after it. -/
def take (kind : LexemeKind) (c : Char) (k : Cut) : Lexeme × List Char :=
  (⟨kind, c :: k.front⟩, k.rest)

def word (c : Char) (cs : List Char) : Lexeme × List Char :=
  let k := Cut.ofPredicate isWordPart cs
  take (.token ((TokenKind.ofKeyword? (String.ofList (c :: k.front))).getD .identifier)) c k

def number (c : Char) (cs : List Char) : Lexeme × List Char :=
  match cs with
  | x :: ds =>
    if c = '0' ∧ (x = 'x' ∨ x = 'X') then
      take (.token .intLiteral) c ((Cut.ofPredicate isHexPart ds).cons x)
    else take (.token .intLiteral) c (Cut.ofPredicate isDecimalPart cs)
  | [] => (⟨.token .intLiteral, [c]⟩, [])

def string (c : Char) (cs : List Char) : Lexeme × List Char :=
  let k := stringBody cs
  take (if k.closed then .token .stringLiteral else .faulty .openString) c k

/-- The body of a foreign block, whose opening brace is `c`. -/
def foreign (c : Char) (cs : List Char) : Lexeme × List Char :=
  let k := foreignBody .code 0 cs
  take (if k.closed then .token .foreignCode else .faulty .openForeign) c k

def symbol (c : Char) (cs : List Char) : Lexeme × List Char :=
  match TokenKind.ofPunctuation? c with
  | some kind => (⟨.token kind, [c]⟩, cs)
  | none => (⟨.faulty .strayCharacter, [c]⟩, cs)

/-- The lexeme that starts with `c`. Right after the word that opens a foreign block, a brace starts
foreign code. -/
def next (afterForeign : Bool) (c : Char) (cs : List Char) : Lexeme × List Char :=
  if isBlank c then take .blank c (Cut.ofPredicate isBlank cs)
  else match c, cs with
    | '/', '/' :: ds => take (.comment true) '/' ((Cut.ofPredicate (· != '\n') ds).cons '/')
    | '/', '*' :: ds =>
      let k := blockComment 0 ds
      take (.comment k.closed) '/' (k.cons '*')
    | _, _ =>
      if afterForeign ∧ c = '\x7b' then foreign c cs
      else if isWordStart c then word c cs
      else if c.isDigit then number c cs
      else if c = '"' then string c cs
      else symbol c cs

/-- Whether the next token stands right after the word that opens a foreign block. -/
def opensForeign (before : Bool) (l : Lexeme) : Bool :=
  match l.kind with
  | .blank | .comment _ => before
  | .token kind => kind == .kwForeign
  | .faulty _ => false

theorem Cut.append_ofPredicate (p : Char → Bool) (cs : List Char) :
    (Cut.ofPredicate p cs).front ++ (Cut.ofPredicate p cs).rest = cs :=
  List.takeWhile_append_dropWhile

theorem append_blockComment (outer : Nat) (cs : List Char) :
    (blockComment outer cs).front ++ (blockComment outer cs).rest = cs := by
  fun_induction blockComment outer cs <;> simp_all [Cut.cons]

theorem append_stringBody (cs : List Char) :
    (stringBody cs).front ++ (stringBody cs).rest = cs := by
  fun_induction stringBody cs <;> simp_all [Cut.cons]

theorem append_foreignBody (mode : ForeignMode) (outer : Nat) (cs : List Char) :
    (foreignBody mode outer cs).front ++ (foreignBody mode outer cs).rest = cs := by
  fun_induction foreignBody mode outer cs <;> simp_all [Cut.cons]

theorem append_number (c : Char) (cs : List Char) :
    (number c cs).1.chars ++ (number c cs).2 = c :: cs := by
  unfold number
  split
  · split <;> simp [take, Cut.cons, Cut.append_ofPredicate]
  · rfl

theorem append_symbol (c : Char) (cs : List Char) :
    (symbol c cs).1.chars ++ (symbol c cs).2 = c :: cs := by
  unfold symbol; split <;> rfl

/-- A lexeme and what follows it are the characters it was cut from. -/
theorem append_next (b : Bool) (c : Char) (cs : List Char) :
    (next b c cs).1.chars ++ (next b c cs).2 = c :: cs := by
  unfold next
  split
  · simp [take, Cut.append_ofPredicate]
  · split
    · simp [take, Cut.cons, Cut.append_ofPredicate]
    · simp [take, Cut.cons, append_blockComment]
    · split
      · simp [foreign, take, append_foreignBody]
      · split
        · simp [word, take, Cut.append_ofPredicate]
        · split
          · exact append_number c cs
          · split
            · simp [string, take, append_stringBody]
            · exact append_symbol c cs

theorem chars_next_ne_nil (b : Bool) (c : Char) (cs : List Char) : (next b c cs).1.chars ≠ [] := by
  have hn : (number c cs).1.chars ≠ [] := by
    unfold number
    split
    · split <;> simp [take]
    · simp
  have hs : (symbol c cs).1.chars ≠ [] := by unfold symbol; split <;> simp
  unfold next
  split
  · simp [take]
  · split
    · simp [take]
    · simp [take]
    · split
      · simp [foreign, take]
      · split
        · simp [word, take]
        · split
          · exact hn
          · split
            · simp [string, take]
            · exact hs

theorem length_next_lt (b : Bool) (c : Char) (cs : List Char) :
    (next b c cs).2.length < (c :: cs).length := by
  have h := congrArg List.length (append_next b c cs)
  have := List.length_pos_iff.mpr (chars_next_ne_nil b c cs)
  simp only [List.length_append] at h
  omega

end Lexeme

/-- The lexemes of a text. -/
def lexemes (afterForeign : Bool) : List Char → List Lexeme
  | [] => []
  | c :: cs =>
    let l := Lexeme.next afterForeign c cs
    l.1 :: lexemes (l.1.opensForeign afterForeign) l.2
termination_by cs => cs.length
decreasing_by exact Lexeme.length_next_lt _ _ _

theorem flatMap_chars_lexemes (b : Bool) (cs : List Char) :
    (lexemes b cs).flatMap Lexeme.chars = cs := by
  fun_induction lexemes b cs with
  | case1 => rfl
  | case2 b c cs l ih =>
    rw [List.flatMap_cons, ih]
    exact Lexeme.append_next b c cs

end Palimpsest
