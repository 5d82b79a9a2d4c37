import Palimpsest.Proofs.Surface.Grammar

/-!
Constructs: statements with the very tokens that they are read from. A construct has no braces, or it has a
header before a braced list of constructs, each with the comments before it. A construct tells its statement, and
the statement that is left of it where braces are followed to some depth only.
-/

namespace Palimpsest
namespace Token

/-- Where the last of some tokens ends; `q` if there is none. -/
def endOf (q : Nat) (ts : List Token) : Nat := ts.foldl (fun _ t => t.span.stop) q

@[simp] theorem endOf_nil (q : Nat) : endOf q [] = q := rfl

@[simp] theorem endOf_cons (q : Nat) (t : Token) (ts : List Token) : endOf q (t :: ts) = endOf t.span.stop ts := rfl

@[simp] theorem endOf_append (q : Nat) (ts us : List Token) : endOf q (ts ++ us) = endOf (endOf q ts) us :=
  List.foldl_append

/-- From the first of some tokens to the last. -/
def extent : List Token → Span
  | [] => ⟨0, 0⟩
  | t :: ts => ⟨t.span.start, max (endOf t.span.stop ts) t.span.start⟩

/-- The tokens with these comments before the first. -/
def withLeading (comments : List Comment) : List Token → List Token
  | [] => []
  | t :: ts => { t with leading := comments } :: ts

/-- No comment stands before the first of the tokens. -/
def Bare (ts : List Token) : Prop := ∀ t ∈ ts.head?, t.leading = []

theorem withLeading_of_bare {ts : List Token} (h : Bare ts) : withLeading [] ts = ts := by
  cases ts with
  | nil => rfl
  | cons t ts =>
      have hnone : t.leading = [] := h t rfl
      rw [withLeading, ← hnone]

end Token

namespace Surface

open Token (extent Bare withLeading)

namespace Cursor

/-- The tokens between two places. -/
structure Past (c : Cursor) (ts : List Token) (d : Cursor) : Prop where
  tokens : c.tokens = ts ++ d.tokens
  final : d.final = c.final
  prevStop : d.prevStop = Token.endOf c.prevStop ts

namespace Past

variable {c d e : Cursor} {ts us : List Token}

theorem refl (c : Cursor) : c.Past [] c := ⟨rfl, rfl, rfl⟩

theorem trans (h : c.Past ts d) (h' : d.Past us e) : c.Past (ts ++ us) e where
  tokens := by rw [h.tokens, h'.tokens, List.append_assoc]
  final := h'.final.trans h.final
  prevStop := by rw [h'.prevStop, h.prevStop, Token.endOf_append]

/-- What has been taken is where it is said to be. -/
theorem spanFrom (h : c.Past ts d) (hts : ts ≠ []) : d.spanFrom c.current.span = extent ts := by
  cases ts with
  | nil => exact absurd rfl hts
  | cons t ts =>
      rw [Cursor.spanFrom, h.prevStop, Cursor.current, h.tokens]
      rfl

end Past
end Cursor

section Parts

inductive ReadsExpr : Token → Expr → Prop where
  | identifier {t : Token} (h : t.kind = .identifier) : ReadsExpr t (.identifier t.text t.span)
  | int {t : Token} {value : UInt64} (h : t.kind = .intLiteral) (hvalue : Counts t.text.toList value.toNat) :
      ReadsExpr t (.int value t.span)
  | str {t : Token} {value : String} (h : t.kind = .stringLiteral)
      (hvalue : Spells (Expr.inner t.text) value.toList) : ReadsExpr t (.str value t.span)

inductive ReadsInit : List Token → Option Expr → Prop where
  | none : ReadsInit [] none
  | some {equals t : Token} {e : Expr} (hequals : equals.kind = .equals) (h : ReadsExpr t e) :
      ReadsInit [equals, t] (some e)

/-- Tokens that are these words, one by one. -/
def Words (ts : List Token) (words : List Terminal) : Prop := ts.map Token.kind = words.map Terminal.kind

inductive ReadsFormal : List Token → Formal → Prop where
  | mk {words : List Token} {intent : Intent} {name : Token} (hwords : Words words intent.words)
      (hname : name.kind = .identifier) : ReadsFormal (words ++ [name]) ⟨intent, name.text, extent (words ++ [name])⟩

/-- One formal and, behind commas, more. -/
inductive ReadsFormals : List Token → List Formal → Prop where
  | last {ts : List Token} {f : Formal} (h : ReadsFormal ts f) : ReadsFormals ts [f]
  | more {ts us : List Token} {comma : Token} {f : Formal} {fs : List Formal} (h : ReadsFormal ts f)
      (hcomma : comma.kind = .comma) (hrest : ReadsFormals us fs) : ReadsFormals (ts ++ comma :: us) (f :: fs)

/-- Formals in parentheses. -/
inductive ReadsParams : List Token → List Formal → Prop where
  | none {opening closing : Token} (hopening : opening.kind = .leftParen) (hclosing : closing.kind = .rightParen) :
      ReadsParams [opening, closing] []
  | some {ts : List Token} {opening closing : Token} {fs : List Formal} (hopening : opening.kind = .leftParen)
      (h : ReadsFormals ts fs) (hclosing : closing.kind = .rightParen) : ReadsParams (opening :: (ts ++ [closing])) fs

/-- A statement without braces, which only lacks its span. -/
inductive ReadsLeaf : List Token → (Span → Stmt) → Prop where
  | varDecl {visibility : Visibility} {kind : VariableKind} {before words init : List Token} {name semicolon : Token}
      {e : Option Expr} (hbefore : Words before visibility.words) (hwords : Words words kind.words)
      (hname : name.kind = .identifier) (hinit : ReadsInit init e) (hsemicolon : semicolon.kind = .semicolon) :
      ReadsLeaf (before ++ (words ++ name :: (init ++ [semicolon]))) (.varDecl visibility kind name.text e)
  | foreign {word code : Token} (hword : word.kind = .kwForeign) (hcode : code.kind = .foreignCode) :
      ReadsLeaf [word, code] (.foreign (String.ofList (Expr.inner code.text)))
  | foreignEnded {word code semicolon : Token} (hword : word.kind = .kwForeign) (hcode : code.kind = .foreignCode)
      (hsemicolon : semicolon.kind = .semicolon) :
      ReadsLeaf [word, code, semicolon] (.foreign (String.ofList (Expr.inner code.text)))
  | expr {t semicolon : Token} {e : Expr} (h : ReadsExpr t e) (hsemicolon : semicolon.kind = .semicolon) :
      ReadsLeaf [t, semicolon] (.expr e)

theorem ReadsLeaf.ne_nil {ts : List Token} {of : Span → Stmt} (h : ReadsLeaf ts of) : ts ≠ [] := by
  cases h with
  | varDecl | foreign | foreignEnded | expr => simp

/-- What a braced list belongs to. -/
inductive Header where
  | block
  | moduleDecl (visibility : Visibility) (name : String)
  | procDecl (visibility : Visibility) (name : String) (formals : List Formal)

/-- The statement with such a header, and `body` in the braces. -/
def Header.stmt (body : List Stmt) (bodySpan span : Span) : Header → Stmt
  | block => .block body span
  | moduleDecl visibility name => .moduleDecl visibility name body span
  | procDecl visibility name formals => .procDecl visibility name formals body bodySpan span

/-- The same where the braces are not followed. -/
def Header.cut (bodySpan span : Span) : Header → Stmt
  | block => .bad span
  | header => header.stmt [.bad bodySpan] bodySpan span

inductive ReadsHeader : List Token → Header → Prop where
  | block : ReadsHeader [] .block
  | moduleDecl {visibility : Visibility} {before : List Token} {word name : Token}
      (hbefore : Words before visibility.words) (hword : word.kind = .kwModule) (hname : name.kind = .identifier) :
      ReadsHeader (before ++ [word, name]) (.moduleDecl visibility name.text)
  | procDecl {visibility : Visibility} {before params : List Token} {word name : Token} {formals : List Formal}
      (hbefore : Words before visibility.words) (hword : word.kind = .kwProc) (hname : name.kind = .identifier)
      (hparams : ReadsParams params formals) :
      ReadsHeader (before ++ word :: name :: params) (.procDecl visibility name.text formals)

end Parts

section Flat

/-- There are no braces among the tokens. -/
def Flat (ts : List Token) : Prop := ∀ t ∈ ts, t.kind ≠ .leftBrace ∧ t.kind ≠ .rightBrace

variable {ts us : List Token} {t : Token}

theorem Flat.append (h : Flat ts) (h' : Flat us) : Flat (ts ++ us) := List.forall_mem_append.mpr ⟨h, h'⟩

theorem Flat.cons {k : TokenKind} (hk : t.kind = k) (hother : k ≠ .leftBrace ∧ k ≠ .rightBrace) (h : Flat ts) :
    Flat (t :: ts) := List.forall_mem_cons.mpr ⟨hk ▸ hother, h⟩

theorem Flat.nil : Flat [] := fun _ ht => nomatch ht

theorem Words.flat {words : List Terminal} (h : Words ts words)
    (hwords : ∀ w ∈ words, w.kind ≠ .leftBrace ∧ w.kind ≠ .rightBrace) : Flat ts := by
  intro t ht
  have hmem : t.kind ∈ words.map Terminal.kind := h ▸ List.mem_map_of_mem ht
  obtain ⟨w, hw, hk⟩ := List.mem_map.mp hmem
  exact hk ▸ hwords w hw

theorem flat_visibility {visibility : Visibility} (h : Words ts visibility.words) : Flat ts :=
  h.flat (by cases visibility <;> decide)

theorem ReadsExpr.flat {e : Expr} (h : ReadsExpr t e) : Flat [t] := by
  cases h with
  | identifier hk | int hk | str hk => exact .cons hk (by decide) .nil

theorem ReadsInit.flat {e : Option Expr} (h : ReadsInit ts e) : Flat ts := by
  cases h with
  | none => exact .nil
  | some hequals h => exact .cons hequals (by decide) h.flat

theorem ReadsFormal.flat {f : Formal} (h : ReadsFormal ts f) : Flat ts := by
  cases h with
  | @mk words intent name hwords hname =>
      have hintent : ∀ w ∈ intent.words, w.kind ≠ .leftBrace ∧ w.kind ≠ .rightBrace := by cases intent <;> decide
      exact (hwords.flat hintent).append (.cons hname (by decide) .nil)

theorem ReadsFormals.flat {fs : List Formal} (h : ReadsFormals ts fs) : Flat ts := by
  induction h with
  | last h => exact h.flat
  | more h hcomma _ ih => exact h.flat.append (.cons hcomma (by decide) ih)

theorem ReadsParams.flat {fs : List Formal} (h : ReadsParams ts fs) : Flat ts := by
  cases h with
  | none hopening hclosing => exact .cons hopening (by decide) (.cons hclosing (by decide) .nil)
  | some hopening h hclosing => exact .cons hopening (by decide) (h.flat.append (.cons hclosing (by decide) .nil))

theorem ReadsLeaf.flat {of : Span → Stmt} (h : ReadsLeaf ts of) : Flat ts := by
  cases h with
  | @varDecl visibility kind before words init name semicolon e hbefore hwords hname hinit hsemicolon =>
      have hkind : ∀ w ∈ kind.words, w.kind ≠ .leftBrace ∧ w.kind ≠ .rightBrace := by cases kind <;> decide
      have hend : Flat [semicolon] := .cons hsemicolon (by decide) .nil
      have hnamed := Flat.cons hname (by decide) (hinit.flat.append hend)
      exact (flat_visibility hbefore).append ((hwords.flat hkind).append hnamed)
  | foreign hword hcode => exact .cons hword (by decide) (.cons hcode (by decide) .nil)
  | foreignEnded hword hcode hsemicolon =>
      exact .cons hword (by decide) (.cons hcode (by decide) (.cons hsemicolon (by decide) .nil))
  | expr h hsemicolon => exact h.flat.append (.cons hsemicolon (by decide) .nil)

theorem ReadsHeader.flat {header : Header} (h : ReadsHeader ts header) : Flat ts := by
  cases h with
  | block => exact .nil
  | moduleDecl hbefore hword hname =>
      exact (flat_visibility hbefore).append (.cons hword (by decide) (.cons hname (by decide) .nil))
  | procDecl hbefore hword hname hparams =>
      exact (flat_visibility hbefore).append (.cons hword (by decide) (.cons hname (by decide) hparams.flat))

end Flat

mutual

inductive Construct where
  | leaf (ts : List Token) (of : Span → Stmt) (reads : ReadsLeaf ts of) (bare : Bare ts)
  | braced (front : List Token) (header : Header) (opening : Token) (body : Constructs) (closing : Token)
      (reads : ReadsHeader front header) (hopening : opening.kind = .leftBrace) (hclosing : closing.kind = .rightBrace)
      (bare : Bare (front ++ [opening]))

/-- Constructs one after another, with the comments before each. -/
inductive Constructs where
  | nil
  | cons (comments : List Comment) (first : Construct) (rest : Constructs)

end

mutual

def Construct.tokens : Construct → List Token
  | .leaf ts .. => ts
  | .braced front _ opening body closing .. => front ++ opening :: (body.tokens ++ [closing])

def Constructs.tokens : Constructs → List Token
  | .nil => []
  | .cons comments first rest => withLeading comments first.tokens ++ rest.tokens

end

theorem Construct.tokens_ne_nil (k : Construct) : k.tokens ≠ [] := by
  cases k with
  | leaf ts of reads => exact reads.ne_nil
  | braced => simp [tokens]

theorem Construct.bare : (k : Construct) → Bare k.tokens
  | .leaf _ _ _ bare => bare
  | .braced front _ opening _ _ _ _ _ bare => fun t ht => bare t <| by
      cases front with
      | nil | cons u us => exact ht

/-- A braced list, with its braces. -/
def Constructs.region (opening : Token) (body : Constructs) (closing : Token) : List Token :=
  opening :: (body.tokens ++ [closing])

mutual

/-- How deep braces are nested. -/
def Construct.depth : Construct → Nat
  | .leaf .. => 0
  | .braced _ _ _ body .. => body.depth + 1

def Constructs.depth : Constructs → Nat
  | .nil => 0
  | .cons _ first rest => max first.depth rest.depth

end

mutual

def Construct.stmt : Construct → Stmt
  | .leaf ts of .. => of (extent ts)
  | .braced front header opening body closing .. =>
    header.stmt (body.stmts ++ closing.leading.map Stmt.ofComment) (extent (body.region opening closing))
      (extent (front ++ body.region opening closing))

def Constructs.stmts : Constructs → List Stmt
  | .nil => []
  | .cons comments first rest => comments.map Stmt.ofComment ++ first.stmt :: rest.stmts

end

mutual

/-- The statement where braces are followed `levels` deep. -/
def Construct.cut (levels : Nat) : Construct → Stmt
  | .leaf ts of .. => of (extent ts)
  | .braced front header opening body closing .. =>
    match levels with
    | 0 => header.cut (extent (body.region opening closing)) (extent (front ++ body.region opening closing))
    | levels + 1 =>
      header.stmt (body.cut levels ++ closing.leading.map Stmt.ofComment) (extent (body.region opening closing))
        (extent (front ++ body.region opening closing))

def Constructs.cut (levels : Nat) : Constructs → List Stmt
  | .nil => []
  | .cons comments first rest => comments.map Stmt.ofComment ++ first.cut levels :: rest.cut levels

end

mutual

/-- Where the braces stand that open a region which is not followed. -/
def Construct.tooDeep (levels : Nat) : Construct → List Span
  | .leaf .. => []
  | .braced _ _ opening body _ .. =>
    match levels with
    | 0 => [opening.span]
    | levels + 1 => body.tooDeep levels

def Constructs.tooDeep (levels : Nat) : Constructs → List Span
  | .nil => []
  | .cons _ first rest => first.tooDeep levels ++ rest.tooDeep levels

end

mutual

/-- Nothing is cut off where braces are nested no deeper than they are followed. -/
theorem Construct.cut_of_depth_le {levels : Nat} : (k : Construct) → k.depth ≤ levels →
    k.cut levels = k.stmt ∧ k.tooDeep levels = []
  | .leaf .., _ => ⟨rfl, rfl⟩
  | .braced _ _ _ body .., h => by
      cases levels with
      | zero => exact absurd h (Nat.not_succ_le_zero _)
      | succ levels =>
          obtain ⟨hcut, hnone⟩ := body.cut_of_depth_le (Nat.le_of_succ_le_succ h)
          rw [Construct.cut, hcut, Construct.tooDeep, hnone]
          exact ⟨rfl, rfl⟩

theorem Constructs.cut_of_depth_le {levels : Nat} : (ks : Constructs) → ks.depth ≤ levels →
    ks.cut levels = ks.stmts ∧ ks.tooDeep levels = []
  | .nil, _ => ⟨rfl, rfl⟩
  | .cons _ first rest, h => by
      obtain ⟨hfirst, hrest⟩ := Nat.max_le.mp h
      obtain ⟨hcut, hnone⟩ := first.cut_of_depth_le hfirst
      obtain ⟨hcuts, hnones⟩ := rest.cut_of_depth_le hrest
      rw [Constructs.cut, hcut, hcuts, Constructs.tooDeep, hnone, hnones]
      exact ⟨rfl, rfl⟩

end

end Surface
end Palimpsest
