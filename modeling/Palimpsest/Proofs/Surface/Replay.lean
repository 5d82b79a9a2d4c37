import Palimpsest.Proofs.Surface.Earns
import Palimpsest.Proofs.Surface.Reached

/-!
Parsing a part of a text on its own. Where a parser reports no error and takes no token behind the part, it
reads the same from the part alone, counted from the start of the part. A text is one of its own parts.
-/

namespace Palimpsest
namespace Surface

def Expr.shift (n : Nat) : Expr → Expr
  | identifier name s => .identifier name (s.shift n)
  | int value s => .int value (s.shift n)
  | str value s => .str value (s.shift n)
  | bad s => .bad (s.shift n)

def Formal.shift (n : Nat) (f : Formal) : Formal := { f with span := f.span.shift n }

mutual

/-- The statement with all its spans moved. -/
def Stmt.shift (n : Nat) : Stmt → Stmt
  | .comment text s => .comment text (s.shift n)
  | .moduleDecl visibility name body s => .moduleDecl visibility name (shiftList n body) (s.shift n)
  | .procDecl visibility name formals body bodySpan s =>
    .procDecl visibility name (formals.map (Formal.shift n)) (shiftList n body) (bodySpan.shift n) (s.shift n)
  | .varDecl visibility kind name init s => .varDecl visibility kind name (init.map (Expr.shift n)) (s.shift n)
  | .block body s => .block (shiftList n body) (s.shift n)
  | .foreign code s => .foreign code (s.shift n)
  | .expr e s => .expr (e.shift n) (s.shift n)
  | .bad s => .bad (s.shift n)

def shiftList (n : Nat) : List Stmt → List Stmt
  | [] => []
  | s :: rest => s.shift n :: shiftList n rest

end

theorem shiftList_eq (n : Nat) (stmts : List Stmt) : shiftList n stmts = stmts.map (Stmt.shift n) := by
  induction stmts with
  | nil => rfl
  | cons s rest ih => rw [shiftList, ih, List.map_cons]

theorem Cursor.dropLeading_tokens {c : Cursor} (h : c.tokens ≠ []) : c.dropLeading.tokens ≠ [] := by
  apply List.ne_nil_of_length_pos
  rw [length_dropLeading]
  exact List.length_pos_iff.mpr h

/-- A part of a text that lexes without an error: where it starts, and the tokens behind it. -/
structure Excerpt where
  text : String
  part : String
  offset : Nat
  after : List Token
  clean : Clean (TokenStream.ofText text).reports

namespace Excerpt

open Parse

variable {e : Excerpt} {α β : Type}

/-- Two places, in the text and in the part, with the same tokens before the end of the part. -/
structure Aligned (e : Excerpt) (c c' : Cursor) : Prop where
  left : c.Reached e.text
  right : c'.Reached e.part
  tokens : c.tokens = c'.tokens.map (·.shift e.offset) ++ e.after
  prevStop : max c.prevStop e.offset = c'.prevStop + e.offset

namespace Aligned

variable {c c' : Cursor}

theorem length (h : e.Aligned c c') : c.tokens.length = c'.tokens.length + e.after.length := by
  rw [h.tokens, List.length_append, List.length_map]

theorem current (h : e.Aligned c c') (hne : c'.tokens ≠ []) : c.current = c'.current.shift e.offset := by
  rw [Cursor.current, Cursor.current, h.tokens]
  cases htokens : c'.tokens with
  | nil => exact absurd htokens hne
  | cons t ts => rfl

theorem kind (h : e.Aligned c c') (hne : c'.tokens ≠ []) : c.kind = c'.kind := by
  rw [Cursor.kind, h.current hne]
  rfl

/-- The token after the next is the same in the part, if it has one. -/
theorem followingKind (h : e.Aligned c c') :
    c'.followingKind = if 2 ≤ c'.tokens.length then c.followingKind else .endOfFile := by
  rw [Cursor.followingKind, Cursor.followingKind, h.tokens]
  cases htokens : c'.tokens with
  | nil => rfl
  | cons t ts =>
      cases ts with
      | nil => rfl
      | cons u us => rfl

theorem ne_nil (h : e.Aligned c c') (hlength : e.after.length < c.tokens.length) : c'.tokens ≠ [] := by
  intro hnil
  have := h.length
  rw [hnil, List.length_nil] at this
  omega

theorem advance (h : e.Aligned c c') (hlength : e.after.length ≤ c.advance.tokens.length) :
    e.Aligned c.advance c'.advance := by
  cases htokens : c'.tokens with
  | nil =>
      -- Behind the part no token is taken, so that there is none.
      have hnone : c.tokens = [] := by
        by_contra hne
        have hlt := Cursor.length_advance_lt hne
        rw [h.length, htokens, List.length_nil] at hlt
        omega
      rw [Cursor.advance_of_tokens hnone, Cursor.advance_of_tokens htokens]
      exact h
  | cons t ts =>
      have hc : c.tokens = t.shift e.offset :: (ts.map (·.shift e.offset) ++ e.after) := by
        rw [h.tokens, htokens]
        rfl
      refine ⟨h.left.advance, h.right.advance, ?_, ?_⟩
      · simp [Cursor.advance, hc, htokens]
      · simp [Cursor.advance, hc, htokens, Token.shift, Span.shift]

theorem dropLeading (h : e.Aligned c c') (hne : c'.tokens ≠ []) : e.Aligned c.dropLeading c'.dropLeading := by
  refine ⟨h.left.dropLeading, h.right.dropLeading, ?_, ?_⟩
  · obtain ⟨tokens, final, p⟩ := c
    obtain ⟨tokens', final', p'⟩ := c'
    obtain ⟨-, -, rfl, -⟩ := h
    cases tokens' with
    | nil => exact absurd rfl hne
    | cons t ts => rfl
  · rw [Cursor.prevStop_dropLeading, Cursor.prevStop_dropLeading]
    exact h.prevStop

end Aligned

/-- What is read from the text, with no error and `spare` tokens left of the part, is read from the part. -/
structure ReplayedAt (e : Excerpt) (shift : α → α) (c c' : Cursor) (x y : Parse α) : Prop where
  clean : Clean (y c').reports
  value : (x c).value = shift (y c').value
  next : e.Aligned (x c).next (y c').next

def Replays (e : Excerpt) (spare : Nat) (shift : α → α) (x y : Parse α) : Prop :=
  ∀ c c', e.Aligned c c' → Clean (x c).reports → e.after.length + spare ≤ (x c).next.tokens.length →
    e.ReplayedAt shift c c' x y

/-- What is read has no place. -/
def Repeats (e : Excerpt) (spare : Nat) (x y : Parse α) : Prop := e.Replays spare (fun a => a) x y

variable {spare : Nat} {shift : α → α} {shift' : β → β} {x y : Parse α}

theorem Replays.bind {f g : α → Parse β} (hx : e.Replays spare shift x y)
    (hf : ∀ a, e.Replays spare shift' (f (shift a)) (g a)) : e.Replays spare shift' (x >>= f) (y >>= g) := by
  intro c c' halign hclean hlength
  obtain ⟨hfirst, hrest⟩ := (clean_append _ _).mp hclean
  have hmid := hx c c' halign hfirst (Nat.le_trans hlength (f _ _).le)
  have hvalue := hmid.value
  have hlast := hf (y c').value (x c).next (y c').next hmid.next (hvalue ▸ hrest) (hvalue ▸ hlength)
  rw [← hvalue] at hlast
  exact ⟨(clean_append _ _).mpr ⟨hmid.clean, hlast.clean⟩, hlast.value, hlast.next⟩

theorem Repeats.bind {f g : α → Parse β} (hx : e.Repeats spare x y)
    (hf : ∀ a, e.Replays spare shift' (f a) (g a)) : e.Replays spare shift' (x >>= f) (y >>= g) := Replays.bind hx hf

/-- A step that leaves a token of the part, as what follows takes one. -/
theorem Replays.bind_earns {f g : α → Parse β} (hx : e.Replays (spare + 1) shift x y)
    (hstays : ∀ c, c.InText e.text → (x c).next.InText e.text) (hearns : ∀ a c, c.InText e.text → Earns c (f a))
    (hf : ∀ a, e.Replays spare shift' (f (shift a)) (g a)) : e.Replays spare shift' (x >>= f) (y >>= g) := by
  intro c c' halign hclean hlength
  obtain ⟨hfirst, hrest⟩ := (clean_append _ _).mp hclean
  have htakes : (f (x c).value (x c).next).next.tokens.length < (x c).next.tokens.length :=
    hearns _ _ (hstays c halign.left.inText) hrest
  change _ ≤ (f (x c).value (x c).next).next.tokens.length at hlength
  have hmid := hx c c' halign hfirst (by omega)
  have hvalue := hmid.value
  have hlast := hf (y c').value (x c).next (y c').next hmid.next (hvalue ▸ hrest) (hvalue ▸ hlength)
  rw [← hvalue] at hlast
  exact ⟨(clean_append _ _).mpr ⟨hmid.clean, hlast.clean⟩, hlast.value, hlast.next⟩

theorem Repeats.weaken (hx : e.Repeats 0 x y) : e.Repeats spare x y :=
  fun c c' halign hclean hlength => hx c c' halign hclean (Nat.le_trans (Nat.le_add_right _ _) hlength)

theorem replays_pure (a : α) : e.Replays spare shift (Pure.pure (shift a)) (Pure.pure a) :=
  fun _ _ halign _ _ => ⟨clean_nil, rfl, halign⟩

theorem replays_of_fails (hx : Fails x) : e.Replays spare shift x y := fun c _ _ hclean _ => absurd hclean (hx c)

/-- A step that looks at the next token, and takes one if it reports no error. -/
theorem replays_token {f g : Token → Parse β} (hearns : ∀ c, c.InText e.text → Earns c (f c.current))
    (h : ∀ t, e.Replays spare shift' (f (t.shift e.offset)) (g t)) :
    e.Replays spare shift' (token >>= f) (token >>= g) := by
  intro c c' halign hclean hlength
  change Clean (f c.current c).reports at hclean
  change _ ≤ (f c.current c).next.tokens.length at hlength
  have hne : c'.tokens ≠ [] := by
    have htakes : (f c.current c).next.tokens.length < c.tokens.length := hearns c halign.left.inText hclean
    exact halign.ne_nil (by omega)
  have hcurrent := halign.current hne
  rw [hcurrent] at hclean hlength
  have hrest := h c'.current c c' halign hclean hlength
  rw [← hcurrent] at hrest
  exact ⟨hrest.clean, hrest.value, hrest.next⟩

/-- A step for which the next token has no say in what is read. -/
theorem replays_token_any {f g : Token → Parse β} (h : ∀ t u, e.Replays spare shift' (f t) (g u)) :
    e.Replays spare shift' (token >>= f) (token >>= g) := by
  intro c c' halign hclean hlength
  have hrest := h c.current c'.current c c' halign hclean hlength
  exact ⟨hrest.clean, hrest.value, hrest.next⟩

/-- A step that looks at the kind of the next token. Where no token of the part is left, it takes one behind the
part, or it goes on as at the end of the text. -/
theorem replays_kind {f g : TokenKind → Parse β}
    (hend : ∀ c, c.InText e.text → Earns c (f c.kind) ∨ f c.kind c = f .endOfFile c)
    (h : ∀ k, k ≠ .invalid → e.Replays spare shift' (f k) (g k)) :
    e.Replays spare shift' (kind >>= f) (kind >>= g) := by
  intro c c' halign hclean hlength
  change Clean (f c.kind c).reports at hclean
  change _ ≤ (f c.kind c).next.tokens.length at hlength
  have hin := halign.left.inText
  suffices hrest : e.ReplayedAt shift' c c' (f c.kind) (g c'.kind) from ⟨hrest.clean, hrest.value, hrest.next⟩
  by_cases hnil : c'.tokens = []
  · have hkind : c'.kind = .endOfFile := halign.right.inText.kind_of_tokens hnil
    cases hend c hin with
    | inl hearns =>
        have htakes : (f c.kind c).next.tokens.length < c.tokens.length := hearns hclean
        exact absurd hnil (halign.ne_nil (by omega))
    | inr hsame =>
        have hrest := h .endOfFile (by decide) c c' halign (hsame ▸ hclean) (hsame ▸ hlength)
        rw [hkind]
        exact ⟨hrest.clean, hsame ▸ hrest.value, hsame ▸ hrest.next⟩
  · rw [← halign.kind hnil]
    exact h c.kind (hin.kind_ne_invalid e.clean) c c' halign hclean hlength

/-- Where a token of the part is left, the next one is of the part. -/
theorem replays_kind_inside {f g : TokenKind → Parse β} (h : ∀ k, e.Replays (spare + 1) shift' (f k) (g k)) :
    e.Replays (spare + 1) shift' (kind >>= f) (kind >>= g) := by
  intro c c' halign hclean hlength
  have hle := (f c.kind c).le
  change _ ≤ (f c.kind c).next.tokens.length at hlength
  suffices hrest : e.ReplayedAt shift' c c' (f c.kind) (g c'.kind) from ⟨hrest.clean, hrest.value, hrest.next⟩
  rw [← halign.kind (halign.ne_nil (by omega))]
  exact h c.kind c c' halign hclean hlength

/-- A step that takes a token behind the next one, if that is of some kind. -/
theorem replays_followingKind {k : TokenKind} (hk : k ≠ .endOfFile) {u v u' v' : Parse β}
    (hearns : ∀ c : Cursor, c.tokens ≠ [] → Earns c u) (hu : e.Replays (spare + 1) shift' u u')
    (hv : e.Replays (spare + 1) shift' v v') :
    e.Replays (spare + 1) shift' (cursor >>= fun c => if c.followingKind = k then u else v)
      (cursor >>= fun c => if c.followingKind = k then u' else v') := by
  intro c c' halign hclean hlength
  change Clean ((if c.followingKind = k then u else v) c).reports at hclean
  change _ ≤ ((if c.followingKind = k then u else v) c).next.tokens.length at hlength
  suffices hrest : e.ReplayedAt shift' c c' (if c.followingKind = k then u else v)
      (if c'.followingKind = k then u' else v') from ⟨hrest.clean, hrest.value, hrest.next⟩
  have hcount := halign.length
  rw [halign.followingKind]
  by_cases hkind : c.followingKind = k
  · rw [if_pos hkind] at hclean hlength ⊢
    have hle := (u c).le
    have htakes : (u c).next.tokens.length < c.tokens.length :=
      hearns c (List.ne_nil_of_length_pos (by omega)) hclean
    rw [if_pos (by omega : 2 ≤ c'.tokens.length), if_pos hkind]
    exact hu c c' halign hclean hlength
  · rw [if_neg hkind] at hclean hlength ⊢
    have hother : (if 2 ≤ c'.tokens.length then c.followingKind else .endOfFile) ≠ k := by
      split
      · exact hkind
      · exact hk.symm
    rw [if_neg hother]
    exact hv c c' halign hclean hlength

theorem repeats_advance : e.Repeats 0 advance advance :=
  fun _ _ halign _ hlength => ⟨clean_nil, rfl, halign.advance hlength⟩

theorem replays_spanFrom (start : Span) :
    e.Replays 0 (Span.shift · e.offset) (spanFrom (start.shift e.offset)) (spanFrom start) := by
  intro c c' halign _ _
  refine ⟨clean_nil, ?_, halign⟩
  have hstop := halign.prevStop
  change Cursor.spanFrom c (start.shift e.offset) = (Cursor.spanFrom c' start).shift e.offset
  simp only [Cursor.spanFrom, Span.shift, Span.mk.injEq, true_and]
  omega

theorem repeats_report {d d' : Diagnostic} (h : d'.isError = false) : e.Repeats 0 (report d) (report d') :=
  fun _ _ halign _ _ => ⟨(clean_singleton d').mpr h, rfl, halign⟩

theorem repeats_eat {k : TokenKind} (hk : k ≠ .endOfFile) : e.Repeats 0 (eat k) (eat k) := by
  apply replays_kind
  · intro c hc
    by_cases hkind : c.kind = k
    · rw [if_pos hkind]
      exact .inl ((earns_advance hc hkind hk).bind _)
    · rw [if_neg hkind, if_neg hk.symm]
      exact .inr rfl
  · intro found _
    split
    · exact repeats_advance.bind fun _ => replays_pure true
    · exact replays_pure false

theorem repeats_expect {k : TokenKind} (hk : k ≠ .endOfFile) : e.Repeats 0 (expect k) (expect k) := by
  refine (repeats_eat hk).bind fun eaten => ?_
  split
  · exact replays_pure true
  · exact replays_of_fails ((fails_expected _).bind _)

theorem repeats_name : e.Repeats 0 name name := by
  refine replays_token (fun c hc => earns_name hc) fun t => ?_
  rw [t.kind_shift]
  split
  · exact repeats_advance.bind fun _ => replays_pure t.text
  · exact replays_of_fails ((fails_expected _).bind _)

theorem repeats_semicolon : e.Repeats 0 semicolon semicolon := by
  apply replays_kind
  · intro c hc
    split
    next hk => exact .inl (earns_advance hc hk (by decide))
    next => exact .inl (((fails_expected _).bind _).earns c)
  · intro k _
    split
    · exact repeats_advance
    · exact replays_of_fails ((fails_expected _).bind _)

end Excerpt

namespace Expr

open Parse Excerpt

variable {e : Excerpt}

theorem replays_ofInt (t : Token) : e.Replays 0 (shift e.offset) (ofInt (t.shift e.offset)) (ofInt t) := by
  rw [ofInt, ofInt, t.text_shift]
  cases numeral t.text.toList with
  | mk digits base =>
      dsimp only
      split
      · exact replays_of_fails ((fails_report rfl).bind _)
      · split
        · exact replays_pure (Expr.int _ t.span)
        · exact replays_of_fails ((fails_report rfl).bind _)

theorem replays_ofString (t : Token) : e.Replays 0 (shift e.offset) (ofString (t.shift e.offset)) (ofString t) := by
  rw [ofString, ofString, t.text_shift]
  cases Quoted.unescape (String.ofList (inner t.text)) with
  | ok value =>
      dsimp only
      split
      · exact (repeats_report rfl).bind fun _ => replays_pure (Expr.str value t.span)
      · exact replays_pure (Expr.str value t.span)
  | error fault => exact replays_of_fails ((fails_report rfl).bind _)

theorem replays_parse : e.Replays 0 (shift e.offset) parse parse := by
  refine replays_token (fun c hc => earns_parse hc) fun t => ?_
  rw [t.kind_shift, t.text_shift]
  split
  · exact repeats_advance.bind fun _ => replays_pure (Expr.identifier t.text t.span)
  · exact repeats_advance.bind fun _ => replays_ofInt t
  · exact repeats_advance.bind fun _ => replays_ofString t
  · exact replays_of_fails ((fails_expected _).bind _)

end Expr

namespace Formal

open Parse Excerpt

variable {e : Excerpt}

theorem repeats_parseIntent : e.Repeats 0 parseIntent parseIntent := by
  refine replays_kind (fun c hc => earns_parseIntent hc) fun k _ => ?_
  split
  · refine repeats_advance.bind fun _ => (repeats_eat (by decide)).bind fun eaten => ?_
    split
    · exact replays_pure _
    · refine (repeats_eat (by decide)).bind fun eaten => ?_
      split
      · exact replays_pure _
      · exact replays_pure _
  iterate 6 exact repeats_advance.bind fun _ => replays_pure _
  exact replays_pure _

theorem replays_parse : e.Replays 0 (shift e.offset) parse parse := by
  refine replays_token (fun c hc => earns_parse hc) fun t => ?_
  refine repeats_parseIntent.bind fun intent => repeats_name.bind fun name => ?_
  exact (replays_spanFrom t.span).bind fun span => replays_pure (Formal.mk intent name span)

theorem replays_parseMany : e.Replays 0 (List.map (shift e.offset)) parseMany parseMany := by
  intro c
  fun_induction parseMany c with
  | case1 c s h lt _ t ih =>
      intro c' halign hclean hlength
      obtain ⟨hvalue, -, hnext⟩ := parseMany_of_comma h
      replace hclean := (clean_append s.reports t.reports).mp hclean
      have hbefore : e.after.length ≤ (parse c).next.advance.tokens.length := Nat.le_trans hlength t.le
      have hlt : (parse c).next.advance.tokens.length < (parse c).next.tokens.length := lt
      have hfirst := replays_parse c c' halign hclean.1 (by omega)
      have hne : (parse c').next.tokens ≠ [] := hfirst.next.ne_nil (by omega)
      have hrest := ih _ (hfirst.next.advance hbefore) hclean.2 hlength
      have hmore : (parse c').next.kind = .comma ∧ (parse c').next.tokens ≠ [] :=
        ⟨(hfirst.next.kind hne).symm.trans h.1, hne⟩
      obtain ⟨hvalue', hreports', hnext'⟩ := parseMany_of_comma hmore
      constructor
      · rw [hreports', clean_append]
        exact ⟨hfirst.clean, hrest.clean⟩
      · rw [hvalue, hvalue', hfirst.value, hrest.value]
        rfl
      · rw [hnext, hnext']
        exact hrest.next
  | case2 c s h =>
      intro c' halign hclean hlength
      obtain ⟨hvalue, -, hnext⟩ := parseMany_of_last h
      have hfirst := replays_parse c c' halign hclean hlength
      have hlast : ¬ ((parse c').next.kind = .comma ∧ (parse c').next.tokens ≠ []) := by
        intro hmore
        refine h ⟨(hfirst.next.kind hmore.2).trans hmore.1, ?_⟩
        apply List.ne_nil_of_length_pos
        exact Nat.lt_of_lt_of_le (List.length_pos_iff.mpr hmore.2) (hfirst.next.length ▸ Nat.le_add_right _ _)
      obtain ⟨hvalue', hreports', hnext'⟩ := parseMany_of_last hlast
      constructor
      · rw [hreports']
        exact hfirst.clean
      · rw [hvalue, hvalue', hfirst.value]
        rfl
      · rw [hnext, hnext']
        exact hfirst.next

theorem replays_parseList : e.Replays 0 (List.map (shift e.offset)) parseList parseList := by
  refine (repeats_expect (by decide)).bind fun found => ?_
  split
  · have hrest (formals : List Formal) : e.Replays 0 (List.map (shift e.offset))
        (do let _ ← Parse.expect .rightParen; return formals.map (shift e.offset))
        (do let _ ← Parse.expect .rightParen; return formals) :=
      (repeats_expect (by decide)).bind fun _ => replays_pure formals
    have hnil : e.Replays 0 (List.map (shift e.offset)) (Pure.pure []) (Pure.pure []) := replays_pure []
    refine replays_kind (fun c hc => ?_) fun k _ => ?_
    · dsimp only
      split
      next hk => exact .inl (.after rfl (((earns_eat (by decide) hc hk).bind _).bind _))
      next => exact .inr rfl
    · dsimp only
      split
      · exact hnil.bind hrest
      · exact replays_parseMany.bind hrest
  · exact replays_pure []

end Formal

namespace Stmt

open Parse Excerpt

variable {e : Excerpt} {body? body?' : Option (Parse (List Stmt))}

theorem repeats_parseVariableKind : e.Repeats 1 parseVariableKind parseVariableKind := by
  refine replays_kind_inside fun k => ?_
  split
  · -- The second word of a constant reference is taken too, so that it is one of the part.
    refine replays_followingKind (by decide) (fun c hc => ?_) ?_ (replays_pure _)
    · exact fun _ => (takes_advance hc).bind _
    · exact repeats_advance.weaken.bind fun _ => replays_pure _
  iterate 4 exact replays_pure _

theorem replays_parseVariable (visibility : Visibility) (start : Span) :
    e.Replays 0 (shift e.offset) (parseVariable visibility (start.shift e.offset)) (parseVariable visibility start) := by
  rw [parseVariable, parseVariable]
  refine Replays.bind_earns repeats_parseVariableKind (fun c hc => (stands_parseVariableKind c hc).next)
    (fun kind c hc => ?_) ?_
  · by_cases hnil : c.tokens = []
    · exact .after (Cursor.advance_of_tokens hnil) ((earns_name hc).bind _)
    · exact fun hclean => (takes_advance hnil).bind _
  · intro kind
    refine repeats_advance.bind fun _ => repeats_name.bind fun name => (repeats_eat (by decide)).bind fun eaten => ?_
    have hrest (init : Option Expr) : e.Replays 0 (shift e.offset)
        (do Parse.semicolon
            return .varDecl visibility kind name (init.map (Expr.shift e.offset)) (← Parse.spanFrom (start.shift e.offset)))
        (do Parse.semicolon; return .varDecl visibility kind name init (← Parse.spanFrom start)) :=
      repeats_semicolon.bind fun _ => (replays_spanFrom start).bind fun span =>
        replays_pure (Stmt.varDecl visibility kind name init span)
    have hnone : e.Replays 0 (Option.map (Expr.shift e.offset)) (Pure.pure none) (Pure.pure none) := replays_pure none
    dsimp only
    split
    · exact Replays.bind (Expr.replays_parse.bind fun v => replays_pure (some v)) hrest
    · exact hnone.bind hrest

theorem replays_parseForeign (start : Span) :
    e.Replays 0 (shift e.offset) (parseForeign (start.shift e.offset)) (parseForeign start) := by
  rw [parseForeign, parseForeign]
  refine repeats_advance.bind fun _ => replays_token (fun c hc => ?_) fun t => ?_
  · split
    next hk => exact (earns_advance hc hk (by decide)).bind _
    next hk => exact (earns_advance hc hk (by decide)).bind _
    next => exact ((fails_expected _).bind _).earns c
  · rw [t.kind_shift, t.text_shift]
    split
    · refine repeats_advance.bind fun _ => (repeats_eat (by decide)).bind fun _ => ?_
      exact (replays_spanFrom start).bind fun span => replays_pure (Stmt.foreign _ span)
    · exact repeats_advance.bind fun _ => (replays_spanFrom start).bind fun span => replays_pure (Stmt.bad span)
    · exact replays_of_fails ((fails_expected _).bind _)

/-- What bodies are read by in the text reads them in the part. -/
def RepliesBody (e : Excerpt) (body? body?' : Option (Parse (List Stmt))) : Prop :=
  ∀ body, body? = some body → ∃ body', body?' = some body' ∧
    e.Replays 1 (shiftList e.offset) body body' ∧ ∀ c, c.InText e.text → (body c).next.InText e.text

theorem replays_parseBraced (hbody : RepliesBody e body? body?') :
    e.Replays 0 (shiftList e.offset) (parseBraced body?) (parseBraced body?') := by
  unfold parseBraced
  cases body? with
  | none => exact replays_of_fails (fails_rejectNesting.bind _)
  | some body =>
      obtain ⟨body', rfl, hreplays, hstays⟩ := hbody body rfl
      refine replays_token_any fun t u => repeats_advance.bind fun _ => ?_
      have hopen (stmts : List Stmt) (t : Token) : Fails (do
          let u ← Parse.token
          Parse.report ((Diagnostic.error .unexpectedToken ("expected '\x7d', found " ++ u.kind.describe) u.span).withLabel
            t.span "block opened here")
          return stmts) := .after (fun _ => (fails_report rfl).bind _) token
      refine Replays.bind_earns hreplays hstays (fun stmts c hc => ?_) fun stmts => ?_
      · by_cases hk : c.kind = .rightBrace
        · exact (earns_eat (by decide) hc hk).bind _
        · obtain ⟨hnext, hvalue⟩ := eat_of_ne hk
          refine .after hnext ?_
          rw [hvalue]
          exact (hopen stmts t).earns c
      · refine (repeats_eat (by decide)).bind fun eaten => ?_
        split
        · exact replays_pure stmts
        · exact replays_of_fails (hopen _ t)

theorem replays_parseModule (hbody : RepliesBody e body? body?') (visibility : Visibility) (start : Span) :
    e.Replays 0 (shift e.offset) (parseModule body? visibility (start.shift e.offset))
      (parseModule body?' visibility start) := by
  rw [parseModule, parseModule]
  refine repeats_advance.bind fun _ => repeats_name.bind fun name => replays_kind (fun c hc => ?_) fun k _ => ?_
  · split
    next hk => exact .inl ((earns_parseBraced hc hk).bind _)
    next => exact .inl (((fails_expected _).bind _).earns c)
  · split
    · exact (replays_parseBraced hbody).bind fun body => (replays_spanFrom start).bind fun span =>
        replays_pure (Stmt.moduleDecl visibility name body span)
    · exact replays_of_fails ((fails_expected _).bind _)

theorem replays_parseProc (hbody : RepliesBody e body? body?') (visibility : Visibility) (start : Span) :
    e.Replays 0 (shift e.offset) (parseProc body? visibility (start.shift e.offset))
      (parseProc body?' visibility start) := by
  rw [parseProc, parseProc]
  refine repeats_advance.bind fun _ => repeats_name.bind fun name => Formal.replays_parseList.bind fun formals => ?_
  refine replays_token (fun c hc => ?_) fun t => ?_
  · split
    next hk => exact (earns_parseBraced hc hk).bind _
    next => exact ((fails_expected _).bind _).earns c
  · rw [t.kind_shift]
    split
    · refine (replays_parseBraced hbody).bind fun body => (replays_spanFrom t.span).bind fun bodySpan => ?_
      exact (replays_spanFrom start).bind fun span =>
        replays_pure (Stmt.procDecl visibility name formals body bodySpan span)
    · exact replays_of_fails ((fails_expected _).bind _)

theorem repeats_parseVisibility : e.Repeats 0 parseVisibility parseVisibility := by
  refine replays_kind (fun c hc => earns_parseVisibility hc) fun k _ => ?_
  split
  · exact repeats_advance.bind fun _ => replays_pure _
  · exact repeats_advance.bind fun _ => replays_pure _
  · exact replays_pure _

theorem replays_parsePlain (hbody : RepliesBody e body? body?') (start : Span) :
    e.Replays 0 (shift e.offset) (parsePlain body? (start.shift e.offset)) (parsePlain body?' start) := by
  have hexpr : e.Replays 0 (shift e.offset)
      (do let v ← Expr.parse; Parse.semicolon; return .expr v (← Parse.spanFrom (start.shift e.offset)))
      (do let v ← Expr.parse; Parse.semicolon; return .expr v (← Parse.spanFrom start)) :=
    Expr.replays_parse.bind fun v => repeats_semicolon.bind fun _ => (replays_spanFrom start).bind fun span =>
      replays_pure (Stmt.expr v span)
  refine replays_kind (fun c hc => .inl (earns_parsePlain hc _)) fun k hinvalid => ?_
  · split
    · cases body? with
      | none => exact replays_of_fails (fails_rejectNesting.bind _)
      | some body =>
          obtain ⟨body', rfl, -⟩ := hbody body rfl
          exact (replays_parseBraced hbody).bind fun body => (replays_spanFrom start).bind fun span =>
            replays_pure (Stmt.block body span)
    · exact replays_parseForeign start
    · exact hexpr
    · exact hexpr
    · exact hexpr
    · exact replays_of_fails ((fails_report rfl).bind _)
    · exact replays_of_fails ((fails_report rfl).bind _)
    · exact absurd rfl hinvalid
    · exact replays_of_fails ((fails_expected _).bind _)

theorem replays_parseWith (hbody : RepliesBody e body? body?') :
    e.Replays 0 (shift e.offset) (parseWith body?) (parseWith body?') := by
  refine replays_token (fun c hc => earns_parseWith hc) fun t => ?_
  refine repeats_parseVisibility.bind fun visibility => replays_kind (fun c hc => .inl ?_) fun k _ => ?_
  · exact earns_unmarked hc visibility _
  · split
    · exact replays_parseModule hbody visibility t.span
    split
    · exact replays_parseProc hbody visibility t.span
    split
    · exact replays_parseVariable visibility t.span
    split
    · exact replays_of_fails ((fails_expected _).bind _)
    · exact replays_parsePlain hbody t.span

theorem atListEnd_of_aligned {c c' : Cursor} (h : e.Aligned c c') (hne : c'.tokens ≠ []) :
    atListEnd true c' = atListEnd true c := by
  have hne' : c.tokens ≠ [] := by
    apply List.ne_nil_of_length_pos
    exact Nat.lt_of_lt_of_le (List.length_pos_iff.mpr hne) (h.length ▸ Nat.le_add_right _ _)
  rw [atListEnd, atListEnd, h.kind hne, List.isEmpty_eq_false_iff.mpr hne, List.isEmpty_eq_false_iff.mpr hne']

theorem shiftList_comments (n : Nat) (comments : List Comment) :
    shiftList n (comments.map ofComment) = (comments.map (·.shift n)).map ofComment := by
  rw [shiftList_eq, List.map_map, List.map_map]
  rfl

theorem shiftList_append (n : Nat) (ss ts : List Stmt) : shiftList n (ss ++ ts) = shiftList n ss ++ shiftList n ts := by
  simp only [shiftList_eq, List.map_append]

theorem replays_parseList {item item' : Parse Stmt} (hitem : e.Replays 0 (shift e.offset) item item')
    (htakes : ∀ c : Cursor, c.tokens ≠ [] → Takes c item) (htakes' : ∀ c : Cursor, c.tokens ≠ [] → Takes c item') :
    e.Replays 1 (shiftList e.offset) (parseList item true) (parseList item' true) := by
  have hcomments {c c' : Cursor} (halign : e.Aligned c c') (hne : c'.tokens ≠ []) :
      c.current.leading.map ofComment = shiftList e.offset (c'.current.leading.map ofComment) := by
    rw [halign.current hne, shiftList_comments]
    rfl
  intro c
  fun_induction parseList item true c with
  | case1 c comments h =>
      intro c' halign _ hlength
      change _ ≤ c.dropLeading.tokens.length at hlength
      rw [Cursor.length_dropLeading] at hlength
      have hne : c'.tokens ≠ [] := halign.ne_nil (by omega)
      have hdrop := halign.dropLeading hne
      have hend : atListEnd true c'.dropLeading = true := by
        rw [atListEnd_of_aligned hdrop (Cursor.dropLeading_tokens hne)]
        exact h
      obtain ⟨hvalue, -, hnext⟩ := parseList_of_end item h
      obtain ⟨hvalue', hreports', hnext'⟩ := parseList_of_end item' hend
      constructor
      · rw [hreports']
        exact clean_nil
      · rw [hvalue, hvalue']
        exact hcomments halign hne
      · rw [hnext, hnext']
        exact hdrop
  | case2 c comments h s lt t ih =>
      intro c' halign hclean hlength
      replace hclean := (clean_append s.reports t.reports).mp hclean
      have hbefore : e.after.length + 1 ≤ (resume c.dropLeading s).tokens.length := Nat.le_trans hlength t.le
      have hne : c'.tokens ≠ [] := halign.ne_nil (by omega)
      have hne' := Cursor.dropLeading_tokens hne
      have hdrop := halign.dropLeading hne
      -- Both items take a token, so that both lists go on where these end.
      have hresume : resume c.dropLeading s = (item c.dropLeading).next :=
        if_pos (htakes _ (tokens_ne_nil_of_not_atListEnd h))
      have hresume' : resume c'.dropLeading (item' c'.dropLeading) = (item' c'.dropLeading).next :=
        if_pos (htakes' _ hne')
      have hmore : ¬ atListEnd true c'.dropLeading = true := by
        rw [atListEnd_of_aligned hdrop hne']
        exact h
      have hfirst := hitem _ _ hdrop hclean.1 (by rw [← hresume]; omega)
      have hrest := ih (resume c'.dropLeading (item' c'.dropLeading)) (by rw [hresume, hresume']; exact hfirst.next)
        hclean.2 hlength
      obtain ⟨hvalue, -, hnext⟩ := parseList_of_more item h
      obtain ⟨hvalue', hreports', hnext'⟩ := parseList_of_more item' hmore
      constructor
      · rw [hreports', clean_append]
        exact ⟨hfirst.clean, hrest.clean⟩
      · rw [hvalue, hvalue', hcomments halign hne, hfirst.value, shiftList_append, shiftList]
        exact congrArg (fun stmts => _ ++ _ :: stmts) hrest.value
      · rw [hnext, hnext']
        exact hrest.next

theorem replays_parse {levels levels' : Nat} (h : levels ≤ levels') :
    e.Replays 0 (shift e.offset) (parse levels) (parse levels') := by
  induction levels generalizing levels' with
  | zero =>
      cases levels' with
      | zero | succ levels' => exact replays_parseWith (by simp [RepliesBody])
  | succ levels ih =>
      cases levels' with
      | zero => exact absurd h (Nat.not_succ_le_zero levels)
      | succ levels' =>
          refine replays_parseWith fun body hbody => ?_
          obtain rfl := Option.some.inj hbody
          refine ⟨_, rfl, ?_, fun c hc => (stands_parseList (stands_parse levels) true c hc).next⟩
          exact replays_parseList (ih (Nat.le_of_succ_le_succ h)) (fun c hc => takes_parse hc levels)
            fun c hc => takes_parse hc levels'

end Stmt
end Surface
end Palimpsest
