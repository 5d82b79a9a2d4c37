import Palimpsest.Proofs.Surface.Recognized

/-!
Regions: what stands between the braces of a statement, the braces included. A region is found in the text alone,
by the first opening brace behind the start of the statement.
-/

namespace Palimpsest

/-- Tokens one behind the other, none of them empty. -/
structure Token.InOrder (ts : List Token) : Prop where
  increasing : ts.Pairwise fun t u => t.span.stop ≤ u.span.start
  nonempty : ∀ t ∈ ts, t.span.start < t.span.stop

namespace TokenStream

/-- Where the first opening brace stands that does not stand before `p`. -/
def braceFrom (t : TokenStream) (p : Nat) : Nat :=
  match t.tokens.find? fun u => u.kind == .leftBrace && decide (p ≤ u.span.start) with
  | some u => u.span.start
  | none => p

/-- From the first opening brace of a span to its end. -/
def region (t : TokenStream) (span : Span) : Span := ⟨t.braceFrom span.start, span.stop⟩

theorem inOrder (text : String) : Token.InOrder (ofText text).tokens where
  increasing := increasing_tokens text
  nonempty := by
    intro u hu
    rw [← filterMap_token?_pieces] at hu
    obtain ⟨p, hp, htoken⟩ := List.mem_filterMap.mp hu
    have hnonempty := nonempty_of_piece text hp
    cases p with
    | comment c => cases htoken
    | token v => exact Option.some.inj htoken ▸ hnonempty

theorem braceFrom_of_split {t : TokenStream} {xs ys : List Token} {u : Token} {p : Nat} (ht : t.tokens = xs ++ u :: ys)
    (hu : u.kind = .leftBrace) (hp : p ≤ u.span.start) (hxs : ∀ v ∈ xs, v.kind = .leftBrace → v.span.start < p) :
    t.braceFrom p = u.span.start := by
  have hfind : t.tokens.find? (fun v => v.kind == .leftBrace && decide (p ≤ v.span.start)) = some u := by
    refine List.find?_eq_some_iff_append.mpr ⟨by simp [hu, hp], xs, ys, ht, fun v hv => ?_⟩
    simpa [imp_iff_not_or] using hxs v hv
  rw [braceFrom, hfind]

end TokenStream

namespace Token

variable {ts us : List Token} {t : Token} {comments : List Comment}

theorem InOrder.of_segment (h : InOrder ts) (hus : us <:+: ts) : InOrder us where
  increasing := h.increasing.sublist hus.sublist
  nonempty t ht := h.nonempty t (hus.subset ht)

theorem InOrder.of_withLeading (h : InOrder (withLeading comments ts)) : InOrder ts := by
  cases ts with
  | nil => exact h
  | cons t ts =>
      obtain ⟨hincreasing, hnonempty⟩ := h
      exact ⟨List.pairwise_cons.mpr (List.pairwise_cons.mp hincreasing),
        List.forall_mem_cons.mpr (List.forall_mem_cons.mp hnonempty)⟩

theorem withLeading_append (h : ts ≠ []) : withLeading comments (ts ++ us) = withLeading comments ts ++ us := by
  cases ts with
  | nil => exact absurd rfl h
  | cons t ts => rfl

theorem withLeading_concat (comments : List Comment) (ts : List Token) (t : Token) :
    ∃ us u, withLeading comments (ts ++ [t]) = us ++ [u] ∧ u.span = t.span := by
  cases ts with
  | nil => exact ⟨[], _, rfl, rfl⟩
  | cons s ss => exact ⟨{ s with leading := comments } :: ss, t, rfl, rfl⟩

theorem InOrder.start_le_endOf (h : InOrder (t :: ts)) : t.span.start ≤ endOf t.span.stop ts := by
  induction ts generalizing t with
  | nil => exact Nat.le_of_lt (h.nonempty t List.mem_cons_self)
  | cons u us ih =>
      have hrest := ih (h.of_segment (List.suffix_cons t _).isInfix)
      have hnonempty := h.nonempty t List.mem_cons_self
      have hbefore := List.rel_of_pairwise_cons h.increasing List.mem_cons_self
      rw [endOf_cons]
      omega

theorem InOrder.start_le_last (h : InOrder (ts ++ [t])) : ∀ u ∈ ts ++ [t], u.span.start ≤ t.span.start := by
  intro u hu
  rcases List.mem_append.mp hu with hbefore | hlast
  · have hnonempty := h.nonempty u hu
    have hle := (List.pairwise_append.mp h.increasing).2.2 u hbefore t (List.mem_singleton_self t)
    omega
  · rw [List.mem_singleton.mp hlast]

/-- Tokens in order end where the last of them does. -/
theorem InOrder.stop_extent (h : InOrder (ts ++ [t])) : (extent (ts ++ [t])).stop = t.span.stop := by
  have hlast := h.nonempty t (by simp)
  cases ts with
  | nil => exact Nat.max_eq_left (Nat.le_of_lt hlast)
  | cons u us =>
      have hfirst := h.nonempty u List.mem_cons_self
      have hbefore : u.span.stop ≤ t.span.start := List.rel_of_pairwise_cons h.increasing (by simp)
      rw [List.cons_append, extent, endOf_append]
      exact Nat.max_eq_left (by simp only [endOf_cons, endOf_nil]; omega)

end Token

namespace Surface

open Token (InOrder extent withLeading)

theorem Header.span_stmt (header : Header) (body : List Stmt) (bodySpan span : Span) :
    (header.stmt body bodySpan span).span = span := by
  cases header with
  | block | moduleDecl | procDecl => rfl

theorem ReadsLeaf.span_of {ts : List Token} {of : Span → Stmt} (h : ReadsLeaf ts of) (span : Span) :
    (of span).span = span := by
  cases h with
  | varDecl | foreign | foreignEnded | expr => rfl

/-- A statement reaches from its first token to its last. -/
theorem Construct.span_stmt (k : Construct) : k.stmt.span = extent k.tokens := by
  cases k with
  | leaf ts of reads => exact reads.span_of _
  | braced front header => exact header.span_stmt _ _ _

section Among

variable {t : TokenStream} {front : List Token} {header : Header} {opening closing : Token} {body : Constructs}
  {comments : List Comment}

/-- Behind a header the brace is found that opens the region. -/
theorem braceFrom_extent (ht : InOrder t.tokens) (hfront : Flat front) (hopening : opening.kind = .leftBrace)
    (rest : List Token) (h : withLeading comments (front ++ opening :: rest) <:+: t.tokens) :
    t.braceFrom (extent (front ++ opening :: rest)).start = opening.span.start := by
  obtain ⟨before, after, hsplit⟩ := h
  have hbefore {u : Token} {us : List Token} (hsplit : t.tokens = before ++ u :: us) (v : Token) (hv : v ∈ before) :
      v.span.start < u.span.start := by
    have hnonempty := ht.nonempty v (hsplit ▸ List.mem_append_left _ hv)
    have hincreasing := ht.increasing
    rw [hsplit, List.pairwise_append] at hincreasing
    have hle := hincreasing.2.2 v hv u List.mem_cons_self
    omega
  cases front with
  | nil =>
      have hsplit : t.tokens = before ++ { opening with leading := comments } :: (rest ++ after) := by
        simpa [withLeading] using hsplit.symm
      exact TokenStream.braceFrom_of_split (u := { opening with leading := comments }) hsplit hopening (Nat.le_refl _)
        fun v hv _ => hbefore hsplit v hv
  | cons f fs =>
      have hsplit : t.tokens = before ++ { f with leading := comments } :: (fs ++ opening :: (rest ++ after)) := by
        simpa [withLeading] using hsplit.symm
      obtain ⟨hf, hfs⟩ := List.forall_mem_cons.mp hfront
      have hbrace : t.tokens = (before ++ { f with leading := comments } :: fs) ++ opening :: (rest ++ after) := by
        simpa using hsplit
      refine TokenStream.braceFrom_of_split hbrace hopening ?_ fun v hv hk => ?_
      · have hincreasing := ht.increasing
        have hnonempty := ht.nonempty { f with leading := comments } (by simp [hsplit])
        rw [hsplit, List.pairwise_append] at hincreasing
        have hle := List.rel_of_pairwise_cons hincreasing.2.1
          (List.mem_append_right fs List.mem_cons_self : opening ∈ fs ++ opening :: (rest ++ after))
        exact Nat.le_trans (Nat.le_of_lt hnonempty) hle
      · rcases List.mem_append.mp hv with hv | hv
        · exact hbefore hsplit v hv
        · rcases List.mem_cons.mp hv with rfl | hv
          · exact absurd hk hf.1
          · exact absurd hk (hfs v hv).1

theorem inOrder_region (ht : InOrder t.tokens)
    (h : withLeading comments (front ++ body.region opening closing) <:+: t.tokens) :
    InOrder (opening :: body.tokens ++ [closing]) :=
  (ht.of_segment h).of_withLeading.of_segment (List.suffix_append _ _).isInfix

/-- The region of a construct is where its braces stand. -/
theorem region_braced (ht : InOrder t.tokens) (reads : ReadsHeader front header) (hopening : opening.kind = .leftBrace)
    (h : withLeading comments (front ++ body.region opening closing) <:+: t.tokens) :
    t.region (extent (front ++ body.region opening closing)) = extent (body.region opening closing) := by
  have hall : InOrder (front ++ body.region opening closing) := (ht.of_segment h).of_withLeading
  have hstop : (extent (body.region opening closing)).stop = closing.span.stop := (inOrder_region ht h).stop_extent
  have hstop' : (extent (front ++ body.region opening closing)).stop = closing.span.stop := by
    rw [show front ++ body.region opening closing = (front ++ opening :: body.tokens) ++ [closing] by
      simp [Constructs.region]] at hall ⊢
    exact hall.stop_extent
  have hbrace := braceFrom_extent ht reads.flat hopening (body.tokens ++ [closing]) h
  rw [TokenStream.region, hstop', ← hstop]
  exact congrArg (Span.mk · _) hbrace

/-- The tokens between the braces and the closing brace are the last of a construct. -/
theorem tokens_body_segment (opening : Token) :
    body.tokens ++ [closing] <:+: withLeading comments (front ++ body.region opening closing) := by
  have hsplit : front ++ body.region opening closing = (front ++ [opening]) ++ (body.tokens ++ [closing]) := by
    simp [Constructs.region]
  rw [hsplit, Token.withLeading_append (by simp)]
  exact (List.suffix_append _ _).isInfix

end Among

end Surface
end Palimpsest
