import Palimpsest.Proofs.Surface.Local
import Palimpsest.Proofs.Surface.Region

/-!
Where comments end up. In a text that parses without an error a comment is a statement of the innermost list that
stands around it, in its place among the others; but a comment inside a statement of that list is not in the tree.
-/

namespace Palimpsest

/-- No two comments of a text stand in the same place. -/
theorem TokenStream.nodup_comments (text : String) : ((ofText text).comments.map Comment.span).Nodup := by
  have hapart : (ofText text).pieces.Pairwise fun p q => p.span ≠ q.span := by
    refine (increasing_pieces text).imp_of_mem fun {p q} hp _ hle heq => ?_
    have hnonempty := nonempty_of_piece text hp
    rw [heq] at hle hnonempty
    omega
  have hspan {p : Piece} {c : Comment} (h : c ∈ p.comment?) : p.span = c.span := by
    cases p with
    | comment k => exact congrArg Comment.span (Option.some.inj h)
    | token t => cases h
  refine List.pairwise_map.mpr ?_
  rw [← filterMap_comment?_pieces]
  refine hapart.filterMap _ fun p q hne c hc k hk => ?_
  rwa [← hspan hc, ← hspan hk]

namespace Surface

open Token (InOrder endOf extent Bare withLeading)

def Stmt.isComment : Stmt → Bool
  | .comment .. => true
  | _ => false

/-- The statement holds a list between braces. -/
def Stmt.isBraced : Stmt → Bool
  | .moduleDecl .. | .procDecl .. | .block .. => true
  | _ => false

/-- The lists of statements of a text, each with the part of the text that it stands in: the list of the file in all
of the text, and that of a statement between its braces. -/
inductive ListAt (text : String) : List Stmt → Span → Prop where
  | file : ListAt text (parseText text).file.stmts (parseText text).file.span
  | body {stmts : List Stmt} {span : Span} {s : Stmt} (h : ListAt text stmts span) (hs : s ∈ stmts)
      (hbraced : s.isBraced = true) : ListAt text s.body ((TokenStream.ofText text).region s.span)

/-- The list stands around the place, and none of the lists in it does. -/
structure Innermost (text : String) (stmts : List Stmt) (span place : Span) : Prop where
  list : ListAt text stmts span
  within : place.Within span
  last : ∀ s ∈ stmts, s.isBraced = true → ¬ place.Within ((TokenStream.ofText text).region s.span)

section Accounts

mutual

/-- The comments inside a construct that are statements. -/
def Construct.kept : Construct → List Comment
  | .leaf .. => []
  | .braced _ _ _ body closing .. => body.kept ++ closing.leading

def Constructs.kept : Constructs → List Comment
  | .nil => []
  | .cons comments first rest => comments ++ (first.kept ++ rest.kept)

end

mutual

/-- The comments inside a construct that are not: those in a statement without braces or in a header. -/
def Construct.dropped : Construct → List Comment
  | .leaf ts .. => ts.flatMap Token.leading
  | .braced front _ opening body .. => (front ++ [opening]).flatMap Token.leading ++ body.dropped

def Constructs.dropped : Constructs → List Comment
  | .nil => []
  | .cons _ first rest => first.dropped ++ rest.dropped

end

theorem leading_withLeading {ts : List Token} (hts : ts ≠ []) (hbare : Bare ts) (comments : List Comment) :
    (withLeading comments ts).flatMap Token.leading = comments ++ ts.flatMap Token.leading := by
  cases ts with
  | nil => exact absurd rfl hts
  | cons t ts =>
      have hnone : t.leading = [] := hbare t rfl
      rw [withLeading, List.flatMap_cons, List.flatMap_cons, hnone, List.nil_append]

mutual

theorem Construct.perm_leading : (k : Construct) → (k.tokens.flatMap Token.leading).Perm (k.kept ++ k.dropped)
  | .leaf .. => .refl _
  | .braced front _ opening body closing .. => by
      have hbody := List.perm_iff_count.mp body.perm_leading
      refine List.perm_iff_count.mpr fun c => ?_
      have hcount := hbody c
      simp only [Construct.tokens, Construct.kept, Construct.dropped, List.flatMap_append, List.flatMap_cons,
        List.flatMap_nil, List.append_nil, List.count_append] at hcount ⊢
      omega

theorem Constructs.perm_leading : (ks : Constructs) →
    (ks.tokens.flatMap Token.leading).Perm (ks.kept ++ ks.dropped)
  | .nil => .refl _
  | .cons comments first rest => by
      have hfirst := List.perm_iff_count.mp first.perm_leading
      have hrest := List.perm_iff_count.mp rest.perm_leading
      refine List.perm_iff_count.mpr fun c => ?_
      have hone := hfirst c
      have hmore := hrest c
      rw [Constructs.tokens, List.flatMap_append, leading_withLeading first.tokens_ne_nil first.bare]
      simp only [Constructs.kept, Constructs.dropped, List.count_append] at hone hmore ⊢
      omega

end

theorem allOfList_append (stmts more : List Stmt) : allOfList (stmts ++ more) = allOfList stmts ++ allOfList more := by
  induction stmts with
  | nil => rfl
  | cons s rest ih => simp [allOfList, ih]

theorem allOfList_comments (comments : List Comment) :
    allOfList (comments.map Stmt.ofComment) = comments.map Stmt.ofComment := by
  induction comments with
  | nil => rfl
  | cons c rest ih => rw [List.map_cons, allOfList, ih]; rfl

theorem filter_comments (comments : List Comment) :
    (comments.map Stmt.ofComment).filter Stmt.isComment = comments.map Stmt.ofComment := by
  rw [List.filter_eq_self]
  exact List.forall_mem_map.mpr fun _ _ => rfl

theorem Construct.isComment_stmt (k : Construct) : k.stmt.isComment = false := by
  cases k with
  | leaf ts of reads => cases reads <;> rfl
  | braced front header => cases header <;> rfl

theorem Header.body_stmt (header : Header) (body : List Stmt) (bodySpan span : Span) :
    (header.stmt body bodySpan span).body = body := by
  cases header with
  | block | moduleDecl | procDecl => rfl

mutual

theorem Construct.comments_inside : (k : Construct) →
    k.stmt.inside.filter Stmt.isComment = k.kept.map Stmt.ofComment
  | .leaf ts of reads _ => by cases reads <;> rfl
  | .braced front header opening body closing .. => by
      rw [Stmt.inside_eq, Construct.stmt, Header.body_stmt, allOfList_append, allOfList_comments, List.filter_append,
        filter_comments, body.comments_all, Construct.kept, List.map_append]

theorem Constructs.comments_all : (ks : Constructs) →
    (allOfList ks.stmts).filter Stmt.isComment = ks.kept.map Stmt.ofComment
  | .nil => rfl
  | .cons comments first rest => by
      rw [Constructs.stmts, allOfList_append, allOfList_comments, allOfList, List.filter_append, filter_comments,
        List.filter_cons_of_neg (by simp [first.isComment_stmt]), List.filter_append, first.comments_inside,
        rest.comments_all, Constructs.kept, List.map_append, List.map_append]

end

end Accounts

section Members

variable {comments : List Comment} {k : Construct} {ks : Constructs} {c : Comment}

/-- The construct is one of these, with these comments before it. -/
inductive Constructs.Has (comments : List Comment) (k : Construct) : Constructs → Prop where
  | first {rest : Constructs} : Has comments k (.cons comments k rest)
  | later {others : List Comment} {other : Construct} {rest : Constructs} (h : Has comments k rest) :
      Has comments k (.cons others other rest)

namespace Constructs.Has

theorem tokens_segment (h : Has comments k ks) : withLeading comments k.tokens <:+: ks.tokens := by
  induction h with
  | first => exact (List.prefix_append _ _).isInfix
  | later _ ih => exact ih.trans (List.suffix_append _ _).isInfix

theorem stmts_subset (h : Has comments k ks) : comments.map Stmt.ofComment ++ [k.stmt] ⊆ ks.stmts := by
  induction h with
  | first => simp [Constructs.stmts]
  | later _ ih => exact List.Subset.trans ih fun s hs => by simp [Constructs.stmts, hs]

theorem kept_subset (h : Has comments k ks) : comments ++ k.kept ⊆ ks.kept := by
  induction h with
  | first => simp [Constructs.kept]
  | later _ ih => exact List.Subset.trans ih fun c hc => by simp [Constructs.kept, hc]

theorem dropped_subset (h : Has comments k ks) : k.dropped ⊆ ks.dropped := by
  induction h with
  | first => exact List.subset_append_left _ _
  | later _ ih => exact List.Subset.trans ih (List.subset_append_right _ _)

end Constructs.Has

theorem Constructs.exists_has_of_stmt {s : Stmt} (hs : s.isComment = false) : (ks : Constructs) → s ∈ ks.stmts →
    ∃ comments k, ks.Has comments k ∧ s = k.stmt
  | .nil, h => absurd h List.not_mem_nil
  | .cons comments first rest, h => by
      rcases List.mem_append.mp h with hcomment | h
      · obtain ⟨c, -, rfl⟩ := List.mem_map.mp hcomment
        cases hs
      · rcases List.mem_cons.mp h with rfl | h
        · exact ⟨comments, first, .first, rfl⟩
        · obtain ⟨others, k, hk, rfl⟩ := rest.exists_has_of_stmt hs h
          exact ⟨others, k, .later hk, rfl⟩

theorem Constructs.exists_has_of_leading : (ks : Constructs) → c ∈ ks.tokens.flatMap Token.leading →
    ∃ comments k, ks.Has comments k ∧ (c ∈ comments ∨ c ∈ k.tokens.flatMap Token.leading)
  | .nil, h => absurd h List.not_mem_nil
  | .cons comments first rest, h => by
      rw [Constructs.tokens, List.flatMap_append, leading_withLeading first.tokens_ne_nil first.bare] at h
      rcases List.mem_append.mp h with h | h
      · exact ⟨comments, first, .first, List.mem_append.mp h⟩
      · obtain ⟨others, k, hk, hc⟩ := rest.exists_has_of_leading h
        exact ⟨others, k, .later hk, hc⟩

end Members

section Places

/-- Comments and tokens stand one after the other. -/
def Spaced (ts : List Token) : Prop := (ts.flatMap Token.spans).Pairwise fun s t => s.stop ≤ t.start

variable {t : Token} {ts us : List Token} {c : Comment}

theorem Spaced.of_segment (h : Spaced ts) (hus : us <:+: ts) : Spaced us := by
  obtain ⟨before, after, rfl⟩ := hus
  rw [Spaced, List.flatMap_append, List.flatMap_append, List.pairwise_append, List.pairwise_append] at h
  exact h.1.2.1

theorem Spaced.of_withLeading {comments : List Comment} (h : Spaced (withLeading comments ts)) (hbare : Bare ts) :
    Spaced ts := by
  cases ts with
  | nil => exact h
  | cons t ts =>
      have hnone : t.leading = [] := hbare t rfl
      refine List.Pairwise.sublist ?_ h
      rw [withLeading, List.flatMap_cons, List.flatMap_cons, Token.spans, Token.spans, hnone]
      exact (List.sublist_append_right _ _).append_right _

/-- A comment stands before the token behind it. -/
theorem Spaced.stop_le (h : Spaced ts) (ht : t ∈ ts) (hc : c ∈ t.leading) : c.span.stop ≤ t.span.start := by
  obtain ⟨xs, ys, rfl⟩ := List.append_of_mem ht
  have hone : Spaced [t] := h.of_segment ⟨xs, ys, by simp⟩
  rw [Spaced, List.flatMap_singleton, Token.spans, List.pairwise_append] at hone
  exact hone.2.2 _ (List.mem_map_of_mem hc) _ (List.mem_singleton_self _)

/-- The comments behind a token stand behind it. -/
theorem Spaced.le_start (h : Spaced (t :: ts)) (hc : c ∈ ts.flatMap Token.leading) : t.span.stop ≤ c.span.start := by
  obtain ⟨u, hu, hc⟩ := List.mem_flatMap.mp hc
  rw [Spaced, List.flatMap_cons, List.pairwise_append] at h
  refine h.2.2 _ (List.mem_append_right _ (List.mem_singleton_self _)) _ (List.mem_flatMap.mpr ⟨u, hu, ?_⟩)
  exact List.mem_append_left _ (List.mem_map_of_mem hc)

/-- A comment behind the first of some tokens stands between the first and the last. -/
theorem within_extent (h : InOrder (t :: ts)) (hspaced : Spaced (t :: ts)) (hc : c ∈ ts.flatMap Token.leading) :
    c.span.Within (extent (t :: ts)) := by
  have hfirst := h.nonempty t List.mem_cons_self
  have hstart := hspaced.le_start hc
  obtain ⟨u, hu, hleading⟩ := List.mem_flatMap.mp hc
  have hstop := hspaced.stop_le (List.mem_cons_of_mem t hu) hleading
  obtain ⟨xs, ys, rfl⟩ := List.append_of_mem hu
  have hbehind : InOrder (u :: ys) := h.of_segment (List.suffix_append (t :: xs) _).isInfix
  have hlast := hbehind.start_le_endOf
  rw [extent, Token.endOf_append, Token.endOf_cons]
  exact ⟨Nat.le_trans (Nat.le_of_lt hfirst) hstart, Nat.le_trans (Nat.le_trans hstop hlast) (Nat.le_max_left _ _)⟩

end Places

section Occurrences

/-- The statements of a text, at any depth, that are comments where this one stands. -/
def occurrences (text : String) (c : Comment) : List Stmt :=
  ((allOfList (parseText text).file.stmts).filter Stmt.isComment).filter fun s => s.span == c.span

variable {all kept dropped : List Comment} {c : Comment}

theorem occurrences_eq {text : String} {ks : Constructs} {comments : List Comment}
    (hstmts : (parseText text).file.stmts = ks.stmts ++ comments.map Stmt.ofComment) (c : Comment) :
    occurrences text c = ((ks.kept ++ comments).filter fun k => k.span == c.span).map Stmt.ofComment := by
  rw [occurrences, hstmts, allOfList_append, allOfList_comments, List.filter_append, ks.comments_all, filter_comments,
    ← List.map_append, List.filter_map]
  rfl

/-- One of two parts of some comments holds all that stand where one of them does. -/
theorem filter_span_eq (hperm : all.Perm (kept ++ dropped)) (hnodup : (all.map Comment.span).Nodup) :
    (c ∈ kept → kept.filter (fun k => k.span == c.span) = [c]) ∧
      (c ∈ dropped → kept.filter (fun k => k.span == c.span) = []) := by
  have hapart := (hperm.map Comment.span).nodup_iff.mp hnodup
  rw [List.map_append, List.nodup_append] at hapart
  obtain ⟨hkept, -, hbetween⟩ := hapart
  have hnone {ks : List Comment} (h : ∀ k ∈ ks, k.span ≠ c.span) : ks.filter (fun k => k.span == c.span) = [] :=
    List.filter_eq_nil_iff.mpr fun k hk => by simpa using h k hk
  constructor
  · intro hc
    obtain ⟨xs, ys, rfl⟩ := List.append_of_mem hc
    rw [List.map_append, List.map_cons, List.nodup_append, List.nodup_cons] at hkept
    obtain ⟨-, ⟨hafter, -⟩, hbefore⟩ := hkept
    rw [List.filter_append, List.filter_cons_of_pos (by simp), hnone, hnone, List.nil_append]
    · exact fun k hk heq => hafter (heq ▸ List.mem_map_of_mem hk)
    · exact fun k hk => hbefore _ (List.mem_map_of_mem hk) _ List.mem_cons_self
  · exact fun hc => hnone fun k hk => hbetween _ (List.mem_map_of_mem hk) _ (List.mem_map_of_mem hc)

end Occurrences

section Lists

variable {t : TokenStream} {kept dropped : List Comment} {stmts : List Stmt} {span : Span} {ks : Constructs}
  {ender : Token} {c : Comment}

/-- The list is that of the constructs up to `ender`, which stand in the stream from `span.start` on. Of the comments
that they account for, those that are statements are among `kept` and the others among `dropped`. -/
structure Holds (t : TokenStream) (kept dropped : List Comment) (stmts : List Stmt) (span : Span) (ks : Constructs)
    (ender : Token) : Prop where
  stmts_eq : stmts = ks.stmts ++ ender.leading.map Stmt.ofComment
  tokens : ks.tokens <:+: t.tokens
  split : ∃ before after, t.all = before ++ (ks.tokens ++ ender :: after) ∧ ∀ u ∈ before, u.span.start ≤ span.start
  stop : span.stop ≤ ender.span.stop
  kept : ks.kept ++ ender.leading ⊆ kept
  dropped : ks.dropped ⊆ dropped

/-- A comment of the stream that stands in the part belongs to the list. -/
theorem Holds.mem_leading (h : Holds t kept dropped stmts span ks ender) (hspaced : Spaced t.all) (hc : c ∈ t.comments)
    (hnonempty : c.span.start < c.span.stop) (hwithin : c.span.Within span) :
    c ∈ ks.tokens.flatMap Token.leading ∨ c ∈ ender.leading := by
  obtain ⟨before, after, hall, hbefore⟩ := h.split
  obtain ⟨hstart, hstop⟩ := hwithin
  rw [TokenStream.comments, hall, List.flatMap_append, List.flatMap_append, List.flatMap_cons] at hc
  rcases List.mem_append.mp hc with hc | hc
  · obtain ⟨u, hu, hleading⟩ := List.mem_flatMap.mp hc
    have hle := hspaced.stop_le (hall ▸ List.mem_append_left _ hu) hleading
    have hfirst := hbefore u hu
    omega
  rcases List.mem_append.mp hc with hc | hc
  · exact .inl hc
  rcases List.mem_append.mp hc with hc | hc
  · exact .inr hc
  · have hbehind : Spaced (ender :: after) := hspaced.of_segment ⟨before ++ ks.tokens, [], by simp [hall]⟩
    have hle := hbehind.le_start hc
    have hlast := h.stop
    omega

/-- What holds of a list holds of the lists between the braces of its statements. -/
theorem Holds.body {comments : List Comment} {front : List Token} {header : Header} {opening closing : Token}
    {body : Constructs} {reads : ReadsHeader front header} {hopening : opening.kind = .leftBrace}
    {hclosing : closing.kind = .rightBrace} {bare : Bare (front ++ [opening])}
    (h : Holds t kept dropped stmts span ks ender) (ht : InOrder t.tokens)
    (hk : ks.Has comments (.braced front header opening body closing reads hopening hclosing bare)) :
    Holds t kept dropped (body.stmts ++ closing.leading.map Stmt.ofComment)
      (extent (body.region opening closing)) body closing := by
  have hsegment : withLeading comments (front ++ body.region opening closing) <:+: t.tokens :=
    hk.tokens_segment.trans h.tokens
  have hregion := inOrder_region ht hsegment
  obtain ⟨before, after, hsplit⟩ := hsegment
  obtain ⟨us, u, hus, hu⟩ := Token.withLeading_concat comments front opening
  have hfront : withLeading comments (front ++ body.region opening closing) =
      us ++ [u] ++ (body.tokens ++ [closing]) := by
    rw [← hus, ← Token.withLeading_append (by simp)]
    simp [Constructs.region]
  rw [hfront] at hsplit
  constructor
  · rfl
  · exact ⟨before ++ us ++ [u], closing :: after, by simp [← hsplit]⟩
  · refine ⟨before ++ us ++ [u], after ++ [t.final], by simp [TokenStream.all, ← hsplit], fun v hv => ?_⟩
    have hbefore : InOrder (before ++ us ++ [u]) :=
      ht.of_segment ⟨[], body.tokens ++ closing :: after, by simp [← hsplit]⟩
    have hle := hbefore.start_le_last v hv
    rwa [hu] at hle
  · exact Nat.le_of_eq hregion.stop_extent
  · exact fun c hc => h.kept (List.mem_append_left _ (hk.kept_subset (List.mem_append_right _ hc)))
  · exact fun c hc => h.dropped (hk.dropped_subset (List.mem_append_right _ hc))

theorem Construct.within_stmt {k : Construct} (h : InOrder k.tokens) (hspaced : Spaced k.tokens)
    (hc : c ∈ k.tokens.flatMap Token.leading) : c.span.Within k.stmt.span := by
  rw [k.span_stmt]
  have hbare := k.bare
  cases htokens : k.tokens with
  | nil => exact absurd htokens k.tokens_ne_nil
  | cons u us =>
      rw [htokens] at h hspaced hc hbare
      have hnone : u.leading = [] := hbare u rfl
      rw [List.flatMap_cons, hnone, List.nil_append] at hc
      exact within_extent h hspaced hc

/-- A comment inside a construct that does not stand between its braces is no statement. -/
theorem Construct.mem_dropped {comments : List Comment} {k : Construct} (ht : InOrder t.tokens)
    (hsegment : withLeading comments k.tokens <:+: t.tokens) (hspaced : Spaced k.tokens)
    (hc : c ∈ k.tokens.flatMap Token.leading)
    (hlast : k.stmt.isBraced = true → ¬ c.span.Within (t.region k.stmt.span)) : c ∈ k.dropped := by
  cases k with
  | leaf => exact hc
  | braced front header opening body closing reads hopening hclosing bare =>
      have hbraced : (header.stmt (body.stmts ++ closing.leading.map Stmt.ofComment)
          (extent (body.region opening closing)) (extent (front ++ body.region opening closing))).isBraced = true := by
        cases header <;> rfl
      have hregion := region_braced ht reads hopening hsegment
      have hspacedRegion : Spaced (opening :: (body.tokens ++ [closing])) :=
        hspaced.of_segment (List.suffix_append _ _).isInfix
      rw [Construct.tokens, ← List.singleton_append, ← List.append_assoc, List.flatMap_append] at hc
      rcases List.mem_append.mp hc with hc | hc
      · exact List.mem_append_left _ hc
      · refine absurd ?_ (hlast hbraced)
        rw [Construct.stmt, Header.span_stmt, hregion]
        exact within_extent (inOrder_region ht hsegment) hspacedRegion hc

/-- A comment in the part that the list stands in, but in none of the lists in it, is a statement of the list or stands
inside one that is no comment. -/
theorem Holds.lands (h : Holds t kept dropped stmts span ks ender) (ht : InOrder t.tokens) (hspaced : Spaced t.all)
    (hc : c ∈ t.comments) (hnonempty : c.span.start < c.span.stop) (hwithin : c.span.Within span)
    (hlast : ∀ s ∈ stmts, s.isBraced = true → ¬ c.span.Within (t.region s.span)) :
    (c ∈ kept ∧ Stmt.ofComment c ∈ stmts) ∨
      (c ∈ dropped ∧ ∃ s ∈ stmts, s.isComment = false ∧ c.span.Within s.span) := by
  rcases h.mem_leading hspaced hc hnonempty hwithin with hleading | hleading
  · obtain ⟨comments, k, hk, hc⟩ := ks.exists_has_of_leading hleading
    have hsubset : ks.stmts ⊆ stmts := h.stmts_eq ▸ List.subset_append_left _ _
    have hsegment : withLeading comments k.tokens <:+: t.tokens := hk.tokens_segment.trans h.tokens
    rcases hc with hc | hc
    · have hstmt := hk.stmts_subset (List.mem_append_left _ (List.mem_map_of_mem hc))
      exact .inl ⟨h.kept (List.mem_append_left _ (hk.kept_subset (List.mem_append_left _ hc))), hsubset hstmt⟩
    · have hstmt := hsubset (hk.stmts_subset (List.mem_append_right _ (List.mem_singleton_self _)))
      have hhere : Spaced k.tokens :=
        ((hspaced.of_segment (List.prefix_append _ _).isInfix).of_segment hsegment).of_withLeading k.bare
      refine .inr ⟨h.dropped (hk.dropped_subset (Construct.mem_dropped ht hsegment hhere hc (hlast _ hstmt))), ?_⟩
      exact ⟨k.stmt, hstmt, k.isComment_stmt, Construct.within_stmt (ht.of_segment hsegment).of_withLeading hhere hc⟩
  · refine .inl ⟨h.kept (List.mem_append_right _ hleading), ?_⟩
    rw [h.stmts_eq]
    exact List.mem_append_right _ (List.mem_map_of_mem hleading)

theorem ListAt.holds {text : String} (htokens : (TokenStream.ofText text).tokens = ks.tokens)
    (hstmts : (parseText text).file.stmts = ks.stmts ++ (TokenStream.ofText text).final.leading.map Stmt.ofComment)
    (h : ListAt text stmts span) : ∃ ls ender, Holds (TokenStream.ofText text)
      (ks.kept ++ (TokenStream.ofText text).final.leading) ks.dropped stmts span ls ender := by
  induction h with
  | file =>
      obtain ⟨leading, hfinal⟩ := TokenStream.final_ofText text
      refine ⟨ks, (TokenStream.ofText text).final, hstmts, htokens ▸ List.infix_refl _, ⟨[], [], ?_, ?_⟩, ?_,
        fun _ h => h, fun _ h => h⟩
      · simp [TokenStream.all, htokens]
      · exact fun _ hu => absurd hu List.not_mem_nil
      · rw [hfinal]
        exact Nat.le_refl _
  | @body stmts span s _ hs hbraced ih =>
      obtain ⟨ls, ender, hholds⟩ := ih
      have hcomment : s.isComment = false := by cases s <;> first | rfl | cases hbraced
      rw [hholds.stmts_eq] at hs
      rcases List.mem_append.mp hs with hs | hs
      · obtain ⟨comments, k, hk, rfl⟩ := ls.exists_has_of_stmt hcomment hs
        cases k with
        | leaf ts of reads => cases reads <;> cases hbraced
        | braced front header opening body closing reads hopening hclosing bare =>
            have ht := TokenStream.inOrder text
            have hbody := hholds.body ht hk
            have hregion := region_braced ht reads hopening (hk.tokens_segment.trans hholds.tokens)
            rw [Construct.stmt, Header.span_stmt, Header.body_stmt, hregion]
            exact ⟨body, closing, hbody⟩
      · obtain ⟨k, -, rfl⟩ := List.mem_map.mp hs
        cases hbraced

theorem sizeOf_body_lt {s : Stmt} (h : s ∈ stmts) : sizeOf s.body < sizeOf stmts := by
  have hlt := List.sizeOf_lt_of_mem h
  cases s with
  | moduleDecl | procDecl | block =>
      simp only [Stmt.body]
      simp at hlt
      omega
  | comment | varDecl | foreign | expr | bad =>
      simp only [Stmt.body]
      simp at hlt ⊢
      omega

theorem body_subset_allOfList {s : Stmt} (h : s ∈ allOfList stmts) : s.body ⊆ allOfList stmts := by
  induction hsize : sizeOf stmts using Nat.strongRecOn generalizing stmts with
  | ind size ih =>
      obtain ⟨t, ht, hst⟩ := mem_allOfList.mp h
      intro u hu
      refine mem_allOfList.mpr ⟨t, ht, .inr ?_⟩
      rw [Stmt.inside_eq] at hst ⊢
      cases hst with
      | inl heq => exact mem_allOfList.mpr ⟨u, heq ▸ hu, .inl rfl⟩
      | inr hin => exact ih _ (hsize ▸ sizeOf_body_lt ht) hin rfl hu

/-- The statements of a list stand one after the other. -/
theorem ListAt.ordered {text : String} (hclean : Clean (parseText text).reports) (h : ListAt text stmts span) :
    stmts.Pairwise (fun s t => s.span.stop ≤ t.span.start) ∧ stmts ⊆ allOfList (parseText text).file.stmts := by
  obtain ⟨hlex, hparse⟩ := (clean_append _ _).mp hclean
  have hnests : ∀ s ∈ allOfList (parseText text).file.stmts, s.Nests :=
    Stmt.forall_allOfList hlex (fun k _ => Stmt.nests_comment k)
      (fun _ _ _ hc _ _ hclean => Stmt.nests_of_read hlex hc hclean) (Nat.le_refl maxNesting) .start hparse
  induction h with
  | file =>
      refine ⟨(Stmt.leads_parseList_parse hlex maxNesting false .start hparse).ordered, fun s hs => ?_⟩
      exact mem_allOfList.mpr ⟨s, hs, .inl rfl⟩
  | body _ hs _ ih => exact ⟨(hnests _ (ih.2 hs)).ordered, body_subset_allOfList (ih.2 hs)⟩

theorem ListAt.exists_innermost {text : String} {place : Span} (h : ListAt text stmts span)
    (hwithin : place.Within span) : ∃ stmts span, Innermost text stmts span place := by
  induction hsize : sizeOf stmts using Nat.strongRecOn generalizing stmts span with
  | ind size ih =>
      by_cases hlast : ∀ s ∈ stmts, s.isBraced = true → ¬ place.Within ((TokenStream.ofText text).region s.span)
      · exact ⟨stmts, span, h, hwithin, hlast⟩
      · simp only [not_forall, not_not] at hlast
        obtain ⟨s, hs, hbraced, hinside⟩ := hlast
        exact ih _ (hsize ▸ sizeOf_body_lt hs) (h.body hs hbraced) hinside rfl

end Lists

theorem perm_comments {t : TokenStream} {ks : Constructs} (htokens : t.tokens = ks.tokens) :
    t.comments.Perm ((ks.kept ++ t.final.leading) ++ ks.dropped) := by
  have hperm := List.perm_iff_count.mp ks.perm_leading
  refine List.perm_iff_count.mpr fun c => ?_
  have hcount := hperm c
  simp only [TokenStream.comments, TokenStream.all, htokens, List.flatMap_append, List.flatMap_singleton,
    List.count_append] at hcount ⊢
  omega

/-- The comment is a statement of the list, in its place among the others. -/
def StandsIn (c : Comment) (stmts : List Stmt) : Prop :=
  ∃ before after, stmts = before ++ Stmt.ofComment c :: after ∧ (∀ s ∈ before, s.span.stop ≤ c.span.start) ∧
    ∀ s ∈ after, c.span.stop ≤ s.span.start

theorem standsIn_of_mem {c : Comment} {stmts : List Stmt}
    (hordered : stmts.Pairwise fun s t => s.span.stop ≤ t.span.start) (h : Stmt.ofComment c ∈ stmts) :
    StandsIn c stmts := by
  obtain ⟨before, after, rfl⟩ := List.append_of_mem h
  rw [List.pairwise_append, List.pairwise_cons] at hordered
  exact ⟨before, after, rfl, fun s hs => hordered.2.2 s hs _ List.mem_cons_self, hordered.2.1.1⟩

/-- A comment among statements stands inside none of them. -/
theorem StandsIn.not_inside {c : Comment} {stmts : List Stmt} (h : StandsIn c stmts)
    (hnonempty : c.span.start < c.span.stop) : ¬ ∃ s ∈ stmts, s.isComment = false ∧ c.span.Within s.span := by
  rintro ⟨s, hs, hother, hstart, hstop⟩
  obtain ⟨before, after, rfl, hbefore, hafter⟩ := h
  rcases List.mem_append.mp hs with hs | hs
  · have hle := hbefore s hs
    omega
  rcases List.mem_cons.mp hs with rfl | hs
  · cases hother
  · have hle := hafter s hs
    omega

end Surface
end Palimpsest
