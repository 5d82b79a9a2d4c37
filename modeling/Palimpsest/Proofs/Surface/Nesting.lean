import Palimpsest.Proofs.Surface.Accepted
import Palimpsest.Proofs.Surface.Names
import Palimpsest.Proofs.Surface.Region
import Palimpsest.Proofs.Surface.Reread

/-!
Braces nested too deep. Whatever the text, nothing but what was cut off stands deeper in the tree than braces are
followed. Where the grammar derives the text but for the depth, the tree is that of the grammar with the regions that
are too deep cut out of it, and each of them is reported once.
-/

namespace Palimpsest
namespace Surface

open Token (InOrder extent withLeading)

/-- The statement stands so many braces deep in the list. -/
inductive Inside : Nat → Stmt → List Stmt → Prop where
  | here {s : Stmt} {stmts : List Stmt} (h : s ∈ stmts) : Inside 0 s stmts
  | deeper {depth : Nat} {s t : Stmt} {stmts : List Stmt} (ht : t ∈ stmts) (h : Inside depth s t.body) :
      Inside (depth + 1) s stmts

namespace Stmt

open Parse

/-- What a statement may hold where `body?` reads what stands between braces. -/
inductive BodyFrom (body? : Option (Parse (List Stmt))) : List Stmt → Prop where
  | empty : BodyFrom body? []
  | rejected (hnone : body? = none) (span : Span) : BodyFrom body? [.bad span]
  | read {body : Parse (List Stmt)} (hsome : body? = some body) (c : Cursor) : BodyFrom body? (body c).value

theorem admits_bodyFrom (body? : Option (Parse (List Stmt))) :
    Admits (fun _ => True) body? (BodyFrom body?) fun s => BodyFrom body? s.body where
  missing := trivial
  empty := .empty
  rejected := .rejected
  read _ hsome c _ := ⟨.read hsome c, fun _ _ _ => trivial⟩
  bad _ := .empty
  foreign _ _ := .empty
  expr _ _ _ := .empty
  varDecl _ _ _ _ _ _ _ := .empty
  block _ _ hbody := hbody
  moduleDecl _ _ _ _ _ hbody := hbody
  procDecl _ _ _ _ _ _ _ _ hbody := hbody

/-- Between the braces of a statement stands what is read one level less deep. -/
theorem bodyFrom_parse (levels : Nat) (c : Cursor) : BodyFrom (bodyReader levels) (parse levels c).value.body := by
  rw [parse_eq]
  exact (gives_parseWith (admits_bodyFrom (bodyReader levels)) c fun _ _ _ => trivial).1

/-- What stands in a list is a comment or was read where it stands. -/
theorem mem_parseList {item : Parse Stmt} {braced : Bool} {c : Cursor} {s : Stmt}
    (h : s ∈ (parseList item braced c).value) : (∃ k, s = ofComment k) ∨ ∃ d, s = (item d).value := by
  have hcomment {d : Cursor} (h : s ∈ d.current.leading.map ofComment) : ∃ k, s = ofComment k := by
    obtain ⟨k, -, hk⟩ := List.mem_map.mp h
    exact ⟨k, hk.symm⟩
  fun_induction parseList item braced c with
  | case1 c comments hend => exact .inl (hcomment h)
  | case2 c comments hend t lt rest ih =>
      rcases List.mem_append.mp h with hleading | hrest
      · exact .inl (hcomment hleading)
      · rcases List.mem_cons.mp hrest with rfl | hrest
        · exact .inr ⟨_, rfl⟩
        · exact ih hrest

/-- Deeper than braces are followed stands only what was cut off. -/
theorem bad_of_inside {levels depth : Nat} {braced : Bool} {c : Cursor} {s : Stmt}
    (h : Inside depth s (parseList (parse levels) braced c).value) (hdepth : levels < depth) :
    ∃ span, s = .bad span := by
  have hnil {depth : Nat} (h : Inside depth s []) : False := by
    cases h with
    | here h | deeper h => exact List.not_mem_nil h
  induction levels using Nat.strongRecOn generalizing depth braced c with
  | ind levels ih =>
      cases h with
      | here => exact absurd hdepth (Nat.not_lt_zero _)
      | @deeper depth s t _ ht h =>
          have hfrom : BodyFrom (bodyReader levels) t.body := by
            rcases mem_parseList ht with ⟨k, rfl⟩ | ⟨d, rfl⟩
            · exact .empty
            · exact bodyFrom_parse levels d
          generalize t.body = stmts at hfrom h
          cases hfrom with
          | empty => exact (hnil h).elim
          | rejected _ span =>
              cases h with
              | here h => exact ⟨span, List.mem_singleton.mp h⟩
              | deeper ht h =>
                  rw [List.mem_singleton.mp ht] at h
                  exact (hnil h).elim
          | read hsome d =>
              cases levels with
              | zero => cases hsome
              | succ levels =>
                  obtain rfl := Option.some.inj hsome
                  exact ih levels (Nat.lt_succ_self _) h (Nat.lt_of_succ_lt_succ hdepth)

end Stmt

mutual

/-- The statement where braces are followed `levels` deep. What is cut out of it is found in the stream `t`. -/
def Stmt.cut (t : TokenStream) (levels : Nat) : Stmt → Stmt
  | .block body span =>
    match levels with
    | 0 => .bad span
    | levels + 1 => .block (cutList t levels body) span
  | .moduleDecl visibility name body span =>
    match levels with
    | 0 => .moduleDecl visibility name [.bad (t.region span)] span
    | levels + 1 => .moduleDecl visibility name (cutList t levels body) span
  | .procDecl visibility name formals body bodySpan span =>
    match levels with
    | 0 => .procDecl visibility name formals [.bad (t.region span)] bodySpan span
    | levels + 1 => .procDecl visibility name formals (cutList t levels body) bodySpan span
  | .comment text span => .comment text span
  | .varDecl visibility kind name init span => .varDecl visibility kind name init span
  | .foreign code span => .foreign code span
  | .expr e span => .expr e span
  | .bad span => .bad span

def cutList (t : TokenStream) (levels : Nat) : List Stmt → List Stmt
  | [] => []
  | s :: rest => s.cut t levels :: cutList t levels rest

end

/-- Where the opening braces stand that have `limit` open braces before them; `depth` are open at the start. -/
def openedAt (limit : Nat) : (depth : Nat) → List Token → List Span
  | _, [] => []
  | depth, t :: ts =>
    match t.kind with
    | .leftBrace => (if depth = limit then [t.span] else []) ++ openedAt limit (depth + 1) ts
    | .rightBrace => openedAt limit (depth - 1) ts
    | _ => openedAt limit depth ts

section Cut

variable {t : TokenStream} {levels : Nat}

theorem cutList_eq (t : TokenStream) (levels : Nat) (stmts : List Stmt) :
    cutList t levels stmts = stmts.map (Stmt.cut t levels) := by
  induction stmts with
  | nil => rfl
  | cons s rest ih => rw [cutList, ih, List.map_cons]

theorem cutList_comments (t : TokenStream) (levels : Nat) (comments : List Comment) :
    cutList t levels (comments.map Stmt.ofComment) = comments.map Stmt.ofComment := by
  rw [cutList_eq, List.map_map]
  exact List.map_congr_left fun c _ => by simp [Stmt.ofComment, Stmt.cut]

theorem cutList_append (stmts more : List Stmt) :
    cutList t levels (stmts ++ more) = cutList t levels stmts ++ cutList t levels more := by
  rw [cutList_eq, cutList_eq, cutList_eq, List.map_append]

theorem ReadsLeaf.cut_of {ts : List Token} {of : Span → Stmt} (h : ReadsLeaf ts of) (span : Span) :
    (of span).cut t levels = of span := by
  cases h with
  | varDecl | foreign | foreignEnded | expr => simp [Stmt.cut]

mutual

theorem Construct.cut_eq (ht : InOrder t.tokens) (comments : List Comment) (levels : Nat) : (k : Construct) →
    withLeading comments k.tokens <:+: t.tokens → k.cut levels = k.stmt.cut t levels
  | .leaf _ _ reads _, _ => (reads.cut_of _).symm
  | .braced front header opening body closing reads hopening hclosing bare, h => by
      have hregion := region_braced ht reads hopening h
      have hbody : body.tokens <:+: t.tokens :=
        (List.prefix_append _ _).isInfix.trans ((tokens_body_segment opening).trans h)
      rw [Construct.stmt]
      cases levels with
      | zero =>
          cases header with
          | block | moduleDecl | procDecl => simp [Construct.cut, Header.cut, Header.stmt, Stmt.cut, hregion]
      | succ levels =>
          have hall : cutList t levels (body.stmts ++ closing.leading.map Stmt.ofComment) =
              body.cut levels ++ closing.leading.map Stmt.ofComment := by
            rw [cutList_append, cutList_comments, body.cut_eq ht levels hbody]
          cases header with
          | block | moduleDecl | procDecl => simp [Construct.cut, Header.stmt, Stmt.cut, hall]

theorem Constructs.cut_eq (ht : InOrder t.tokens) (levels : Nat) : (ks : Constructs) → ks.tokens <:+: t.tokens →
    ks.cut levels = cutList t levels ks.stmts
  | .nil, _ => rfl
  | .cons comments first rest, h => by
      have hfirst := first.cut_eq ht comments levels ((List.prefix_append _ _).isInfix.trans h)
      have hrest := rest.cut_eq ht levels ((List.suffix_append _ _).isInfix.trans h)
      rw [Constructs.cut, Constructs.stmts, cutList_append, cutList_comments, hfirst, hrest, cutList]

end

end Cut

section Opened

variable {limit depth : Nat} {ts more : List Token}

theorem openedAt_flat (h : Flat ts) : openedAt limit depth (ts ++ more) = openedAt limit depth more := by
  induction ts with
  | nil => rfl
  | cons t ts ih =>
      obtain ⟨⟨hleft, hright⟩, hrest⟩ := List.forall_mem_cons.mp h
      rw [List.cons_append, openedAt]
      split
      · next hk => exact absurd hk hleft
      · next hk => exact absurd hk hright
      · exact ih hrest

theorem openedAt_withLeading (comments : List Comment) :
    openedAt limit depth (withLeading comments ts ++ more) = openedAt limit depth (ts ++ more) := by
  cases ts <;> rfl

mutual

theorem Construct.openedAt_tokens (limit : Nat) : (k : Construct) → ∀ (depth : Nat) (more : List Token),
    openedAt limit depth (k.tokens ++ more) =
      (if depth ≤ limit then k.tooDeep (limit - depth) else []) ++ openedAt limit depth more
  | .leaf ts of reads _, depth, more => by
      rw [Construct.tokens, openedAt_flat reads.flat, Construct.tooDeep, ite_self, List.nil_append]
  | .braced front header opening body closing reads hopening hclosing _, depth, more => by
      have hbody := body.openedAt_tokens limit (depth + 1) (closing :: more)
      have hclose : openedAt limit (depth + 1) (closing :: more) = openedAt limit depth more := by
        rw [openedAt, hclosing]
        rfl
      rw [Construct.tokens, List.append_assoc, openedAt_flat reads.flat, List.cons_append, List.append_assoc,
        List.singleton_append, openedAt, hopening]
      dsimp only
      rw [hbody, hclose]
      rcases Nat.lt_trichotomy depth limit with hlt | rfl | hgt
      · rw [if_neg (Nat.ne_of_lt hlt), if_pos (Nat.succ_le_of_lt hlt), if_pos (Nat.le_of_lt hlt), List.nil_append,
          show limit - depth = limit - (depth + 1) + 1 by omega, Construct.tooDeep]
      · rw [if_pos rfl, if_neg (Nat.not_succ_le_self depth), if_pos (Nat.le_refl depth), Nat.sub_self,
          Construct.tooDeep, List.nil_append]
      · rw [if_neg (Nat.ne_of_gt hgt), if_neg (by omega), if_neg (by omega), List.nil_append]

theorem Constructs.openedAt_tokens (limit : Nat) : (ks : Constructs) → ∀ (depth : Nat) (more : List Token),
    openedAt limit depth (ks.tokens ++ more) =
      (if depth ≤ limit then ks.tooDeep (limit - depth) else []) ++ openedAt limit depth more
  | .nil, depth, more => by rw [Constructs.tokens, Constructs.tooDeep, ite_self]; rfl
  | .cons comments first rest, depth, more => by
      rw [Constructs.tokens, List.append_assoc, openedAt_withLeading, first.openedAt_tokens limit,
        rest.openedAt_tokens limit, Constructs.tooDeep]
      split
      · rw [List.append_assoc]
      · rfl

end

end Opened

/-- How a list of constructs that fills a stream is read where braces are followed `levels` deep. -/
theorem Constructs.reads {t : TokenStream} {ks : Constructs} (htokens : t.tokens = ks.tokens)
    (hfinal : t.final.kind = .endOfFile) (levels : Nat) :
    statements levels t = ks.cut levels ++ t.final.leading.map Stmt.ofComment ∧
      (Stmt.parseList (Stmt.parse levels) false (.ofStream t)).reports.filter Diagnostic.isError =
        (ks.tooDeep levels).map Stmt.tooDeepReport := by
  obtain ⟨hvalue, herrors, -⟩ := ks.goesOn levels false [] t.final 0 fun _ hk => by cases hfinal.symm.trans hk
  have hend : Stmt.atListEnd false (Cursor.dropLeading ⟨[], t.final, Token.endOf 0 ks.tokens⟩) = true := rfl
  obtain ⟨hlast, hnone, -⟩ := Stmt.parseList_of_end (Stmt.parse levels) hend
  rw [hlast, List.append_nil, ← htokens] at hvalue
  rw [hnone, List.filter_nil, List.append_nil, List.append_nil, ← htokens] at herrors
  exact ⟨hvalue, herrors⟩

/-- The grammar's tree of a text, the phrases of which may be nested to any depth: it is read wherever braces are
followed as deep as they are nested. -/
structure TreeOf (text : String) (phrases : List Phrase) (stmts : List Stmt) : Prop where
  gives : GivesList phrases stmts
  reads : ∀ levels, depths phrases ≤ levels →
    ReadsCleanly levels (TokenStream.ofText text) ∧ statements levels (TokenStream.ofText text) = stmts

/-- Nothing but what was cut off stands too deep in a tree. If but for the depth the grammar derives the text, just
the outermost regions that are too deep are cut off and reported. -/
theorem nesting_capped (text : String) :
    (∀ depth s, Inside depth s (parseText text).file.stmts → maxNesting < depth → ∃ span, s = .bad span) ∧
      (Clean (TokenStream.ofText text).reports → (∀ t ∈ (TokenStream.ofText text).tokens, Valued t.terminal) →
        ∀ phrases, frontiers phrases = (TokenStream.ofText text).tokens.map Token.terminal →
          ∃ stmts, TreeOf text phrases stmts ∧
            (parseText text).file.stmts = cutList (TokenStream.ofText text) maxNesting stmts ∧
            (parseText text).reports.filter Diagnostic.isError =
              (openedAt maxNesting 0 (TokenStream.ofText text).tokens).map Stmt.tooDeepReport) := by
  refine ⟨fun depth s h hdepth => Stmt.bad_of_inside h hdepth, fun hlex hvalued phrases hphrases => ?_⟩
  have hclean (levels : Nat) (h : depths phrases ≤ levels) : ReadsCleanly levels (TokenStream.ofText text) :=
    readsCleanly_ofText hlex (clean_of_frontiers hlex hvalued hphrases h)
  have hfull := hclean _ (Nat.le_refl _)
  obtain ⟨ks, hdepth, htokens, hstmts⟩ := hfull.exists_constructs
  have hreads := Constructs.reads htokens hfull.final
  have htree : TreeOf text phrases (ks.stmts ++ (TokenStream.ofText text).final.leading.map Stmt.ofComment) := by
    refine ⟨?_, fun levels h => ⟨hclean levels h, ?_⟩⟩
    · obtain ⟨others, ho, -, hgives⟩ := exists_phrases hlex hvalued hfull.clean
      obtain rfl := frontiers_unique (ho.trans hphrases.symm)
      exact hstmts ▸ hgives
    · rw [(hreads levels).1, (ks.cut_of_depth_le (Nat.le_trans hdepth h)).1]
  have hcut := ks.cut_eq (TokenStream.inOrder text) maxNesting (htokens ▸ List.infix_refl _)
  have hopened := ks.openedAt_tokens maxNesting 0 []
  rw [List.append_nil, ← htokens, if_pos (Nat.zero_le _), Nat.sub_zero] at hopened
  have hnone : (TokenStream.ofText text).reports.filter Diagnostic.isError = [] :=
    List.filter_eq_nil_iff.mpr fun d hd => by rw [hlex d hd]; decide
  refine ⟨_, htree, ?_, ?_⟩
  · rw [cutList_append, cutList_comments, ← hcut]
    exact (hreads maxNesting).1
  · change (_ ++ (parseTokens _).2).filter Diagnostic.isError = _
    rw [List.filter_append, hnone, hopened, openedAt, List.append_nil]
    exact (hreads maxNesting).2

/-- A module with blocks nested in it, the innermost at the limit. There is a statement in it, then a region that is too
deep, with a comment, and another statement. -/
def burrow : List Char :=
  "module m \x7b".toList ++ List.replicate 255 '\x7b' ++ "p; \x7b\x7b x; // c\n\x7d\x7d q;".toList ++
    List.replicate 255 '\x7d' ++ ['\x7d']

def burrowed : (levels : Nat) → List Phrase
  | 0 => [.expr (.identifier "p"), .block [.block [.expr (.identifier "x")]], .expr (.identifier "q")]
  | n + 1 => [.block (burrowed n)]

theorem ofText_burrow : TokenStream.ofText (String.ofList burrow) = TokenStream.ofChars burrow := by
  rw [TokenStream.ofText, String.toList_ofList]

theorem clean_burrow : Clean (TokenStream.ofChars burrow).reports := by decide +kernel

theorem valued_burrow : ∀ t ∈ (TokenStream.ofChars burrow).tokens, Valued t.terminal := by
  have hplain : ∀ t ∈ (TokenStream.ofChars burrow).tokens,
      t.terminal.kind ≠ .intLiteral ∧ t.terminal.kind ≠ .stringLiteral := by
    decide +kernel
  exact fun t ht => ⟨fun hk => absurd hk (hplain t ht).1, fun hk => absurd hk (hplain t ht).2⟩

theorem frontiers_burrowed : frontiers [.moduleDecl .plain "m" (burrowed 255)] =
    (TokenStream.ofChars burrow).tokens.map Token.terminal := by
  decide +kernel

theorem openedAt_burrow : openedAt maxNesting 0 (TokenStream.ofChars burrow).tokens = [⟨268, 269⟩] := by decide +kernel

theorem nesting_capped_module :
    (Clean (TokenStream.ofText (String.ofList burrow)).reports ∧
      ∀ t ∈ (TokenStream.ofText (String.ofList burrow)).tokens, Valued t.terminal) ∧
    ∃ stmts, TreeOf (String.ofList burrow) [.moduleDecl .plain "m" (burrowed 255)] stmts ∧
      (parseText (String.ofList burrow)).file.stmts =
        cutList (TokenStream.ofText (String.ofList burrow)) maxNesting stmts ∧
      (parseText (String.ofList burrow)).reports.filter Diagnostic.isError = [Stmt.tooDeepReport ⟨268, 269⟩] := by
  have h := (nesting_capped (String.ofList burrow)).2
  rw [ofText_burrow] at h ⊢
  obtain ⟨stmts, htree, hcut, hreports⟩ := h clean_burrow valued_burrow _ frontiers_burrowed
  rw [openedAt_burrow] at hreports
  exact ⟨⟨clean_burrow, valued_burrow⟩, stmts, htree, hcut, hreports⟩

end Surface
end Palimpsest
