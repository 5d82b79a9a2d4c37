import Palimpsest.Proofs.Surface.Literals
import Palimpsest.Proofs.Surface.Unambiguous

/-!
What is parsed without an error is derived by the grammar. Each parser, from the leaves to lists of
statements, has taken the frontier of some phrase, and what it returns is the tree of that phrase.
-/

namespace Palimpsest
namespace Surface

open Parse
open Terminal (word)

namespace Formal

theorem parseIntent_sound {w : List Terminal} : Yields False parseIntent w fun intent w' => w = intent.words ++ w' := by
  refine .kind ?_
  split
  · next hk =>
    refine .word hk rfl fun u hu => .eat rfl (fun v hv => ?_) fun _ => .eat rfl (fun v hv => ?_) fun _ => ?_
    · exact .pure (by rw [hu, hv]; rfl)
    · exact .pure (by rw [hu, hv]; rfl)
    · exact .pure hu
  iterate 6 next hk => exact .word hk rfl fun u hu => .pure hu
  exact .pure rfl

theorem parse_sound {w : List Terminal} :
    Yields False parse w fun formal w' => ∃ f : FormalPhrase, w = f.frontier ++ w' ∧ f.Gives formal := by
  refine .token fun _ _ => .andThen parseIntent_sound fun intent u hu => .name False.elim fun n v hv => ?_
  refine .spanFrom fun _ => .pure ⟨⟨intent, n⟩, ?_, rfl, rfl⟩
  simp [FormalPhrase.frontier, hu, hv]

theorem parseMany_sound (w : List Terminal) : Yields False parseMany w fun formals w' => ∃ fs : List FormalPhrase,
    fs ≠ [] ∧ w = FormalPhrase.frontiers fs ++ w' ∧ List.Forall₂ FormalPhrase.Gives fs formals := by
  refine yields_parseMany (parse_sound.imp ?_)
  rintro formal w' ⟨f, hw, hf⟩
  refine ⟨fun u hu => (parseMany_sound u).imp ?_, fun _ => ⟨[f], List.cons_ne_nil f [], hw, .cons hf .nil⟩⟩
  rintro formals w'' ⟨fs, hne, hrest, hfs⟩
  refine ⟨f :: fs, List.cons_ne_nil f fs, ?_, .cons hf hfs⟩
  rw [hw, hu, hrest, FormalPhrase.frontiers_cons, if_neg hne, List.append_assoc, List.cons_append]
termination_by w.length
decreasing_by
  rw [hw, hu, List.length_append, List.length_cons]
  omega

theorem parseList_sound {w : List Terminal} : Yields False parseList w fun formals w' => ∃ fs : List FormalPhrase,
    w = word .leftParen :: (FormalPhrase.frontiers fs ++ word .rightParen :: w') ∧
      List.Forall₂ FormalPhrase.Gives fs formals := by
  refine .expect rfl False.elim fun u hu => .kind ?_
  split
  · refine .bind (.pure (.expect rfl False.elim fun v hv => .pure ⟨[], ?_, .nil⟩))
    rw [hu, hv]
    rfl
  · refine .andThen (parseMany_sound u) ?_
    rintro formals v ⟨fs, -, hv, hfs⟩
    exact .expect rfl False.elim fun x hx => .pure ⟨fs, by rw [hu, hv, hx], hfs⟩

end Formal

/-- A phrase, `levels` deep at most, derives the terminals before the rest, and this is its tree. -/
def Stmt.Derived (levels : Nat) (w : List Terminal) (s : Stmt) (rest : List Terminal) : Prop :=
  ∃ p : Phrase, p.depth ≤ levels ∧ w = p.frontier ++ rest ∧ p.Gives s

/-- Phrases, less than `levels` deep, derive the terminals before the rest, and these are their trees. -/
def DerivedWithin (levels : Nat) (w : List Terminal) (stmts : List Stmt) (rest : List Terminal) : Prop :=
  ∃ ps : List Phrase, depths ps < levels ∧ w = frontiers ps ++ rest ∧ GivesList ps stmts

theorem GivesList.comments {phrases : List Phrase} {stmts : List Stmt} (comments : List Comment)
    (h : GivesList phrases stmts) : GivesList phrases (comments.map Stmt.ofComment ++ stmts) := by
  induction comments with
  | nil => exact h
  | cons c rest ih => exact .comment c.text c.span ih

namespace Stmt

theorem parseVariableKind_sound {w : List Terminal} (hstart : startsVariable (first w).kind = true) :
    Yields False parseVariableKind w fun kind w' => w = kind.words ++ w'.tail := by
  refine .ofBefore fun c hc => .kind ?_
  split
  · next hk =>
    refine .cursor fun c hc => ?_
    split
    · next href =>
      refine .word hk rfl fun u hu => .pure ?_
      have hu' := hc.advance.eq_word_cons (hc.followingKind.symm.trans href) rfl
      rw [hu, List.tail_cons] at hu'
      rw [hu, hu']
      rfl
    · exact .pure (hc.eq_word_cons hk rfl)
  iterate 3 next hk => exact .pure (hc.eq_word_cons hk rfl)
  · next hconst href hparam htype =>
    refine .pure (hc.eq_word_cons (k := .kwVar) ?_ rfl)
    cases hk : (first w).kind <;> simp_all [startsVariable]

variable {levels : Nat}

theorem parseVariable_sound {w : List Terminal} (hstart : startsVariable (first w).kind = true)
    (visibility : Visibility) (start : Span) :
    Yields False (parseVariable visibility start) w (Derived levels (visibility.words ++ w)) := by
  refine .andThen (parseVariableKind_sound hstart) fun kind u hu => .advance (.name False.elim fun n v hv => ?_)
  refine .eat rfl (fun x hx => ?_) fun _ => ?_
  · refine .bind (.map ((Expr.yields_parse False.elim).imp ?_))
    rintro e y ⟨p, hp, hgives⟩
    refine (.semicolon False.elim fun z hz => .spanFrom fun span => .pure ?_)
    refine ⟨.varDecl visibility kind n (some p), Nat.zero_le _, ?_, .varDecl visibility kind n span (.some hgives)⟩
    rw [hu, hv, hx, hp, hz]
    simp [Phrase.frontier, ExprPhrase.initializer]
  · refine .bind (.pure (.semicolon False.elim fun y hy => .spanFrom fun span => .pure ?_))
    refine ⟨.varDecl visibility kind n none, Nat.zero_le _, ?_, .varDecl visibility kind n span .none⟩
    rw [hu, hv, hy]
    simp [Phrase.frontier, ExprPhrase.initializer]

theorem parseForeign_sound {w : List Terminal} (hk : (first w).kind = .kwForeign) (start : Span) :
    Yields False (parseForeign start) w (Derived levels w) := by
  refine .word hk rfl fun u hu => .token fun t ht => ?_
  split
  · next hcode =>
    have hu' := eq_spelled_cons ht hcode rfl
    refine .advance (.eat rfl (fun v hv => .spanFrom fun span => .pure ?_) fun _ => .spanFrom fun span => .pure ?_)
    · refine ⟨.foreign t.text true, Nat.zero_le _, ?_, .foreign t.text true span⟩
      rw [hu, hu', hv]
      simp [Phrase.frontier]
    · refine ⟨.foreign t.text false, Nat.zero_le _, ?_, .foreign t.text false span⟩
      rw [hu, hu']
      simp [Phrase.frontier]
  · next hinvalid =>
    have hfirst : (first u).kind = .invalid := (congrArg Terminal.kind ht).symm.trans hinvalid
    exact .ofBefore fun c hc => absurd hfirst hc.ne_invalid
  · exact .bind (.ofExpected _ id)

variable {body? : Option (Parse (List Stmt))}

theorem parseBraced_sound {w : List Terminal} (hk : (first w).kind = .leftBrace)
    (hbody : ∀ body, body? = some body → ∀ u, Yields False body u (DerivedWithin levels u)) :
    Yields False (parseBraced body?) w fun stmts w' => ∃ ps : List Phrase, depths ps < levels ∧
      w = braced (frontiers ps) ++ w' ∧ GivesList ps stmts := by
  cases body? with
  | none => exact .bind (.token fun _ _ => .bind (.ofReport id rfl))
  | some body =>
      refine .token fun _ _ => .word hk rfl fun u hu => .andThen (hbody body rfl u) ?_
      rintro stmts v ⟨ps, hdepth, hv, hps⟩
      refine .eat rfl (fun x hx => .pure ⟨ps, hdepth, ?_, hps⟩) fun _ => .token fun _ _ => .bind (.ofReport id rfl)
      rw [hu, hv, hx, braced_append]

theorem parseModule_sound {w : List Terminal} (hk : (first w).kind = .kwModule)
    (hbody : ∀ body, body? = some body → ∀ u, Yields False body u (DerivedWithin levels u))
    (visibility : Visibility) (start : Span) :
    Yields False (parseModule body? visibility start) w (Derived levels (visibility.words ++ w)) := by
  refine .word hk rfl fun u hu => .name False.elim fun n v hv => .kind ?_
  split
  · next hopen =>
    refine .andThen (parseBraced_sound hopen hbody) ?_
    rintro stmts x ⟨ps, hdepth, hx, hps⟩
    refine .spanFrom fun span => .pure ⟨.moduleDecl visibility n ps, hdepth, ?_, .moduleDecl visibility n span hps⟩
    rw [hu, hv, hx]
    simp [Phrase.frontier]
  · exact .bind (.ofExpected _ id)

theorem parseProc_sound {w : List Terminal} (hk : (first w).kind = .kwProc)
    (hbody : ∀ body, body? = some body → ∀ u, Yields False body u (DerivedWithin levels u))
    (visibility : Visibility) (start : Span) :
    Yields False (parseProc body? visibility start) w (Derived levels (visibility.words ++ w)) := by
  refine .word hk rfl fun u hu => .name False.elim fun n v hv => .andThen Formal.parseList_sound ?_
  rintro formals x ⟨fs, hx, hfs⟩
  refine .token fun t ht => ?_
  split
  · next hopen =>
    refine .andThen (parseBraced_sound ((congrArg Terminal.kind ht).symm.trans hopen) hbody) ?_
    rintro stmts y ⟨ps, hdepth, hy, hps⟩
    refine .spanFrom fun bodySpan => .spanFrom fun span => .pure ?_
    refine ⟨.procDecl visibility n fs ps, hdepth, ?_, .procDecl visibility n bodySpan span hfs hps⟩
    rw [hu, hv, hx, hy]
    simp [Phrase.frontier]
  · exact .bind (.ofExpected _ id)

theorem parseVisibility_sound {w : List Terminal} :
    Yields False parseVisibility w fun visibility w' => w = visibility.words ++ w' := by
  refine .kind ?_
  split
  iterate 2 next hk => exact .word hk rfl fun u hu => .pure hu
  exact .pure rfl

theorem parseExpr_sound {w : List Terminal} (start : Span) :
    Yields False (do let e ← Expr.parse; Parse.semicolon; return Stmt.expr e (← Parse.spanFrom start)) w
      (Derived levels w) := by
  refine .andThen (Expr.yields_parse False.elim) ?_
  rintro e u ⟨p, hu, hp⟩
  refine .semicolon False.elim fun v hv => .spanFrom fun span => .pure ⟨.expr p, Nat.zero_le _, ?_, .expr span hp⟩
  rw [hu, hv]
  rfl

theorem parsePlain_sound {w : List Terminal}
    (hbody : ∀ body, body? = some body → ∀ u, Yields False body u (DerivedWithin levels u)) (start : Span) :
    Yields False (parsePlain body? start) w (Derived levels w) := by
  refine .ofBefore fun c hc => .kind ?_
  split
  · next hopen =>
    split
    · exact .bind (.token fun _ _ => .bind (.ofReport id rfl))
    · refine .andThen (parseBraced_sound hopen hbody) ?_
      rintro stmts u ⟨ps, hdepth, hu, hps⟩
      refine .spanFrom fun span => .pure ⟨.block ps, hdepth, ?_, .block span hps⟩
      rw [hu]
      rfl
  · next hforeign => exact parseForeign_sound hforeign start
  iterate 3 exact parseExpr_sound start
  · exact .bind (.ofReport id rfl)
  · exact .bind (.ofReport id rfl)
  · next hinvalid => exact absurd hinvalid hc.ne_invalid
  · exact .bind (.ofExpected _ id)

theorem parseWith_sound {w : List Terminal}
    (hbody : ∀ body, body? = some body → ∀ u, Yields False body u (DerivedWithin levels u)) :
    Yields False (parseWith body?) w (Derived levels w) := by
  refine .token fun t _ => .andThen parseVisibility_sound fun visibility u hu => .kind ?_
  rw [hu]
  split
  · next hk => exact parseModule_sound hk hbody visibility t.span
  · split
    · next hk => exact parseProc_sound hk hbody visibility t.span
    · split
      · next hk => exact parseVariable_sound hk visibility t.span
      · split
        · exact .bind (.ofExpected _ id)
        · next hplain =>
          obtain rfl : visibility = .plain := not_not.mp hplain
          exact parsePlain_sound hbody t.span

theorem parseList_sound {item : Parse Stmt} (hitem : ∀ u, Yields False item u (Derived levels u)) (braced : Bool)
    (w : List Terminal) : Yields False (parseList item braced) w fun stmts w' =>
      DerivedWithin (levels + 1) w stmts w' ∧ EndsList braced w' := by
  refine yields_parseList (fun hend comments => ⟨⟨[], Nat.succ_pos _, rfl, ?_⟩, hend⟩) fun _ => ?_
  · exact (List.append_nil (comments.map ofComment)).symm ▸ .comments comments .nil
  · refine (hitem w).imp ?_
    rintro s u ⟨p, hdepth, hu, hp⟩
    have hlength : u.length < w.length := by
      rw [hu, List.length_append]
      have := p.length_frontier_pos
      omega
    refine ⟨hlength, (parseList_sound hitem braced u).imp ?_⟩
    rintro stmts v ⟨⟨ps, hdepths, hv, hps⟩, hend⟩ comments
    refine ⟨⟨p :: ps, ?_, ?_, .comments comments (.cons hp hps)⟩, hend⟩
    · exact Nat.lt_succ_of_le (Nat.max_le.mpr ⟨hdepth, Nat.le_of_lt_succ hdepths⟩)
    · rw [hu, hv, frontiers, List.append_assoc]
termination_by w.length

theorem parse_sound (levels : Nat) (w : List Terminal) : Yields False (parse levels) w (Derived levels w) := by
  induction levels generalizing w with
  | zero => exact parseWith_sound (by simp)
  | succ levels ih =>
      refine parseWith_sound fun body hbody u => ?_
      obtain rfl := Option.some.inj hbody
      exact (parseList_sound ih true u).imp fun stmts w' h => h.1

end Stmt
end Surface
end Palimpsest
