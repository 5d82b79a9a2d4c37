import Palimpsest.Proofs.Surface.Literals
import Palimpsest.Proofs.Surface.Unambiguous

/-!
What the grammar derives is parsed without an error. Before the frontier of a phrase each parser takes
exactly that, given what may follow the phrase.
-/

namespace Palimpsest
namespace Surface

open Parse
open Terminal (word)

namespace Formal

theorem parseIntent_complete (intent : Intent) (n : String) (rest : List Terminal) :
    Yields True parseIntent (intent.words ++ ⟨.identifier, n⟩ :: rest) fun _ w' => w' = ⟨.identifier, n⟩ :: rest := by
  cases intent with
  | plain => exact .kind (.pure rfl)
  | const =>
      refine .kind (.advance (.eat rfl (fun u hu => ?_) fun _ => .eat rfl (fun u hu => ?_) fun _ => .pure rfl))
      · cases hu
      · cases hu
  | constRef => exact .kind (.advance (.eat rfl (fun u hu => .pure (List.cons.inj hu).2.symm) (absurd rfl)))
  | constIn =>
      refine .kind (.advance (.eat rfl (fun u hu => ?_) fun _ => .eat rfl (fun u hu => ?_) (absurd rfl)))
      · cases hu
      · exact .pure (List.cons.inj hu).2.symm
  | ref | param | type | input | output | inout => exact .kind (.advance (.pure rfl))

theorem parse_complete (f : FormalPhrase) (rest : List Terminal) :
    Yields True parse (f.frontier ++ rest) fun _ w' => w' = rest := by
  rw [FormalPhrase.frontier, List.append_assoc]
  refine .token fun _ _ => .andThen (parseIntent_complete f.intent f.name rest) ?_
  rintro intent w' rfl
  refine .name (fun _ => rfl) fun n u hu => .spanFrom fun span => .pure ?_
  cases hu
  rfl

theorem parseMany_complete (fs : List FormalPhrase) (hne : fs ≠ []) (rest : List Terminal) :
    Yields True parseMany (FormalPhrase.frontiers fs ++ word .rightParen :: rest) fun _ w' =>
      w' = word .rightParen :: rest := by
  induction fs with
  | nil => exact absurd rfl hne
  | cons f fs ih =>
      rw [FormalPhrase.frontiers_cons, List.append_assoc]
      refine yields_parseMany ((parse_complete f _).imp ?_)
      rintro formal w' rfl
      cases fs with
      | nil => exact ⟨fun u hu => (by cases hu), fun _ => rfl⟩
      | cons g gs =>
          refine ⟨fun u hu => ?_, fun h => absurd rfl h⟩
          cases hu
          exact ih (List.cons_ne_nil g gs)

theorem parseList_complete (fs : List FormalPhrase) (rest : List Terminal) :
    Yields True parseList (word .leftParen :: (FormalPhrase.frontiers fs ++ word .rightParen :: rest)) fun _ w' =>
      w' = rest := by
  refine .expect rfl (fun _ => rfl) fun u hu => ?_
  cases hu
  refine .kind ?_
  cases fs with
  | nil => exact .bind (.pure (.expect rfl (fun _ => rfl) fun u hu => .pure (List.cons.inj hu).2.symm))
  | cons f fs =>
      have hparen : (first (FormalPhrase.frontiers (f :: fs) ++ word .rightParen :: rest)).kind ≠ .rightParen := by
        rw [FormalPhrase.frontiers_cons, List.append_assoc]
        exact f.first_frontier _
      rw [if_neg hparen]
      refine .andThen (parseMany_complete (f :: fs) (List.cons_ne_nil f fs) rest) ?_
      rintro formals w' rfl
      exact .expect rfl (fun _ => rfl) fun u hu => .pure (List.cons.inj hu).2.symm

end Formal

theorem EndsList.ends {braced : Bool} {w : List Terminal} (h : EndsList braced w) : Ends w := by
  cases h with
  | inl hnil => exact .inr (hnil ▸ rfl)
  | inr hbrace => exact .inl hbrace.2

namespace Stmt

theorem parseVariableKind_complete (kind : VariableKind) (n : String) (rest : List Terminal) :
    Yields True parseVariableKind (kind.words ++ ⟨.identifier, n⟩ :: rest) fun _ w' =>
      w'.tail = ⟨.identifier, n⟩ :: rest := by
  cases kind with
  | var | ref | param | type => exact .kind (.pure rfl)
  | const =>
      refine .kind (.cursor fun c hc => ?_)
      rw [hc.followingKind]
      exact .pure rfl
  | constRef =>
      refine .kind (.cursor fun c hc => ?_)
      rw [hc.followingKind]
      exact .advance (.pure rfl)

theorem startsVariable_words (kind : VariableKind) (w : List Terminal) :
    startsVariable (first (kind.words ++ w)).kind = true := by
  cases kind with
  | var | const | constRef | ref | param | type => rfl

theorem parseVariable_complete (visibility : Visibility) (kind : VariableKind) (n : String) (init : Option ExprPhrase)
    (start : Span) (rest : List Terminal) : Yields True (parseVariable visibility start)
      (kind.words ++ ⟨.identifier, n⟩ :: (ExprPhrase.initializer init ++ word .semicolon :: rest)) fun _ w' =>
        w' = rest := by
  refine .andThen (parseVariableKind_complete kind n _) fun _ u hu => .advance ?_
  rw [hu]
  refine .name (fun _ => rfl) fun m v hv => ?_
  cases hv
  cases init with
  | none =>
      refine .eat rfl (fun x hx => ?_) fun _ => .bind (.pure (.semicolon (fun _ => rfl) fun x hx => ?_))
      · cases hx
      · cases hx
        exact .spanFrom fun _ => .pure rfl
  | some e =>
      refine .eat rfl (fun x hx => ?_) (absurd rfl)
      cases hx
      refine .bind (.map ((Expr.yields_parse fun _ => ⟨e, rfl⟩).imp ?_))
      rintro value y ⟨p, hy, -⟩
      obtain rfl : word .semicolon :: rest = y := (List.cons.inj hy).2
      refine .semicolon (fun _ => rfl) fun x hx => ?_
      cases hx
      exact .spanFrom fun _ => .pure rfl

theorem parseForeign_complete (text : String) (semicolon : Bool) (start : Span) {rest : List Terminal}
    (hrest : Follows rest) :
    Yields True (parseForeign start) ((Phrase.foreign text semicolon).frontier ++ rest) fun _ w' => w' = rest := by
  refine .advance (.token fun t ht => ?_)
  have hcode : t.kind = .foreignCode := congrArg Terminal.kind ht
  rw [hcode]
  refine .advance ?_
  cases semicolon with
  | true => exact .eat rfl (fun u hu => .spanFrom fun _ => .pure (List.cons.inj hu).2.symm) (absurd rfl)
  | false =>
      -- A semicolon here would stand after the statement, where none does.
      refine .eat rfl (fun u hu => ?_) fun _ => .spanFrom fun _ => .pure rfl
      exact absurd (congrArg (fun v => (first v).kind) hu) hrest

theorem parseExpr_complete (e : ExprPhrase) (start : Span) (rest : List Terminal) :
    Yields True (do let e ← Expr.parse; Parse.semicolon; return Stmt.expr e (← Parse.spanFrom start))
      (e.terminal :: word .semicolon :: rest) fun _ w' => w' = rest := by
  refine .andThen (Expr.yields_parse fun _ => ⟨e, rfl⟩) ?_
  rintro value y ⟨p, hy, -⟩
  obtain rfl : word .semicolon :: rest = y := (List.cons.inj hy).2
  exact .semicolon (fun _ => rfl) fun u hu => .spanFrom fun _ => .pure (List.cons.inj hu).2.symm

variable {levels : Nat} {body? : Option (Parse (List Stmt))}

/-- A body is read up to its closing brace if it is less than `levels` deep. -/
def ReadsBodies (levels : Nat) (body? : Option (Parse (List Stmt))) : Prop :=
  ∀ ps : List Phrase, depths ps < levels → ∃ body, body? = some body ∧ ∀ rest,
    Yields True body (frontiers ps ++ word .rightBrace :: rest) fun _ w' => w' = word .rightBrace :: rest

theorem parseBraced_complete (hbody : ReadsBodies levels body?) {ps : List Phrase} (hdepth : depths ps < levels)
    (rest : List Terminal) :
    Yields True (parseBraced body?) (braced (frontiers ps) ++ rest) fun _ w' => w' = rest := by
  obtain ⟨body, rfl, hreads⟩ := hbody ps hdepth
  rw [braced_append]
  refine .token fun _ _ => .advance (.andThen (hreads rest) ?_)
  rintro stmts w' rfl
  exact .eat rfl (fun u hu => .pure (List.cons.inj hu).2.symm) (absurd rfl)

theorem parseVisibility_complete (visibility : Visibility) {w : List Terminal}
    (hw : (first w).kind ≠ .kwPublic ∧ (first w).kind ≠ .kwPrivate) :
    Yields True parseVisibility (visibility.words ++ w) fun found w' => found = visibility ∧ w' = w := by
  cases visibility with
  | pub | priv => exact .kind (.advance (.pure ⟨rfl, rfl⟩))
  | plain =>
      refine .kind ?_
      split
      · next hk => exact absurd hk hw.1
      · next hk => exact absurd hk hw.2
      · exact .pure ⟨rfl, rfl⟩

theorem parseModule_complete (hbody : ReadsBodies levels body?) (visibility : Visibility) (n : String)
    {ps : List Phrase} (hdepth : depths ps < levels) (start : Span) (rest : List Terminal) :
    Yields True (parseModule body? visibility start)
      (word .kwModule :: ⟨.identifier, n⟩ :: (braced (frontiers ps) ++ rest)) fun _ w' => w' = rest := by
  refine .advance (.name (fun _ => rfl) fun m u hu => ?_)
  cases hu
  exact .kind (.andThen (parseBraced_complete hbody hdepth rest) fun _ _ h => .spanFrom fun _ => .pure h)

theorem parseProc_complete (hbody : ReadsBodies levels body?) (visibility : Visibility) (n : String)
    (fs : List FormalPhrase) {ps : List Phrase} (hdepth : depths ps < levels) (start : Span) (rest : List Terminal) :
    Yields True (parseProc body? visibility start) (word .kwProc :: ⟨.identifier, n⟩ :: word .leftParen ::
      (FormalPhrase.frontiers fs ++ word .rightParen :: (braced (frontiers ps) ++ rest))) fun _ w' => w' = rest := by
  refine .advance (.name (fun _ => rfl) fun m u hu => ?_)
  cases hu
  refine .andThen (Formal.parseList_complete fs _) ?_
  rintro formals w' rfl
  refine .token fun t ht => ?_
  have hopen : t.kind = .leftBrace := congrArg Terminal.kind ht
  rw [if_pos hopen]
  refine .andThen (parseBraced_complete hbody hdepth rest) fun _ _ h => ?_
  exact .spanFrom fun _ => .spanFrom fun _ => .pure h

theorem parseWith_complete (hbody : ReadsBodies levels body?) {p : Phrase} (hdepth : p.depth ≤ levels)
    {rest : List Terminal} (hrest : Follows rest) :
    Yields True (parseWith body?) (p.frontier ++ rest) fun _ w' => w' = rest := by
  refine .token fun t _ => ?_
  cases p with
  | moduleDecl visibility n ps =>
      rw [Phrase.frontier, List.append_assoc]
      refine .andThen (parseVisibility_complete visibility (by simp [first, word])) ?_
      rintro _ _ ⟨rfl, rfl⟩
      exact .kind (parseModule_complete hbody _ n hdepth t.span rest)
  | procDecl visibility n fs ps =>
      rw [Phrase.frontier, List.append_assoc]
      refine .andThen (parseVisibility_complete visibility (by simp [first, word])) ?_
      rintro _ _ ⟨rfl, rfl⟩
      refine .kind ?_
      rw [List.cons_append, List.cons_append, List.cons_append, List.append_assoc]
      exact parseProc_complete hbody _ n fs hdepth t.span rest
  | varDecl visibility kind n init =>
      have hstarts := startsVariable_words kind (⟨.identifier, n⟩ ::
        (ExprPhrase.initializer init ++ word .semicolon :: rest))
      -- A word that starts a variable is none of those that are tried before.
      have hother {k : TokenKind} (hk : startsVariable k = false) : (first (kind.words ++ ⟨.identifier, n⟩ ::
          (ExprPhrase.initializer init ++ word .semicolon :: rest))).kind ≠ k := by
        rintro rfl
        exact absurd (hstarts.symm.trans hk) (by decide)
      rw [Phrase.frontier, List.append_assoc, List.append_assoc, List.cons_append, List.append_assoc,
        List.singleton_append]
      refine .andThen (parseVisibility_complete visibility ⟨hother rfl, hother rfl⟩) ?_
      rintro _ _ ⟨rfl, rfl⟩
      refine .kind ?_
      rw [if_neg (hother rfl), if_neg (hother rfl), if_pos hstarts]
      exact parseVariable_complete _ kind n init t.span rest
  | block ps =>
      obtain ⟨body, hsome, -⟩ := hbody ps hdepth
      refine .andThen (parseVisibility_complete .plain (w := (Phrase.block ps).frontier ++ rest) ?_) ?_
      · simp [Phrase.frontier, braced, first, word]
      rintro _ _ ⟨rfl, rfl⟩
      refine .kind (.kind ?_)
      rw [hsome]
      exact .andThen (parseBraced_complete (hsome ▸ hbody) hdepth rest) fun _ _ h => .spanFrom fun _ => .pure h
  | foreign text semicolon =>
      refine .andThen (parseVisibility_complete .plain (w := (Phrase.foreign text semicolon).frontier ++ rest) ?_) ?_
      · simp [Phrase.frontier, first, word]
      rintro _ _ ⟨rfl, rfl⟩
      exact .kind (.kind (parseForeign_complete text semicolon t.span hrest))
  | expr e =>
      refine .andThen (parseVisibility_complete .plain (w := (Phrase.expr e).frontier ++ rest) ?_) ?_
      · cases e <;> simp [Phrase.frontier, ExprPhrase.terminal, first]
      rintro _ _ ⟨rfl, rfl⟩
      cases e with
      | identifier | int | str => exact .kind (.kind (parseExpr_complete _ t.span rest))

theorem parseList_complete {item : Parse Stmt} {braced : Bool}
    (hitem : ∀ p : Phrase, p.depth ≤ levels → ∀ rest, Follows rest →
      Yields True item (p.frontier ++ rest) fun _ w' => w' = rest)
    {ps : List Phrase} (hdepth : depths ps ≤ levels) {rest : List Terminal} (hrest : EndsList braced rest) :
    Yields True (parseList item braced) (frontiers ps ++ rest) fun _ w' => w' = rest := by
  have hends : Ends rest := hrest.ends
  induction ps with
  | nil => exact yields_parseList (fun _ _ => rfl) fun h => absurd hrest h
  | cons p ps ih =>
      rw [frontiers, List.append_assoc]
      refine yields_parseList (fun h => ?_) fun _ => ?_
      · exact absurd h.ends (not_ends_frontier p _)
      · refine (hitem p (Nat.le_trans (Nat.le_max_left _ _) hdepth) _ (follows_frontiers hends ps)).imp ?_
        rintro s w' rfl
        refine ⟨?_, (ih (Nat.le_trans (Nat.le_max_right _ _) hdepth)).imp fun _ _ h _ => h⟩
        have := p.length_frontier_pos
        simp only [List.length_append]
        omega

theorem parse_complete (levels : Nat) {p : Phrase} (hdepth : p.depth ≤ levels) {rest : List Terminal}
    (hrest : Follows rest) : Yields True (parse levels) (p.frontier ++ rest) fun _ w' => w' = rest := by
  induction levels generalizing p rest with
  | zero => exact parseWith_complete (fun _ h => absurd h (Nat.not_lt_zero _)) hdepth hrest
  | succ levels ih =>
      refine parseWith_complete (fun ps hps => ⟨_, rfl, fun rest => ?_⟩) hdepth hrest
      exact parseList_complete (fun p hp rest hrest => ih hp hrest) (Nat.le_of_lt_succ hps) (.inr ⟨rfl, rfl⟩)

end Stmt
end Surface
end Palimpsest
