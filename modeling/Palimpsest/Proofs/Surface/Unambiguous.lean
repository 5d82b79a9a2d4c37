import Palimpsest.Proofs.Surface.Grammar

/-!
The grammar is unambiguous. Reading from the left, each token leaves one production only; an extern block is
told from one with a semicolon by what may follow a statement, which is no semicolon.
-/

namespace Palimpsest

open Terminal (word)

namespace Surface

section Words

variable {w w' : List Terminal} {x x' : Terminal} {n n' : String}

theorem visibilityWords_inj {v v' : Visibility} (hx : x.kind ≠ .kwPublic ∧ x.kind ≠ .kwPrivate)
    (hx' : x'.kind ≠ .kwPublic ∧ x'.kind ≠ .kwPrivate) (h : v.words ++ x :: w = v'.words ++ x' :: w') :
    v = v' ∧ x :: w = x' :: w' := by
  cases v <;> cases v' <;> simp_all [Visibility.words, word] <;> grind

theorem kindWords_inj {k k' : VariableKind}
    (h : k.words ++ ⟨.identifier, n⟩ :: w = k'.words ++ ⟨.identifier, n'⟩ :: w') : k = k' ∧ n = n' ∧ w = w' := by
  cases k <;> cases k' <;> simp_all [VariableKind.words, VariableKind.lead, word]

theorem intentWords_inj {i i' : Intent}
    (h : i.words ++ ⟨.identifier, n⟩ :: w = i'.words ++ ⟨.identifier, n'⟩ :: w') : i = i' ∧ n = n' ∧ w = w' := by
  cases i <;> cases i' <;> simp_all [Intent.words, word]

end Words

namespace ExprPhrase

theorem terminal_inj {e e' : ExprPhrase} (h : e.terminal = e'.terminal) : e = e' := by
  cases e <;> cases e' <;> simp_all [terminal]

theorem initializer_inj {init init' : Option ExprPhrase} {w w' : List Terminal}
    (h : initializer init ++ word .semicolon :: w = initializer init' ++ word .semicolon :: w') :
    init = init' ∧ w = w' := by
  cases init with
  | none => cases init' <;> simp_all [initializer, word]
  | some e =>
      cases init' with
      | none => simp_all [initializer, word]
      | some e' =>
          simp only [initializer, List.cons_append, List.nil_append, List.cons.injEq, true_and] at h
          exact ⟨congrArg some (terminal_inj h.1), h.2⟩

end ExprPhrase

namespace FormalPhrase

theorem frontier_inj {f f' : FormalPhrase} {w w' : List Terminal} (h : f.frontier ++ w = f'.frontier ++ w') :
    f = f' ∧ w = w' := by
  simp only [frontier, List.append_assoc, List.singleton_append] at h
  obtain ⟨hintent, hname, hw⟩ := intentWords_inj h
  cases f
  cases f'
  simp_all

theorem first_frontier (f : FormalPhrase) (w : List Terminal) : (first (f.frontier ++ w)).kind ≠ .rightParen := by
  obtain ⟨intent, name⟩ := f
  cases intent <;> simp [frontier, Intent.words, first, word]

theorem frontier_ne (f : FormalPhrase) (w w' : List Terminal) : f.frontier ++ w ≠ word .rightParen :: w' := by
  intro h
  exact f.first_frontier w (h ▸ rfl)

theorem frontiers_inj {fs fs' : List FormalPhrase} {w w' : List Terminal}
    (h : frontiers fs ++ word .rightParen :: w = frontiers fs' ++ word .rightParen :: w') : fs = fs' ∧ w = w' := by
  induction fs generalizing fs' with
  | nil =>
      cases fs' with
      | nil => simpa [frontiers] using h
      | cons f' rest' =>
          rw [frontiers_cons, List.append_assoc] at h
          exact absurd h.symm (f'.frontier_ne _ _)
  | cons f rest ih =>
      cases fs' with
      | nil =>
          rw [frontiers_cons, List.append_assoc] at h
          exact absurd h (f.frontier_ne _ _)
      | cons f' rest' =>
          rw [frontiers_cons, frontiers_cons, List.append_assoc, List.append_assoc] at h
          obtain ⟨rfl, hrest⟩ := frontier_inj h
          by_cases hlast : rest = []
          · by_cases hlast' : rest' = []
            · simpa [hlast, hlast'] using hrest
            · simp [hlast, hlast', word] at hrest
          · by_cases hlast' : rest' = []
            · simp [hlast, hlast', word] at hrest
            · simp only [hlast, hlast', ite_false, List.cons_append, List.cons.injEq, true_and] at hrest
              obtain ⟨rfl, hw⟩ := ih hrest
              exact ⟨rfl, hw⟩

end FormalPhrase

/-- The productions of the grammar. -/
inductive Form where
  | moduleDecl
  | procDecl
  | varDecl
  | block
  | foreign
  | expr
deriving DecidableEq

/-- The production of a phrase that starts so after its visibility. -/
def Form.ofKind : TokenKind → Form
  | .kwModule => .moduleDecl
  | .kwProc => .procDecl
  | .leftBrace => .block
  | .kwForeign => .foreign
  | .identifier | .intLiteral | .stringLiteral => .expr
  | _ => .varDecl

namespace Phrase

def form : Phrase → Form
  | .moduleDecl .. => .moduleDecl
  | .procDecl .. => .procDecl
  | .varDecl .. => .varDecl
  | .block _ => .block
  | .foreign .. => .foreign
  | .expr _ => .expr

def visibility : Phrase → Visibility
  | .moduleDecl visibility _ _ | .procDecl visibility _ _ _ | .varDecl visibility _ _ _ => visibility
  | .block _ | .foreign _ _ | .expr _ => .plain

/-- The first terminal of a phrase after its visibility. -/
def lead : Phrase → Terminal
  | .moduleDecl .. => word .kwModule
  | .procDecl .. => word .kwProc
  | .varDecl _ kind _ _ => word kind.lead
  | .block _ => word .leftBrace
  | .foreign .. => word .kwForeign
  | .expr e => e.terminal

theorem frontier_eq (p : Phrase) : ∃ rest, p.frontier = p.visibility.words ++ p.lead :: rest := by
  cases p with
  | varDecl v kind name init =>
      obtain ⟨rest, hrest⟩ := kind.words_eq
      simp [frontier, visibility, lead, hrest]
  | moduleDecl | procDecl => simp [frontier, visibility, lead]
  | block | foreign | expr => simp [frontier, visibility, lead, Visibility.words, braced]

theorem length_frontier_pos (p : Phrase) : 0 < p.frontier.length := by
  obtain ⟨rest, hrest⟩ := p.frontier_eq
  rw [hrest, List.length_append, List.length_cons]
  omega

theorem lead_ne (p : Phrase) : p.lead.kind ≠ .kwPublic ∧ p.lead.kind ≠ .kwPrivate ∧
    p.lead.kind ≠ .semicolon ∧ p.lead.kind ≠ .rightBrace ∧ p.lead.kind ≠ .endOfFile := by
  cases p with
  | varDecl v kind name init => cases kind <;> simp [lead, VariableKind.lead, word]
  | expr e => cases e <;> simp [lead, ExprPhrase.terminal]
  | moduleDecl | procDecl | block | foreign => simp [lead, word]

theorem form_lead (p : Phrase) : Form.ofKind p.lead.kind = p.form := by
  cases p with
  | varDecl v kind name init =>
      cases kind with
      | var | const | constRef | ref | param | type => rfl
  | expr e =>
      cases e with
      | identifier | int | str => rfl
  | moduleDecl | procDecl | block | foreign => rfl

/-- No phrase starts with a semicolon, or as a list ends. -/
theorem first_frontier (p : Phrase) (w : List Terminal) : (first (p.frontier ++ w)).kind ≠ .semicolon ∧
    (first (p.frontier ++ w)).kind ≠ .rightBrace ∧ (first (p.frontier ++ w)).kind ≠ .endOfFile := by
  obtain ⟨rest, hrest⟩ := p.frontier_eq
  rw [hrest]
  cases hv : p.visibility with
  | plain => exact p.lead_ne.2.2
  | pub | priv => simp [Visibility.words, first, word]

/-- Phrases that start the same terminals are of one production. -/
theorem start_inj {p p' : Phrase} {w w' : List Terminal} (h : p.frontier ++ w = p'.frontier ++ w') :
    p.visibility = p'.visibility ∧ p.form = p'.form := by
  obtain ⟨rest, hrest⟩ := p.frontier_eq
  obtain ⟨rest', hrest'⟩ := p'.frontier_eq
  rw [hrest, hrest', List.append_assoc, List.append_assoc] at h
  obtain ⟨hvisibility, hlead⟩ := visibilityWords_inj ⟨p.lead_ne.1, p.lead_ne.2.1⟩ ⟨p'.lead_ne.1, p'.lead_ne.2.1⟩ h
  refine ⟨hvisibility, ?_⟩
  rw [← p.form_lead, ← p'.form_lead, (List.cons.inj hlead).1]

end Phrase

/-- What may follow a statement. -/
def Follows (w : List Terminal) : Prop := (first w).kind ≠ .semicolon

/-- Where a list of statements ends. -/
def Ends (w : List Terminal) : Prop := (first w).kind = .rightBrace ∨ (first w).kind = .endOfFile

theorem Ends.follows {w : List Terminal} (h : Ends w) : Follows w := by
  cases h with
  | inl hbrace => simp [Follows, hbrace]
  | inr hend => simp [Follows, hend]

theorem follows_frontiers {w : List Terminal} (h : Ends w) (phrases : List Phrase) :
    Follows (frontiers phrases ++ w) := by
  cases phrases with
  | nil => exact h.follows
  | cons p rest =>
      rw [frontiers, List.append_assoc]
      exact (p.first_frontier _).1

theorem not_ends_frontier (p : Phrase) (w : List Terminal) : ¬ Ends (p.frontier ++ w) := by
  obtain ⟨-, hbrace, hend⟩ := p.first_frontier w
  rintro (h | h)
  · exact hbrace h
  · exact hend h

theorem ends_brace (w : List Terminal) : Ends (word .rightBrace :: w) := .inl rfl

mutual

/-- From the left, terminals are a phrase and what follows it in one way only. -/
theorem Phrase.frontier_inj : (p p' : Phrase) → {w w' : List Terminal} → Follows w → Follows w' →
    p.frontier ++ w = p'.frontier ++ w' → p = p' ∧ w = w'
  | .moduleDecl v n body, p', w, w', _, _, h => by
      obtain ⟨hv, hform⟩ := Phrase.start_inj h
      cases p' with
      | moduleDecl v' n' body' =>
          obtain rfl : v = v' := hv
          simp only [Phrase.frontier, List.append_assoc, List.cons_append, braced_append, List.append_cancel_left_eq,
            List.cons.injEq, Terminal.mk.injEq, true_and] at h
          obtain ⟨rfl, hbody⟩ := h
          obtain ⟨rfl, hclose⟩ := frontiers_inj body body' (ends_brace _) (ends_brace _) hbody
          exact ⟨rfl, (List.cons.inj hclose).2⟩
      | procDecl | varDecl | block | foreign | expr => cases hform
  | .procDecl v n formals body, p', w, w', _, _, h => by
      obtain ⟨hv, hform⟩ := Phrase.start_inj h
      cases p' with
      | procDecl v' n' formals' body' =>
          obtain rfl : v = v' := hv
          simp only [Phrase.frontier, List.append_assoc, List.cons_append, braced_append, List.append_cancel_left_eq,
            List.cons.injEq, Terminal.mk.injEq, true_and] at h
          obtain ⟨rfl, hformals⟩ := h
          obtain ⟨rfl, hopen⟩ := FormalPhrase.frontiers_inj hformals
          have hbody := (List.cons.inj hopen).2
          obtain ⟨rfl, hclose⟩ := frontiers_inj body body' (ends_brace _) (ends_brace _) hbody
          exact ⟨rfl, (List.cons.inj hclose).2⟩
      | moduleDecl | varDecl | block | foreign | expr => cases hform
  | .varDecl v kind n init, p', w, w', _, _, h => by
      obtain ⟨hv, hform⟩ := Phrase.start_inj h
      cases p' with
      | varDecl v' kind' n' init' =>
          obtain rfl : v = v' := hv
          simp only [Phrase.frontier, List.append_assoc, List.cons_append, List.nil_append,
            List.append_cancel_left_eq] at h
          obtain ⟨rfl, rfl, hinit⟩ := kindWords_inj h
          obtain ⟨rfl, hrest⟩ := ExprPhrase.initializer_inj hinit
          exact ⟨rfl, hrest⟩
      | moduleDecl | procDecl | block | foreign | expr => cases hform
  | .block body, p', w, w', _, _, h => by
      obtain ⟨-, hform⟩ := Phrase.start_inj h
      cases p' with
      | block body' =>
          rw [Phrase.frontier, Phrase.frontier, braced_append, braced_append] at h
          have hbody := (List.cons.inj h).2
          obtain ⟨rfl, hclose⟩ := frontiers_inj body body' (ends_brace _) (ends_brace _) hbody
          exact ⟨rfl, (List.cons.inj hclose).2⟩
      | moduleDecl | procDecl | varDecl | foreign | expr => cases hform
  | .foreign text semicolon, p', w, w', hw, hw', h => by
      obtain ⟨-, hform⟩ := Phrase.start_inj h
      cases p' with
      | foreign text' semicolon' =>
          simp only [Phrase.frontier, List.cons_append, List.cons.injEq, Terminal.mk.injEq, true_and] at h
          obtain ⟨rfl, hrest⟩ := h
          -- A semicolon after the code belongs to it, for none follows a statement.
          cases semicolon <;> cases semicolon'
          · exact ⟨rfl, hrest⟩
          · exact absurd (congrArg (fun u => (first u).kind) hrest) hw
          · exact absurd (congrArg (fun u => (first u).kind) hrest.symm) hw'
          · exact ⟨rfl, (List.cons.inj hrest).2⟩
      | moduleDecl | procDecl | varDecl | block | expr => cases hform
  | .expr e, p', w, w', _, _, h => by
      obtain ⟨-, hform⟩ := Phrase.start_inj h
      cases p' with
      | expr e' =>
          obtain ⟨hterminal, hrest⟩ := List.cons.inj h
          exact ⟨congrArg Phrase.expr (ExprPhrase.terminal_inj hterminal), (List.cons.inj hrest).2⟩
      | moduleDecl | procDecl | varDecl | block | foreign => cases hform

theorem frontiers_inj : (ps ps' : List Phrase) → {w w' : List Terminal} → Ends w → Ends w' →
    frontiers ps ++ w = frontiers ps' ++ w' → ps = ps' ∧ w = w'
  | [], [], _, _, _, _, h => ⟨rfl, h⟩
  | [], p' :: rest', w, w', hw, _, h => by
      rw [frontiers, List.nil_append, frontiers, List.append_assoc] at h
      exact absurd (h ▸ hw) (not_ends_frontier p' _)
  | p :: rest, [], w, w', _, hw', h => by
      rw [frontiers, frontiers, List.nil_append, List.append_assoc] at h
      exact absurd (h ▸ hw') (not_ends_frontier p _)
  | p :: rest, p' :: rest', w, w', hw, hw', h => by
      rw [frontiers, frontiers, List.append_assoc, List.append_assoc] at h
      obtain ⟨rfl, htail⟩ := Phrase.frontier_inj p p' (follows_frontiers hw rest) (follows_frontiers hw' rest') h
      obtain ⟨rfl, hend⟩ := frontiers_inj rest rest' hw hw' htail
      exact ⟨rfl, hend⟩

end

end Surface
end Palimpsest
