import Palimpsest.Proofs.Session.Current

/-!
Queries that are settled: they have been answered in the revision that is going on. Until the next one they
stay so, and texts are not taken either.
-/

namespace Palimpsest
namespace Context

open Session Query

/-- The query has a current memo with this value. -/
def Settled (c : Context) (k : Key) (v : Value) : Prop :=
  ∃ memo, c.table.memo? k = some memo ∧ memo.value = v ∧ memo.verifiedAt = c.table.revision

section Settled

variable {c c' : Context} {changes : List Change} {k : Key} {v : Value}

theorem Move.revision_eq (h : Move c c') : c'.table.revision = c.table.revision := by
  cases h with
  | names _ | hit => rfl
  | tree _ _ hstores _ _ _ | symbols hstores _ _ => exact hstores.revision

theorem Settled.move (hs : Settled c k v) (h : Current c changes) (hk : k.isInput = false)
    (hmove : Move c c') : Settled c' k v := by
  obtain ⟨old, hold, hvalue, hverified⟩ := hs
  cases hmove with
  | names _ | hit => exact ⟨old, hold, hvalue, hverified⟩
  | @tree p text source memo parsed u w hsource htext hstores hparsed hreads hof =>
      have hnow : memo.verifiedAt = u.revision := hstores.verified.trans hstores.revision.symm
      by_cases hp : k = .parse p
      · subst hp
        refine ⟨memo, hstores.memo?_self, ?_, hnow⟩
        cases hof with
        | kept hthere hbefore _ _ =>
            obtain rfl := Option.some.inj (hold.symm.trans hthere)
            exact hparsed.trans (hbefore.symm.trans hvalue)
        | parsed hstale _ _ => exact absurd hverified (hstale old hold)
      · exact ⟨old, (hstores.memo?_of_ne hp).trans hold, hvalue, hverified.trans hstores.revision.symm⟩
  | @symbols p memo u hstores hreads hof =>
      have hnow : memo.verifiedAt = u.revision := hstores.verified.trans hstores.revision.symm
      by_cases hp : k = .moduleSymbols p
      · subst hp
        refine ⟨memo, hstores.memo?_self, ?_, hnow⟩
        cases hof with
        | kept hthere hsame _ =>
            obtain rfl := Option.some.inj (hold.symm.trans hthere)
            exact hsame.trans hvalue
        | @read tree parsed htree hparsed _ hentries =>
            have hle : tree.changedAt ≤ old.verifiedAt := hverified ▸ h.changed_le _ tree htree
            exact hentries.trans ((h.symbols p tree parsed old htree hparsed hold hle).symm.trans hvalue)
      · exact ⟨old, (hstores.memo?_of_ne hp).trans hold, hvalue, hverified.trans hstores.revision.symm⟩

theorem Settled.moves (hs : Settled c k v) (h : Current c changes) (hc : c.Sound) (hk : k.isInput = false)
    (hmoves : Relation.ReflTransGen Move c c') : Settled c' k v := by
  induction hmoves with
  | refl => exact hs
  | tail hmoves hmove ih => exact ih.move (h.moves hc hmoves) hk hmove

theorem Effect.revision_le {change : Change} (h : Effect c change c') :
    c.table.revision ≤ c'.table.revision := by
  cases h with
  | moves hmoves =>
      induction hmoves with
      | refl => exact Nat.le_refl _
      | tail _ hmove ih => exact Nat.le_trans ih (Nat.le_of_eq hmove.revision_eq.symm)
  | sets _ hset =>
      obtain ⟨-, -, memo, rfl, -⟩ := Table.setInput_ok hset
      exact Nat.le_refl _
  | pins _ | unpins _ | collects _ => exact Nat.le_refl _
  | advances _ hc₁ =>
      cases hc₁ with
      | inl heq =>
          subst heq
          exact Nat.le_succ _
      | inr hcollected =>
          obtain ⟨keep, -, rfl⟩ := hcollected
          exact Nat.le_succ _

/-- Nothing but an advance unsettles a query. -/
theorem Settled.effect {change : Change} (hs : Settled c k v) (h : Current c changes) (hc : c.Sound)
    (hk : k.isInput = false) (heffect : Effect c change c') (hrev : c'.table.revision = c.table.revision) :
    Settled c' k v := by
  obtain ⟨memo, hmemo, hvalue, hverified⟩ := hs
  cases heffect with
  | moves hmoves => exact Settled.moves ⟨memo, hmemo, hvalue, hverified⟩ h hc hk hmoves
  | sets _ hset =>
      obtain ⟨-, hopen, -⟩ := Table.setInput_ok hset
      exact absurd hverified (Nat.ne_of_lt (h.window hopen k memo hmemo hk))
  | pins _ | unpins _ => exact ⟨memo, hmemo, hvalue, hverified⟩
  | collects _ =>
      refine ⟨memo, ?_, hvalue, hverified⟩
      change (c.table.swept rules).memo? k = some memo
      rw [Table.memo?_swept_of_not_stale, hmemo]
      intro hstale
      have hnot := hstale.not_current hc.nodup
      rw [Table.current?_of_memo hmemo (.inr hverified)] at hnot
      cases hnot
  | advances _ hc₁ =>
      cases hc₁ with
      | inl heq =>
          subst heq
          exact absurd hrev (Nat.succ_ne_self _)
      | inr hcollected =>
          obtain ⟨keep, -, rfl⟩ := hcollected
          exact absurd hrev (Nat.succ_ne_self _)

theorem revision_le_run (hc : c.Sound) (ops : List Op) : c.table.revision ≤ (c.run ops).table.revision := by
  induction ops generalizing c with
  | nil => exact Nat.le_refl _
  | cons op rest ih => exact Nat.le_trans (op.effect hc).revision_le (ih (hc.after op))

/-- A revision that goes on has not been advanced. -/
theorem advance_not_mem (hc : c.Sound) {ops : List Op} (hrev : (c.run ops).revision = c.revision) (keep : Bool) :
    .advance keep ∉ ops := by
  induction ops generalizing c with
  | nil => exact List.not_mem_nil
  | cons op rest ih =>
      have hfirst : c.revision ≤ (op.after c).revision := (op.effect hc).revision_le
      have hrest : (op.after c).revision ≤ ((op.after c).run rest).revision := revision_le_run (hc.after op) rest
      have hrun : ((op.after c).run rest).revision = c.revision := hrev
      intro hmem
      cases List.mem_cons.mp hmem with
      | inr hin => exact ih (hc.after op) (by omega) hin
      | inl heq =>
          subst heq
          obtain ⟨c₁, hc₁, heval⟩ := hc.eval_advance keep
          have hafter : (Op.after c (.advance keep)).revision = c₁.revision + 1 := by
            rw [Op.after, heval]
            rfl
          have hbefore : c₁.revision = c.revision := by
            cases hc₁ with
            | inl hticked => rw [hticked]; rfl
            | inr hcollected =>
                obtain ⟨kept, -, rfl⟩ := hcollected
                rfl
          omega

/-- While a query is settled no texts are taken. -/
theorem Settled.change_ne_text {change : Change} (hs : Settled c k v) (h : Current c changes)
    (hk : k.isInput = false) (heffect : Effect c change c') : ∀ p t, change ≠ .text p t := by
  obtain ⟨memo, hmemo, -, hverified⟩ := hs
  cases heffect with
  | sets _ hset =>
      obtain ⟨-, hopen, -⟩ := Table.setInput_ok hset
      exact absurd hverified (Nat.ne_of_lt (h.window hopen k memo hmemo hk))
  | moves _ | pins _ | unpins _ | collects _ | advances _ _ => simp

/-- What is settled stays so, over the same texts, as long as the revision lasts. -/
theorem Settled.run (hs : Settled c k v) (h : Current c changes) (hc : c.Sound) (hk : k.isInput = false)
    (ops : List Op) (hrev : (c.run ops).revision = c.revision) :
    Settled (c.run ops) k v ∧ ∀ p t, Change.text p t ∉ c.changes ops := by
  -- The revision never goes down, so it is the same after each of the operations.
  induction ops generalizing c changes with
  | nil => exact ⟨hs, fun _ _ => List.not_mem_nil⟩
  | cons op rest ih =>
      have hfirst : c.revision ≤ (op.after c).revision := (op.effect hc).revision_le
      have hrest : (op.after c).revision ≤ ((op.after c).run rest).revision :=
        revision_le_run (hc.after op) rest
      have hrun : ((op.after c).run rest).revision = c.revision := hrev
      have hsame : (op.after c).revision = c.revision := by omega
      obtain ⟨hsettled, hquiet⟩ := ih (hs.effect h hc hk (op.effect hc) hsame) (h.effect hc (op.effect hc))
        (hc.after op) (hrun.trans hsame.symm)
      refine ⟨hsettled, fun p t hmem => ?_⟩
      cases List.mem_cons.mp hmem with
      | inl heq => exact hs.change_ne_text h hk (op.effect hc) p t heq.symm
      | inr hin => exact hquiet p t hin

theorem Answered.settled {key : Key} {answer : Versioned Value} (h : Answered c key answer c')
    (hk : key.isInput = false) : Settled c' key answer.value := by
  obtain ⟨memo, hmemo, hvalue, -, hcurrent⟩ := h.current
  cases hcurrent with
  | inl hinput => exact absurd (hk.symm.trans hinput) Bool.false_ne_true
  | inr hverified => exact ⟨memo, hmemo, hvalue, hverified⟩

end Settled

section Quiet

variable {changes more : List Change} {path : String}

theorem textOf_append (hquiet : ∀ p t, Change.text p t ∉ more) (path : String) :
    textOf (changes ++ more) path = textOf changes path := by
  induction more using List.reverseRecOn with
  | nil => rw [List.append_nil]
  | append_singleton rest change ih =>
      have hrest := ih fun p t hmem => hquiet p t (List.mem_append_left _ hmem)
      rw [← List.append_assoc, textOf_concat]
      cases change with
      | text p t => exact absurd (List.mem_append_right rest List.mem_cons_self) (hquiet p t)
      | nothing | pin _ | unpin _ => exact hrest

theorem textOf_append_ne_none (h : textOf changes path ≠ none) (more : List Change) :
    textOf (changes ++ more) path ≠ none := by
  induction more using List.reverseRecOn with
  | nil => exact (List.append_nil changes).symm ▸ h
  | append_singleton rest change ih =>
      rw [← List.append_assoc, textOf_concat]
      cases change with
      | text p t => by_cases hp : p = path <;> simp [hp, ih]
      | nothing | pin _ | unpin _ => exact ih

theorem contents_append (hquiet : ∀ p t, Change.text p t ∉ more) {k : NodeKind ContentHash}
    (h : Contents (changes ++ more) k) : Contents changes k := by
  obtain ⟨path, text, hmem, hdraft⟩ := h
  cases List.mem_append.mp hmem with
  | inl hin => exact ⟨path, text, hin, hdraft⟩
  | inr hin => exact absurd hin (hquiet path text)

end Quiet

section Results

variable {c : Context} {changes : List Change} {path text : String} {parsed : ParsedFile}
  {entries : List ModuleEntry} (h : Current c changes) (hs : Settled c (.parse path) (.parsed parsed))
include h hs

/-- A settled tree is that of the text. -/
theorem Settled.describes (htext : textOf changes path = some text) :
    Describes c.forest path (.ofString text) parsed := by
  obtain ⟨memo, hmemo, hvalue, hverified⟩ := hs
  have hsource := h.text path
  rw [htext] at hsource
  obtain ⟨source, hsource, hsourceValue⟩ := Option.map_eq_some_iff.mp hsource
  have hle : source.changedAt ≤ memo.verifiedAt := hverified ▸ h.changed_le _ source hsource
  exact h.tree path source _ memo parsed hsource hsourceValue hmemo hvalue hle

/-- Settled symbols are those of the settled tree. -/
theorem Settled.entries_eq (hs' : Settled c (.moduleSymbols path) (.symbols entries)) :
    entries = entriesOf c.forest parsed.modules := by
  obtain ⟨tree, htree, hparsed, -⟩ := hs
  obtain ⟨memo, hmemo, hvalue, hverified⟩ := hs'
  have hle : tree.changedAt ≤ memo.verifiedAt := hverified ▸ h.changed_le _ tree htree
  exact Value.symbols.inj (hvalue.symm.trans (h.symbols path tree parsed memo htree hparsed hmemo hle))

end Results

end Context
end Palimpsest
