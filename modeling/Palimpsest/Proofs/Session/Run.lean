import Palimpsest.Proofs.Session.Collect

/-!
Operations and runs of them. An operation that is refused may have left its mark; what it can have done is
no more than what the others do.
-/

namespace Palimpsest
namespace Context

open Session Query

/-- The query has an answer from `c`, the value and its revision, and leaves `c'`. -/
structure Answered (c : Context) (key : Key) (v : Versioned Value) (c' : Context) : Prop where
  moves : Relation.ReflTransGen Move c c'
  current : ∃ memo, c'.table.memo? key = some memo ∧ memo.value = v.value ∧ memo.changedAt = v.since ∧
    (key.isInput = true ∨ memo.verifiedAt = c'.table.revision)

section Queries

variable {c : Context}

theorem eval_fetch_idle {key : Key} {v : Value} {u : Table Key Value} {w w' : World} {t : Table Key Value}
    {n : Nat} (h : (Run.refresh rules n key).eval ⟨t, w⟩ = (.ok v, ⟨u, w'⟩)) (hidle : u.active = []) :
    (Run.fetch rules n key).eval ⟨t, w⟩ = (.ok v, ⟨u, w'⟩) := by
  rw [Run.eval_fetch, h]
  simp only [Table.recordRead_of_idle hidle]

theorem moves_of_symbols (h : c.Sound) {p : String} {text : SourceText} {source memo : Memo Key Value}
    {u : Table Key Value} {w : World} (hsource : c.table.memo? (.fileText p) = some source)
    (htext : source.value = .text text) (hreads : memo.reads = [.parse p])
    (hof : SymbolsOf c.table c.state.world p text source memo u w) :
    Relation.ReflTransGen Move c (c.withState ⟨u, w⟩) ∧
      u.memo? (.moduleSymbols p) = some memo ∧ memo.verifiedAt = u.revision ∧ u.active = [] := by
  cases hof with
  | kept hmemo hstores =>
      refine ⟨.single (.symbols hstores hreads (.kept hmemo rfl (.inl hstores.verified))),
        hstores.memo?_self, hstores.verified.trans hstores.revision.symm, hstores.active.trans h.idle⟩
  | @onTree parsed tree u₁ w' htree hparsed htreeReads htreeOf hstores hvalue =>
      have hfirst : Move c (c.withState ⟨u₁, w⟩) := .tree hsource htext htree hparsed htreeReads htreeOf
      have hcurrent : tree.verifiedAt = u₁.revision := htree.verified.trans htree.revision.symm
      have hfrom : SymbolsFrom u₁ w.forest p memo := by
        cases hvalue with
        | inl hread => exact .read htree.memo?_self hparsed hcurrent hread
        | inr hkept =>
            obtain ⟨old, hold, hsame, hle⟩ := hkept
            exact .kept ((htree.memo?_of_ne (by simp)).trans hold) hsame
              (.inr ⟨tree, htree.memo?_self, hcurrent, hle⟩)
      have hsecond : Move (c.withState ⟨u₁, w⟩) ((c.withState ⟨u₁, w⟩).withTable u) :=
        .symbols hstores hreads hfrom
      exact ⟨.tail (.single hfirst) hsecond, hstores.memo?_self, hstores.verified.trans hstores.revision.symm,
        hstores.active.trans (htree.active.trans h.idle)⟩

/-- Every query about a file that has a text is answered. -/
theorem fetch_answers (h : c.Sound) {key : Key} {value : Value}
    (hvalue : c.table.value? (.fileText key.path) = some value) :
    ∃ v table world memo, (Run.fetch rules queryDepth key).eval c.state = (.ok v, ⟨table, world⟩) ∧
      table.memo? key = some memo ∧ Answered c key ⟨v, memo.changedAt⟩ (c.withState ⟨table, world⟩) := by
  obtain ⟨source, hsource, -⟩ := Option.map_eq_some_iff.mp hvalue
  obtain ⟨text, htext⟩ := h.fits _ _ hsource
  have hactive (k : Key) : c.table.isActive k = false := by simp [Table.isActive, h.idle]
  cases key with
  | fileText p =>
      have hrefresh := refresh_fileText (w := c.state.world) hsource (hactive _) 2
      exact ⟨source.value, _, _, source, eval_fetch_idle hrefresh h.idle, hsource, .single .hit,
        source, hsource, rfl, rfl, .inl rfl⟩
  | parse p =>
      obtain ⟨parsed, memo, u, w, hrefresh, hstores, hparsed, hreads, hof⟩ :=
        refresh_parse h.world hsource htext (h.fits _) (hactive _) (hactive _) 1
      exact ⟨.parsed parsed, u, w, memo, eval_fetch_idle hrefresh (hstores.active.trans h.idle),
        hstores.memo?_self, .single (.tree hsource htext hstores hparsed hreads hof), memo, hstores.memo?_self,
        hparsed, rfl, .inr (hstores.verified.trans hstores.revision.symm)⟩
  | moduleSymbols p =>
      obtain ⟨memo, u, w, hrefresh, hreads, hof⟩ :=
        refresh_moduleSymbols h.world hsource htext h.fits h.held h.idle 0
      obtain ⟨hmoves, hmemo, hcurrent, hidle⟩ := moves_of_symbols h hsource htext hreads hof
      exact ⟨memo.value, u, w, memo, eval_fetch_idle hrefresh hidle, hmemo, hmoves, memo, hmemo, rfl, rfl,
        .inr hcurrent⟩

/-- A query is refused exactly when its file has no text. -/
theorem query_answers (h : c.Sound) (key : Key) :
    (c.table.value? (.fileText key.path) = none ∧
      (query key).eval c = (.error (.noText key.path), c.withNames (c.names.add key.path))) ∨
    ∃ v c', (query key).eval c = (.ok v, c') ∧ Answered c key v c' := by
  cases hvalue : c.table.value? (.fileText key.path) with
  | none => exact .inl ⟨rfl, eval_query_noText hvalue⟩
  | some value =>
      have hnames : Move c (c.withNames (c.names.add key.path)) := .names _
      obtain ⟨v, table, world, memo, hfetch, hmemo, hanswered⟩ := fetch_answers (h.move hnames) hvalue
      exact .inr ⟨_, _, eval_query_ok hvalue hfetch hmemo, hanswered.moves.head hnames, hanswered.current⟩

theorem fileText_answers (h : c.Sound) (p : String) :
    (c.table.value? (.fileText p) = none ∧
      (fileText p).eval c = (.error (.noText p), c.withNames (c.names.add p))) ∨
    ∃ v c', (fileText p).eval c = (.ok v, c') ∧ Answered c (.fileText p) ⟨.text v.value, v.since⟩ c' := by
  cases query_answers h (.fileText p) with
  | inl hrefused => exact .inl ⟨hrefused.1, Act.eval_bind_error hrefused.2⟩
  | inr hok =>
      obtain ⟨⟨value, since⟩, c', hquery, hanswered⟩ := hok
      obtain ⟨memo, hmemo, hvalue, -⟩ := hanswered.current
      obtain ⟨text, htext⟩ := (h.moves hanswered.moves).fits _ _ hmemo
      obtain rfl : value = .text text := hvalue.symm.trans htext
      exact .inr ⟨⟨text, since⟩, c', Act.eval_bind_ok hquery, hanswered⟩

theorem parse_answers (h : c.Sound) (p : String) :
    (c.table.value? (.fileText p) = none ∧
      (parse p).eval c = (.error (.noText p), c.withNames (c.names.add p))) ∨
    ∃ v c', (parse p).eval c = (.ok v, c') ∧ Answered c (.parse p) ⟨.parsed v.value, v.since⟩ c' := by
  cases query_answers h (.parse p) with
  | inl hrefused => exact .inl ⟨hrefused.1, Act.eval_bind_error hrefused.2⟩
  | inr hok =>
      obtain ⟨⟨value, since⟩, c', hquery, hanswered⟩ := hok
      obtain ⟨memo, hmemo, hvalue, -⟩ := hanswered.current
      obtain ⟨⟨parsed, hparsed⟩, -⟩ := (h.moves hanswered.moves).fits _ _ hmemo
      obtain rfl : value = .parsed parsed := hvalue.symm.trans hparsed
      exact .inr ⟨⟨parsed, since⟩, c', Act.eval_bind_ok hquery, hanswered⟩

theorem moduleSymbols_answers (h : c.Sound) (p : String) :
    (c.table.value? (.fileText p) = none ∧
      (moduleSymbols p).eval c = (.error (.noText p), c.withNames (c.names.add p))) ∨
    ∃ v c', (moduleSymbols p).eval c = (.ok v, c') ∧
      Answered c (.moduleSymbols p) ⟨.symbols v.value, v.since⟩ c' := by
  cases query_answers h (.moduleSymbols p) with
  | inl hrefused => exact .inl ⟨hrefused.1, Act.eval_bind_error hrefused.2⟩
  | inr hok =>
      obtain ⟨⟨value, since⟩, c', hquery, hanswered⟩ := hok
      obtain ⟨memo, hmemo, hvalue, -⟩ := hanswered.current
      obtain ⟨⟨entries, hentries⟩, -⟩ := (h.moves hanswered.moves).fits _ _ hmemo
      obtain rfl : value = .symbols entries := hvalue.symm.trans hentries
      exact .inr ⟨⟨entries, since⟩, c', Act.eval_bind_ok hquery, hanswered⟩

end Queries

/-- What can be asked of a session. -/
inductive Op where
  | intern (name : String)
  | setText (path text : String)
  | load (files : Files) (path : String)
  | fileText (path : String)
  | parse (path : String)
  | moduleSymbols (path : String)
  | advance (keepOldResults : Bool)
  | collectGarbage
  | node (id : NodeId)
  | locate (id : NodeId)
  | dump (id : NodeId)
  | pin (id : NodeId)
  | unpin (id : NodeId)

namespace Op

/-- The session after an operation, be it refused or not. -/
def after (c : Context) : Op → Context
  | intern name => ((Context.intern name).eval c).2
  | setText path text => ((Context.setText path text).eval c).2
  | load files path => ((Context.load files path).eval c).2
  | fileText path => ((Context.fileText path).eval c).2
  | parse path => ((Context.parse path).eval c).2
  | moduleSymbols path => ((Context.moduleSymbols path).eval c).2
  | advance keepOldResults => ((Context.advance keepOldResults).eval c).2
  | collectGarbage => (Context.collectGarbage.eval c).2
  | node id => ((Context.node id).eval c).2
  | locate id => ((Context.locate id).eval c).2
  | dump id => ((Context.dump id).eval c).2
  | pin id => ((Context.pin id).eval c).2
  | unpin id => ((Context.unpin id).eval c).2

end Op

/-- What an operation changes at the wish of the caller. -/
inductive Change where
  | nothing
  | text (path text : String)
  | pin (id : NodeId)
  | unpin (id : NodeId)
deriving DecidableEq

/-- The change, unless the operation is refused. -/
def changeIf {α : Type} (c : Context) (x : Act α) (change : Change) : Change :=
  if (x.eval c).1.toBool then change else .nothing

/-- What an operation changes; nothing if it is refused. -/
def Op.change (c : Context) : Op → Change
  | setText path text => c.changeIf (Context.setText path text) (.text path text)
  | load files path =>
    match files.read path with
    | .ok text => c.changeIf (Context.setText path text) (.text path text)
    | .error _ => .nothing
  | pin id => c.changeIf (Context.pin id) (.pin id)
  | unpin id => c.changeIf (Context.unpin id) (.unpin id)
  | _ => .nothing

/-- The operation neither collects nor advances. -/
def Op.calm : Op → Bool
  | advance _ | collectGarbage => false
  | _ => true

/-- What a calm operation with a given change does. -/
inductive Mild (c : Context) : Change → Context → Prop where
  | moves {c' : Context} (h : Relation.ReflTransGen Move c c') : Mild c .nothing c'
  | sets {path text : String} {u : Table Key Value} (names : Interner)
      (h : c.table.setInput rules (.fileText path) (.text (.ofString text)) = .ok u) :
      Mild c (.text path text) ((c.withNames names).withTable u)
  | pins {id : NodeId} (h : c.forest.contains id = true) : Mild c (.pin id) (c.withPins (addPin id c.pins))
  | unpins {id : NodeId} {n : Nat} (h : c.pins.lookup id = some n) :
      Mild c (.unpin id) (c.withPins (dropPin id c.pins))

/-- What an operation with a given change does. -/
inductive Effect (c : Context) : Change → Context → Prop where
  | moves {c' : Context} (h : Relation.ReflTransGen Move c c') : Effect c .nothing c'
  | sets {path text : String} {u : Table Key Value} (names : Interner)
      (h : c.table.setInput rules (.fileText path) (.text (.ofString text)) = .ok u) :
      Effect c (.text path text) ((c.withNames names).withTable u)
  | pins {id : NodeId} (h : c.forest.contains id = true) : Effect c (.pin id) (c.withPins (addPin id c.pins))
  | unpins {id : NodeId} {n : Nat} (h : c.pins.lookup id = some n) :
      Effect c (.unpin id) (c.withPins (dropPin id c.pins))
  | collects {keep : NodeId → Bool} (h : c.Keeps keep) : Effect c .nothing (c.collected keep)
  | advances {c₁ : Context} (keepOldResults : Bool)
      (h : c₁ = c.tick ∨ ∃ keep, c.tick.Keeps keep ∧ c₁ = c.tick.collected keep) :
      Effect c .nothing (c₁.withTable (c₁.table.advanced rules keepOldResults))

namespace Mild

variable {c : Context}

theorem effect {c' : Context} {change : Change} (h : Mild c change c') : Effect c change c' := by
  cases h with
  | moves h => exact .moves h
  | sets names h => exact .sets names h
  | pins h => exact .pins h
  | unpins h => exact .unpins h

theorem stays (c : Context) : Mild c .nothing c := .moves .refl

theorem of_eval {α : Type} {x : Act α} {result : Except Violation α} {c' : Context} {change : Change}
    (heval : x.eval c = (result, c')) (h : Mild c change c') : Mild c change (x.eval c).2 := by
  rw [heval]
  exact h

theorem of_setText (c : Context) (path text : String) :
    Mild c (c.changeIf (Context.setText path text) (.text path text))
      ((Context.setText path text).eval c).2 := by
  rw [changeIf, eval_setText]
  cases hset : c.table.setInput rules (.fileText path) (.text (.ofString text)) with
  | error e => exact .moves (.single (.names _))
  | ok u => exact .sets _ hset

/-- A query moves the session, be it answered or not. -/
theorem of_answers {α : Type} {x : Act (Versioned α)} {key : Key} {wrap : α → Value} {e : Violation}
    {names : Interner} {refused : Prop} (h : (refused ∧ x.eval c = (.error e, c.withNames names)) ∨
      ∃ v c', x.eval c = (.ok v, c') ∧ Answered c key ⟨wrap v.value, v.since⟩ c') :
    Mild c .nothing (x.eval c).2 := by
  cases h with
  | inl hrefused => exact .of_eval hrefused.2 (.moves (.single (.names _)))
  | inr hok =>
      obtain ⟨v, c', heval, hanswered⟩ := hok
      exact .of_eval heval (.moves hanswered.moves)

end Mild

theorem Op.mild {c : Context} (h : c.Sound) {op : Op} (hcalm : op.calm = true) :
    Mild c (op.change c) (op.after c) := by
  cases op with
  | intern name => exact .moves (.single (.names _))
  | setText path text => exact .of_setText c path text
  | load files path =>
      rw [after, change, eval_load_snd]
      cases files.read path with
      | error reason => exact .stays c
      | ok text => exact .of_setText c path text
  | fileText path => exact .of_answers (fileText_answers h path)
  | parse path => exact .of_answers (parse_answers h path)
  | moduleSymbols path => exact .of_answers (moduleSymbols_answers h path)
  | advance _ | collectGarbage => cases hcalm
  | node id => exact .of_eval (eval_node c id) (.stays c)
  | locate id => exact .of_eval (eval_locate c id) (.stays c)
  | dump id => exact .of_eval (eval_dump c id) (.stays c)
  | pin id =>
      rw [after, change, changeIf, eval_pin]
      cases hget : c.forest.get id with
      | error e => exact .stays c
      | ok n => exact .pins (Forest.contains_iff.mpr ⟨n, Forest.get_eq_ok.mp hget⟩)
  | unpin id =>
      rw [after, change, changeIf, eval_unpin]
      cases hpin : c.pins.lookup id with
      | none => exact .stays c
      | some n => exact .unpins hpin

/-- Every operation has one of the effects. -/
theorem Op.effect {c : Context} (h : c.Sound) (op : Op) : Effect c (op.change c) (op.after c) := by
  cases hcalm : op.calm with
  | true => exact (op.mild h hcalm).effect
  | false =>
      cases op with
      | advance keepOldResults =>
          obtain ⟨c₁, hc₁, heval⟩ := h.eval_advance keepOldResults
          rw [after, heval]
          exact .advances keepOldResults hc₁
      | collectGarbage =>
          obtain ⟨keep, hkeep, heval⟩ := h.eval_collectGarbage
          rw [after, heval]
          exact .collects hkeep
      | _ => cases hcalm

theorem Sound.effect {c c' : Context} {change : Change} (h : c.Sound) (heffect : Effect c change c') : c'.Sound := by
  cases heffect with
  | moves hmoves => exact h.moves hmoves
  | sets names hset =>
      obtain ⟨-, -, memo, rfl, -, hmemo⟩ := Table.setInput_ok hset
      obtain ⟨text', htext⟩ : ∃ text', memo.value = .text text' := by
        cases hmemo with
        | inl hnew => exact ⟨_, hnew.1⟩
        | inr hold =>
            obtain ⟨old, hthere, -, hvalue, -⟩ := hold
            exact hvalue ▸ h.fits _ old hthere
      refine (h.move (.names names)).store h.idle (Table.nodup_keys_put h.nodup _ _)
        (fun j => Table.memo?_put c.table _ j memo) ⟨text', htext⟩ (.refl (h.move (.names names)).world) ?_ ?_
      · simp [htext, Value.roots]
      · simp [htext]
  | pins hid => exact h.addPin hid
  | unpins _ => exact h.dropPin _
  | collects hkeep => exact h.collected hkeep
  | @advances c₁ keepOldResults hc₁ =>
      refine Sound.advanced (c := c₁) ?_ keepOldResults
      cases hc₁ with
      | inl heq => exact heq ▸ h.tick
      | inr hcollected =>
          obtain ⟨keep, hkeep, rfl⟩ := hcollected
          exact h.tick.collected hkeep

theorem Sound.after {c : Context} (h : c.Sound) (op : Op) : (op.after c).Sound := h.effect (op.effect h)

/-- The session after operations, one after the other. -/
def run (c : Context) (ops : List Op) : Context := ops.foldl (fun c op => op.after c) c

theorem Sound.run {c : Context} (h : c.Sound) (ops : List Op) : (c.run ops).Sound := by
  induction ops generalizing c with
  | nil => exact h
  | cons op rest ih => exact ih (h.after op)

end Context
end Palimpsest
