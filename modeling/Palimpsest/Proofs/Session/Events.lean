import Palimpsest.Proofs.Query.Kept
import Palimpsest.Proofs.Session.Settled

/-!
What happens to queries while operations are carried out on a session, as bodies that keep a log tell it,
and what each operation does to the memo table.
-/

namespace Palimpsest
namespace Context

open Session Query

/-- What happens to queries while one is answered. -/
def queryEvents (c : Context) (key : Key) : List (Event Key Value) :=
  match (requireText key.path).eval c with
  | (.ok _, c') => ((Run.fetch rules.logged queryDepth key).eval ⟨c'.table, (c'.state.world, [])⟩).2.world.2
  | (.error _, _) => []

/-- What happens to queries while an operation is carried out. -/
def Op.events (c : Context) : Op → List (Event Key Value)
  | fileText path => c.queryEvents (.fileText path)
  | parse path => c.queryEvents (.parse path)
  | moduleSymbols path => c.queryEvents (.moduleSymbols path)
  | _ => []

/-- What happens to queries while operations are carried out, one after the other. -/
def events : Context → List Op → List (Event Key Value)
  | _, [] => []
  | c, op :: rest => op.events c ++ events (op.after c) rest

theorem run_append (c : Context) (ops more : List Op) : c.run (ops ++ more) = (c.run ops).run more :=
  List.foldl_append

/-- What an operation does to the memo table. -/
inductive Turn (t : Table Key Value) : Op → Change → List (Event Key Value) → Table Key Value → Prop where
  | answers {op : Op} {change : Change} {events : List (Event Key Value)} {u : Table Key Value}
      (hsteps : Steps rules (t, []) (u, events)) (hrest : u.Resting rules) : Turn t op change events u
  | sets {op : Op} {path text : String} {u : Table Key Value}
      (h : t.setInput rules (.fileText path) (.text (.ofString text)) = .ok u) :
      Turn t op (.text path text) [] u
  | sweeps : Turn t .collectGarbage .nothing [] (t.swept rules)
  | advances {keep : Bool} {u : Table Key Value} (h : u = t ∨ u = t.swept rules) :
      Turn t (.advance keep) .nothing [] (u.advanced rules keep)

section Queries

variable {c : Context}

theorem eval_fileText_snd (c : Context) (path : String) :
    ((fileText path).eval c).2 = ((query (.fileText path)).eval c).2 := by
  rw [fileText, Act.eval_bind]
  rcases (query (.fileText path)).eval c with ⟨_ | ⟨v, since⟩, c'⟩
  · rfl
  · cases v <;> rfl

theorem eval_parse_snd (c : Context) (path : String) :
    ((parse path).eval c).2 = ((query (.parse path)).eval c).2 := by
  rw [parse, Act.eval_bind]
  rcases (query (.parse path)).eval c with ⟨_ | ⟨v, since⟩, c'⟩
  · rfl
  · cases v <;> rfl

theorem eval_moduleSymbols_snd (c : Context) (path : String) :
    ((moduleSymbols path).eval c).2 = ((query (.moduleSymbols path)).eval c).2 := by
  rw [moduleSymbols, Act.eval_bind]
  rcases (query (.moduleSymbols path)).eval c with ⟨_ | ⟨v, since⟩, c'⟩
  · rfl
  · cases v <;> rfl

theorem query_steps (h : c.Sound) (hrest : c.table.Resting rules) (key : Key) :
    Steps rules (c.table, []) (((query key).eval c).2.table, c.queryEvents key) ∧
      ((query key).eval c).2.table.Resting rules := by
  have hrequire := eval_requireText c key.path
  cases hvalue : c.table.value? (.fileText key.path) with
  | none =>
      rw [hvalue] at hrequire
      rw [eval_query_noText hvalue, queryEvents, hrequire]
      exact ⟨.refl, hrest⟩
  | some value =>
      rw [hvalue] at hrequire
      have hnames : Move c (c.withNames (c.names.add key.path)) := .names _
      obtain ⟨v, table, world, memo, hfetch, hmemo, -⟩ := fetch_answers (h.move hnames) hvalue
      obtain ⟨events, hlogged⟩ := Run.fetch_logged hfetch []
      have hsteps : Steps rules (c.table, []) (table, events) := hrest.fetch_steps hlogged
      have hevents : c.queryEvents key = events := by
        rw [queryEvents, hrequire]
        exact congrArg (fun r => r.2.world.2) hlogged
      rw [eval_query_ok hvalue hfetch hmemo, hevents]
      exact ⟨hsteps, hrest.fetched hfetch⟩

theorem Turn.of_query (h : c.Sound) (hrest : c.table.Resting rules) (key : Key) {α : Type} {x : Act α}
    (hx : (x.eval c).2 = ((query key).eval c).2) (op : Op) (change : Change) :
    Turn c.table op change (c.queryEvents key) (x.eval c).2.table := by
  obtain ⟨hsteps, hlater⟩ := query_steps h hrest key
  rw [hx]
  exact .answers hsteps hlater

theorem Turn.of_setText (hrest : c.table.Resting rules) (op : Op) (path text : String) :
    Turn c.table op (c.changeIf (Context.setText path text) (.text path text)) []
      ((Context.setText path text).eval c).2.table := by
  rw [changeIf, eval_setText]
  cases hset : c.table.setInput rules (.fileText path) (.text (.ofString text)) with
  | error e => exact .answers .refl hrest
  | ok u => exact .sets hset

end Queries

/-- Every operation does one of these things. -/
theorem Op.turn {c : Context} (h : c.Sound) (hrest : c.table.Resting rules) (op : Op) :
    Turn c.table op (op.change c) (op.events c) (op.after c).table := by
  have hstays {op : Op} {change : Change} : Turn c.table op change [] c.table := .answers .refl hrest
  cases op with
  | intern name => exact hstays
  | setText path text => exact .of_setText hrest _ path text
  | load files path =>
      simp only [after, change, events, eval_load_snd]
      cases files.read path with
      | error reason => exact hstays
      | ok text => exact .of_setText hrest _ path text
  | fileText path => exact .of_query h hrest _ (eval_fileText_snd c path) _ _
  | parse path => exact .of_query h hrest _ (eval_parse_snd c path) _ _
  | moduleSymbols path => exact .of_query h hrest _ (eval_moduleSymbols_snd c path) _ _
  | advance keepOldResults =>
      obtain ⟨c₁, hc₁, heval⟩ := h.eval_advance keepOldResults
      rw [after, heval]
      refine .advances ?_
      cases hc₁ with
      | inl heq =>
          subst heq
          exact .inl rfl
      | inr hcollected =>
          obtain ⟨keep, -, rfl⟩ := hcollected
          exact .inr rfl
  | collectGarbage =>
      obtain ⟨keep, -, heval⟩ := h.eval_collectGarbage
      rw [after, heval]
      exact .sweeps
  | node id =>
      rw [after, eval_node]
      exact hstays
  | locate id =>
      rw [after, eval_locate]
      exact hstays
  | dump id =>
      rw [after, eval_dump]
      exact hstays
  | pin id =>
      rw [after, eval_pin]
      cases c.forest.get id <;> exact hstays
  | unpin id =>
      rw [after, eval_unpin]
      cases c.pins.lookup id <;> exact hstays

theorem Turn.resting {t u : Table Key Value} {op : Op} {change : Change} {events : List (Event Key Value)}
    (hrest : t.Resting rules) (h : Turn t op change events u) : u.Resting rules := by
  cases h with
  | answers _ hlater => exact hlater
  | sets hset =>
      obtain ⟨hinput, hopen, memo, rfl, -, -⟩ := Table.setInput_ok hset
      exact hrest.put_input hopen hinput (Table.reads_setInput hset (Table.memo?_put_self _ _ _))
  | sweeps => exact hrest.swept
  | advances hu =>
      rcases hu with rfl | rfl
      · exact hrest.advanced _
      · exact hrest.swept.advanced _

theorem resting_run {c : Context} (h : c.Sound) (hrest : c.table.Resting rules) (ops : List Op) :
    (c.run ops).table.Resting rules := by
  induction ops generalizing c with
  | nil => exact hrest
  | cons op rest ih => exact ih (h.after op) ((op.turn h hrest).resting hrest)

end Context
end Palimpsest
