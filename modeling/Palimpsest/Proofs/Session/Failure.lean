import Palimpsest.Proofs.Session.Invariant

/-!
Operations that fail. What can be wrong is looked at before anything is done, so that a failure leaves the
session as it was but for the name of a path; a query in particular fails only for want of a text.
-/

namespace Palimpsest

theorem Forest.get_freed {f : Forest} {id : NodeId} (h : f.contains id = false) : f.get id = .error ⟨id⟩ := by
  have hget : f.get? id = none := by simpa [contains] using h
  rw [Forest.get, hget]

theorem Forest.dump_freed {f : Forest} {id : NodeId} (h : f.contains id = false) (t : Locations) :
    f.dump t id = .error ⟨id⟩ := by
  have hget : f.get? id = none := by simpa [contains] using h
  have hsize : f.sizeOf id = 1 := by
    rw [Forest.sizeOf, hget]
    rfl
  simp [dump, TreeView.withDepths, TreeView.depthLoop, view, hsize, get_freed h, Bind.bind, Except.bind, Pure.pure,
    Except.pure]

namespace Context

open Session Query

/-- Why an operation fails: it is refused, or a file cannot be read. -/
inductive Failure where
  | refused (violation : Violation)
  | unread (error : LoadError)
deriving DecidableEq

/-- Why an operation on `c` is refused, if it is. -/
def Act.failure? {α : Type} (x : Act α) (c : Context) : Option Failure :=
  match (x.eval c).1 with
  | .ok _ => none
  | .error violation => some (.refused violation)

/-- Why an operation fails, if it does. -/
def Op.failure? (c : Context) : Op → Option Failure
  | intern name => (Context.intern name).failure? c
  | setText path text => (Context.setText path text).failure? c
  | load files path =>
    match ((Context.load files path).eval c).1 with
    | .ok (.ok ()) => none
    | .ok (.error error) => some (.unread error)
    | .error violation => some (.refused violation)
  | fileText path => (Context.fileText path).failure? c
  | parse path => (Context.parse path).failure? c
  | moduleSymbols path => (Context.moduleSymbols path).failure? c
  | advance keepOldResults => (Context.advance keepOldResults).failure? c
  | collectGarbage => Context.collectGarbage.failure? c
  | node id => (Context.node id).failure? c
  | locate id => (Context.locate id).failure? c
  | dump id => (Context.dump id).failure? c
  | pin id => (Context.pin id).failure? c
  | unpin id => (Context.unpin id).failure? c

/-- The reasons for which operations fail, each with the ledger of names that is left. -/
inductive Fails (c : Context) : Op → Failure → Interner → Prop where
  | closed (path text : String) (h : c.table.accepting = false) :
      Fails c (.setText path text) (.refused (.query (.windowClosed (.fileText path) c.revision))) (c.names.add path)
  | unread {files : Files} {path : String} {reason : FileError} (h : files.read path = .error reason) :
      Fails c (.load files path) (.unread ⟨path, reason⟩) c.names
  | closedForLoad {files : Files} {path text : String} (hread : files.read path = .ok text)
      (h : c.table.accepting = false) :
      Fails c (.load files path) (.refused (.query (.windowClosed (.fileText path) c.revision))) (c.names.add path)
  | fileText {path : String} (h : c.table.value? (.fileText path) = none) :
      Fails c (.fileText path) (.refused (.noText path)) (c.names.add path)
  | parse {path : String} (h : c.table.value? (.fileText path) = none) :
      Fails c (.parse path) (.refused (.noText path)) (c.names.add path)
  | moduleSymbols {path : String} (h : c.table.value? (.fileText path) = none) :
      Fails c (.moduleSymbols path) (.refused (.noText path)) (c.names.add path)
  | node {id : NodeId} (h : c.forest.contains id = false) : Fails c (.node id) (.refused (.freed ⟨id⟩)) c.names
  | locate {id : NodeId} (h : c.forest.contains id = false) : Fails c (.locate id) (.refused (.freed ⟨id⟩)) c.names
  | dump {id : NodeId} (h : c.forest.contains id = false) : Fails c (.dump id) (.refused (.freed ⟨id⟩)) c.names
  | pin {id : NodeId} (h : c.forest.contains id = false) : Fails c (.pin id) (.refused (.freed ⟨id⟩)) c.names
  | unpin {id : NodeId} (h : c.pins.lookup id = none) : Fails c (.unpin id) (.refused (.notPinned id)) c.names

/-- How an operation ends: it does not fail and nothing is wrong, or it fails for a reason and leaves a
session that differs in names at most. -/
inductive Ends (c : Context) (op : Op) : Prop where
  | well (h : op.failure? c = none) (hright : ∀ failure names, ¬ Fails c op failure names)
  | badly {failure : Failure} {names : Interner} (h : op.failure? c = some failure)
      (hafter : op.after c = c.withNames names) (hwrong : Fails c op failure names)

section Ways

variable {c c' : Context} {α : Type} {x : Act α}

theorem failure?_of_ok {a : α} (h : x.eval c = (.ok a, c')) : x.failure? c = none := by
  rw [Act.failure?, h]

theorem failure?_of_error {v : Violation} (h : x.eval c = (.error v, c')) : x.failure? c = some (.refused v) := by
  rw [Act.failure?, h]

/-- An operation that is refused exactly if something is wrong. -/
theorem Ends.of_guard {op : Op} {wrong : Prop} {violation : Violation} {names : Interner}
    (hfailure : op.failure? c = x.failure? c) (hafter : op.after c = (x.eval c).2)
    (hfails : ∀ failure names, Fails c op failure names → wrong)
    (hwrong : wrong → Fails c op (.refused violation) names)
    (hrefused : wrong → x.eval c = (.error violation, c.withNames names))
    (hright : ¬ wrong → ∃ a c', x.eval c = (.ok a, c')) : Ends c op := by
  by_cases h : wrong
  · have heval := hrefused h
    refine .badly (hfailure.trans (failure?_of_error heval)) ?_ (hwrong h)
    rw [hafter, heval]
  · obtain ⟨a, c', heval⟩ := hright h
    exact .well (hfailure.trans (failure?_of_ok heval)) fun failure names hf => h (hfails failure names hf)

end Ways

section Refusals

variable (c : Context)

theorem eval_setText_closed (h : c.table.accepting = false) (path text : String) :
    (setText path text).eval c =
      (.error (.query (.windowClosed (.fileText path) c.revision)), c.withNames (c.names.add path)) := by
  have hinput : rules.isInput (.fileText path) = true := rfl
  rw [eval_setText, Table.setInput]
  simp only [hinput, h, Bool.not_true, Bool.not_false, Bool.false_eq_true, ite_false, ite_true]
  rfl

theorem eval_setText_open (h : c.table.accepting = true) (path text : String) :
    ∃ c', (setText path text).eval c = (.ok (), c') := by
  have hset : ∃ u, c.table.setInput rules (.fileText path) (.text (.ofString text)) = .ok u := by
    have hinput : rules.isInput (.fileText path) = true := rfl
    rw [Table.setInput]
    simp only [hinput, h, Bool.not_true, Bool.false_eq_true, ite_false]
    split
    · split <;> exact ⟨_, rfl⟩
    · exact ⟨_, rfl⟩
  obtain ⟨u, hu⟩ := hset
  rw [eval_setText, hu]
  exact ⟨_, rfl⟩

theorem ends_load (files : Files) (path : String) : Ends c (.load files path) := by
  have hload := eval_load c path files
  cases hread : files.read path with
  | error reason =>
      rw [hread] at hload
      refine .badly ?_ ?_ (.unread hread)
      · rw [Op.failure?, hload]
      · rw [Op.after, hload]
        rfl
  | ok text =>
      cases hwindow : c.table.accepting with
      | false =>
          have hset := eval_setText_closed c hwindow path text
          simp only [hread, hset] at hload
          refine .badly ?_ ?_ (.closedForLoad hread hwindow)
          · rw [Op.failure?, hload]
          · rw [Op.after, hload]
      | true =>
          obtain ⟨c', hset⟩ := eval_setText_open c hwindow path text
          simp only [hread, hset] at hload
          refine .well ?_ fun failure names hfails => ?_
          · rw [Op.failure?, hload]
          · cases hfails with
            | unread hread' => cases hread.symm.trans hread'
            | closedForLoad _ hclosed => cases hwindow.symm.trans hclosed

end Refusals

namespace Sound

variable {c : Context}

/-- Whatever is asked, there is one of the reasons to fail or no failure. -/
theorem ends (h : c.Sound) (op : Op) : Ends c op := by
  have hanswers {α : Type} {x : Act α} {path : String} {refusal : Prop} {answer : α → Context → Prop}
      (hx : (c.table.value? (.fileText path) = none ∧ refusal) ∨ ∃ v c', x.eval c = (.ok v, c') ∧ answer v c')
      (hsome : ¬ c.table.value? (.fileText path) = none) : ∃ v c', x.eval c = (.ok v, c') := by
    obtain ⟨hnone, -⟩ | ⟨v, c', heval, -⟩ := hx
    · exact absurd hnone hsome
    · exact ⟨v, c', heval⟩
  have hlive {id : NodeId} (hid : ¬ c.forest.contains id = false) : c.forest.contains id = true := by simpa using hid
  cases op with
  | intern name =>
      refine .well (failure?_of_ok (eval_intern c name)) fun failure names hfails => ?_
      cases hfails
  | advance keepOldResults =>
      obtain ⟨c', -, heval⟩ := h.eval_advance keepOldResults
      refine .well (failure?_of_ok heval) fun failure names hfails => ?_
      cases hfails
  | collectGarbage =>
      obtain ⟨keep, -, heval⟩ := h.eval_collectGarbage
      refine .well (failure?_of_ok heval) fun failure names hfails => ?_
      cases hfails
  | setText path text =>
      refine .of_guard (x := Context.setText path text) rfl rfl ?_ (.closed path text)
        (fun hclosed => eval_setText_closed c hclosed path text) fun hopen => ?_
      · rintro failure names ⟨⟩
        assumption
      · obtain ⟨c', heval⟩ := eval_setText_open c (by simpa using hopen) path text
        exact ⟨(), c', heval⟩
  | load files path => exact ends_load c files path
  | fileText path =>
      refine .of_guard (x := Context.fileText path) rfl rfl ?_ .fileText
        (fun hnone => Act.eval_bind_error (eval_query_noText hnone)) (hanswers (fileText_answers h path))
      rintro failure names ⟨⟩
      assumption
  | parse path =>
      refine .of_guard (x := Context.parse path) rfl rfl ?_ .parse
        (fun hnone => Act.eval_bind_error (eval_query_noText hnone)) (hanswers (parse_answers h path))
      rintro failure names ⟨⟩
      assumption
  | moduleSymbols path =>
      refine .of_guard (x := Context.moduleSymbols path) rfl rfl ?_ .moduleSymbols
        (fun hnone => Act.eval_bind_error (eval_query_noText hnone)) (hanswers (moduleSymbols_answers h path))
      rintro failure names ⟨⟩
      assumption
  | node id =>
      refine .of_guard (x := Context.node id) rfl rfl ?_ .node (fun hid => ?_) fun hid => ?_
      · rintro failure names ⟨⟩
        assumption
      · rw [eval_node, Forest.get_freed hid]
        rfl
      · obtain ⟨node, heval⟩ := (h.walkable (hlive hid)).node
        exact ⟨node, c, heval⟩
  | locate id =>
      refine .of_guard (x := Context.locate id) rfl rfl ?_ .locate (fun hid => ?_) fun hid => ?_
      · rintro failure names ⟨⟩
        assumption
      · rw [eval_locate, Forest.get_freed hid]
        rfl
      · obtain ⟨place, heval⟩ := h.locate_ok (hlive hid)
        exact ⟨place, c, heval⟩
  | dump id =>
      refine .of_guard (x := Context.dump id) rfl rfl ?_ .dump (fun hid => ?_) fun hid => ?_
      · rintro failure names ⟨⟩
        assumption
      · rw [eval_dump, Forest.dump_freed hid]
        rfl
      · obtain ⟨text, heval⟩ := (h.walkable (hlive hid)).dump
        exact ⟨text, c, heval⟩
  | pin id =>
      refine .of_guard (x := Context.pin id) rfl rfl ?_ .pin (fun hid => ?_) fun hid => ?_
      · rintro failure names ⟨⟩
        assumption
      · rw [eval_pin, Forest.get_freed hid]
        rfl
      · obtain ⟨node, hnode⟩ := Forest.contains_iff.mp (hlive hid)
        exact ⟨(), _, by rw [eval_pin, Forest.get_eq_ok.mpr hnode]⟩
  | unpin id =>
      refine .of_guard (x := Context.unpin id) rfl rfl ?_ .unpin (fun hnone => ?_) fun hsome => ?_
      · rintro failure names ⟨⟩
        assumption
      · rw [eval_unpin, hnone]
        rfl
      · obtain ⟨n, hn⟩ := Option.ne_none_iff_exists'.mp hsome
        exact ⟨(), _, by rw [eval_unpin, hn]⟩

end Sound

/-- Reasons exclude each other. -/
theorem Fails.unique {c : Context} {op : Op} {failure failure' : Failure} {names names' : Interner}
    (h : Fails c op failure names) (h' : Fails c op failure' names') : failure = failure' ∧ names = names' := by
  cases h with
  | closed _ _ _ | fileText _ | parse _ | moduleSymbols _ | node _ | locate _ | dump _ | pin _ | unpin _ =>
      cases h'
      exact ⟨rfl, rfl⟩
  | unread hread =>
      cases h' with
      | unread hread' =>
          rw [Except.error.inj (hread.symm.trans hread')]
          exact ⟨rfl, rfl⟩
      | closedForLoad hread' _ => cases hread.symm.trans hread'
  | closedForLoad hread _ =>
      cases h' with
      | unread hread' => cases hread.symm.trans hread'
      | closedForLoad _ _ => exact ⟨rfl, rfl⟩

/-- Whatever was asked of a session: what is asked next fails exactly for one of the reasons, and then leaves
the session as it was, at most with one more name. -/
theorem run_fails_iff (tuning : Tuning) (before : List Op) (op : Op) (failure : Failure) (c' : Context) :
    (op.failure? ((fresh tuning).run before) = some failure ∧ op.after ((fresh tuning).run before) = c') ↔
      ∃ names, Fails ((fresh tuning).run before) op failure names ∧
        c' = ((fresh tuning).run before).withNames names := by
  generalize hc : (fresh tuning).run before = c
  have hsound : c.Sound := hc ▸ (sound_fresh tuning).run before
  constructor
  · rintro ⟨hfailure, rfl⟩
    cases hsound.ends op with
    | well hnone _ =>
        rw [hnone] at hfailure
        cases hfailure
    | @badly _ names hsome hafter hwrong =>
        obtain rfl := Option.some.inj (hfailure.symm.trans hsome)
        exact ⟨names, hwrong, hafter⟩
  · rintro ⟨names, hwrong, rfl⟩
    cases hsound.ends op with
    | well _ hright => exact absurd hwrong (hright failure names)
    | badly hsome hafter hwrong' =>
        obtain ⟨rfl, rfl⟩ := hwrong.unique hwrong'
        exact ⟨hsome, hafter⟩

end Context
end Palimpsest
