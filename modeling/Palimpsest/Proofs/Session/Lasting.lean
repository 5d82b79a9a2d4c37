import Palimpsest.Proofs.Session.Events

/-!
Answers that last. As long as the text of a path stays and results are kept from one revision to the next,
the tree of the path and its symbols are the very same whenever they are asked for, with every node where
it was, and their bodies do not run again, whatever else is done in between.
-/

namespace Palimpsest
namespace Context

open Session Query

/-- What is known about a path and can be shown current without running a body. -/
def Stands (c : Context) (path : String) (k : Key) : Prop :=
  k.path = path ∧ ∃ memo, c.table.Stands rules k memo

/-- Operations that give the path no other text and forget no results. -/
structure Unedited (c : Context) (path : String) (text : Option String) (ops : List Op) : Prop where
  kept : .advance false ∉ ops
  text_eq : ∀ t, .text path t ∈ c.changes ops → text = some t

section Upheld

variable {c c₀ : Context} {changes : List Change} {path : String} {S : Key → Prop} {t t₀ u : Table Key Value}

theorem path_of_read {k d : Key} {memo : Memo Key Value} (h : Fits k memo) (hk : k.isInput = false)
    (hd : d ∈ memo.reads) : d.path = k.path := by
  cases k with
  | fileText p => cases hk
  | parse p =>
      obtain rfl : d = .fileText p := by simpa [h.2] using hd
      rfl
  | moduleSymbols p =>
      obtain rfl : d = .parse p := by simpa [h.2] using hd
      rfl

/-- What stands about a path is upheld where it does. -/
theorem upholds_stands (hc : c.Sound) (hrest : c.table.Resting rules) (h : Current c changes) (path : String) :
    c.table.Upholds (c.Stands path) c.table := by
  refine .of_stands hrest h.changed_le (fun k hk => hk.2) fun k m d read hk hholds hd hstands => ?_
  exact ⟨(path_of_read (hc.fits k m hholds.2) hholds.1 hd).trans hk.1, read, hstands⟩

/-- What is current stands. -/
theorem stands_of_current (hc : c.Sound) {k : Key} {memo : Memo Key Value} (hmemo : c.table.memo? k = some memo)
    (hcurrent : k.isInput = true ∨ memo.verifiedAt = c.table.revision) : c.Stands k.path k := by
  have hnow : c.table.current? rules k = some memo.value := Table.current?_of_memo hmemo hcurrent
  exact ⟨rfl, memo, hmemo, Table.not_stale_of_current hc.nodup (by simp [hnow])⟩

theorem Turn.upholds {op : Op} {change : Change} {events : List (Event Key Value)}
    (hrest : t.Resting rules) (hturn : Turn t op change events u) (h : Table.Upholds S t₀ t)
    (hkept : op ≠ .advance false)
    (htext : ∀ p text m, change = .text p text → S (.fileText p) → t.memo? (.fileText p) = some m →
      m.value = .text (.ofString text)) :
    Table.Upholds S t₀ u ∧ ∀ k, S k → ∀ old, .started k old ∉ events := by
  cases hturn with
  | answers hsteps _ => exact h.steps hrest hsteps
  | @sets _ p text u hset =>
      refine ⟨h.setInput hrest hset fun hp m hm => ?_, fun _ _ _ => List.not_mem_nil⟩
      rw [htext p text m rfl hp hm]
      simp [rules, Value.same]
  | sweeps => exact ⟨h.swept hrest.orderly.nodup, fun _ _ _ => List.not_mem_nil⟩
  | @advances keep u hu =>
      obtain rfl : keep = true := by
        cases keep with
        | true => rfl
        | false => exact absurd rfl hkept
      have hu' : Table.Upholds S t₀ u := by
        rcases hu with rfl | rfl
        · exact h
        · exact h.swept hrest.orderly.nodup
      exact ⟨hu'.of_memos fun k _ => by simp [Table.memo?_advanced], fun _ _ _ => List.not_mem_nil⟩

end Upheld

section Frozen

variable {c c' s s' : Context} {roots : List NodeId}

/-- The node is there as it was, and where it was. -/
def Frozen (c s : Context) (id : NodeId) : Prop :=
  s.forest.get? id = c.forest.get? id ∧ s.locations.get? id = c.locations.get? id

/-- A root or a node below it leads to `id`. -/
def Below (c : Context) (roots : List NodeId) (id : NodeId) : Prop :=
  ∃ root ∈ roots, Relation.ReflTransGen c.forest.Child root id

theorem Below.contains (hc : c.Sound) (hroots : ∀ r ∈ roots, c.forest.contains r = true) {id : NodeId}
    (h : c.Below roots id) : c.forest.contains id = true :=
  hc.world.coherent.toBuilt.contains_of_reachable hroots (Forest.reachable_iff.mpr h)

/-- Nodes below roots that are still there stay as they were. -/
theorem Frozen.stable (hs' : s'.Sound) (hstable : Stable s s') (hc : c.Sound)
    (hroots : ∀ r ∈ roots, c.forest.contains r = true ∧ s'.forest.contains r = true)
    (h : ∀ id, c.Below roots id → Frozen c s id) {id : NodeId} (hid : c.Below roots id) : Frozen c s' id := by
  have hlive {id : NodeId} (hid : c.Below roots id) : s.forest.contains id = true := by
    rw [Forest.contains, (h id hid).1]
    exact hid.contains hc fun r hr => (hroots r hr).1
  have hsame {id : NodeId} (hid : c.Below roots id) (hthere : s'.forest.contains id = true) : Frozen c s' id := by
    obtain ⟨hnode, hplace⟩ := hstable id (hlive hid) hthere
    exact ⟨hnode.trans (h id hid).1, hplace.trans (h id hid).2⟩
  refine hsame hid ?_
  obtain ⟨root, hroot, hpath⟩ := hid
  induction hpath with
  | refl => exact (hroots root hroot).2
  | @tail a b hpath hchild ih =>
      obtain ⟨node, hnode, hb⟩ := hchild
      have ha := (hsame ⟨root, hroot, hpath⟩ ih).1.trans hnode
      exact hs'.world.coherent.contains_child ha b hb

end Frozen

/-- What stood about the path in `c` lasts in `s`, with the nodes below it. -/
structure Keeping (c s : Context) (path : String) : Prop where
  sound : s.Sound
  resting : s.table.Resting rules
  upholds : c.table.Upholds (c.Stands path) s.table
  frozen : ∀ k m, c.Stands path k → c.table.memo? k = some m → ∀ id, c.Below m.value.roots id → Frozen c s id

namespace Keeping

variable {c s : Context} {changes : List Change} {path : String}

theorem start (hc : c.Sound) (hrest : c.table.Resting rules) (h : Current c changes) (path : String) :
    c.Keeping c path :=
  ⟨hc, hrest, upholds_stands hc hrest h path, fun _ _ _ _ _ _ => ⟨rfl, rfl⟩⟩

variable (hc : c.Sound) (h : Current c changes)
include hc h

theorem after (hk : c.Keeping s path) {op : Op} (hkept : op ≠ .advance false)
    (htext : ∀ t, op.change s = .text path t → textOf changes path = some t) :
    c.Keeping (op.after s) path ∧ ∀ k, c.Stands path k → ∀ old, .started k old ∉ op.events s := by
  have hturn := op.turn hk.sound hk.resting
  have hsame (p text : String) (m : Memo Key Value) (hchange : op.change s = .text p text)
      (hp : c.Stands path (.fileText p)) (hm : s.table.memo? (.fileText p) = some m) :
      m.value = .text (.ofString text) := by
    obtain rfl : p = path := hp.1
    obtain ⟨m₀, m', hm₀, hm', hvalue, -⟩ := hk.upholds.same _ hp
    obtain rfl := Option.some.inj (hm.symm.trans hm')
    have htold := h.text p
    rw [htext text hchange, Table.value?, hm₀] at htold
    exact hvalue.trans (Option.some.inj htold)
  obtain ⟨hupholds, hspared⟩ := hturn.upholds hk.resting hk.upholds hkept hsame
  have hsound := hk.sound.after op
  refine ⟨⟨hsound, hturn.resting hk.resting, hupholds, fun k m hstands hm id hid => ?_⟩, hspared⟩
  refine Frozen.stable hsound ((op.effect hk.sound).stable hk.sound) hc (fun r hr => ⟨hc.held k m hm r hr, ?_⟩)
    (hk.frozen k m hstands hm) hid
  obtain ⟨m₀, m', hm₀, hm', hvalue, -⟩ := hupholds.same k hstands
  obtain rfl := Option.some.inj (hm.symm.trans hm₀)
  exact hsound.held k m' hm' r (hvalue ▸ hr)

theorem run (hk : c.Keeping s path) {ops : List Op} (hops : Unedited s path (textOf changes path) ops) :
    c.Keeping (s.run ops) path ∧ ∀ k, c.Stands path k → ∀ old, .started k old ∉ s.events ops := by
  induction ops generalizing s with
  | nil => exact ⟨hk, fun _ _ _ => List.not_mem_nil⟩
  | cons op rest ih =>
      obtain ⟨hafter, hspared⟩ := hk.after hc h (fun he => hops.kept (he ▸ List.mem_cons_self))
        fun t hchange => hops.text_eq t (hchange ▸ List.mem_cons_self)
      obtain ⟨hrun, hspared'⟩ := ih hafter
        ⟨fun hmem => hops.kept (List.mem_cons_of_mem op hmem),
          fun t hmem => hops.text_eq t (List.mem_cons_of_mem _ hmem)⟩
      refine ⟨hrun, fun k hstands old hmem => ?_⟩
      rcases List.mem_append.mp hmem with hmem | hmem
      · exact hspared k hstands old hmem
      · exact hspared' k hstands old hmem

/-- A query that is answered while it is kept has the answer of before. -/
theorem answer_eq (hk : c.Keeping s path) {k : Key} (hstands : c.Stands path k) {m : Memo Key Value}
    (hm : c.table.memo? k = some m) {v : Versioned Value} {d : Context} (hanswered : Answered s k v d)
    {op : Op} (hd : d = op.after s) (hkept : op ≠ .advance false) (hquiet : op.change s = .nothing) :
    v = ⟨m.value, m.changedAt⟩ := by
  obtain ⟨hlater, -⟩ := hk.after hc h hkept fun t hchange => by simp [hquiet] at hchange
  obtain ⟨m₀, m', hm₀, hm', hvalue, hchanged⟩ := hlater.upholds.same k hstands
  obtain ⟨memo, hmemo, hnow, hsince, -⟩ := hanswered.current
  rw [hd] at hmemo
  obtain rfl := Option.some.inj (hm.symm.trans hm₀)
  obtain rfl := Option.some.inj (hm'.symm.trans hmemo)
  cases v
  simp_all

omit h in
/-- A path that has a text keeps having one. -/
theorem text_ne_none (hk : c.Keeping s path) (htext : c.table.value? (.fileText path) ≠ none) :
    s.table.value? (.fileText path) ≠ none := by
  intro hnone
  obtain ⟨source, hsource, -⟩ := Option.map_eq_some_iff.mp (Option.ne_none_iff_exists'.mp htext).choose_spec
  have hstands : c.Stands path (.fileText path) := stands_of_current hc hsource (.inl rfl)
  obtain ⟨_, later, -, hlater, -⟩ := hk.upholds.same (.fileText path) hstands
  simp [Table.value?, hlater] at hnone

end Keeping

/-- An answer of `c` is the answer after the operations too, with every node of it where it was, and its
body is not started on the way. -/
structure Lasts {α : Type} (c : Context) (key : Key) (ask : Act (Versioned α)) (answer : Versioned α)
    (roots : List NodeId) (ops : List Op) : Prop where
  again : ∃ d, ask.eval (c.run ops) = (.ok answer, d)
  nodes : ∀ id, c.Below roots id → ∃ n l, (node id).eval c = (.ok n, c) ∧ (locate id).eval c = (.ok l, c) ∧
    (node id).eval (c.run ops) = (.ok n, c.run ops) ∧ (locate id).eval (c.run ops) = (.ok l, c.run ops)
  spared : ∀ old, .started key old ∉ c.events ops

section Answers

variable {c₀ c s : Context} {changes : List Change} {path : String} {k : Key} {answer : Versioned Value}

theorem Answered.stands (hc : c.Sound) (h : Answered c₀ k answer c) : c.Stands k.path k := by
  obtain ⟨memo, hmemo, -, -, hcurrent⟩ := h.current
  exact stands_of_current hc hmemo hcurrent

theorem Frozen.asked (hc : c.Sound) {id : NodeId} (hid : c.forest.contains id = true) (h : Frozen c s id) :
    ∃ n l, (node id).eval c = (.ok n, c) ∧ (locate id).eval c = (.ok l, c) ∧
      (node id).eval s = (.ok n, s) ∧ (locate id).eval s = (.ok l, s) := by
  obtain ⟨n, hn⟩ := Forest.contains_iff.mp hid
  obtain ⟨l, hl⟩ := (hc.wellFormed.located_iff id).mpr hid
  have hn' := h.1.trans hn
  have hl' := h.2.trans hl
  refine ⟨n, l, ?_, ?_, ?_, ?_⟩
  · rw [eval_node, Forest.get_eq_ok.mpr hn]
    rfl
  · rw [eval_locate, Forest.get_eq_ok.mpr hn, hl]
  · rw [eval_node, Forest.get_eq_ok.mpr hn']
    rfl
  · rw [eval_locate, Forest.get_eq_ok.mpr hn', hl']

end Answers

/-- An operation that asks for the value of a query, as `wrap` has it. -/
structure Asks {α : Type} (ask : Act (Versioned α)) (key : Key) (wrap : α → Value) (op : Op) : Prop where
  refused : ∀ s : Context, s.table.value? (.fileText key.path) = none → ∃ e d, ask.eval s = (.error e, d)
  answers : ∀ s : Context, s.Sound →
    (s.table.value? (.fileText key.path) = none ∧
      ask.eval s = (.error (.noText key.path), s.withNames (s.names.add key.path))) ∨
    ∃ v d, ask.eval s = (.ok v, d) ∧ Answered s key ⟨wrap v.value, v.since⟩ d
  after_eq : ∀ s, op.after s = (ask.eval s).2
  change_eq : ∀ s, op.change s = .nothing
  ne_advance : op ≠ .advance false
  inj : Function.Injective wrap

theorem asks_parse (path : String) : Asks (parse path) (.parse path) .parsed (.parse path) where
  refused s hnone := by
    have hquery : (query (.parse path)).eval s = _ := eval_query_noText hnone
    exact ⟨_, _, Act.eval_bind_error hquery⟩
  answers _ hs := parse_answers hs path
  after_eq _ := rfl
  change_eq _ := rfl
  ne_advance := by simp
  inj _ _ := Value.parsed.inj

theorem asks_moduleSymbols (path : String) :
    Asks (moduleSymbols path) (.moduleSymbols path) .symbols (.moduleSymbols path) where
  refused s hnone := by
    have hquery : (query (.moduleSymbols path)).eval s = _ := eval_query_noText hnone
    exact ⟨_, _, Act.eval_bind_error hquery⟩
  answers _ hs := moduleSymbols_answers hs path
  after_eq _ := rfl
  change_eq _ := rfl
  ne_advance := by simp
  inj _ _ := Value.symbols.inj

theorem Asks.answered {α : Type} {ask : Act (Versioned α)} {key : Key} {wrap : α → Value} {op : Op}
    (hask : Asks ask key wrap op) {c₀ c : Context} (hc₀ : c₀.Sound) {v : Versioned α}
    (heval : ask.eval c₀ = (.ok v, c)) : Answered c₀ key ⟨wrap v.value, v.since⟩ c := by
  cases hask.answers c₀ hc₀ with
  | inl hrefused => simp [heval] at hrefused
  | inr hok =>
      obtain ⟨v', d, hok, hanswered⟩ := hok
      obtain ⟨rfl, rfl⟩ : v = v' ∧ c = d := by simpa [heval] using hok
      exact hanswered

/-- About a path that has a text nothing is refused. -/
theorem Asks.eval_ok {α : Type} {ask : Act (Versioned α)} {key : Key} {wrap : α → Value} {op : Op}
    (hask : Asks ask key wrap op) {s : Context} (hs : s.Sound) (htext : s.table.value? (.fileText key.path) ≠ none) :
    ∃ v, ask.eval s = (.ok v, op.after s) ∧ Answered s key ⟨wrap v.value, v.since⟩ (op.after s) := by
  cases hask.answers s hs with
  | inl hrefused => exact absurd hrefused.1 htext
  | inr hok =>
      obtain ⟨v, d, hok, hanswered⟩ := hok
      obtain rfl : op.after s = d := by rw [hask.after_eq, hok]
      exact ⟨v, hok, hanswered⟩

theorem Asks.resting {α : Type} {ask : Act (Versioned α)} {key : Key} {wrap : α → Value} {op : Op}
    (hask : Asks ask key wrap op) {c₀ c : Context} (hc₀ : c₀.Sound) (hrest : c₀.table.Resting rules)
    {v : Versioned α} (heval : ask.eval c₀ = (.ok v, c)) : c.table.Resting rules := by
  have hafter : op.after c₀ = c := by rw [hask.after_eq, heval]
  exact hafter ▸ (op.turn hc₀ hrest).resting hrest

theorem Asks.text_ne_none {α : Type} {ask : Act (Versioned α)} {key : Key} {wrap : α → Value} {op : Op}
    (hask : Asks ask key wrap op) {c₀ c : Context} {v : Versioned α} (heval : ask.eval c₀ = (.ok v, c)) :
    c₀.table.value? (.fileText key.path) ≠ none := by
  intro hnone
  obtain ⟨e, d, hrefused⟩ := hask.refused c₀ hnone
  simp [heval] at hrefused

theorem Asks.lasts {α : Type} {ask : Act (Versioned α)} {key : Key} {wrap : α → Value} {op : Op}
    (hask : Asks ask key wrap op) {c₀ c : Context} {changes : List Change} (hc₀ : c₀.Sound)
    (hrest₀ : c₀.table.Resting rules) (h₀ : Current c₀ changes) {v : Versioned α}
    (heval : ask.eval c₀ = (.ok v, c)) {ops : List Op}
    (hops : Unedited c key.path (textOf changes key.path) ops) :
    Lasts c key ask v (wrap v.value).roots ops := by
  have hanswered := hask.answered hc₀ heval
  have hc := hc₀.moves hanswered.moves
  have h := h₀.moves hc₀ hanswered.moves
  have hrest := hask.resting hc₀ hrest₀ heval
  obtain ⟨hk, hspared⟩ := (Keeping.start hc hrest h key.path).run hc h hops
  obtain ⟨m, hm, hvalue, hsince, -⟩ := hanswered.current
  have hvalue : m.value = wrap v.value := hvalue
  refine ⟨?_, fun id hid => ?_, hspared key (hanswered.stands hc)⟩
  · have htext : c.table.value? (.fileText key.path) ≠ none := by
      rw [h.text, ← h₀.text]
      exact hask.text_ne_none heval
    obtain ⟨v', hok, hanswered'⟩ := hask.eval_ok hk.sound (hk.text_ne_none hc htext)
    have hsame := hk.answer_eq hc h (hanswered.stands hc) hm hanswered' rfl hask.ne_advance (hask.change_eq _)
    have hvalue' : wrap v'.value = wrap v.value := (congrArg Versioned.value hsame).trans hvalue
    have hsince' : v'.since = v.since := (congrArg Versioned.since hsame).trans hsince
    cases v
    cases v'
    obtain rfl := hask.inj hvalue'
    obtain rfl := hsince'
    exact ⟨op.after (c.run ops), hok⟩
  · have hroots (r : NodeId) (hr : r ∈ (wrap v.value).roots) : c.forest.contains r = true :=
      hc.held key m hm r (hvalue ▸ hr)
    exact (hk.frozen key m (hanswered.stands hc) hm id (hvalue ▸ hid)).asked hc (hid.contains hc hroots)

/-- Whatever was done before and is done afterwards: as long as a path is not edited and results are kept,
its tree and its symbols last once they have been asked for. -/
theorem answers_last (tuning : Tuning) (before : List Op) (path : String) (c : Context) (ops : List Op)
    (hops : Unedited c path (textOf ((fresh tuning).changes before) path) ops) :
    (∀ v, (parse path).eval ((fresh tuning).run before) = (.ok v, c) →
      Lasts c (.parse path) (parse path) v v.value.modules ops) ∧
    (∀ v, (moduleSymbols path).eval ((fresh tuning).run before) = (.ok v, c) →
      Lasts c (.moduleSymbols path) (moduleSymbols path) v (Value.symbols v.value).roots ops) := by
  have hsound : ((fresh tuning).run before).Sound := (sound_fresh tuning).run before
  have hrest := resting_run (sound_fresh tuning) (Table.Resting.empty rules) before
  have hcurrent : Current ((fresh tuning).run before) ((fresh tuning).changes before) :=
    (current_fresh tuning).run (sound_fresh tuning) before
  exact ⟨fun v heval => (asks_parse path).lasts hsound hrest hcurrent heval hops,
    fun v heval => (asks_moduleSymbols path).lasts hsound hrest hcurrent heval hops⟩

/-- Another path is edited, garbage collected and the same text set again. -/
theorem answers_last_reset :
    ∃ v c, (parse "m").eval ((fresh .standard).run [.setText "m" "var x;", .setText "n" "var y;", .parse "n"]) =
        (.ok v, c) ∧
      Lasts c (.parse "m") (parse "m") v v.value.modules
        [.advance true, .setText "n" "", .parse "n", .collectGarbage, .advance true, .setText "m" "var x;"] := by
  rcases heval : (parse "m").eval ((fresh .standard).run
    [.setText "m" "var x;", .setText "n" "var y;", .parse "n"]) with ⟨e | v, c⟩
  · have hok : ((parse "m").eval ((fresh .standard).run
        [.setText "m" "var x;", .setText "n" "var y;", .parse "n"])).1.toBool = true := by decide +kernel
    simp [heval, Except.toBool] at hok
  · refine ⟨v, c, rfl, (answers_last .standard _ "m" c _ ⟨by simp, ?_⟩).1 v heval⟩
    have hbefore : textOf ((fresh .standard).changes
        [.setText "m" "var x;", .setText "n" "var y;", .parse "n"]) "m" = some "var x;" := by decide +kernel
    have hchanges : ((parse "m").eval ((fresh .standard).run
        [.setText "m" "var x;", .setText "n" "var y;", .parse "n"])).2.changes
        [.advance true, .setText "n" "", .parse "n", .collectGarbage, .advance true, .setText "m" "var x;"] =
        [.nothing, .text "n" "", .nothing, .nothing, .nothing, .text "m" "var x;"] := by decide +kernel
    rw [heval] at hchanges
    intro t hmem
    rw [hchanges] at hmem
    rw [hbefore]
    obtain rfl : t = "var x;" := by simpa using hmem
    rfl

end Context
end Palimpsest
