import Palimpsest.Proofs.Reconcile.Same
import Palimpsest.Proofs.Session.Lasting

/-!
Edits of layout. A text that differs from the one of before in blanks only has the drafts of before, at other
places, so that its tree is the one of before; and if nothing is reported, whatever was read off that tree is
not read off again.
-/

namespace Palimpsest

open Query

namespace Session

/-- A text parsed against the tree of another one in which the same is written. -/
theorem World.parse_same {w : World} (hw : w.Sound) (path : String) {old text : String}
    (hsame : written old = written text) {roots : List NodeId}
    (hanswers : List.Forall₂ (Reconcile.Answers (draftsOf path (.ofString old)).drafts w.forest)
      (draftsOf path (.ofString old)).roots roots) (hnodup : (roots.flatMap w.forest.subtree).Nodup) :
    ∃ made w', w.parse path (.ofString text) roots = .ok (made, w') ∧ made.modules = roots ∧
      made.diagnostics = Diagnostic.inTextOrder (Surface.parseText text).reports ∧ w'.forest = w.forest := by
  have hdrafts : (draftsOf path (.ofString text)).Lowered := DraftTree.lowered_ofFile _ _
  have hunplaced : (draftsOf path (.ofString old)).unplaced = (draftsOf path (.ofString text)).unplaced :=
    DraftTree.unplaced_ofText hsame _
  obtain ⟨s, hrun, hforest, -⟩ := reconcile_same hw.tidy hw.coherent.toBuilt w.locations hdrafts hunplaced
    hanswers hnodup path (.ofString text)
  rw [parse_eq, hrun]
  exact ⟨_, _, rfl, rfl, rfl, hforest⟩

end Session

namespace Context

open Session

/-- The same is written in the text as in `old`, and nothing is reported of it if `quiet`. -/
def Relays (old : String) (quiet : Prop) (text : String) : Prop :=
  written old = written text ∧ (quiet → (Surface.parseText text).reports = [])

/-- The tree of a path is still that of `old`, the one of `v`; the very same result if `quiet`. -/
structure Relaid (path old : String) (quiet : Prop) (v : Versioned ParsedFile) (s : Context) : Prop where
  clean : quiet → v.value.diagnostics = []
  answers : List.Forall₂ (Reconcile.Answers (draftsOf path (.ofString old)).drafts s.forest)
    (draftsOf path (.ofString old)).roots v.value.modules
  tree : ∃ memo parsed, s.table.memo? (.parse path) = some memo ∧ memo.value = .parsed parsed ∧
    parsed.modules = v.value.modules ∧ (quiet → parsed = v.value ∧ memo.changedAt = v.since)

/-- The path has texts that relay `old` only. -/
def Told (path old : String) (quiet : Prop) (changes : List Change) : Prop :=
  ∀ text, textOf changes path = some text → Relays old quiet text

section Relaid

variable {path old : String} {quiet : Prop} {v : Versioned ParsedFile} {s s' : Context} {changes : List Change}

theorem Told.concat (h : Told path old quiet changes) {change : Change}
    (hchange : ∀ t, change = .text path t → Relays old quiet t) : Told path old quiet (changes ++ [change]) := by
  intro text htext
  rw [textOf_concat] at htext
  cases change with
  | text p t =>
      by_cases hp : p = path
      · obtain rfl : t = text := by simpa [hp] using htext
        exact hchange t (by rw [hp])
      · exact h text (by simpa [hp] using htext)
  | nothing | pin _ | unpin _ => exact h text htext

namespace Relaid

theorem nodup (hs : s.Sound) (h : Relaid path old quiet v s) :
    (v.value.modules.flatMap s.forest.subtree).Nodup := by
  obtain ⟨memo, parsed, hmemo, hvalue, hmodules, -⟩ := h.tree
  exact hmodules ▸ hs.once _ memo parsed hmemo hvalue

/-- Where a tree of the path comes from, it is the one of before. -/
theorem of_tree (hs : s.Sound) (h : Relaid path old quiet v s) {text : String} (htext : Relays old quiet text)
    {source memo : Memo Key Value} {parsed : ParsedFile} {w : World} (hvalue : memo.value = .parsed parsed)
    (hof : TreeOf s.table s.state.world path (.ofString text) source memo parsed w) :
    w.forest = s.forest ∧ parsed.modules = v.value.modules ∧
      (quiet → parsed = v.value ∧ memo.changedAt = v.since) := by
  obtain ⟨stored, before, hstored, hbefore, hmodules, hexact⟩ := h.tree
  cases hof with
  | kept hold hvalue' _ hsince =>
      obtain rfl := Option.some.inj (hstored.symm.trans hold)
      obtain rfl := Value.parsed.inj (hbefore.symm.trans hvalue')
      exact ⟨rfl, hmodules, fun hquiet => ⟨(hexact hquiet).1, hsince.trans (hexact hquiet).2⟩⟩
  | parsed _ _ hmade =>
      obtain ⟨made, hparse, hagrees, hkept⟩ := hmade
      obtain ⟨made', w', hparse', hroots, hreports, hforest⟩ :=
        World.parse_same hs.world path htext.1 h.answers (h.nodup hs)
      have holdModules : oldModules ((s.table.memo? (.parse path)).map Memo.value) = v.value.modules := by
        rw [hstored, Option.map_some, hbefore]
        exact hmodules
      rw [holdModules, hparse'] at hparse
      obtain ⟨rfl, rfl⟩ := Prod.mk.inj (Except.ok.inj hparse)
      refine ⟨hforest, (hagrees parsed hvalue).trans hroots, fun hquiet => ?_⟩
      obtain ⟨rfl, hsince⟩ := hexact hquiet
      have hnone : made'.diagnostics = [] := by
        rw [hreports, htext.2 hquiet]
        simp [Diagnostic.inTextOrder]
      have hsame : rules.same (.parsed made') stored.value = true := by
        rw [hbefore]
        simp [rules, Value.same, hroots, hnone, h.clean hquiet]
      obtain ⟨hsameValue, hsameSince⟩ := hkept stored hstored hsame
      rw [hvalue, hbefore] at hsameValue
      exact ⟨Value.parsed.inj hsameValue, hsameSince.trans hsince⟩

theorem of_stores (h : Relaid path old quiet v s) {k : Key} (hk : k ≠ .parse path) {memo : Memo Key Value}
    {u : Table Key Value} {w : World} (hw : s.state.world.Extends w) (hstores : Table.Stores s.table k memo u) :
    Relaid path old quiet v (s.withState ⟨u, w⟩) where
  clean := h.clean
  answers := Reconcile.answers_congr h.answers fun _ hid =>
    hw.grows.get? (Reconcile.contains_of_answers h.answers _ hid)
  tree := by
    obtain ⟨stored, parsed, hstored, hrest⟩ := h.tree
    exact ⟨stored, parsed, (hstores.memo?_of_ne (Ne.symm hk)).trans hstored, hrest⟩

theorem move (hs : s.Sound) (hcurrent : Current s changes) (htold : Told path old quiet changes)
    (h : Relaid path old quiet v s) (hmove : Move s s') : Relaid path old quiet v s' := by
  have hw := hmove.world_extends hs
  cases hmove with
  | names _ | hit => exact ⟨h.clean, h.answers, h.tree⟩
  | symbols hstores _ _ => exact h.of_stores (by simp) hw hstores
  | @tree p text source memo parsed u w hsource htext hstores hvalue hreads hof =>
      by_cases hp : p = path
      · subst hp
        obtain ⟨t, ht, rfl⟩ := hcurrent.told hsource htext
        obtain ⟨hforest, hmodules, hexact⟩ := h.of_tree hs (htold t ht) hvalue hof
        have hanswers := h.answers
        rw [← hforest] at hanswers
        exact ⟨h.clean, hanswers, memo, parsed, hstores.memo?_self, hvalue, hmodules, hexact⟩
      · exact h.of_stores (by simpa using hp) hw hstores

theorem moves (hs : s.Sound) (hcurrent : Current s changes) (htold : Told path old quiet changes)
    (h : Relaid path old quiet v s) (hmoves : Relation.ReflTransGen Move s s') :
    Relaid path old quiet v s' := by
  induction hmoves with
  | refl => exact h
  | tail hmoves hmove ih => exact ih.move (hs.moves hmoves) (hcurrent.moves hs hmoves) htold hmove

theorem mild (hs : s.Sound) (hcurrent : Current s changes) (htold : Told path old quiet changes)
    (h : Relaid path old quiet v s) {change : Change} (hmild : Mild s change s') :
    Relaid path old quiet v s' := by
  cases hmild with
  | moves hmoves => exact h.moves hs hcurrent htold hmoves
  | pins _ | unpins _ => exact ⟨h.clean, h.answers, h.tree⟩
  | @sets p _ _ names hset =>
      obtain ⟨-, -, memo, rfl, -⟩ := Table.setInput_ok hset
      obtain ⟨stored, parsed, hstored, hrest⟩ := h.tree
      have hne : Key.parse path ≠ .fileText p := by simp
      have hstored' := (Table.memo?_put_of_ne s.table memo hne).trans hstored
      exact ⟨h.clean, h.answers, stored, parsed, hstored', hrest⟩

/-- Asking for the tree makes no node. -/
theorem parse_forest (hs : s.Sound) (hcurrent : Current s changes) (htold : Told path old quiet changes)
    (h : Relaid path old quiet v s) : ((parse path).eval s).2.forest = s.forest := by
  rw [eval_parse_snd]
  cases hvalue : s.table.value? (.fileText path) with
  | none =>
      have hquery : (query (.parse path)).eval s = _ := eval_query_noText hvalue
      rw [hquery]
      rfl
  | some value =>
      have hnames : Move s (s.withNames (s.names.add path)) := .names _
      have hs' := hs.move hnames
      obtain ⟨source, hsource, -⟩ := Option.map_eq_some_iff.mp hvalue
      obtain ⟨text, htext⟩ := hs.fits _ _ hsource
      obtain ⟨t, ht, rfl⟩ := hcurrent.told hsource htext
      have hidle (k : Key) : s.table.isActive k = false := by simp [Table.isActive, hs.idle]
      obtain ⟨parsed, memo, u, w, hrefresh, hstores, hparsed, -, hof⟩ :=
        refresh_parse (w := (s.withNames (s.names.add path)).state.world) hs'.world hsource htext (hs.fits _)
          (hidle _) (hidle _) 1
      have hquery : (query (.parse path)).eval s = _ := eval_query_ok hvalue
        (eval_fetch_idle hrefresh (hstores.active.trans hs.idle)) hstores.memo?_self
      rw [hquery]
      exact ((h.move hs hcurrent htold hnames).of_tree hs' (htold t ht) hparsed hof).1

end Relaid

/-- The symbols of a path are those of `before`, and not older than the tree of `v`. -/
def Attached (path : String) (v : Versioned ParsedFile) (before : Memo Key Value) (s : Context) : Prop :=
  ∃ memo, s.table.memo? (.moduleSymbols path) = some memo ∧ memo.value = before.value ∧
    memo.changedAt = before.changedAt ∧ v.since ≤ memo.verifiedAt

/-- As long as the tree is the same result, symbols stay and their body is not started. -/
theorem Attached.after {before : Memo Key Value} (hs : s.Sound) (hrest : s.table.Resting rules)
    (hcurrent : Current s changes) (hattached : Attached path v before s) {op : Op} (hcalm : op.calm = true)
    (hlater : Relaid path old True v (op.after s)) :
    Attached path v before (op.after s) ∧ ∀ key, .started (.moduleSymbols path) key ∉ op.events s := by
  obtain ⟨memo, hmemo, hvalue, hchanged, hle⟩ := hattached
  have hturn := op.turn hs hrest
  generalize op.change s = change at hturn
  generalize op.events s = events at hturn ⊢
  generalize htable : (op.after s).table = u at hturn
  cases hturn with
  | sweeps | advances _ => cases hcalm
  | sets hset =>
      obtain ⟨-, -, text, rfl, -⟩ := Table.setInput_ok hset
      have hthere : (op.after s).table.memo? (.moduleSymbols path) = some memo := by
        rw [htable]
        exact (Table.memo?_put_of_ne s.table text (by simp)).trans hmemo
      exact ⟨⟨memo, hthere, hvalue, hchanged, hle⟩, fun _ => List.not_mem_nil⟩
  | answers hsteps _ =>
      obtain ⟨tree, parsed, htree, -, -, hexact⟩ := hlater.tree
      have hreads : memo.reads = [.parse path] := (hs.fits _ _ hmemo).2
      have halone := Steps.alone hrest.orderly hs.idle hmemo hsteps fun d hd => by
        obtain rfl : d = .parse path := by simpa [hreads] using hd
        rw [Table.isIntact, ← htable, htree]
        simpa [(hexact trivial).2] using hle
      obtain ⟨memo', hmemo', hmarks⟩ := halone.memo
      refine ⟨⟨memo', by rw [htable]; exact hmemo', hmarks.value_eq.trans hvalue,
        hmarks.changedAt_eq.trans hchanged, ?_⟩, halone.spared⟩
      cases hmarks.verifiedAt_eq with
      | inl heq => exact heq ▸ hle
      | inr heq => exact heq ▸ hle.trans (hcurrent.verified_le _ memo hmemo)

/-- Calm operations that give the path only texts that relay `old`. -/
structure Relaying (path old : String) (quiet : Prop) (s : Context) (ops : List Op) : Prop where
  calm : ∀ op ∈ ops, op.calm = true
  texts : ∀ text, .text path text ∈ s.changes ops → Relays old quiet text

theorem Relaying.head {op : Op} {rest : List Op} (h : Relaying path old quiet s (op :: rest)) :
    op.calm = true ∧ ∀ text, op.change s = .text path text → Relays old quiet text :=
  ⟨h.calm op List.mem_cons_self, fun text heq => h.texts text (heq ▸ List.mem_cons_self)⟩

theorem Relaying.tail {op : Op} {rest : List Op} (h : Relaying path old quiet s (op :: rest)) :
    Relaying path old quiet (op.after s) rest :=
  ⟨fun o ho => h.calm o (List.mem_cons_of_mem op ho), fun text hmem => h.texts text (List.mem_cons_of_mem _ hmem)⟩

theorem Relaid.run (hs : s.Sound) (hcurrent : Current s changes) (htold : Told path old quiet changes)
    (h : Relaid path old quiet v s) {ops : List Op} (hops : Relaying path old quiet s ops) :
    Relaid path old quiet v (s.run ops) ∧ Told path old quiet (changes ++ s.changes ops) := by
  induction ops generalizing s changes with
  | nil => exact ⟨h, (List.append_nil changes).symm ▸ htold⟩
  | cons op rest ih =>
      obtain ⟨hcalm, htext⟩ := hops.head
      obtain ⟨hrelaid, htold'⟩ := ih (hs.after op) (hcurrent.effect hs (op.effect hs)) (htold.concat htext)
        (h.mild hs hcurrent htold (op.mild hs hcalm)) hops.tail
      rw [List.append_assoc] at htold'
      exact ⟨hrelaid, htold'⟩

theorem Attached.run {before : Memo Key Value} (hs : s.Sound) (hrest : s.table.Resting rules)
    (hcurrent : Current s changes) (htold : Told path old True changes) (h : Relaid path old True v s)
    (hattached : Attached path v before s) {ops : List Op} (hops : Relaying path old True s ops) :
    Attached path v before (s.run ops) ∧ ∀ key, .started (.moduleSymbols path) key ∉ s.events ops := by
  induction ops generalizing s changes with
  | nil => exact ⟨hattached, fun _ => List.not_mem_nil⟩
  | cons op rest ih =>
      obtain ⟨hcalm, htext⟩ := hops.head
      have hlater := h.mild hs hcurrent htold (op.mild hs hcalm)
      obtain ⟨hfirst, hspared⟩ := hattached.after hs hrest hcurrent hcalm hlater
      obtain ⟨hrun, hspared'⟩ := ih (hs.after op) ((op.turn hs hrest).resting hrest)
        (hcurrent.effect hs (op.effect hs)) (htold.concat htext) hlater hfirst hops.tail
      refine ⟨hrun, fun key hmem => ?_⟩
      cases List.mem_append.mp hmem with
      | inl hmem => exact hspared key hmem
      | inr hmem => exact hspared' key hmem

end Relaid

section Start

variable {path old : String} {quiet : Prop} {v : Versioned ParsedFile} {c s : Context} {changes more : List Change}

/-- What a session has when the tree of `old` has been kept up to it. -/
theorem Keeping.relaid (hk : c.Keeping s path) (h : Current c changes) (hold : textOf changes path = some old)
    (hs : Current s more) (hstands : c.Stands path (.parse path)) {memo : Memo Key Value}
    (hmemo : c.table.memo? (.parse path) = some memo) (hvalue : memo.value = .parsed v.value)
    (hsince : memo.changedAt = v.since) (hquiet : quiet → (Surface.parseText old).reports = []) :
    Relaid path old quiet v s ∧ Told path old quiet more := by
  obtain ⟨memo', tree, hmemo', htree, hsame, hsameSince⟩ := hk.upholds.same _ hstands
  obtain rfl := Option.some.inj (hmemo.symm.trans hmemo')
  have htreeValue : tree.value = .parsed v.value := hsame.trans hvalue
  have hreads : tree.reads = [.fileText path] := (hk.sound.fits _ _ htree).2
  obtain ⟨hsourceStands, hintact⟩ := hk.upholds.reads _ tree hstands htree (.fileText path) (by simp [hreads])
  obtain ⟨before, source, hbefore, hsource, hsameText, -⟩ := hk.upholds.same _ hsourceStands
  have htext : source.value = .text (.ofString old) := by
    have htold := h.text path
    rw [hold, Table.value?, hbefore] at htold
    exact hsameText.trans (Option.some.inj htold)
  rw [Table.isIntact, hsource] at hintact
  have hdescribes := hs.tree path source _ tree v.value hsource htext htree htreeValue (by simpa using hintact)
  refine ⟨⟨fun hq => ?_, hdescribes.answers, tree, v.value, htree, htreeValue, rfl, fun _ =>
    ⟨rfl, hsameSince.trans hsince⟩⟩, fun text htold => ?_⟩
  · rw [hdescribes.diagnostics, SourceText.content_ofString, hquiet hq]
    simp [Diagnostic.inTextOrder]
  · obtain ⟨t, ht, heq⟩ := hs.told hsource htext
    obtain rfl := Option.some.inj (htold.symm.trans ht)
    obtain rfl : old = text := congrArg SourceText.content heq
    exact ⟨rfl, hquiet⟩

theorem Keeping.attached (hk : c.Keeping s path) {before tree : Memo Key Value}
    (hstands : c.Stands path (.moduleSymbols path)) (hbefore : c.table.memo? (.moduleSymbols path) = some before)
    (htree : s.table.memo? (.parse path) = some tree) (hsince : tree.changedAt = v.since) :
    Attached path v before s := by
  obtain ⟨before', memo, hbefore', hmemo, hvalue, hchanged⟩ := hk.upholds.same _ hstands
  obtain rfl := Option.some.inj (hbefore.symm.trans hbefore')
  have hreads : memo.reads = [.parse path] := (hk.sound.fits _ _ hmemo).2
  obtain ⟨-, hintact⟩ := hk.upholds.reads _ memo hstands hmemo (.parse path) (by simp [hreads])
  rw [Table.isIntact, htree] at hintact
  exact ⟨memo, hmemo, hvalue, hchanged, hsince ▸ by simpa using hintact⟩

end Start
/-- The tree of a path after operations is made of the same modules as the answer `v` of before, and no node
is made for it. If `quiet` it is the same answer, and symbols that were current are so without their body. -/
structure Undisturbed (c : Context) (path : String) (v : Versioned ParsedFile) (quiet : Prop) (ops : List Op) :
    Prop where
  tree : ∃ w d, (parse path).eval (c.run ops) = (.ok w, d) ∧ w.value.modules = v.value.modules ∧
    d.forest = (c.run ops).forest ∧ (quiet → w = v)
  symbols : quiet → ∀ memo entries, c.table.Stands rules (.moduleSymbols path) memo →
    memo.value = .symbols entries →
      (∃ d, (moduleSymbols path).eval (c.run (ops ++ [.parse path])) = (.ok ⟨entries, memo.changedAt⟩, d)) ∧
      ∀ old, .started (.moduleSymbols path) old ∉ c.events (ops ++ [.parse path, .moduleSymbols path])

theorem events_append (c : Context) (ops more : List Op) :
    c.events (ops ++ more) = c.events ops ++ (c.run ops).events more := by
  induction ops generalizing c with
  | nil => rfl
  | cons op rest ih =>
      rw [List.cons_append, events, ih, events, List.append_assoc]
      rfl

theorem changes_append (c : Context) (ops more : List Op) :
    c.changes (ops ++ more) = c.changes ops ++ (c.run ops).changes more := by
  induction ops generalizing c with
  | nil => rfl
  | cons op rest ih =>
      rw [List.cons_append, changes, ih, changes]
      rfl

section Undisturbed

variable {path old : String} {quiet : Prop} {v : Versioned ParsedFile} {c s : Context} {changes : List Change}
  {ops : List Op}

theorem Relaid.tree_undisturbed (hs : s.Sound) (hcurrent : Current s changes)
    (htold : Told path old quiet changes) (h : Relaid path old quiet v s) (htext : textOf changes path ≠ none) :
    ∃ w d, (parse path).eval s = (.ok w, d) ∧ w.value.modules = v.value.modules ∧ d.forest = s.forest ∧
      (quiet → w = v) := by
  have hvalue : s.table.value? (.fileText path) ≠ none := by
    rw [hcurrent.text]
    simpa using htext
  obtain ⟨w, heval, hanswered⟩ := (asks_parse path).eval_ok hs hvalue
  have hforest := h.parse_forest hs hcurrent htold
  obtain ⟨memo, parsed, hmemo, hparsed, hmodules, hexact⟩ :=
    (h.mild hs hcurrent htold ((Op.parse path).mild hs rfl)).tree
  obtain ⟨memo', hmemo', hvalue', hsince, -⟩ := hanswered.current
  obtain rfl := Option.some.inj (hmemo.symm.trans hmemo')
  obtain rfl : parsed = w.value := Value.parsed.inj (hparsed.symm.trans hvalue')
  refine ⟨w, _, heval, hmodules, hforest, fun hquiet => ?_⟩
  obtain ⟨hsame, hsameSince⟩ := hexact hquiet
  have hsince : v.since = w.since := hsameSince.symm.trans hsince
  cases v
  cases w
  simp_all

/-- Asked about right after the tree, symbols are those of before. -/
theorem Attached.answer {before : Memo Key Value} {entries : List ModuleEntry} (hs : s.Sound)
    (h : Attached path v before ((Op.moduleSymbols path).after s))
    (htext : s.table.value? (.fileText path) ≠ none) (hentries : before.value = .symbols entries) :
    ∃ d, (moduleSymbols path).eval s = (.ok ⟨entries, before.changedAt⟩, d) := by
  obtain ⟨⟨value, since⟩, heval, hanswered⟩ := (asks_moduleSymbols path).eval_ok hs htext
  obtain ⟨memo, hmemo, hvalue, hchanged, -⟩ := h
  obtain ⟨memo', hmemo', hvalue', hsince, -⟩ := hanswered.current
  obtain rfl := Option.some.inj (hmemo.symm.trans hmemo')
  obtain rfl : entries = value := Value.symbols.inj (hentries.symm.trans (hvalue.symm.trans hvalue'))
  obtain rfl : before.changedAt = since := hchanged.symm.trans hsince
  exact ⟨_, heval⟩

theorem Relaying.of_calm {text : String} {ops : List Op} (hsame : written old = written text)
    (hquiet : quiet → (Surface.parseText text).reports = []) (hcalm : ∀ op ∈ ops, op.calm = true)
    (htexts : ∀ t, .text path t ∈ s.changes ops → t = text) : Relaying path old quiet s ops :=
  ⟨hcalm, fun t ht => by
    rw [htexts t ht]
    exact ⟨hsame, hquiet⟩⟩

/-- Questions about tree and symbols change no text. -/
theorem Relaying.ask (h : Relaying path old quiet s ops) :
    Relaying path old quiet s (ops ++ [.parse path, .moduleSymbols path]) where
  calm op hop := by
    cases List.mem_append.mp hop with
    | inl hin => exact h.calm op hin
    | inr hin =>
        simp only [List.mem_cons, List.not_mem_nil, or_false] at hin
        cases hin with
        | inl heq => rw [heq]; rfl
        | inr heq => rw [heq]; rfl
  texts t ht := by
    rw [changes_append] at ht
    cases List.mem_append.mp ht with
    | inl hin => exact h.texts t hin
    | inr hin => simp [Context.changes, Op.change] at hin

theorem Relaid.symbols_undisturbed {before : Memo Key Value} {entries : List ModuleEntry} (hs : s.Sound)
    (hrest : s.table.Resting rules) (hcurrent : Current s changes) (htold : Told path old True changes)
    (h : Relaid path old True v s) (hattached : Attached path v before s) (hentries : before.value = .symbols entries)
    (htext : textOf changes path ≠ none) (hops : Relaying path old True s ops) :
    (∃ d, (moduleSymbols path).eval (s.run (ops ++ [.parse path])) = (.ok ⟨entries, before.changedAt⟩, d)) ∧
      ∀ key, .started (.moduleSymbols path) key ∉ s.events (ops ++ [.parse path, .moduleSymbols path]) := by
  obtain ⟨hlast, hspared⟩ := hattached.run hs hrest hcurrent htold h hops.ask
  have hasked := hcurrent.run hs (ops ++ [.parse path])
  have hsplit : ops ++ [.parse path, .moduleSymbols path] = (ops ++ [.parse path]) ++ [Op.moduleSymbols path] := by
    simp
  rw [hsplit, run_append] at hlast
  refine ⟨hlast.answer (hs.run _) ?_ hentries, hspared⟩
  rw [hasked.text]
  simpa using textOf_append_ne_none htext _

/-- A text is set after its path has been left alone, one in which the same is written. -/
theorem undisturbed {text : String} {first between : List Op} (hc : c.Sound) (hrest : c.table.Resting rules)
    (h : Current c changes) (hold : textOf changes path = some old) (hstands : c.Stands path (.parse path))
    {memo : Memo Key Value} (hmemo : c.table.memo? (.parse path) = some memo) (hvalue : memo.value = .parsed v.value)
    (hsince : memo.changedAt = v.since) (hsame : written old = written text)
    (hfirst : Unedited c path (some old) first) (hcalm : ∀ op ∈ between, op.calm = true)
    (htexts : ∀ t, .text path t ∈ (c.run first).changes (.setText path text :: between) → t = text) :
    Undisturbed c path v ((Surface.parseText old).reports = [] ∧ (Surface.parseText text).reports = [])
      (first ++ .setText path text :: between) := by
  obtain ⟨hk, hspared⟩ := (Keeping.start hc hrest h path).run hc h (hold.symm ▸ hfirst)
  have hs : Current (c.run first) (changes ++ c.changes first) := h.run hc first
  have hcalm' : ∀ op ∈ Op.setText path text :: between, op.calm = true := by
    intro op hop
    cases List.mem_cons.mp hop with
    | inl heq => rw [heq]; rfl
    | inr hin => exact hcalm op hin
  have htext : textOf (changes ++ c.changes first) path ≠ none := textOf_append_ne_none (by simp [hold]) _
  refine ⟨?_, fun hquiet before entries hbefore hentries => ?_⟩
  · obtain ⟨hrelaid, htold⟩ := hk.relaid h hold hs hstands hmemo hvalue hsince And.left
    obtain ⟨hlater, htold'⟩ := hrelaid.run hk.sound hs htold (.of_calm hsame And.right hcalm' htexts)
    rw [run_append]
    exact hlater.tree_undisturbed (hk.sound.run _) (hs.run hk.sound _) htold' (textOf_append_ne_none htext _)
  · obtain ⟨hrelaid, htold⟩ := hk.relaid h hold hs hstands hmemo hvalue hsince fun _ : True => hquiet.1
    obtain ⟨tree, parsed, htree, -, -, hexact⟩ := hrelaid.tree
    have hattached := hk.attached ⟨rfl, before, hbefore⟩ hbefore.1 htree (hexact trivial).2
    obtain ⟨hanswer, hspared'⟩ := hrelaid.symbols_undisturbed hk.sound hk.resting hs htold hattached hentries htext
      (.of_calm hsame (fun _ => hquiet.2) hcalm' htexts)
    rw [List.append_assoc, run_append, List.append_assoc, events_append]
    refine ⟨hanswer, fun key hmem => ?_⟩
    cases List.mem_append.mp hmem with
    | inl hmem => exact hspared _ ⟨rfl, before, hbefore⟩ key hmem
    | inr hmem => exact hspared' key hmem

end Undisturbed

/-- Nothing but the places in drafts hangs on layout, so that a path that gets its text with another layout, in
the revision after its tree was asked for, keeps the nodes of the tree and, if nothing is reported, all results
read off it. No collection comes between the text and the question. -/
theorem layout_undisturbed (old text : String) (hsame : written old = written text) :
    (∀ name, (DraftTree.ofFile (Surface.parseText old).file name).unplaced =
      (DraftTree.ofFile (Surface.parseText text).file name).unplaced) ∧
    ∀ (tuning : Tuning) (before within first between : List Op) (path : String) (v : Versioned ParsedFile)
      (c : Context), (parse path).eval ((fresh tuning).run before) = (.ok v, c) →
      textOf ((fresh tuning).changes before) path = some old → (c.run within).revision = c.revision →
      Unedited (c.run within) path (some old) (.advance true :: first) → (∀ op ∈ between, op.calm = true) →
      (∀ t, .text path t ∈ ((c.run within).run (.advance true :: first)).changes (.setText path text :: between) →
        t = text) →
      Undisturbed (c.run within) path v
        ((Surface.parseText old).reports = [] ∧ (Surface.parseText text).reports = [])
        (.advance true :: first ++ .setText path text :: between) := by
  refine ⟨DraftTree.unplaced_ofText hsame, ?_⟩
  intro tuning before within first between path v c heval htext hrevision hfirst hcalm htexts
  have hsound : ((fresh tuning).run before).Sound := (sound_fresh tuning).run before
  have hrest := resting_run (sound_fresh tuning) (Table.Resting.empty rules) before
  have hcurrent : Current ((fresh tuning).run before) ((fresh tuning).changes before) :=
    (current_fresh tuning).run (sound_fresh tuning) before
  have hanswered := (asks_parse path).answered hsound heval
  have hc := hsound.moves hanswered.moves
  have hcCurrent := hcurrent.moves hsound hanswered.moves
  have hcRest := (asks_parse path).resting hsound hrest heval
  -- Up to the advance the tree stays as it was answered, for no text is taken in its revision any more.
  obtain ⟨-, hquiet⟩ := (hanswered.settled rfl).run hcCurrent hc rfl within hrevision
  have hwithin : Unedited c path (textOf ((fresh tuning).changes before) path) within :=
    ⟨advance_not_mem hc hrevision false, fun t hmem => absurd hmem (hquiet path t)⟩
  obtain ⟨hk, -⟩ := (Keeping.start hc hcRest hcCurrent path).run hc hcCurrent hwithin
  obtain ⟨memo, hmemo, hvalue, hsince, -⟩ := hanswered.current
  obtain ⟨memo', later, hmemo', hlater, hsameValue, hsameSince⟩ := hk.upholds.same _ (hanswered.stands hc)
  obtain rfl := Option.some.inj (hmemo.symm.trans hmemo')
  have hstands : (c.run within).Stands path (.parse path) :=
    ⟨rfl, hk.upholds.stands rules hk.sound.nodup (hanswered.stands hc)⟩
  exact undisturbed hk.sound hk.resting (hcCurrent.run hc within) ((textOf_append hquiet path).trans htext) hstands
    hlater (hsameValue.trans hvalue) (hsameSince.trans hsince) hsame hfirst hcalm htexts

/-- A line break and two blanks come in, after the symbols were asked for. -/
theorem layout_undisturbed_blanks :
    written "var x;" = written "var\n x ;" ∧
    ((Surface.parseText "var x;").reports = [] ∧ (Surface.parseText "var\n x ;").reports = []) ∧
    ∃ v c, (parse "m").eval ((fresh .standard).run [.setText "m" "var x;"]) = (.ok v, c) ∧
      Undisturbed (c.run [.moduleSymbols "m"]) "m" v
        ((Surface.parseText "var x;").reports = [] ∧ (Surface.parseText "var\n x ;").reports = [])
        [.advance true, .setText "m" "var\n x ;"] := by
  have hsame : written "var x;" = written "var\n x ;" := by decide +kernel
  refine ⟨hsame, by decide +kernel, ?_⟩
  rcases heval : (parse "m").eval ((fresh .standard).run [.setText "m" "var x;"]) with ⟨e | v, c⟩
  · have hok : ((parse "m").eval ((fresh .standard).run [.setText "m" "var x;"])).1.toBool = true := by
      decide +kernel
    simp [heval, Except.toBool] at hok
  · have htext : textOf ((fresh .standard).changes [.setText "m" "var x;"]) "m" = some "var x;" := by decide +kernel
    have hrevision : (((parse "m").eval ((fresh .standard).run [.setText "m" "var x;"])).2.run
        [.moduleSymbols "m"]).revision =
          ((parse "m").eval ((fresh .standard).run [.setText "m" "var x;"])).2.revision := by decide +kernel
    rw [heval] at hrevision
    refine ⟨v, c, rfl, (layout_undisturbed _ _ hsame).2 .standard [.setText "m" "var x;"] [.moduleSymbols "m"] [] []
      "m" v c heval htext hrevision ⟨by simp, fun t hmem => ?_⟩ (by simp) fun t hmem => ?_⟩
    · simp [changes, Op.change] at hmem
    · simp only [changes, Op.change, changeIf, List.mem_singleton] at hmem
      split at hmem
      · exact (Change.text.inj hmem).2
      · cases hmem

end Context
end Palimpsest
