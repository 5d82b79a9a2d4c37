import Palimpsest.Proofs.Content
import Palimpsest.Proofs.Session.Collection

/-!
Results and the texts that they are results of. A tree whose text has not changed since it was verified is
the tree of the text, symbols whose tree has not changed since are those of the tree, and whatever an
operation does, it stays so.
-/

namespace Palimpsest

open Session Query

theorem Reconcile.answers_congr {drafts : Array Draft} {f g : Forest} {is : List Nat} {ids : List NodeId}
    (h : List.Forall₂ (Reconcile.Answers drafts f) is ids) (hsame : ∀ id ∈ ids, g.get? id = f.get? id) :
    List.Forall₂ (Reconcile.Answers drafts g) is ids := by
  induction h with
  | nil => exact .nil
  | cons hfirst _ ih =>
      obtain ⟨draft, node, hi, hid, hspec⟩ := hfirst
      refine .cons ⟨draft, node, hi, ?_, hspec⟩ (ih fun id hid => hsame id (List.mem_cons_of_mem _ hid))
      rw [hsame _ List.mem_cons_self, hid]

namespace Session

/-- The tree and the reports are those of the text. -/
structure Describes (f : Forest) (path : String) (text : SourceText) (parsed : ParsedFile) : Prop where
  answers : List.Forall₂ (Reconcile.Answers (draftsOf path text).drafts f) (draftsOf path text).roots
    parsed.modules
  diagnostics : parsed.diagnostics = Diagnostic.inTextOrder (Surface.parseText text.content).reports

theorem Describes.congr {f g : Forest} {path : String} {text : SourceText} {parsed : ParsedFile}
    (h : Describes f path text parsed) (hsame : ∀ id ∈ parsed.modules, g.get? id = f.get? id) :
    Describes g path text parsed :=
  ⟨Reconcile.answers_congr h.answers hsame, h.diagnostics⟩

end Session

namespace Context

/-- The text that was set last for a path. -/
def textOf (changes : List Change) (path : String) : Option String :=
  changes.foldl (fun text change =>
    match change with
    | .text p t => if p = path then some t else text
    | _ => text) none

theorem textOf_concat (changes : List Change) (change : Change) (path : String) :
    textOf (changes ++ [change]) path =
      match change with
      | .text p t => if p = path then some t else textOf changes path
      | _ => textOf changes path := by
  rw [textOf, List.foldl_append]
  rfl

theorem mem_of_textOf {changes : List Change} {path text : String} (h : textOf changes path = some text) :
    Change.text path text ∈ changes := by
  induction changes using List.reverseRecOn with
  | nil => simp [textOf] at h
  | append_singleton rest change ih =>
      rw [textOf_concat] at h
      cases change with
      | text p t =>
          by_cases hp : p = path
          · simp_all
          · simp only [hp, ite_false] at h
            exact List.mem_append_left _ (ih h)
      | nothing | pin _ | unpin _ => exact List.mem_append_left _ (ih h)

/-- What is hashed for the drafts of the texts that were set. -/
def Contents (changes : List Change) (k : NodeKind ContentHash) : Prop :=
  ∃ path text, Change.text path text ∈ changes ∧ ∃ i < (draftsOf path (.ofString text)).drafts.size,
    k = (draftsOf path (.ofString text)).contentOf i

theorem Contents.mono {changes more : List Change} (hsub : ∀ x ∈ changes, x ∈ more)
    {k : NodeKind ContentHash} (h : Contents changes k) : Contents more k := by
  obtain ⟨path, text, hmem, hdraft⟩ := h
  exact ⟨path, text, hsub _ hmem, hdraft⟩

/-- How results stand to the texts that the changes have set. -/
structure Current (c : Context) (changes : List Change) : Prop where
  text : ∀ p, c.table.value? (.fileText p) = (textOf changes p).map fun t => .text (.ofString t)
  changed_le : ∀ k memo, c.table.memo? k = some memo → memo.changedAt ≤ c.table.revision
  verified_le : ∀ k memo, c.table.memo? k = some memo → memo.verifiedAt ≤ c.table.revision
  window : c.table.accepting = true → ∀ k memo, c.table.memo? k = some memo → k.isInput = false →
    memo.verifiedAt < c.table.revision
  tree : ∀ p source text memo parsed, c.table.memo? (.fileText p) = some source → source.value = .text text →
    c.table.memo? (.parse p) = some memo → memo.value = .parsed parsed →
    source.changedAt ≤ memo.verifiedAt → Describes c.forest p text parsed
  symbols : ∀ p tree parsed memo, c.table.memo? (.parse p) = some tree → tree.value = .parsed parsed →
    c.table.memo? (.moduleSymbols p) = some memo → tree.changedAt ≤ memo.verifiedAt →
    memo.value = .symbols (entriesOf c.forest parsed.modules)
  both : ∀ p memo, c.table.memo? (.moduleSymbols p) = some memo → memo.verifiedAt = c.table.revision →
    ∃ tree, c.table.memo? (.parse p) = some tree ∧ tree.verifiedAt = c.table.revision
  origin : ∀ id node, c.forest.get? id = some node → Contents changes (node.kind.map c.forest.printOf)

theorem current_fresh (tuning : Tuning) : Current (fresh tuning) [] where
  text _ := rfl
  changed_le := by simp [fresh, table, Table.empty, Table.memo?]
  verified_le := by simp [fresh, table, Table.empty, Table.memo?]
  window := by simp [fresh, table, Table.empty, Table.memo?]
  tree := by simp [fresh, table, Table.empty, Table.memo?]
  symbols := by simp [fresh, table, Table.empty, Table.memo?]
  both := by simp [fresh, table, Table.empty, Table.memo?]
  origin id node h := by simp [fresh, forest, default, Inhabited.default, Forest.empty, Forest.get?] at h

namespace Current

variable {c : Context} {changes : List Change}

theorem of_eq {c' : Context} (h : Current c changes) (htable : c'.table = c.table)
    (hforest : c'.forest = c.forest) : Current c' changes where
  text := htable ▸ h.text
  changed_le := htable ▸ h.changed_le
  verified_le := htable ▸ h.verified_le
  window := htable ▸ h.window
  tree := htable ▸ hforest ▸ h.tree
  symbols := htable ▸ hforest ▸ h.symbols
  both := htable ▸ h.both
  origin := hforest ▸ h.origin

/-- A memo that is put beside the others is of this revision, or was changed when the one before it was. -/
theorem times_le (h : Current c changes) {k : Key} {memo : Memo Key Value} {u : Table Key Value}
    (hput : ∀ j, u.memo? j = if j = k then some memo else c.table.memo? j)
    (hrev : u.revision = c.table.revision) (hverified : memo.verifiedAt = c.table.revision)
    (hchanged : memo.changedAt = c.table.revision ∨
      ∃ old, c.table.memo? k = some old ∧ memo.changedAt = old.changedAt) {j : Key} {m : Memo Key Value}
    (hm : u.memo? j = some m) : m.changedAt ≤ u.revision ∧ m.verifiedAt ≤ u.revision := by
  rw [hrev]
  cases Table.memo?_cases hput hm with
  | inr hold => exact ⟨h.changed_le j m hold.2, h.verified_le j m hold.2⟩
  | inl hnew =>
      obtain ⟨-, rfl⟩ := hnew
      refine ⟨?_, Nat.le_of_eq hverified⟩
      cases hchanged with
      | inl hnow => exact Nat.le_of_eq hnow
      | inr hsame =>
          obtain ⟨old, hold, hchanged⟩ := hsame
          exact hchanged ▸ h.changed_le k old hold

theorem modules_held (hc : c.Sound) {k : Key} {memo : Memo Key Value} {parsed : ParsedFile}
    (hmemo : c.table.memo? k = some memo) (hvalue : memo.value = .parsed parsed) :
    ∀ id ∈ parsed.modules, c.forest.contains id = true := by
  intro id hid
  refine hc.held k memo hmemo id ?_
  rw [hvalue]
  exact hid

theorem content_congr {f g : Forest} (hf : f.Built) {id : NodeId} {node : Node} (hid : f.get? id = some node)
    (hsame : ∀ x, f.contains x = true → g.get? x = f.get? x) :
    node.kind.map g.printOf = node.kind.map f.printOf := by
  refine NodeKind.map_congr fun x hx => ?_
  rw [Forest.printOf, hsame x (hf.contains_child hid x hx), Forest.printOf]

section Tree

variable {p : String} {text : SourceText} {source memo : Memo Key Value} {parsed : ParsedFile}
  {u : Table Key Value} {w : World} (h : Current c changes)
  (hof : TreeOf c.table c.state.world p text source memo parsed w)
include h hof

theorem describes_stored (hsource : c.table.memo? (.fileText p) = some source)
    (htext : source.value = .text text) : Describes w.forest p text parsed := by
  cases hof with
  | @kept old hold hbefore hfresh _ =>
      refine h.tree p source text old parsed hsource htext hold hbefore ?_
      cases hfresh with
      | inl hnow => exact hnow ▸ h.changed_le _ source hsource
      | inr hle => exact hle
  | parsed _ hparses _ => exact ⟨hparses.answers, hparses.diagnostics⟩

/-- Symbols that are not older than a tree that is stored are those of the tree. -/
theorem symbols_stored (hc : c.Sound) (hstores : Table.Stores c.table (.parse p) memo u)
    (hvalue : memo.value = .parsed parsed) {symbols : Memo Key Value}
    (hsymbols : c.table.memo? (.moduleSymbols p) = some symbols) (hle : memo.changedAt ≤ symbols.verifiedAt) :
    symbols.value = .symbols (entriesOf c.forest parsed.modules) ∧
      ∀ id ∈ parsed.modules, c.forest.contains id = true := by
  have hold : ∃ old, c.table.memo? (.parse p) = some old ∧ old.value = .parsed parsed ∧
      old.changedAt ≤ symbols.verifiedAt := by
    cases hstores.changed with
    | inr hsame =>
        obtain ⟨old, hold, hchanged, hbefore⟩ := hsame
        exact ⟨old, hold, hbefore.symm.trans hvalue, hchanged ▸ hle⟩
    | inl hnew =>
        -- The symbols are of this revision, and so was the tree already.
        have hnow : symbols.verifiedAt = c.table.revision :=
          Nat.le_antisymm (h.verified_le _ symbols hsymbols) (hnew ▸ hle)
        obtain ⟨tree, htree, hverified⟩ := h.both p symbols hsymbols hnow
        cases hof with
        | kept hold hbefore _ _ =>
            obtain rfl := Option.some.inj (hold.symm.trans htree)
            exact ⟨_, htree, hbefore, hnow ▸ h.changed_le _ _ htree⟩
        | parsed hstale _ _ => exact absurd hverified (hstale tree htree)
  obtain ⟨old, hthere, hbefore, hchanged⟩ := hold
  exact ⟨h.symbols p old parsed symbols hthere hbefore hsymbols hchanged, modules_held hc hthere hbefore⟩

end Tree

theorem told (h : Current c changes) {p : String} {source : Memo Key Value} {text : SourceText}
    (hsource : c.table.memo? (.fileText p) = some source) (htext : source.value = .text text) :
    ∃ t, textOf changes p = some t ∧ text = .ofString t := by
  have hvalue := h.text p
  rw [Table.value?, hsource, Option.map_some, htext] at hvalue
  obtain ⟨t, ht, heq⟩ := Option.map_eq_some_iff.mp hvalue.symm
  exact ⟨t, ht, (Value.text.inj heq).symm⟩

theorem contents_of_drafted (h : Current c changes) {p : String} {source : Memo Key Value} {text : SourceText}
    (hsource : c.table.memo? (.fileText p) = some source) (htext : source.value = .text text) {f : Forest}
    {node : Node} (hdrafted : Reconcile.Drafted (draftsOf p text).drafts f node) :
    Contents changes (node.kind.map f.printOf) := by
  obtain ⟨t, ht, rfl⟩ := h.told hsource htext
  obtain ⟨draft, hmem, hkind⟩ := hdrafted
  obtain ⟨i, hi, rfl⟩ := Array.mem_iff_getElem.mp hmem
  exact ⟨p, t, mem_of_textOf ht, i, hi,
    hkind.trans (DraftTree.contentOf_eq (Array.getElem?_eq_getElem hi)).symm⟩

theorem store (h : Current c changes) (hc : c.Sound) {k : Key} {memo : Memo Key Value} {u : Table Key Value}
    {w : World} (hstores : Table.Stores c.table k memo u) (hderived : k.isInput = false)
    (hw : c.state.world.Extends w)
    (horigin : ∀ id node, w.forest.get? id = some node → c.forest.get? id = some node ∨
      Contents changes (node.kind.map w.forest.printOf))
    (htree : ∀ p source text parsed, k = .parse p → c.table.memo? (.fileText p) = some source →
      source.value = .text text → memo.value = .parsed parsed → Describes w.forest p text parsed)
    (hsymbols : ∀ p tree parsed m, u.memo? (.parse p) = some tree → tree.value = .parsed parsed →
      u.memo? (.moduleSymbols p) = some m → tree.changedAt ≤ m.verifiedAt → k = .parse p ∨ k = .moduleSymbols p →
      m.value = .symbols (entriesOf c.forest parsed.modules) ∧
        ∀ id ∈ parsed.modules, c.forest.contains id = true)
    (hboth : ∀ p, k = .moduleSymbols p → ∃ tree, c.table.memo? (.parse p) = some tree ∧
      tree.verifiedAt = c.table.revision) :
    Current (c.withState ⟨u, w⟩) changes := by
  have hinput (p : String) : u.memo? (.fileText p) = c.table.memo? (.fileText p) :=
    hstores.memo?_of_ne (by rintro rfl; exact absurd hderived (by simp [Key.isInput]))
  have hrev : u.revision = c.table.revision := hstores.revision
  have htimes {j : Key} {m : Memo Key Value} (hm : u.memo? j = some m) :=
    h.times_le hstores.memo?_eq hrev hstores.verified
      (hstores.changed.imp_right fun hold => hold.imp fun _ hstood => ⟨hstood.1, hstood.2.1⟩) hm
  have hentries {ids : List NodeId} (hids : ∀ id ∈ ids, c.forest.contains id = true) :
      entriesOf w.forest ids = entriesOf c.forest ids :=
    entriesOf_congr hc.world.coherent.toBuilt hids fun _ hid => hw.grows.get? hid
  exact
    { text := fun p => by
        change (u.memo? (.fileText p)).map Memo.value = _
        rw [hinput]
        exact h.text p
      changed_le := fun j m hm => (htimes hm).1
      verified_le := fun j m hm => (htimes hm).2
      window := fun hopen => absurd hopen (by simp [withState, table, hstores.closed])
      tree := fun p source text m parsed hsource htext hm hparsed hle => by
        have hsource' := (hinput p).symm.trans hsource
        cases Table.memo?_cases hstores.memo?_eq hm with
        | inl hnew => exact htree p source text parsed hnew.1.symm hsource' htext (hnew.2 ▸ hparsed)
        | inr hold =>
            refine (h.tree p source text m parsed hsource' htext hold.2 hparsed hle).congr fun id hid => ?_
            exact hw.grows.get? (modules_held hc hold.2 hparsed id hid)
      symbols := fun p tree parsed m htree' hparsed hm hle => by
        by_cases hk : k = .parse p ∨ k = .moduleSymbols p
        · obtain ⟨hvalue, hmodules⟩ := hsymbols p tree parsed m htree' hparsed hm hle hk
          exact (hentries hmodules).symm ▸ hvalue
        · obtain ⟨hp, hs⟩ := not_or.mp hk
          have hold := (hstores.memo?_of_ne (Ne.symm hp)).symm.trans htree'
          have hold' := (hstores.memo?_of_ne (Ne.symm hs)).symm.trans hm
          exact (hentries (modules_held hc hold hparsed)).symm ▸ h.symbols p tree parsed m hold hparsed hold' hle
      both := fun p m hm hnow => by
        have hnow' : m.verifiedAt = c.table.revision := hnow.trans hrev
        have htree' : ∃ tree, c.table.memo? (.parse p) = some tree ∧ tree.verifiedAt = c.table.revision := by
          cases Table.memo?_cases hstores.memo?_eq hm with
          | inl hnew => exact hboth p hnew.1.symm
          | inr hold => exact h.both p m hold.2 hnow'
        obtain ⟨tree, hthere, hverified⟩ := htree'
        by_cases hk : k = .parse p
        · exact ⟨memo, hk ▸ hstores.memo?_self, hstores.verified.trans hrev.symm⟩
        · exact ⟨tree, (hstores.memo?_of_ne (Ne.symm hk)).trans hthere, hverified.trans hrev.symm⟩
      origin := fun id node hid => by
        cases horigin id node hid with
        | inr hnew => exact hnew
        | inl hold =>
            have hcontent := content_congr hc.world.coherent.toBuilt hold fun x hx => hw.grows.get? hx
            exact hcontent.symm ▸ h.origin id node hold }

/-- A tree of the text that there is may be stored. -/
theorem store_tree {p : String} {text : SourceText} {source memo : Memo Key Value} {parsed : ParsedFile}
    {u : Table Key Value} {w : World} (h : Current c changes) (hc : c.Sound)
    (hsource : c.table.memo? (.fileText p) = some source) (htext : source.value = .text text)
    (hstores : Table.Stores c.table (.parse p) memo u) (hvalue : memo.value = .parsed parsed)
    (hof : TreeOf c.table c.state.world p text source memo parsed w) (hw : c.state.world.Extends w) :
    Current (c.withState ⟨u, w⟩) changes := by
  refine h.store hc hstores rfl hw ?_ ?_ ?_ ?_
  · intro id node hid
    cases hof with
    | kept _ _ _ _ => exact .inl hid
    | parsed _ hparses _ =>
        cases hparses.origin id node hid with
        | inl hold => exact .inl hold
        | inr hdrafted => exact .inr (h.contents_of_drafted hsource htext hdrafted)
  · intro q source' text' parsed' hq hsource' htext' hvalue'
    obtain rfl : p = q := Key.parse.inj hq
    obtain rfl := Option.some.inj (hsource.symm.trans hsource')
    obtain rfl := Value.text.inj (htext.symm.trans htext')
    obtain rfl := Value.parsed.inj (hvalue.symm.trans hvalue')
    exact h.describes_stored hof hsource htext
  · intro q tree parsed' m htree hparsed hm hle hk
    obtain rfl : p = q := hk.elim Key.parse.inj fun heq => nomatch heq
    obtain rfl := Option.some.inj (hstores.memo?_self.symm.trans htree)
    obtain rfl := Value.parsed.inj (hvalue.symm.trans hparsed)
    have hm' := (hstores.memo?_of_ne (by simp)).symm.trans hm
    exact h.symbols_stored hof hc hstores hvalue hm' hle
  · intro q hq
    cases hq

/-- Symbols of the tree that there is may be stored. -/
theorem store_symbols {p : String} {memo : Memo Key Value} {u : Table Key Value} (h : Current c changes)
    (hc : c.Sound) (hstores : Table.Stores c.table (.moduleSymbols p) memo u)
    (hof : SymbolsFrom c.table c.forest p memo) : Current (c.withTable u) changes := by
  refine h.store hc hstores rfl (.refl hc.world) (fun id node hid => .inl hid) ?_ ?_ ?_
  · intro q source' text' parsed' hq
    cases hq
  · intro q tree parsed' m htree hparsed hm hle hk
    obtain rfl : p = q := hk.elim (fun heq => nomatch heq) Key.moduleSymbols.inj
    obtain rfl := Option.some.inj (hstores.memo?_self.symm.trans hm)
    have htree' := (hstores.memo?_of_ne (by simp)).symm.trans htree
    refine ⟨?_, modules_held hc htree' hparsed⟩
    cases hof with
    | read hthere hbefore _ hvalue =>
        obtain rfl := Option.some.inj (htree'.symm.trans hthere)
        obtain rfl := Value.parsed.inj (hparsed.symm.trans hbefore)
        exact hvalue
    | @kept old hold hvalue hwhy =>
        refine hvalue.trans (h.symbols p tree parsed' old htree' hparsed hold ?_)
        cases hwhy with
        | inl hnow => exact hnow ▸ h.changed_le _ tree htree'
        | inr hover =>
            obtain ⟨tree', hthere, -, hchanged⟩ := hover
            obtain rfl := Option.some.inj (htree'.symm.trans hthere)
            exact hchanged
  · intro q hq
    obtain rfl : p = q := Key.moduleSymbols.inj hq
    cases hof with
    | read htree _ hcurrent _ => exact ⟨_, htree, hcurrent⟩
    | kept hold _ hwhy =>
        cases hwhy with
        | inl hnow => exact h.both p _ hold hnow
        | inr hover =>
            obtain ⟨tree, htree, hcurrent, -⟩ := hover
            exact ⟨tree, htree, hcurrent⟩

theorem move {c' : Context} (h : Current c changes) (hc : c.Sound) (hmove : Move c c') : Current c' changes := by
  have hw := hmove.world_extends hc
  cases hmove with
  | names _ => exact h.of_eq rfl rfl
  | hit =>
      refine ⟨h.text, h.changed_le, h.verified_le, fun hopen => ?_, h.tree, h.symbols, h.both, h.origin⟩
      simp [withTable, table, Table.closeWindow, Table.countHit] at hopen
  | tree hsource htext hstores hvalue _ hof => exact h.store_tree hc hsource htext hstores hvalue hof hw
  | symbols hstores _ hof => exact h.store_symbols hc hstores hof

theorem moves {c' : Context} (h : Current c changes) (hc : c.Sound)
    (hmoves : Relation.ReflTransGen Move c c') : Current c' changes := by
  induction hmoves with
  | refl => exact h
  | tail hmoves hmove ih => exact ih.move (hc.moves hmoves) hmove

/-- Memos dropped and nodes freed that no memo left refers to, in the same revision or in the next. -/
theorem shrink {c' : Context} (h : Current c changes) (hc' : c'.Sound)
    (hmemo : ∀ k memo, c'.table.memo? k = some memo → c.table.memo? k = some memo)
    (hinput : ∀ p, c'.table.memo? (.fileText p) = c.table.memo? (.fileText p))
    (hget : ∀ id, c'.forest.contains id = true → c.forest.get? id = c'.forest.get? id)
    (hrev : c.table.revision ≤ c'.table.revision)
    (hwindow : c'.table.accepting = true → ∀ k memo, c'.table.memo? k = some memo → k.isInput = false →
      memo.verifiedAt < c'.table.revision)
    (hboth : ∀ p memo, c'.table.memo? (.moduleSymbols p) = some memo → memo.verifiedAt = c'.table.revision →
      ∃ tree, c'.table.memo? (.parse p) = some tree ∧ tree.verifiedAt = c'.table.revision) :
    Current c' changes where
  text p := by
    rw [Table.value?, hinput]
    exact h.text p
  changed_le k memo hm := Nat.le_trans (h.changed_le k memo (hmemo k memo hm)) hrev
  verified_le k memo hm := Nat.le_trans (h.verified_le k memo (hmemo k memo hm)) hrev
  window := hwindow
  tree p source text memo parsed hsource htext hm hparsed hle := by
    have hdescribes := h.tree p source text memo parsed ((hinput p).symm.trans hsource) htext
      (hmemo _ memo hm) hparsed hle
    exact hdescribes.congr fun id hid => (hget id (modules_held hc' hm hparsed id hid)).symm
  symbols p tree parsed memo htree hparsed hm hle := by
    have hvalue := h.symbols p tree parsed memo (hmemo _ tree htree) hparsed (hmemo _ memo hm) hle
    rwa [entriesOf_congr hc'.world.coherent.toBuilt (modules_held hc' htree hparsed) hget] at hvalue
  both := hboth
  origin id node hid := by
    have hlive : c'.forest.contains id = true := Forest.contains_iff.mpr ⟨node, hid⟩
    have hcontent := content_congr hc'.world.coherent.toBuilt hid hget
    exact hcontent ▸ h.origin id node ((hget id hlive).trans hid)

theorem collected {keep : NodeId → Bool} (h : Current c changes) (hc : c.Sound) (hkeep : c.Keeps keep) :
    Current (c.collected keep) changes := by
  have hswept {k : Key} {memo : Memo Key Value} (hm : (c.table.swept rules).memo? k = some memo) :
      c.table.memo? k = some memo := (Table.memo?_of_swept hm).2
  have hfresh {k : Key} {memo : Memo Key Value} (hm : c.table.memo? k = some memo)
      (hcurrent : k.isInput = true ∨ memo.verifiedAt = c.table.revision) :
      (c.table.swept rules).memo? k = some memo := by
    rw [Table.memo?_swept_of_not_stale, hm]
    intro hstale
    have hnot := hstale.not_current hc.nodup
    rw [Table.current?_of_memo hm hcurrent] at hnot
    cases hnot
  refine h.shrink (hc.collected hkeep) (fun k memo hm => hswept hm) (fun p => ?_) (fun id hid => ?_) (Nat.le_refl _)
    (fun hopen k memo hm => h.window hopen k memo (hswept hm)) (fun p memo hm hnow => ?_)
  · change (c.table.swept rules).memo? _ = _
    cases hm : c.table.memo? (.fileText p) with
    | some memo => exact hfresh hm (.inl rfl)
    | none =>
        cases hs : (c.table.swept rules).memo? (.fileText p) with
        | none => rfl
        | some memo => exact absurd (hswept hs) (by simp [hm])
  · have hget : (c.collected keep).forest.get? id = if keep id then c.forest.get? id else none :=
      Forest.get?_sweep c.forest keep id
    rw [Forest.contains, hget] at hid
    rw [hget]
    by_cases hk : keep id = true
    · rw [if_pos hk]
    · simp [hk] at hid
  · obtain ⟨tree, htree, hverified⟩ := h.both p memo (hswept hm) hnow
    exact ⟨tree, hfresh htree (.inr hverified), hverified⟩

theorem advanced (h : Current c changes) (hc : c.Sound) (keepOldResults : Bool) :
    Current (c.withTable (c.table.advanced rules keepOldResults)) changes := by
  have hmemo (k : Key) (memo : Memo Key Value)
      (hm : (c.table.advanced rules keepOldResults).memo? k = some memo) : c.table.memo? k = some memo := by
    rw [Table.memo?_advanced] at hm
    split at hm
    · exact hm
    · cases hm
  have hpast (k : Key) (memo : Memo Key Value)
      (hm : (c.table.advanced rules keepOldResults).memo? k = some memo) :
      memo.verifiedAt < c.table.revision + 1 := Nat.lt_succ_of_le (h.verified_le k memo (hmemo k memo hm))
  refine h.shrink (hc.advanced keepOldResults) hmemo (fun p => ?_) (fun _ _ => rfl) (Nat.le_succ _)
    (fun _ k memo hm _ => hpast k memo hm) (fun p memo hm hnow => ?_)
  · exact (Table.memo?_advanced rules c.table keepOldResults _).trans (if_pos (by simp [rules, Key.isInput]))
  · exact absurd hnow (Nat.ne_of_lt (hpast _ memo hm))

theorem value_eq_of_same {v : Value} {text : SourceText} (h : Value.same v (.text text) = true) :
    v = .text text := by
  cases v with
  | text t =>
      simp only [Value.same, beq_iff_eq] at h
      rw [h]
  | parsed _ | symbols _ => simp [Value.same] at h

theorem setText {p text : String} {u : Table Key Value} (h : Current c changes)
    (hset : c.table.setInput rules (.fileText p) (.text (.ofString text)) = .ok u) :
    Current (c.withTable u) (changes ++ [.text p text]) := by
  obtain ⟨-, hopen, memo, rfl, hverified, hmemo⟩ := Table.setInput_ok hset
  have hvalue : memo.value = .text (.ofString text) := by
    cases hmemo with
    | inl hnew => exact hnew.1
    | inr hold =>
        obtain ⟨old, -, hsame, hvalue, -⟩ := hold
        exact hvalue.trans (value_eq_of_same hsame)
  have hother (k : Key) (hk : k ≠ .fileText p) : (c.table.put (.fileText p) memo).memo? k = c.table.memo? k :=
    Table.memo?_put_of_ne c.table memo hk
  have hput (k : Key) : (c.table.put (.fileText p) memo).memo? k = if k = .fileText p then some memo
      else c.table.memo? k := Table.memo?_put c.table _ k memo
  have htimes {k : Key} {m : Memo Key Value} (hm : (c.table.put (.fileText p) memo).memo? k = some m) :=
    h.times_le hput rfl hverified
      (hmemo.imp And.right fun ⟨old, hold, _, _, hchanged⟩ => ⟨old, hold, hchanged⟩) hm
  exact
    { text := fun q => by
        rw [textOf_concat]
        by_cases hq : p = q
        · subst hq
          change ((c.table.put _ memo).memo? _).map Memo.value = _
          rw [Table.memo?_put_self]
          simp [hvalue]
        · simp only [hq, ite_false]
          change ((c.table.put _ memo).memo? _).map Memo.value = _
          rw [hother _ (by simpa using Ne.symm hq)]
          exact h.text q
      changed_le := fun j m hm => (htimes hm).1
      verified_le := fun j m hm => (htimes hm).2
      window := fun _ k m hm hderived => by
        cases Table.memo?_cases hput hm with
        | inr hold => exact h.window hopen k m hold.2 hderived
        | inl hnew => simp [hnew.1, Key.isInput] at hderived
      tree := fun q source text' m parsed hsource htext hm hparsed hle => by
        have hm' := (hother _ (by simp)).symm.trans hm
        cases Table.memo?_cases hput hsource with
        | inr hold => exact h.tree q source text' m parsed hold.2 htext hm' hparsed hle
        | inl hnew =>
            obtain ⟨hq, rfl⟩ := hnew
            obtain rfl := Key.fileText.inj hq
            cases hmemo with
            | inl hnow =>
                -- No tree has been verified in a revision that still takes texts.
                have hbefore := h.window hopen _ m hm' rfl
                omega
            | inr hsame =>
                obtain ⟨old, hold, -, hbefore, hchanged⟩ := hsame
                exact h.tree q old text' m parsed hold (hbefore.symm.trans htext) hm' hparsed (hchanged ▸ hle)
      symbols := fun q tree parsed m htree hparsed hm hle =>
        h.symbols q tree parsed m ((hother _ (by simp)).symm.trans htree) hparsed
          ((hother _ (by simp)).symm.trans hm) hle
      both := fun q m hm hnow => by
        obtain ⟨tree, htree, hcurrent⟩ := h.both q m ((hother _ (by simp)).symm.trans hm) hnow
        exact ⟨tree, (hother _ (by simp)).trans htree, hcurrent⟩
      origin := fun id node hid => (h.origin id node hid).mono fun x hx => List.mem_append_left _ hx }

theorem concat (h : Current c changes) {change : Change} (hchange : ∀ p t, change ≠ .text p t) :
    Current c (changes ++ [change]) := by
  have htext (p : String) : textOf (changes ++ [change]) p = textOf changes p := by
    rw [textOf_concat]
    cases change with
    | text q t => exact absurd rfl (hchange q t)
    | nothing | pin _ | unpin _ => rfl
  exact ⟨fun p => htext p ▸ h.text p, h.changed_le, h.verified_le, h.window, h.tree, h.symbols, h.both,
    fun id node hid => (h.origin id node hid).mono fun x hx => List.mem_append_left _ hx⟩

theorem withPins (h : Current c changes) (pins : List (NodeId × Nat)) : Current (c.withPins pins) changes :=
  h.of_eq rfl rfl

theorem tick (h : Current c changes) : Current c.tick changes :=
  h.of_eq rfl rfl

theorem effect {c' : Context} {change : Change} (h : Current c changes) (hc : c.Sound)
    (heffect : Effect c change c') : Current c' (changes ++ [change]) := by
  cases heffect with
  | moves hmoves => exact (h.moves hc hmoves).concat (by simp)
  | sets names hset => exact (h.move hc (.names names)).setText hset
  | pins _ => exact (h.withPins _).concat (by simp)
  | unpins _ => exact (h.withPins _).concat (by simp)
  | collects hkeep => exact (h.collected hc hkeep).concat (by simp)
  | advances keepOldResults hc₁ =>
      cases hc₁ with
      | inl heq =>
          subst heq
          exact (h.tick.advanced hc.tick keepOldResults).concat (by simp)
      | inr hcollected =>
          obtain ⟨keep, hkeep, rfl⟩ := hcollected
          have hlater := h.tick.collected hc.tick hkeep
          exact (hlater.advanced (hc.tick.collected hkeep) keepOldResults).concat (by simp)

theorem run (h : Current c changes) (hc : c.Sound) (ops : List Op) :
    Current (c.run ops) (changes ++ c.changes ops) := by
  induction ops generalizing c changes with
  | nil => exact (List.append_nil changes).symm ▸ h
  | cons op rest ih =>
      have hrest := ih (h.effect hc (op.effect hc)) (hc.after op)
      rw [List.append_assoc] at hrest
      exact hrest

end Current
end Context
end Palimpsest
