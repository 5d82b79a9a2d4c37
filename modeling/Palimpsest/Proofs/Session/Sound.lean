import Palimpsest.Proofs.Query.Sweep
import Palimpsest.Proofs.Session.Act
import Palimpsest.Proofs.Session.Pins

/-!
What holds of a session between operations. No query is left running; what results and pins refer to is
there; no node is twice in the trees of a file. Answers and pins keep it so.
-/

namespace Palimpsest

namespace Session

/-- Nodes come in, and what was there stays as it is and where it is. -/
structure World.Extends (w w' : World) : Prop where
  sound : w'.Sound
  grows : w.forest.Grows w'.forest
  location_eq : ∀ id, w.forest.contains id = true → w'.locations.get? id = w.locations.get? id

namespace World.Extends

variable {w w' w'' : World}

theorem refl (h : w.Sound) : w.Extends w := ⟨h, .refl _, fun _ _ => rfl⟩

theorem trans (h : w.Extends w') (h' : w'.Extends w'') : w.Extends w'' where
  sound := h'.sound
  grows := h.grows.trans h'.grows
  location_eq id hid := (h'.location_eq id (h.grows.contains hid)).trans (h.location_eq id hid)

theorem subtree_eq (hw : w.Sound) (h : w.Extends w') {id : NodeId} (hid : w.forest.contains id = true) :
    w'.forest.subtree id = w.forest.subtree id :=
  hw.coherent.toBuilt.subtree_grows h.sound.coherent.toBuilt h.grows hid

end World.Extends

theorem TreeOf.world_extends {t : Query.Table Key Value} {w w' : World} {p : String} {text : SourceText}
    {source memo : Query.Memo Key Value} {parsed : ParsedFile} (hw : w.Sound)
    (h : TreeOf t w p text source memo parsed w') : w.Extends w' := by
  cases h with
  | kept _ _ _ _ => exact .refl hw
  | parsed _ h _ => exact ⟨h.sound, h.grows, h.location_eq⟩

end Session

namespace Context

open Session Query

structure Sound (c : Context) : Prop where
  world : c.state.world.Sound
  idle : c.table.active = []
  nodup : c.table.keys.Nodup
  fits : ∀ k memo, c.table.memo? k = some memo → Fits k memo
  held : ∀ k memo, c.table.memo? k = some memo → ∀ id ∈ memo.value.roots, c.forest.contains id = true
  once : ∀ k memo parsed, c.table.memo? k = some memo → memo.value = .parsed parsed →
    (parsed.modules.flatMap c.forest.subtree).Nodup
  pinned : Pinned c.pins
  pins_held : ∀ id ∈ c.pins.map Prod.fst, c.forest.contains id = true

theorem sound_fresh (tuning : Tuning) : (fresh tuning).Sound where
  world := World.sound_default
  idle := rfl
  nodup := List.nodup_nil
  fits := by simp [fresh, table, Table.empty, Table.memo?]
  held := by simp [fresh, table, Table.empty, Table.memo?]
  once := by simp [fresh, table, Table.empty, Table.memo?]
  pinned := ⟨List.nodup_nil, by simp [fresh]⟩
  pins_held := by simp [fresh]

/-- Where symbols come from that are stored: they are current, or they are read off the current tree. -/
inductive SymbolsFrom (t : Table Key Value) (f : Forest) (p : String) (memo : Memo Key Value) : Prop where
  | kept {old : Memo Key Value} (hold : t.memo? (.moduleSymbols p) = some old) (hvalue : memo.value = old.value)
      (hcurrent : old.verifiedAt = t.revision ∨ ∃ tree, t.memo? (.parse p) = some tree ∧
        tree.verifiedAt = t.revision ∧ tree.changedAt ≤ old.verifiedAt)
  | read {tree : Memo Key Value} {parsed : ParsedFile} (htree : t.memo? (.parse p) = some tree)
      (hparsed : tree.value = .parsed parsed) (hcurrent : tree.verifiedAt = t.revision)
      (hvalue : memo.value = .symbols (entriesOf f parsed.modules))

/-- What queries do, one step at a time. -/
inductive Move (c : Context) : Context → Prop where
  | names (names : Interner) : Move c (c.withNames names)
  | hit : Move c (c.withTable c.table.closeWindow.countHit)
  | tree {p : String} {text : SourceText} {source memo : Memo Key Value} {parsed : ParsedFile}
      {u : Table Key Value} {w : World} (hsource : c.table.memo? (.fileText p) = some source)
      (htext : source.value = .text text) (hstores : Table.Stores c.table (.parse p) memo u)
      (hvalue : memo.value = .parsed parsed) (hreads : memo.reads = [.fileText p])
      (hof : TreeOf c.table c.state.world p text source memo parsed w) : Move c (c.withState ⟨u, w⟩)
  | symbols {p : String} {memo : Memo Key Value} {u : Table Key Value}
      (hstores : Table.Stores c.table (.moduleSymbols p) memo u) (hreads : memo.reads = [.parse p])
      (hof : SymbolsFrom c.table c.forest p memo) : Move c (c.withTable u)

namespace Move

variable {c c' : Context}

theorem world_extends (hc : c.Sound) (h : Move c c') : c.state.world.Extends c'.state.world := by
  cases h with
  | tree _ _ _ _ _ hof => exact hof.world_extends hc.world
  | names _ => exact ⟨⟨hc.world.tidy, hc.world.coherent, hc.world.placed⟩, .refl _, fun _ _ => rfl⟩
  | hit | symbols _ _ _ => exact .refl hc.world

theorem pins_eq (h : Move c c') : c'.pins = c.pins := by
  cases h with
  | names _ | hit | tree _ _ _ _ _ _ | symbols _ _ _ => rfl

end Move

namespace Sound

variable {c : Context}

theorem store (h : c.Sound) {k : Key} {memo : Memo Key Value} {u : Table Key Value} {w : World}
    (hidle : u.active = []) (hnodup : u.keys.Nodup)
    (hmemo? : ∀ j, u.memo? j = if j = k then some memo else c.table.memo? j) (hfits : Fits k memo)
    (hw : c.state.world.Extends w) (hheld : ∀ id ∈ memo.value.roots, w.forest.contains id = true)
    (honce : ∀ parsed, memo.value = .parsed parsed → (parsed.modules.flatMap w.forest.subtree).Nodup) :
    (c.withState ⟨u, w⟩).Sound := by
  refine ⟨hw.sound, hidle, hnodup, ?_, ?_, ?_, h.pinned, ?_⟩
  · intro j m hm
    cases Table.memo?_cases hmemo? hm with
    | inl hnew => rw [hnew.1, hnew.2]; exact hfits
    | inr hold => exact h.fits j m hold.2
  · intro j m hm id hid
    cases Table.memo?_cases hmemo? hm with
    | inl hnew => exact hheld id (hnew.2 ▸ hid)
    | inr hold => exact hw.grows.contains (h.held j m hold.2 id hid)
  · intro j m parsed hm hvalue
    cases Table.memo?_cases hmemo? hm with
    | inl hnew => exact honce parsed (hnew.2 ▸ hvalue)
    | inr hold =>
        have hsame : parsed.modules.flatMap w.forest.subtree = parsed.modules.flatMap c.forest.subtree := by
          refine List.flatMap_congr fun id hid => hw.subtree_eq h.world (h.held j m hold.2 id ?_)
          rw [hvalue]
          exact hid
        exact hsame ▸ h.once j m parsed hold.2 hvalue
  · intro id hid
    exact hw.grows.contains (h.pins_held id hid)

theorem move {c' : Context} (h : c.Sound) (hmove : Move c c') : c'.Sound := by
  have hw := hmove.world_extends h
  cases hmove with
  | names _ => exact ⟨hw.sound, h.idle, h.nodup, h.fits, h.held, h.once, h.pinned, h.pins_held⟩
  | hit => exact ⟨h.world, h.idle, h.nodup, h.fits, h.held, h.once, h.pinned, h.pins_held⟩
  | tree hsource htext hstores hvalue hreads hof =>
      refine h.store (hstores.active.trans h.idle) (hstores.nodup h.nodup) hstores.memo?_eq
        ⟨⟨_, hvalue⟩, hreads⟩ hw ?_ ?_
      · rw [hvalue]
        exact (hof.contains h.world h.held).2
      · intro parsed' hparsed'
        obtain rfl : parsed' = _ := Value.parsed.inj (hparsed'.symm.trans hvalue)
        cases hof with
        | kept hold hbefore _ _ => exact h.once _ _ _ hold hbefore
        | parsed _ hparses _ => exact hparses.nodup
  | @symbols p memo u hstores hreads hof =>
      have hheld : ∃ entries, memo.value = Value.symbols entries ∧
          ∀ id ∈ (Value.symbols entries).roots, c.forest.contains id = true := by
        cases hof with
        | kept hold hvalue _ =>
            obtain ⟨⟨entries, hentries⟩, -⟩ := h.fits _ _ hold
            exact ⟨entries, hvalue.trans hentries, hentries ▸ h.held _ _ hold⟩
        | read htree hparsed _ hvalue =>
            refine ⟨_, hvalue, contains_entriesOf h.world.coherent.toBuilt fun id hid => ?_⟩
            refine h.held _ _ htree id ?_
            rw [hparsed]
            exact hid
      obtain ⟨entries, hentries, hroots⟩ := hheld
      refine h.store (hstores.active.trans h.idle) (hstores.nodup h.nodup) hstores.memo?_eq
        ⟨⟨entries, hentries⟩, hreads⟩ hw (hentries ▸ hroots) ?_
      intro parsed hparsed
      simp [hentries] at hparsed

theorem moves {c' : Context} (h : c.Sound) (hmoves : Relation.ReflTransGen Move c c') : c'.Sound := by
  induction hmoves with
  | refl => exact h
  | tail _ hmove ih => exact ih.move hmove

theorem addPin (h : c.Sound) {id : NodeId} (hid : c.forest.contains id = true) :
    (c.withPins (addPin id c.pins)).Sound := by
  refine ⟨h.world, h.idle, h.nodup, h.fits, h.held, h.once, h.pinned.addPin id, fun x hx => ?_⟩
  cases (Pinned.mem_addPin id x c.pins).mp hx with
  | inl heq => exact heq ▸ hid
  | inr hin => exact h.pins_held x hin

theorem dropPin (h : c.Sound) (id : NodeId) : (c.withPins (dropPin id c.pins)).Sound :=
  ⟨h.world, h.idle, h.nodup, h.fits, h.held, h.once, h.pinned.dropPin id,
    fun x hx => h.pins_held x (Pinned.mem_dropPin hx)⟩

end Sound
end Context
end Palimpsest
