import Palimpsest.Proofs.Fingerprint
import Palimpsest.Proofs.Session.Settled

/-!
Trees and symbols as if from scratch. However a tree came about, it is the tree that its text gives when it
is parsed alone; and within one revision the symbols of a file are those of its very tree.
-/

namespace Palimpsest
namespace Context

open Session Query

/-- The tree and the reports that the text gives when it is parsed alone. -/
structure FromText (f : Forest) (path text : String) (parsed : ParsedFile) : Prop where
  diagnostics_eq : parsed.diagnostics = Diagnostic.inTextOrder (Surface.parseText text).reports
  trees_eq : parsed.modules.mapM f.view.unfold =
    .ok ((DraftTree.ofFile (Surface.parseText text).file (Path.stem path)).roots.map fun i =>
      ((DraftTree.ofFile (Surface.parseText text).file (Path.stem path)).view.unfold i).run)

/-- The entry of a module: the very symbol of its declaration, and the symbols that its own statements
declare. -/
def EntryOf (f : Forest) (m : NodeId) (e : ModuleEntry) : Prop :=
  ∃ outer inner visibility name stmts, f.get? m = some outer ∧ outer.kind = .moduleDecl visibility e.module_ ∧
    f.get? e.module_ = some inner ∧ inner.kind = .module_ name stmts ∧ (∀ s ∈ stmts, f.contains s = true) ∧
    e.symbols = stmts.filterMap fun s => (f.kindOf s).declared?

/-- Different bytes have different hashes, as far as bytes were hashed for the drafts of texts. -/
def Collisionless (changes : List Change) : Prop :=
  ∀ k k', Contents changes k → Contents changes k' →
    ContentHash.ofBytes k.encode = ContentHash.ofBytes k'.encode → k.encode = k'.encode

/-- Paths and texts are short enough for a word of 64 bits to count their bytes. -/
def Countable (changes : List Change) : Prop :=
  ∀ path text, Change.text path text ∈ changes → path.utf8ByteSize < 2 ^ 64 ∧ text.utf8ByteSize < 2 ^ 64

theorem Contents.fits {changes : List Change} (h : Countable changes) {k : NodeKind ContentHash}
    (hk : Contents changes k) : k.Fits := by
  obtain ⟨path, text, hset, i, hi, rfl⟩ := hk
  obtain ⟨hpath, htext⟩ := h path text hset
  exact DraftTree.fits_ofText htext (Nat.lt_of_le_of_lt (Path.size_stem_le path) hpath) hi

theorem entryOf_entriesOf {f : Forest} (hf : f.Built) {ids : List NodeId}
    (h : ∀ id ∈ ids, ∃ visibility m name stmts, f.contains id = true ∧ f.kindOf id = .moduleDecl visibility m ∧
      f.contains m = true ∧ f.kindOf m = .module_ name stmts) :
    List.Forall₂ (EntryOf f) ids (entriesOf f ids) := by
  induction ids with
  | nil => exact .nil
  | cons id rest ih =>
      obtain ⟨visibility, m, name, stmts, hid, hkind, hm, hinner⟩ := h id List.mem_cons_self
      obtain ⟨outer, houter⟩ := Forest.contains_iff.mp hid
      obtain ⟨inner, hthere⟩ := Forest.contains_iff.mp hm
      have hentries : entriesOf f (id :: rest) =
          ⟨m, stmts.filterMap fun s => (f.kindOf s).declared?⟩ :: entriesOf f rest := by
        simp [entriesOf, declaredIn, hkind, NodeKind.declared?, hinner, NodeKind.stmts?]
      rw [hentries]
      refine .cons ⟨outer, inner, visibility, name, stmts, houter, ?_, hthere, ?_, fun s hs => ?_, rfl⟩
        (ih fun x hx => h x (List.mem_cons_of_mem id hx))
      · exact (Forest.kindOf_eq houter).symm.trans hkind
      · exact (Forest.kindOf_eq hthere).symm.trans hinner
      · exact contains_stmts hf hm s (by simpa [hinner, NodeKind.stmts?] using hs)

section Text

variable {c : Context} {changes : List Change} {path text : String} {parsed : ParsedFile}
  (hhash : Collisionless changes) (hfits : ∀ k, Contents changes k → k.Fits)
  (h : Current c changes) (hc : c.Sound) (hset : Change.text path text ∈ changes)
  (hdescribes : Describes c.forest path (.ofString text) parsed)
include hhash hfits h hc hset hdescribes

theorem fromText_of_describes :
    FromText c.forest path text parsed ∧
      List.Forall₂ (EntryOf c.forest) parsed.modules (entriesOf c.forest parsed.modules) := by
  have hinj : ∀ k k', Contents changes k → Contents changes k' → k.fingerprint = k'.fingerprint → k = k' :=
    fun k k' hk hk' hprint => NodeKind.encode_inj (hfits k hk) (hfits k' hk') (hhash k k' hk hk' hprint)
  have hlowered : (draftsOf path (.ofString text)).Lowered := DraftTree.lowered_ofFile _ _
  have hnodes : ∀ id, c.forest.contains id = true →
      Contents changes ((c.forest.kindOf id).map c.forest.printOf) := by
    intro id hid
    obtain ⟨node, hnode⟩ := Forest.contains_iff.mp hid
    rw [Forest.kindOf_eq hnode]
    exact h.origin id node hnode
  have hdrafts : ∀ i, i < (draftsOf path (.ofString text)).drafts.size →
      Contents changes ((draftsOf path (.ofString text)).contentOf i) :=
    fun i hi => ⟨path, text, hset, i, hi, rfl⟩
  have hbuilt : c.forest.Built := hc.world.coherent.toBuilt
  refine ⟨⟨hdescribes.diagnostics, ?_⟩, entryOf_entriesOf hbuilt fun id hid => ?_⟩
  · exact mapM_unfold_eq hinj hbuilt hlowered.numbered hnodes hdrafts hdescribes.answers
  · obtain ⟨i, hi, hanswers⟩ := Reconcile.exists_answer hdescribes.answers hid
    obtain ⟨visibility, m, name, stmts, hkind, hm, hinner⟩ := declares_module hinj hbuilt hlowered.numbered hnodes
      hdrafts hanswers.contains hanswers.printOf_eq.2 (hlowered.declares i hi)
    exact ⟨visibility, m, name, stmts, hanswers.contains, hkind, hm, hinner⟩

end Text

/-- The path has a text, and its drafts are told apart by their hashes. -/
structure Serves (c : Context) (changes : List Change) (path text : String) : Prop where
  sound : c.Sound
  current : Current c changes
  text_eq : textOf changes path = some text
  hash : Collisionless changes
  fits : ∀ k, Contents changes k → k.Fits

namespace Serves

variable {c c' : Context} {changes : List Change} {path text : String} {parsed : ParsedFile}
  {entries : List ModuleEntry}

theorem moves (h : Serves c changes path text) (hmoves : Relation.ReflTransGen Move c c') :
    Serves c' changes path text :=
  ⟨h.sound.moves hmoves, h.current.moves h.sound hmoves, h.text_eq, h.hash, h.fits⟩

theorem run (h : Serves c changes path text) (ops : List Op) (hquiet : ∀ p t, Change.text p t ∉ c.changes ops) :
    Serves (c.run ops) (changes ++ c.changes ops) path text where
  sound := h.sound.run ops
  current := h.current.run h.sound ops
  text_eq := (textOf_append hquiet path).trans h.text_eq
  hash k k' hk hk' := h.hash k k' (contents_append hquiet hk) (contents_append hquiet hk')
  fits k hk := h.fits k (contents_append hquiet hk)

theorem value_ne_none (h : Serves c changes path text) : c.table.value? (.fileText path) ≠ none := by
  rw [h.current.text path, h.text_eq]
  simp

theorem fromText (h : Serves c changes path text) (hs : Settled c (.parse path) (.parsed parsed)) :
    FromText c.forest path text parsed :=
  (fromText_of_describes h.hash h.fits h.current h.sound (mem_of_textOf h.text_eq)
    (hs.describes h.current h.text_eq)).1

theorem entryOf (h : Serves c changes path text) (hs : Settled c (.parse path) (.parsed parsed))
    (hs' : Settled c (.moduleSymbols path) (.symbols entries)) :
    List.Forall₂ (EntryOf c.forest) parsed.modules entries := by
  rw [hs.entries_eq h.current hs']
  exact (fromText_of_describes h.hash h.fits h.current h.sound (mem_of_textOf h.text_eq)
    (hs.describes h.current h.text_eq)).2

theorem parse_settled (h : Serves c changes path text) :
    ∃ v c', (parse path).eval c = (.ok v, c') ∧ Serves c' changes path text ∧
      Relation.ReflTransGen Move c c' ∧ Settled c' (.parse path) (.parsed v.value) := by
  cases parse_answers h.sound path with
  | inl hrefused => exact absurd hrefused.1 h.value_ne_none
  | inr hok =>
      obtain ⟨v, c', heval, hanswered⟩ := hok
      exact ⟨v, c', heval, h.moves hanswered.moves, hanswered.moves, hanswered.settled rfl⟩

theorem moduleSymbols_settled (h : Serves c changes path text) :
    ∃ s c', (moduleSymbols path).eval c = (.ok s, c') ∧ Serves c' changes path text ∧
      Relation.ReflTransGen Move c c' ∧ Settled c' (.moduleSymbols path) (.symbols s.value) := by
  cases moduleSymbols_answers h.sound path with
  | inl hrefused => exact absurd hrefused.1 h.value_ne_none
  | inr hok =>
      obtain ⟨s, c', heval, hanswered⟩ := hok
      exact ⟨s, c', heval, h.moves hanswered.moves, hanswered.moves, hanswered.settled rfl⟩

end Serves

/-- The tree and the symbols of a path are asked for, in either order and with any operations between that
leave the revision as it is: the tree is that of the text, and the symbols are those of the tree. -/
structure Faithful (c : Context) (path text : String) : Prop where
  parse_first : ∃ v c', (parse path).eval c = (.ok v, c') ∧ FromText c'.forest path text v.value ∧
    ∀ ops, (c'.run ops).revision = c'.revision → ∃ s d, (moduleSymbols path).eval (c'.run ops) = (.ok s, d) ∧
      FromText d.forest path text v.value ∧ List.Forall₂ (EntryOf d.forest) v.value.modules s.value
  symbols_first : ∃ s c', (moduleSymbols path).eval c = (.ok s, c') ∧
    ∀ ops, (c'.run ops).revision = c'.revision → ∃ v d, (parse path).eval (c'.run ops) = (.ok v, d) ∧
      FromText d.forest path text v.value ∧ List.Forall₂ (EntryOf d.forest) v.value.modules s.value

theorem Serves.faithful {c : Context} {changes : List Change} {path text : String}
    (h : Serves c changes path text) : Faithful c path text where
  parse_first := by
    obtain ⟨v, c', heval, h', -, hparse⟩ := h.parse_settled
    refine ⟨v, c', heval, h'.fromText hparse, fun ops hrev => ?_⟩
    obtain ⟨hlater, hquiet⟩ := hparse.run h'.current h'.sound rfl ops hrev
    have hrun := h'.run ops hquiet
    obtain ⟨s, d, hasked, hd, hmoves, hsymbols⟩ := hrun.moduleSymbols_settled
    have hstill := hlater.moves hrun.current hrun.sound rfl hmoves
    exact ⟨s, d, hasked, hd.fromText hstill, hd.entryOf hstill hsymbols⟩
  symbols_first := by
    obtain ⟨s, c', heval, h', -, hsymbols⟩ := h.moduleSymbols_settled
    refine ⟨s, c', heval, fun ops hrev => ?_⟩
    obtain ⟨hlater, hquiet⟩ := hsymbols.run h'.current h'.sound rfl ops hrev
    have hrun := h'.run ops hquiet
    obtain ⟨v, d, hasked, hd, hmoves, hparse⟩ := hrun.parse_settled
    have hstill := hlater.moves hrun.current hrun.sound rfl hmoves
    exact ⟨v, d, hasked, hd.fromText hparse, hd.entryOf hparse hstill⟩

section Computed

/-- What is hashed for the drafts of texts, one draft after the other. -/
def contentsOf (changes : List Change) : List (NodeKind ContentHash) :=
  changes.flatMap fun change =>
    match change with
    | .text path text =>
      let t := draftsOf path (.ofString text)
      (List.range t.drafts.size).map t.contentOf
    | _ => []

theorem contents_iff {changes : List Change} {k : NodeKind ContentHash} :
    Contents changes k ↔ k ∈ contentsOf changes := by
  rw [contentsOf, List.mem_flatMap]
  constructor
  · intro h
    obtain ⟨path, text, hset, i, hi, rfl⟩ := h
    exact ⟨.text path text, hset, List.mem_map_of_mem (List.mem_range.mpr hi)⟩
  · intro h
    obtain ⟨change, hchange, hk⟩ := h
    cases change with
    | text path text =>
        obtain ⟨i, hi, rfl⟩ := List.mem_map.mp hk
        exact ⟨path, text, hchange, i, List.mem_range.mp hi, rfl⟩
    | nothing | pin _ | unpin _ => simp at hk

instance (changes : List Change) : Decidable (Collisionless changes) :=
  decidable_of_iff (∀ k ∈ contentsOf changes, ∀ k' ∈ contentsOf changes,
      ContentHash.ofBytes k.encode = ContentHash.ofBytes k'.encode → k.encode = k'.encode) <| by
    simp only [Collisionless, contents_iff]
    exact ⟨fun h k k' hk hk' => h k hk k' hk', fun h k hk k' hk' => h k k' hk hk'⟩

end Computed

/-- The queries about a path are refused. -/
structure Refused (c : Context) (path : String) : Prop where
  parse : ((parse path).eval c).1 = .error (.noText path)
  symbols : ((moduleSymbols path).eval c).1 = .error (.noText path)

theorem refused_of_textOf {c : Context} {changes : List Change} {path : String} (h : Current c changes)
    (htext : textOf changes path = none) : Refused c path := by
  have hnone : c.table.value? (.fileText path) = none := by
    rw [h.text path, htext]
    rfl
  have hparse : (query (.parse path)).eval c = _ := eval_query_noText hnone
  have hsymbols : (query (.moduleSymbols path)).eval c = _ := eval_query_noText hnone
  exact ⟨congrArg Prod.fst (Act.eval_bind_error hparse), congrArg Prod.fst (Act.eval_bind_error hsymbols)⟩

/-- Whatever was done before, the answers about a path are those that its text gives from scratch. -/
theorem run_fromScratch (tuning : Tuning) (ops : List Op) (path : String)
    (hhash : Collisionless ((fresh tuning).changes ops)) (hsize : Countable ((fresh tuning).changes ops)) :
    match textOf ((fresh tuning).changes ops) path with
    | none => Refused ((fresh tuning).run ops) path
    | some text => Faithful ((fresh tuning).run ops) path text := by
  have hsound : ((fresh tuning).run ops).Sound := (sound_fresh tuning).run ops
  have hcurrent : Current ((fresh tuning).run ops) ((fresh tuning).changes ops) :=
    (current_fresh tuning).run (sound_fresh tuning) ops
  cases htext : textOf ((fresh tuning).changes ops) path with
  | none => exact refused_of_textOf hcurrent htext
  | some text => exact Serves.faithful ⟨hsound, hcurrent, htext, hhash, fun _ hk => hk.fits hsize⟩

/-- A text is parsed, and in the next revision it is edited. -/
theorem run_fromScratch_edited :
    Faithful ((fresh .standard).run [.setText "m" "var x;", .parse "m", .advance true,
      .setText "m" "var y; var x;", .moduleSymbols "m"]) "m" "var y; var x;" := by
  have hchanges : (fresh .standard).changes [.setText "m" "var x;", .parse "m", .advance true,
      .setText "m" "var y; var x;", .moduleSymbols "m"] =
      [.text "m" "var x;", .nothing, .nothing, .text "m" "var y; var x;", .nothing] := by decide +kernel
  have hhash : Collisionless
      [.text "m" "var x;", .nothing, .nothing, .text "m" "var y; var x;", .nothing] := by decide +kernel
  have hsize : Countable [.text "m" "var x;", .nothing, .nothing, .text "m" "var y; var x;", .nothing] := by
    intro path text hmem
    simp only [List.mem_cons, Change.text.injEq, reduceCtorEq, false_or, List.not_mem_nil, or_false] at hmem
    rcases hmem with ⟨rfl, rfl⟩ | ⟨rfl, rfl⟩ <;> decide
  have h := run_fromScratch .standard [.setText "m" "var x;", .parse "m", .advance true,
    .setText "m" "var y; var x;", .moduleSymbols "m"] "m" (hchanges.symm ▸ hhash) (hchanges.symm ▸ hsize)
  rw [hchanges] at h
  exact h

end Context
end Palimpsest
