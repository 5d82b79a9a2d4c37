import Palimpsest.Proofs.Reconcile.Account
import Palimpsest.Session.Bodies

/-!
What the bodies of queries do to the world. Parsing adds nodes to a forest and takes none away; symbols
are read off a tree without a change, and as long as the nodes stay the same symbols are read.
-/

namespace Palimpsest

namespace NodeKind

variable {C : Type} {k : NodeKind C} {c : C}

theorem mem_children_of_declared (h : k.declared? = some c) : c ∈ k.children := by
  cases k <;> simp_all [declared?, children]

theorem mem_children_of_stmts {stmts : List C} (h : k.stmts? = some stmts) (hc : c ∈ stmts) :
    c ∈ k.children := by
  cases k <;> simp_all [stmts?, children]

end NodeKind

namespace Session

/-- The drafts of a text. -/
def draftsOf (path : String) (text : SourceText) : DraftTree :=
  DraftTree.ofFile (Surface.parseText text.content).file (Path.stem path)

namespace World

structure Sound (w : World) : Prop where
  tidy : w.forest.Tidy
  coherent : w.forest.Coherent
  placed : w.locations.Placed w.forest

theorem sound_default : (default : World).Sound := ⟨.empty, .empty, .empty⟩

/-- The result of parsing a text, and the world that it leaves. -/
structure Parses (w : World) (path : String) (text : SourceText) (parsed : ParsedFile) (w' : World) :
    Prop where
  sound : w'.Sound
  grows : w.forest.Grows w'.forest
  location_eq : ∀ id, w.forest.contains id = true → w'.locations.get? id = w.locations.get? id
  origin : ∀ id node, w'.forest.get? id = some node → w.forest.get? id = some node ∨
    Reconcile.Drafted (draftsOf path text).drafts w'.forest node
  answers : List.Forall₂ (Reconcile.Answers (draftsOf path text).drafts w'.forest)
    (draftsOf path text).roots parsed.modules
  nodup : (parsed.modules.flatMap w'.forest.subtree).Nodup
  diagnostics : parsed.diagnostics = Diagnostic.inTextOrder (Surface.parseText text.content).reports

theorem Parses.contains {w w' : World} {path : String} {text : SourceText} {parsed : ParsedFile}
    (h : w.Parses path text parsed w') : ∀ id ∈ parsed.modules, w'.forest.contains id = true :=
  Reconcile.contains_of_answers h.answers

theorem parse_eq (w : World) (path : String) (text : SourceText) (oldRoots : List NodeId) :
    w.parse path text oldRoots =
      match reconcile w.forest w.locations oldRoots (draftsOf path text) path text with
      | .ok (modules, s) =>
        .ok ({ modules, diagnostics := Diagnostic.inTextOrder (Surface.parseText text.content).reports,
               reuse := s.stats },
          { names := (w.names.addAll (Surface.parseText text.content).file.names).add (Path.stem path)
            forest := s.forest, locations := s.locations })
      | .error (.freed e) => .error (.freed e)
      | .error (.misnumbered i) => .error (.misnumbered i) := rfl

theorem parse_ok {w : World} (h : w.Sound) (path : String) (text : SourceText) (oldRoots : List NodeId) :
    ∃ parsed w', w.parse path text oldRoots = .ok (parsed, w') ∧ w.Parses path text parsed w' := by
  have hdrafts : (draftsOf path text).Lowered := DraftTree.lowered_ofFile _ _
  obtain ⟨_, ids, log, s, heq, hreconciled⟩ :=
    reconcile_run h.tidy h.coherent.toBuilt w.locations hdrafts oldRoots path text
  have hanswered := hreconciled.answered
  rw [parse_eq, heq]
  refine ⟨_, _, rfl, ?_⟩
  exact
    { sound := ⟨hanswered.steady.tidy, hreconciled.coherent h.coherent, hreconciled.placed h.placed⟩
      grows := hanswered.grows
      location_eq := fun _ hid => hreconciled.location_eq h.placed.within hid
      origin := hanswered.steady.origin
      answers := hanswered.answers
      nodup := hreconciled.nodup h.coherent
      diagnostics := rfl }

end World

section Entries

/-- The symbols that nodes declare, read off a forest that has the nodes. -/
def declaredIn (f : Forest) (ids : List NodeId) : List NodeId := ids.filterMap fun id => (f.kindOf id).declared?

/-- The entries of modules, read off a forest that has the modules. -/
def entriesOf (f : Forest) (roots : List NodeId) : List ModuleEntry :=
  (declaredIn f roots).map fun module_ =>
    { module_, symbols := declaredIn f (((f.kindOf module_).stmts?).getD []) }

variable {f g : Forest} {ids : List NodeId}

theorem contains_declaredIn (hf : f.Built) (hids : ∀ id ∈ ids, f.contains id = true) :
    ∀ c ∈ declaredIn f ids, f.contains c = true := by
  intro c hc
  obtain ⟨id, hid, hdeclared⟩ := List.mem_filterMap.mp hc
  exact hf.sized.closed id (hids id hid) c (NodeKind.mem_children_of_declared hdeclared)

theorem contains_stmts (hf : f.Built) {id : NodeId} (hid : f.contains id = true) :
    ∀ c ∈ ((f.kindOf id).stmts?).getD [], f.contains c = true := by
  intro c hc
  cases hstmts : (f.kindOf id).stmts? with
  | none => simp [hstmts] at hc
  | some stmts =>
      rw [hstmts] at hc
      exact hf.sized.closed id hid c (NodeKind.mem_children_of_stmts hstmts hc)

theorem declaredBy_eq (hids : ∀ id ∈ ids, f.contains id = true) :
    declaredBy f ids = .ok (declaredIn f ids) := by
  have hget : ids.mapM f.get = pure (ids.map fun id => (f.get? id).getD default) := by
    refine NodeKind.mapM_eq_pure fun id hid => ?_
    obtain ⟨node, hnode⟩ := Forest.contains_iff.mp (hids id hid)
    rw [Forest.get_eq_ok.mpr hnode, hnode]
    rfl
  have hkind : (ids.map fun id => (f.get? id).getD default).filterMap (·.kind.declared?) = declaredIn f ids := by
    rw [List.filterMap_map]
    refine List.filterMap_congr fun id hid => ?_
    obtain ⟨node, hnode⟩ := Forest.contains_iff.mp (hids id hid)
    simp [hnode, Forest.kindOf_eq hnode]
  rw [declaredBy, hget, pure_bind, hkind]
  rfl

theorem declarations_eq (hf : f.Built) {id : NodeId} (hid : f.contains id = true) :
    f.view.declarations id =
      .ok ((((f.kindOf id).stmts?).getD []).filter fun c => (f.kindOf c).declared?.isSome) := by
  rw [TreeView.declarations, Forest.view_kind hid, pure_bind]
  refine TreeView.filterM_eq_pure fun c hc => ?_
  rw [Forest.view_kind (contains_stmts hf hid c hc), pure_bind]

theorem declaredIn_filter (f : Forest) (ids : List NodeId) :
    declaredIn f (ids.filter fun c => (f.kindOf c).declared?.isSome) = declaredIn f ids := by
  rw [declaredIn, List.filterMap_filter, declaredIn]
  refine List.filterMap_congr fun c _ => ?_
  cases (f.kindOf c).declared? <;> rfl

/-- Reading symbols off trees that are there is never refused. -/
theorem moduleEntries_eq (hf : f.Built) (hids : ∀ id ∈ ids, f.contains id = true) :
    moduleEntries f ids = .ok (entriesOf f ids) := by
  have hentry : ∀ m ∈ declaredIn f ids,
      (do return { module_ := m, symbols := ← declaredBy f (← f.view.declarations m) } :
        Except FreedNode ModuleEntry) =
      pure { module_ := m, symbols := declaredIn f (((f.kindOf m).stmts?).getD []) } := by
    intro m hm
    have hthere := contains_declaredIn hf hids m hm
    have hstmts : ∀ c ∈ (((f.kindOf m).stmts?).getD []).filter fun c => (f.kindOf c).declared?.isSome,
        f.contains c = true := fun c hc => contains_stmts hf hthere c (List.mem_filter.mp hc).1
    rw [declarations_eq hf hthere]
    change (declaredBy f _ >>= _) = _
    rw [declaredBy_eq hstmts, declaredIn_filter]
    rfl
  rw [moduleEntries, declaredBy_eq hids]
  exact NodeKind.mapM_eq_pure hentry

theorem contains_entriesOf (hf : f.Built) (hids : ∀ id ∈ ids, f.contains id = true) :
    ∀ id ∈ (Value.symbols (entriesOf f ids)).roots, f.contains id = true := by
  intro id hid
  obtain ⟨entry, hentry, hid⟩ := List.mem_flatMap.mp hid
  obtain ⟨m, hm, rfl⟩ := List.mem_map.mp hentry
  have hthere := contains_declaredIn hf hids m hm
  cases List.mem_cons.mp hid with
  | inl heq => rw [heq]; exact hthere
  | inr hsymbol => exact contains_declaredIn hf (contains_stmts hf hthere) id hsymbol

theorem declaredIn_congr (h : ∀ id ∈ ids, g.kindOf id = f.kindOf id) : declaredIn g ids = declaredIn f ids := by
  refine List.filterMap_congr fun id hid => ?_
  rw [h id hid]

/-- Entries hang on the nodes of the trees only. -/
theorem entriesOf_congr (hf : f.Built) (hids : ∀ id ∈ ids, f.contains id = true)
    (hsame : ∀ id, f.contains id = true → g.get? id = f.get? id) : entriesOf g ids = entriesOf f ids := by
  have hkind (id : NodeId) (hid : f.contains id = true) : g.kindOf id = f.kindOf id := by
    rw [Forest.kindOf, hsame id hid, Forest.kindOf]
  rw [entriesOf, declaredIn_congr fun id hid => hkind id (hids id hid), entriesOf]
  refine List.map_congr_left fun m hm => ?_
  have hthere := contains_declaredIn hf hids m hm
  rw [hkind m hthere, declaredIn_congr fun c hc => hkind c (contains_stmts hf hthere c hc)]

end Entries
end Session
end Palimpsest
