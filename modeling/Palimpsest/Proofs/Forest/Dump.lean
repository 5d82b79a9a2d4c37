import Palimpsest.Forest.Dump
import Palimpsest.Proofs.Forest.Coherent
import Palimpsest.Proofs.Node.Outline
import Palimpsest.Proofs.Text.Lines
import Palimpsest.Proofs.Text.Quoted

/-!
Printed trees. Of what is printed of a node only a name could go over several lines: values are quoted, and a quoted
text has no line end. So where no name has one, the lines of a printed tree are its nodes in preorder, each as far in
as it is deep.
-/

namespace Palimpsest

@[simp]
theorem newline_not_mem_toDigits (n : Nat) : '\n' ∉ Nat.toDigits 10 n := by
  intro h
  have hdigit := Nat.isDigit_of_mem_toDigits (by decide) (by decide) h
  cases hdigit

namespace NodeKind

variable {C : Type}

/-- The name that is printed of a node as it is. -/
def printedName? : NodeKind C → Option String
  | identifier name => some name
  | k => k.symbolName?

theorem newline_not_mem_tag (t : NodeTag) : '\n' ∉ t.name.toList := by
  cases t <;> decide

theorem newline_not_mem_keyword (v : Visibility) : '\n' ∉ v.keyword.toList := by
  cases v <;> decide

theorem newline_not_mem_scalars {k : NodeKind C} (h : ∀ name ∈ k.printedName?, '\n' ∉ name.toList) :
    '\n' ∉ k.scalars.toList := by
  cases k with
  | moduleDecl v _ | variableDecl v _ | functionDecl v _ => exact newline_not_mem_keyword v
  | module_ name _ | function name _ _ | identifier name => exact h name rfl
  | variable_ name kind _ =>
      have hname := h name rfl
      cases kind <;> simpa [scalars, VariableKind.display] using hname
  | formal name intent =>
      have hname := h name rfl
      cases intent <;> simpa [scalars, Intent.display] using hname
  | comment text => exact Quoted.newline_not_mem_quote text
  | intLiteral value => simp [scalars]
  | stringLiteral value => exact Quoted.newline_not_mem_quote value
  | foreignBlock code => exact Quoted.newline_not_mem_quote code
  | block _ | erroneous => exact List.not_mem_nil

end NodeKind

namespace Forest

/-- The line of a node, but for the blanks in front of it. -/
def nodeLine (f : Forest) (locations : Locations) (id : NodeId) : String :=
  dumpLine locations id ((f.get? id).getD default) 0

theorem dumpLine_eq (locations : Locations) (id : NodeId) (node : Node) (level : Nat) :
    (dumpLine locations id node level).toList =
      List.replicate (2 * level) ' ' ++ (dumpLine locations id node 0).toList := by
  simp only [dumpLine, String.toList_append, toList_pushn, List.append_assoc]
  rfl

theorem newline_not_mem_dumpLine {node : Node} (h : ∀ name ∈ node.kind.printedName?, '\n' ∉ name.toList)
    (locations : Locations) (id : NodeId) (level : Nat) : '\n' ∉ (dumpLine locations id node level).toList := by
  have hscalars := NodeKind.newline_not_mem_scalars h
  have htag := NodeKind.newline_not_mem_tag node.kind.tag
  have hfields : '\n' ∉ (if node.kind.scalars.isEmpty then "" else " " ++ node.kind.scalars).toList := by
    split
    · exact List.not_mem_nil
    · simpa using hscalars
  have hdisplay : '\n' ∉ id.display.toList := by
    simp [NodeId.display]
  have hindent : '\n' ∉ List.replicate (2 * level) ' ' := by
    simp
  simp only [dumpLine, String.toList_append, toList_pushn, List.mem_append, not_or]
  refine ⟨⟨⟨⟨⟨⟨List.not_mem_nil, hindent⟩, hdisplay⟩, by decide⟩, htag⟩, hfields⟩, ?_⟩
  cases locations.get? id with
  | none => exact List.not_mem_nil
  | some l => simp

theorem nodeLine_eq (f : Forest) (locations : Locations) (id : NodeId) :
    ∃ more, f.nodeLine locations id = id.display ++ " " ++ ((f.get? id).getD default).kind.tag.name ++ more := by
  rw [nodeLine, dumpLine, String.append_assoc]
  exact ⟨_, congrArg (· ++ " " ++ _ ++ _) String.empty_append⟩

theorem nodeLine_unindented (f : Forest) (locations : Locations) (id : NodeId) :
    (f.nodeLine locations id).toList.head? = some '#' := by
  obtain ⟨more, hline⟩ := nodeLine_eq f locations id
  simp [hline, NodeId.display]

/-- A text in which every node below a root has a line, as far in as it is deep, that begins with its handle. -/
structure Printed (f : Forest) (locations : Locations) (kind : NodeId → NodeKind NodeId) (size : NodeId → Nat)
    (root : NodeId) (text : String) : Prop where
  order : f.view.preorder root = pure ((outline (fun id => (kind id).children) size 0 root).map Prod.fst)
  /-- Behind the last line end there is nothing. -/
  lines : text.toList.splitOn '\n' = (outline (fun id => (kind id).children) size 0 root).map
    (fun e => List.replicate (2 * e.2) ' ' ++ (f.nodeLine locations e.1).toList) ++ [[]]
  starts : ∀ id ∈ Palimpsest.subtree (fun id => (kind id).children) size root,
    ∃ more, f.nodeLine locations id = id.display ++ " " ++ (kind id).tag.name ++ more
  unindented : ∀ id, (f.nodeLine locations id).toList.head? = some '#'

section Shown

variable {f : Forest} {kind : NodeId → NodeKind NodeId} {size : NodeId → Nat} {P : NodeId → Prop}
  (hf : f.view.Shows kind size P)
include hf

theorem exists_node {id : NodeId} (hp : P id) : ∃ node, f.get? id = some node ∧ node.kind = kind id := by
  have hkind := hf.kind_eq id hp
  cases hnode : f.get? id with
  | none => simp [view, get, hnode, Bind.bind, Except.bind, pure, Except.pure] at hkind
  | some node =>
      refine ⟨node, rfl, ?_⟩
      simpa [view, get_eq_ok.mpr hnode, Bind.bind, Except.bind, pure, Except.pure] using hkind

theorem dump_eq {root : NodeId} (hp : P root) (locations : Locations) :
    f.dump locations root = .ok (String.join (((outline (fun id => (kind id).children) size 0 root).map fun e =>
      dumpLine locations e.1 ((f.get? e.1).getD default) e.2).map (· ++ "\n"))) := by
  have hlines : ∀ e ∈ outline (fun id => (kind id).children) size 0 root,
      (do return dumpLine locations e.1 (← f.get e.1) e.2 ++ "\n" : Except FreedNode String) =
        pure (dumpLine locations e.1 ((f.get? e.1).getD default) e.2 ++ "\n") := by
    intro e he
    obtain ⟨node, hnode, -⟩ := exists_node hf (hf.of_mem_outline hp e he).2
    rw [get_eq_ok.mpr hnode, hnode]
    rfl
  rw [dump, (hf.walked hp).withDepths, pure_bind, NodeKind.mapM_eq_pure hlines, List.map_map]
  rfl

theorem printed {root : NodeId} (hp : P root) (locations : Locations)
    (hnames : ∀ id ∈ Palimpsest.subtree (fun id => (kind id).children) size root,
      ∀ name ∈ (kind id).printedName?, '\n' ∉ name.toList) :
    ∃ text, f.dump locations root = .ok text ∧ f.Printed locations kind size root text := by
  refine ⟨_, dump_eq hf hp locations, ?_, ?_, ?_, nodeLine_unindented f locations⟩
  · rw [(hf.walked hp).preorder, (hf.walked hp).leveled]
  · rw [splitOn_join, List.map_map]
    · congr 1
      exact List.map_congr_left fun e _ => dumpLine_eq locations e.1 _ e.2
    · intro l hl
      obtain ⟨e, he, rfl⟩ := List.mem_map.mp hl
      obtain ⟨hlisted, hpe⟩ := hf.of_mem_outline hp e he
      obtain ⟨node, hnode, hkind⟩ := exists_node hf hpe
      rw [hnode]
      exact newline_not_mem_dumpLine (hkind ▸ hnames e.1 hlisted) locations e.1 e.2
  · intro id hid
    obtain ⟨node, hnode, hkind⟩ := exists_node hf (hf.sized.subtree_forall hp hp hf.sized.closed id hid)
    obtain ⟨more, hline⟩ := nodeLine_eq f locations id
    exact ⟨more, by rw [hline, hnode, ← hkind]; rfl⟩

end Shown

/-- The trees of a forest are finite, and it knows their sizes. -/
theorem Built.shows {f : Forest} (h : f.Built) :
    f.view.Shows f.kindOf f.sizeOf fun id => f.contains id = true where
  sized := h.sized
  kind_eq _ := view_kind
  size_eq id _ := view_size f id

/-- A module with a comment over two lines and a variable. -/
def sample : Forest where
  slots := #[⟨0, some ⟨.comment "/* a\n b */", default, 1⟩⟩, ⟨0, some ⟨.intLiteral 7, default, 1⟩⟩,
    ⟨0, some ⟨.variable_ "x" .var (some ⟨1, 0⟩), default, 2⟩⟩, ⟨0, some ⟨.variableDecl .pub ⟨2, 0⟩, default, 3⟩⟩,
    ⟨0, some ⟨.module_ "M" [⟨0, 0⟩, ⟨3, 0⟩], default, 5⟩⟩, ⟨0, some ⟨.moduleDecl .plain ⟨4, 0⟩, default, 6⟩⟩]
  free := []
  live := 6

def sampleIds : List NodeId := [⟨0, 0⟩, ⟨1, 0⟩, ⟨2, 0⟩, ⟨3, 0⟩, ⟨4, 0⟩, ⟨5, 0⟩]

theorem sample_shows : sample.view.Shows sample.kindOf sample.sizeOf (· ∈ sampleIds) where
  sized := { closed := by decide, size_eq := by decide }
  kind_eq := by
    simp only [sampleIds, List.forall_mem_cons]
    exact ⟨rfl, rfl, rfl, rfl, rfl, rfl, by simp⟩
  size_eq _ _ := rfl

end Forest

/-- Every walk with a stack of its own gives what recursion gives, whatever the finite tree. Where no name in a tree
goes over several lines, the tree is printed with one line for each node. -/
theorem walked_and_printed :
    (∀ {m : Type → Type} [Monad m] [LawfulMonad m] {H : Type} [DecidableEq H] {t : TreeView m H}
      {kind : H → NodeKind H} {size : H → Nat} {P : H → Prop}, t.Shows kind size P →
        TreeView.Recursive (fun h => (kind h).children) size P ∧ ∀ root, P root → t.Walked kind size root) ∧
    ∀ {f : Forest} {kind : NodeId → NodeKind NodeId} {size : NodeId → Nat} {P : NodeId → Prop} {root : NodeId}
      (locations : Locations), f.view.Shows kind size P → P root →
        (∀ id ∈ subtree (fun id => (kind id).children) size root,
          ∀ name ∈ (kind id).printedName?, '\n' ∉ name.toList) →
        ∃ text, f.dump locations root = .ok text ∧ f.Printed locations kind size root text := by
  constructor
  · intro m _ _ H _ t kind size P ht
    exact ⟨ht.recursive, fun root hp => ht.walked hp⟩
  · intro f kind size P root locations hf hp hnames
    exact Forest.printed hf hp locations hnames

theorem walked_and_printed_sample :
    Forest.sample.view.preorder ⟨5, 0⟩ = pure [⟨5, 0⟩, ⟨4, 0⟩, ⟨0, 0⟩, ⟨3, 0⟩, ⟨2, 0⟩, ⟨1, 0⟩] ∧
    Forest.sample.view.postorder ⟨5, 0⟩ = pure [⟨0, 0⟩, ⟨1, 0⟩, ⟨2, 0⟩, ⟨3, 0⟩, ⟨4, 0⟩, ⟨5, 0⟩] ∧
    (∀ n, 6 ≤ n → Forest.sample.view.countLoop n [⟨5, 0⟩] 0 = pure 6) ∧
    ∃ text, Forest.sample.dump .empty ⟨5, 0⟩ = .ok text ∧ text.toList.splitOn '\n' =
      ["#5.0 ModuleDecl", "  #4.0 Module M", "    #0.0 Comment \"/* a\\n b */\"", "    #3.0 VariableDecl public",
        "      #2.0 Variable var x", "        #1.0 IntLiteral 7", ""].map String.toList := by
  obtain ⟨-, hwalked⟩ := walked_and_printed.1 Forest.sample_shows
  have hroot : (⟨5, 0⟩ : NodeId) ∈ Forest.sampleIds := by decide
  obtain ⟨text, htext, hprinted⟩ := walked_and_printed.2 .empty Forest.sample_shows hroot (by decide)
  refine ⟨(hwalked _ hroot).preorder.trans ?_, (hwalked _ hroot).postorder.trans ?_, (hwalked _ hroot).looped.count,
    text, htext, hprinted.lines.trans ?_⟩
  · rfl
  · rfl
  · decide

end Palimpsest
