import Mathlib.Data.List.Flatten
import Palimpsest.Proofs.Node.Kind

/-!
The ways through the children of a node. Listing them, going to each of them, making a node over new ones and setting
them against those of an old node all follow the fields in one order, and an old child stands opposite the new one in
the same field at the same index.
-/

namespace Palimpsest

/-- The fields that hold children. -/
inductive ChildField where
  | symbol
  | stmts
  | init
  | formals
  | body
deriving DecidableEq, Repr

namespace ChildField

variable {C D : Type}

/-- In the order in which a node has them. -/
def all : List ChildField := [symbol, stmts, init, formals, body]

/-- What a node has in a field. -/
def items : ChildField → NodeKind C → List C
  | symbol, .moduleDecl _ c | symbol, .variableDecl _ c | symbol, .functionDecl _ c => [c]
  | stmts, .module_ _ cs | stmts, .block cs => cs
  | init, .variable_ _ _ c => c.toList
  | formals, .function _ cs _ => cs
  | body, .function _ _ c => [c]
  | _, _ => []

theorem children_eq (k : NodeKind C) : k.children = all.flatMap (·.items k) := by
  cases k <;> simp [all, items, NodeKind.children]

theorem items_map (field : ChildField) (f : C → D) (k : NodeKind C) :
    field.items (k.map f) = (field.items k).map f := by
  cases k with
  | variable_ name kind c => cases c <;> cases field <;> rfl
  | _ => cases field <;> simp [items, NodeKind.map]

/-- What stands opposite a field: the same field of an old node, if that has the same tag. -/
def opposite (field : ChildField) (k : NodeKind C) : Option (NodeKind D) → List D
  | some old => if old.tag = k.tag then field.items old else []
  | none => []

section Opposite

variable {field : ChildField} {k : NodeKind C} {o : Option (NodeKind D)} {i : Nat}

theorem getElem?_opposite_eq_some {d : D} : (field.opposite k o)[i]? = some d ↔
    ∃ old, o = some old ∧ old.tag = k.tag ∧ (field.items old)[i]? = some d := by
  cases o with
  | none => simp [opposite]
  | some old => by_cases htag : old.tag = k.tag <;> simp [opposite, htag]

theorem getElem?_opposite_eq_none : (field.opposite k o)[i]? = none ↔
    o = none ∨ ∃ old, o = some old ∧ (old.tag ≠ k.tag ∨ (field.items old)[i]? = none) := by
  cases o with
  | none => simp [opposite]
  | some old => by_cases htag : old.tag = k.tag <;> simp [opposite, htag]

theorem flatMap_opposite_sublist (k : NodeKind C) (o : Option (NodeKind D)) :
    (all.flatMap (·.opposite k o)).Sublist ((o.map NodeKind.children).getD []) := by
  cases o with
  | none => simp [all, opposite]
  | some old =>
      by_cases htag : old.tag = k.tag
      · simp [opposite, htag, children_eq]
      · simp [all, opposite, htag]

end Opposite

end ChildField

namespace NodeKind

variable {C D : Type}

section Visit

variable {m : Type → Type} [Monad m] [LawfulMonad m]

theorem forM_eq (visit : C → m Unit) (k : NodeKind C) : k.forM visit = k.children.forM visit := by
  cases k with
  | variable_ name kind init => cases init <;> simp [forM, children, List.forM_eq_forM]
  | _ => simp [forM, children, List.forM_eq_forM]

/-- As many results as items. -/
theorem mapM_bind_length {E : Type} {f : C → m D} (l : List C) (g : Nat → List D → m E) :
    (do let ds ← l.mapM f; g ds.length ds) = (do let ds ← l.mapM f; g l.length ds) := by
  induction l generalizing g with
  | nil => simp
  | cons c l ih =>
      simp only [List.mapM_cons, bind_assoc, pure_bind, List.length_cons]
      congr 1
      funext d
      exact ih fun n ds => g (n + 1) (d :: ds)

theorem map_mapM_length {E : Type} {f : C → m D} (l : List C) (g : Nat → List D → E) :
    (fun ds => g ds.length ds) <$> l.mapM f = g l.length <$> l.mapM f := by
  rw [map_eq_pure_bind, map_eq_pure_bind, mapM_bind_length l fun n ds => pure (g n ds)]

/-- Whatever a call for a child does, the calls are those of the list of children, and what they give are the new
children of a node that is otherwise the same. -/
theorem parts_traverse (f : C → m D) (k : NodeKind C) :
    (fun k' => (k'.shape, k'.children)) <$> k.traverse f = (k.shape, ·) <$> k.children.mapM f := by
  cases k with
  | module_ name stmts =>
      have hlength := map_mapM_length stmts (f := f) fun n ds => (module_ name (List.replicate n ()), ds)
      simpa [traverse, children, shape, map, List.map_const'] using hlength
  | block stmts =>
      have hlength := map_mapM_length stmts (f := f) fun n ds => (block (List.replicate n ()), ds)
      simpa [traverse, children, shape, map, List.map_const'] using hlength
  | function name formals body =>
      have hlength := mapM_bind_length formals (f := f) fun n ds =>
        (fun d => (function name (List.replicate n ()) (), ds ++ [d])) <$> f body
      simpa [traverse, children, shape, map, List.map_const'] using hlength
  | variable_ name kind init => cases init <;> simp [traverse, children, shape, map]
  | _ => simp [traverse, children, shape, map]

theorem traverse_pure (f : C → D) (k : NodeKind C) : k.traverse (fun c => (pure (f c) : m D)) = pure (k.map f) := by
  cases k with
  | variable_ name kind init => cases init <;> simp [traverse, map]
  | _ => simp [traverse, map]

end Visit

section Opposite

theorem alignLists_nil (cs : List C) : alignLists cs ([] : List D) = cs.map (·, none) := by
  induction cs with
  | nil => rfl
  | cons c cs ih => rw [alignLists, ih, List.map_cons]

theorem filterMap_snd_alignLists (cs : List C) (ds : List D) : ((alignLists cs ds).filterMap Prod.snd).Sublist ds := by
  induction cs generalizing ds with
  | nil => exact List.nil_sublist ds
  | cons c cs ih =>
      cases ds with
      | nil => exact ih []
      | cons d ds => exact (ih ds).cons_cons d

theorem align_none (k : NodeKind C) : k.align (none : Option (NodeKind D)) = k.map (·, none) := by
  cases k <;> rfl

theorem align_of_tag_ne {k : NodeKind C} {old : NodeKind D} (h : old.tag ≠ k.tag) :
    k.align (some old) = k.map (·, none) := by
  cases k <;> cases old <;> first | rfl | exact absurd rfl h

theorem items_align_of_tag {k : NodeKind C} {old : NodeKind D} (h : old.tag = k.tag) (field : ChildField) :
    field.items (k.align (some old)) = alignLists (field.items k) (field.items old) := by
  cases k with
  | variable_ name kind c =>
      cases old with
      | variable_ _ _ d => cases c <;> cases d <;> cases field <;> rfl
      | _ => cases h
  | _ => cases old <;> first | (cases field <;> rfl) | cases h

/-- Aligning nodes is aligning field with field. -/
theorem items_align (field : ChildField) (k : NodeKind C) (o : Option (NodeKind D)) :
    field.items (k.align o) = alignLists (field.items k) (field.opposite k o) := by
  cases o with
  | none => rw [align_none, ChildField.items_map, ChildField.opposite, alignLists_nil]
  | some old =>
      by_cases htag : old.tag = k.tag
      · rw [items_align_of_tag htag, ChildField.opposite, if_pos htag]
      · rw [align_of_tag_ne htag, ChildField.items_map, ChildField.opposite, if_neg htag, alignLists_nil]

theorem getElem?_items_align {field : ChildField} {k : NodeKind C} {o : Option (NodeKind D)} {i : Nat} {c : C}
    {e : Option D} : (field.items (k.align o))[i]? = some (c, e) ↔
      (field.items k)[i]? = some c ∧ (field.opposite k o)[i]? = e := by
  rw [items_align, getElem?_alignLists, Option.map_eq_some_iff]
  constructor
  · intro h
    obtain ⟨_, hc, heq⟩ := h
    obtain ⟨rfl, rfl⟩ := Prod.mk.inj heq
    exact ⟨hc, rfl⟩
  · intro h
    exact ⟨c, h.1, by rw [h.2]⟩

theorem filterMap_snd_align (k : NodeKind C) (o : Option (NodeKind D)) :
    ((k.align o).children.filterMap Prod.snd).Sublist ((o.map children).getD []) := by
  refine List.Sublist.trans ?_ (ChildField.flatMap_opposite_sublist k o)
  rw [ChildField.children_eq, List.filterMap_flatMap]
  apply List.Sublist.flatMap_right
  intro field _
  rw [items_align]
  exact filterMap_snd_alignLists (field.items k) (field.opposite k o)

end Opposite

/-- All that goes through the children of a node finds the same children in the same order, and sets each against the
old child at its own place. -/
structure Agrees (k : NodeKind C) (o : Option (NodeKind D)) : Prop where
  forM_eq : ∀ {m : Type → Type} [Monad m] [LawfulMonad m] (visit : C → m Unit),
    k.forM visit = k.children.forM visit
  traverse_parts : ∀ {m : Type → Type} [Monad m] [LawfulMonad m] {E : Type} (f : C → m E),
    (fun k' => (k'.shape, k'.children)) <$> k.traverse f = (k.shape, ·) <$> k.children.mapM f
  traverse_pure : ∀ {m : Type → Type} [Monad m] [LawfulMonad m] {E : Type} (f : C → E),
    k.traverse (fun c => (pure (f c) : m E)) = pure (k.map f)
  map_id : k.map id = k
  map_comp : ∀ {E F : Type} (f : C → E) (g : E → F), (k.map f).map g = k.map (g ∘ f)
  children_align : (k.align o).children.map Prod.fst = k.children
  /-- Field by field. -/
  children_eq : k.children = ChildField.all.flatMap (·.items k) ∧
    (k.align o).children = ChildField.all.flatMap (·.items (k.align o))
  /-- No old child stands in two places, and they stand in their order. -/
  once : ((k.align o).children.filterMap Prod.snd).Sublist ((o.map children).getD [])
  paired_iff : ∀ (field : ChildField) (i : Nat) (c : C) (d : D), (field.items (k.align o))[i]? = some (c, some d) ↔
    (field.items k)[i]? = some c ∧ ∃ old, o = some old ∧ old.tag = k.tag ∧ (field.items old)[i]? = some d
  alone_iff : ∀ (field : ChildField) (i : Nat) (c : C), (field.items (k.align o))[i]? = some (c, none) ↔
    (field.items k)[i]? = some c ∧
      (o = none ∨ ∃ old, o = some old ∧ (old.tag ≠ k.tag ∨ (field.items old)[i]? = none))

theorem accessors_agree (k : NodeKind C) (o : Option (NodeKind D)) : Agrees k o where
  forM_eq visit := k.forM_eq visit
  traverse_parts f := parts_traverse f k
  traverse_pure f := k.traverse_pure f
  map_id := map_self k
  map_comp f g := map_map g f k
  children_align := by rw [← children_map, map_fst_align]
  children_eq := ⟨ChildField.children_eq k, ChildField.children_eq (k.align o)⟩
  once := filterMap_snd_align k o
  paired_iff field i c d := getElem?_items_align.trans (and_congr_right fun _ => ChildField.getElem?_opposite_eq_some)
  alone_iff field i c := getElem?_items_align.trans (and_congr_right fun _ => ChildField.getElem?_opposite_eq_none)

/-- The bodies of two procedures face each other, however many formals they have. -/
example : ((function "f" [1, 2, 3] 4).align (some (function "g" [10, 20] 40))).children =
    [(1, some 10), (2, some 20), (3, none), (4, some 40)] := rfl

end NodeKind
end Palimpsest
