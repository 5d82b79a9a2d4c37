import Palimpsest.Node.Kind

/-!
A kind is its shape, which is all of it but its children, together with the list of its children.
-/

namespace Palimpsest
namespace NodeKind

variable {C D : Type}

def shape (k : NodeKind C) : NodeKind Unit := k.map fun _ => ()

@[simp] theorem children_map (f : C → D) (k : NodeKind C) : (k.map f).children = k.children.map f := by
  cases k with
  | variable_ name kind init => cases init <;> rfl
  | function name formals body => simp [map, children]
  | _ => rfl

@[simp] theorem tag_map (f : C → D) (k : NodeKind C) : (k.map f).tag = k.tag := by
  cases k <;> rfl

@[simp] theorem symbolName?_map (f : C → D) (k : NodeKind C) : (k.map f).symbolName? = k.symbolName? := by
  cases k <;> rfl

theorem isSymbol_tag (k : NodeKind C) : k.tag.isSymbol = k.symbolName?.isSome := by
  cases k <;> rfl

theorem map_map {B : Type} (f : C → D) (g : B → C) (k : NodeKind B) :
    (k.map g).map f = k.map fun b => f (g b) := by
  cases k with
  | variable_ name kind init => cases init <;> rfl
  | _ => simp [map]

theorem map_self (k : NodeKind C) : (k.map fun c => c) = k := by
  cases k with
  | variable_ name kind init => cases init <;> rfl
  | _ => simp [map]

@[simp] theorem shape_map (f : C → D) (k : NodeKind C) : (k.map f).shape = k.shape := map_map _ f k

theorem ext_shape {k k' : NodeKind C} (hshape : k.shape = k'.shape)
    (hchildren : k.children = k'.children) : k = k' := by
  cases k with
  | variable_ name kind init =>
      cases k' with
      | variable_ name' kind' init' => cases init <;> cases init' <;> simp_all [shape, map, children]
      | _ => simp [shape, map] at hshape
  | function name formals body =>
      cases k' with
      | function name' formals' body' => simp_all [shape, map, children]
      | _ => simp [shape, map] at hshape
  | _ => cases k' <;> simp_all [shape, map, children]

theorem tag_of_shape {k : NodeKind C} {k' : NodeKind D} (h : k.shape = k'.shape) : k.tag = k'.tag := by
  have htag := congrArg tag h
  simpa [shape] using htag

theorem map_congr {f g : C → D} {k : NodeKind C} (h : ∀ c ∈ k.children, f c = g c) : k.map f = k.map g :=
  ext_shape (by simp) (by simpa using h)

theorem exists_concat_of_length (formals : List C) {ds : List D} (h : ds.length = formals.length + 1) :
    ∃ front last, ds = front ++ [last] ∧ front.length = formals.length := by
  obtain rfl | ⟨front, last, rfl⟩ := List.eq_nil_or_concat ds
  · simp at h
  · exact ⟨front, last, List.concat_eq_append, by simpa using h⟩

theorem mapM_eq_pure {m : Type → Type} [Monad m] [LawfulMonad m] {f : C → m D} {g : C → D} {l : List C}
    (h : ∀ c ∈ l, f c = pure (g c)) : l.mapM f = pure (l.map g) := by
  induction l with
  | nil => simp
  | cons c l ih =>
      have hl := ih fun d hd => h d (List.mem_cons_of_mem c hd)
      simp [h c List.mem_cons_self, hl]

theorem mapM_congr {m : Type → Type} [Monad m] [LawfulMonad m] {f g : C → m D} {l : List C}
    (h : ∀ c ∈ l, f c = g c) : l.mapM f = l.mapM g := by
  induction l with
  | nil => simp
  | cons c l ih =>
      have hl := ih fun d hd => h d (List.mem_cons_of_mem c hd)
      simp [h c List.mem_cons_self, hl]

section Refill

variable [Inhabited D]

/-- The same shape over new children. -/
def refill : NodeKind C → List D → NodeKind D
  | moduleDecl v _, ds => moduleDecl v ds.head!
  | module_ name _, ds => module_ name ds
  | comment text, _ => comment text
  | identifier name, _ => identifier name
  | intLiteral value, _ => intLiteral value
  | stringLiteral value, _ => stringLiteral value
  | block _, ds => block ds
  | variableDecl v _, ds => variableDecl v ds.head!
  | variable_ name kind _, ds => variable_ name kind ds.head?
  | functionDecl v _, ds => functionDecl v ds.head!
  | function name _ _, ds => function name ds.dropLast (ds.getLastD default)
  | formal name intent, _ => formal name intent
  | foreignBlock code, _ => foreignBlock code
  | erroneous, _ => erroneous

theorem shape_refill {k : NodeKind C} {ds : List D} (h : ds.length = k.children.length) :
    (k.refill ds).shape = k.shape := by
  cases k with
  | module_ name stmts | block stmts =>
      have hlength : ds.length = stmts.length := h
      simp [refill, shape, map, List.map_const', hlength]
  | variable_ name kind init => cases init <;> cases ds <;> simp_all [refill, shape, map, children]
  | function name formals body =>
      obtain ⟨front, last, rfl, hfront⟩ := exists_concat_of_length formals (by simpa [children] using h)
      simp [refill, shape, map, List.map_const', hfront]
  | _ => rfl

theorem children_refill {k : NodeKind C} {ds : List D} (h : ds.length = k.children.length) :
    (k.refill ds).children = ds := by
  cases k with
  | module_ _ _ | block _ => rfl
  | moduleDecl _ _ | variableDecl _ _ | functionDecl _ _ =>
      obtain ⟨d, rfl⟩ := List.length_eq_one_iff.mp h
      rfl
  | variable_ name kind init =>
      cases init with
      | none =>
          obtain rfl := List.length_eq_zero_iff.mp h
          rfl
      | some c =>
          obtain ⟨d, rfl⟩ := List.length_eq_one_iff.mp h
          rfl
  | function name formals body =>
      obtain ⟨front, last, rfl, -⟩ := exists_concat_of_length formals (by simpa [children] using h)
      simp [refill, children]
  | _ => exact (List.length_eq_zero_iff.mp h).symm

variable {m : Type → Type} [Monad m] [LawfulMonad m]

/-- Going through a node is going through the list of its children. -/
theorem traverse_eq_refill (f : C → m D) (k : NodeKind C) :
    k.traverse f = k.refill <$> k.children.mapM f := by
  cases k with
  | variable_ name kind init => cases init <;> simp [traverse, children, refill]
  | function name formals body => simp [traverse, children, refill]
  | module_ _ _ | block _ =>
      simp only [traverse, children, bind_pure_comp]
      rfl
  | moduleDecl _ _ | variableDecl _ _ | functionDecl _ _ =>
      simp only [traverse, children, bind_pure_comp, List.mapM_cons, List.mapM_nil, map_bind]
      simp only [bind_pure_comp, map_pure]
      rfl
  | _ => simp [traverse, children, refill]

theorem traverse_congr {f g : C → m D} {k : NodeKind C} (h : ∀ c ∈ k.children, f c = g c) :
    k.traverse f = k.traverse g := by
  rw [traverse_eq_refill, traverse_eq_refill, mapM_congr h]

theorem traverse_eq_pure {f : C → m D} {g : C → D} {k : NodeKind C}
    (h : ∀ c ∈ k.children, f c = pure (g c)) : k.traverse f = pure (k.map g) := by
  have hlength : (k.children.map g).length = k.children.length := List.length_map g
  rw [traverse_eq_refill, mapM_eq_pure h, map_pure]
  congr 1
  refine ext_shape ?_ ?_
  · rw [shape_refill hlength, shape_map]
  · rw [children_refill hlength, children_map]

end Refill

section Align

theorem map_fst_alignLists (cs : List C) (ds : List D) : (alignLists cs ds).map Prod.fst = cs := by
  induction cs generalizing ds with
  | nil => rfl
  | cons c cs ih => cases ds <;> simp [alignLists, ih]

theorem getElem?_alignLists (cs : List C) (ds : List D) (i : Nat) :
    (alignLists cs ds)[i]? = cs[i]?.map fun c => (c, ds[i]?) := by
  induction cs generalizing ds i with
  | nil => rfl
  | cons c cs ih =>
      cases ds with
      | nil => cases i <;> simp [alignLists, ih]
      | cons d ds => cases i <;> simp [alignLists, ih]

theorem of_getElem?_alignLists {cs : List C} {ds : List D} {i : Nat} {e : C × Option D}
    (h : (alignLists cs ds)[i]? = some e) : cs[i]? = some e.1 ∧ ds[i]? = e.2 := by
  rw [getElem?_alignLists] at h
  obtain ⟨c, hc, rfl⟩ := Option.map_eq_some_iff.mp h
  exact ⟨hc, rfl⟩

theorem mem_of_mem_alignLists {cs : List C} {ds : List D} {c : C} {d : D}
    (h : (c, some d) ∈ alignLists cs ds) : d ∈ ds := by
  induction cs generalizing ds with
  | nil => simp [alignLists] at h
  | cons c' cs ih =>
      cases ds with
      | nil =>
          have hnil : (c, some d) ∈ alignLists cs [] := by simpa [alignLists] using h
          exact ih hnil
      | cons d' ds =>
          rcases List.mem_cons.mp h with h | h
          · simp_all
          · exact List.mem_cons_of_mem d' (ih h)

/-- Aligning keeps the node and only adds to its children. -/
theorem map_fst_align (k : NodeKind C) (old : Option (NodeKind D)) : (k.align old).map Prod.fst = k := by
  unfold align
  split
  · rfl
  · rfl
  · rfl
  · simp [map, map_fst_alignLists]
  · simp [map, map_fst_alignLists]
  · rename_i init _ _ _
    cases init <;> rfl
  · simp [map, map_fst_alignLists]
  · rw [map_map, map_self]

theorem mem_of_mem_align {k : NodeKind C} {old : Option (NodeKind D)} {c : C} {d : D}
    (h : (c, some d) ∈ (k.align old).children) : ∃ o, old = some o ∧ d ∈ o.children := by
  unfold align at h
  split at h
  · simp_all [children]
  · simp_all [children]
  · simp_all [children]
  · exact ⟨_, rfl, mem_of_mem_alignLists h⟩
  · exact ⟨_, rfl, mem_of_mem_alignLists h⟩
  · rename_i init _ _ old
    cases init <;> cases old <;> simp_all [children]
  · rcases List.mem_append.mp h with h | h
    · exact ⟨_, rfl, List.mem_append_left _ (mem_of_mem_alignLists h)⟩
    · simp_all [children]
  · simp at h

end Align
end NodeKind

/-- The root declares the symbol, which is a module with the name and the statements. -/
structure ModuleAt {H : Type} (kind : H → NodeKind H) (root symbol : H) (name : String) (stmts : List H) : Prop where
  root_eq : ∃ visibility, kind root = .moduleDecl visibility symbol
  symbol_eq : kind symbol = .module_ name stmts

def DeclaresModule {H : Type} (kind : H → NodeKind H) (root : H) (name : String) (stmts : List H) : Prop :=
  ∃ symbol, ModuleAt kind root symbol name stmts

namespace ModuleAt

variable {H : Type} {kind : H → NodeKind H} {root symbol : H} {name : String} {stmts : List H}
  (h : ModuleAt kind root symbol name stmts)
include h

theorem children_root : (kind root).children = [symbol] := by
  obtain ⟨visibility, hkind⟩ := h.root_eq
  rw [hkind, NodeKind.children]

theorem children_symbol : (kind symbol).children = stmts := by rw [h.symbol_eq, NodeKind.children]

theorem symbolName?_root : (kind root).symbolName? = none := by
  obtain ⟨visibility, hkind⟩ := h.root_eq
  rw [hkind]
  rfl

end ModuleAt

theorem DeclaresModule.stmts_eq {H : Type} {kind : H → NodeKind H} {root : H} {name name' : String}
    {stmts stmts' : List H} (h : DeclaresModule kind root name stmts) (h' : DeclaresModule kind root name' stmts') :
    stmts = stmts' := by
  obtain ⟨symbol, hmodule⟩ := h
  obtain ⟨symbol', hmodule'⟩ := h'
  obtain rfl : symbol = symbol' := by simpa using hmodule.children_root.symm.trans hmodule'.children_root
  exact hmodule.children_symbol.symm.trans hmodule'.children_symbol

end Palimpsest
