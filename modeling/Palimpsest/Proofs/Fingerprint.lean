import Palimpsest.Proofs.Draft.Names
import Palimpsest.Proofs.Reconcile.Faithful
import Palimpsest.Proofs.Surface.Names
import Palimpsest.Proofs.Token.Stream

/-!
What a fingerprint tells. The bytes hashed for a node tell its tag, its own fields and the fingerprints of its
children, and nothing else; so, as long as bytes are told by their hashes, drafts have one fingerprint exactly
where they unfold to one tree.
-/

namespace Palimpsest

/-- A field of a node that is no child. -/
inductive Field where
  | visibility (v : Visibility)
  | name (name : String)
  | text (text : String)
  | value (n : UInt64)
  | variableKind (kind : VariableKind)
  | intent (intent : Intent)
  | initialized (there : Bool)
deriving DecidableEq, Repr

namespace NodeKind

variable {C D : Type}

/-- The fields that are no children, and whether an optional child is there. -/
def fields : NodeKind C → List Field
  | moduleDecl v _ | variableDecl v _ | functionDecl v _ => [.visibility v]
  | module_ name _ | function name _ _ | identifier name => [.name name]
  | variable_ name kind init => [.name name, .variableKind kind, .initialized init.isSome]
  | formal name intent => [.name name, .intent intent]
  | comment text | stringLiteral text | foreignBlock text => [.text text]
  | intLiteral value => [.value value]
  | block _ | erroneous => []

@[simp] theorem fields_map (f : C → D) (k : NodeKind C) : (k.map f).fields = k.fields := by
  cases k with
  | variable_ name kind init => cases init <;> rfl
  | _ => rfl

/-- A kind is told by its tag, its fields and its children. -/
theorem ext_fields {k k' : NodeKind C} (htag : k.tag = k'.tag) (hfields : k.fields = k'.fields)
    (hchildren : k.children = k'.children) : k = k' := by
  cases k with
  | variable_ name kind init =>
      cases k' with
      | variable_ name' kind' init' => cases init <;> cases init' <;> simp_all [fields, children]
      | _ => cases htag
  | function name formals body =>
      cases k' with
      | function name' formals' body' => simp_all [fields, children]
      | _ => cases htag
  | _ => cases k' <;> simp_all [tag, fields, children]

theorem map_eq_map_iff {B : Type} {p : C → B} {q : D → B} {k : NodeKind C} {k' : NodeKind D} :
    k.map p = k'.map q ↔ k.tag = k'.tag ∧ k.fields = k'.fields ∧ k.children.map p = k'.children.map q := by
  constructor
  · intro h
    exact ⟨by simpa using congrArg tag h, by simpa using congrArg fields h, by simpa using congrArg children h⟩
  · rintro ⟨htag, hfields, hchildren⟩
    exact ext_fields (by simpa using htag) (by simpa using hfields) (by simpa using hchildren)

theorem Fits.map {k : NodeKind C} (h : k.Fits) (f : C → D) : (k.map f).Fits := by
  intro name hname
  exact h name (by simpa using hname)

theorem encode_map_eq_iff {p : C → ContentHash} {q : D → ContentHash} {k : NodeKind C} {k' : NodeKind D}
    (hk : k.Fits) (hk' : k'.Fits) : (k.map p).encode = (k'.map q).encode ↔
      k.tag = k'.tag ∧ k.fields = k'.fields ∧ k.children.map p = k'.children.map q := by
  rw [← map_eq_map_iff]
  exact ⟨encode_inj (hk.map p) (hk'.map q), congrArg encode⟩

end NodeKind

namespace DraftTree

open Surface

/-- What is hashed for the drafts. -/
def contents (t : DraftTree) : List (NodeKind ContentHash) := (List.range t.drafts.size).map t.contentOf

/-- What is hashed for drafts on either side differs only where the hashes do. -/
def ToldApart (t u : DraftTree) : Prop :=
  ∀ k ∈ t.contents, ∀ k' ∈ u.contents, ContentHash.ofBytes k.encode = ContentHash.ofBytes k'.encode →
    k.encode = k'.encode

instance (t u : DraftTree) : Decidable (ToldApart t u) := by
  unfold ToldApart
  infer_instance

variable {t u : DraftTree}

theorem contentOf_mem {i : Nat} (h : i < t.drafts.size) : t.contentOf i ∈ t.contents :=
  List.mem_map_of_mem (List.mem_range.mpr h)

theorem printIn_of_lt {i : Nat} (h : i < t.drafts.size) : Draft.printIn t.drafts i = t.drafts[i].fingerprint := by
  rw [Draft.printIn, Array.getElem?_eq_getElem h]
  rfl

/-- A word of 64 bits can count the bytes of each name in a text that is short enough. -/
theorem fits_ofText {text implicitName : String} (htext : text.utf8ByteSize < 2 ^ 64)
    (himplicit : implicitName.utf8ByteSize < 2 ^ 64) {i : Nat} (hi : i < (ofText text implicitName).drafts.size) :
    ((ofText text implicitName).contentOf i).Fits := by
  intro n hn
  rw [contentOf_eq (Array.getElem?_eq_getElem hi), NodeKind.symbolName?_map] at hn
  cases symbolName_ofFile (Array.getElem_mem hi) hn with
  | inl hread =>
      cases of_mem_names_parseText hread with
      | inl hmissing =>
          rw [hmissing]
          decide
      | inr htoken =>
          obtain ⟨token, hmem, -, rfl⟩ := htoken
          exact Nat.lt_of_le_of_lt (TokenStream.size_text_le hmem) htext
  | inr hnamed => exact hnamed ▸ himplicit

/-- Drafts whose contents are told apart by their hashes have one fingerprint exactly where they unfold to one
tree. -/
theorem fingerprint_eq_iff (ht : Draft.Numbered t.drafts) (hu : Draft.Numbered u.drafts)
    (hfits : ∀ i, i < t.drafts.size → (t.contentOf i).Fits) (hfits' : ∀ j, j < u.drafts.size → (u.contentOf j).Fits)
    (hapart : ToldApart t u) {i j : Nat} (hi : i < t.drafts.size) (hj : j < u.drafts.size) :
    t.drafts[i].fingerprint = u.drafts[j].fingerprint ↔ (t.view.unfold i).run = (u.view.unfold j).run := by
  have hcontent (i j : Nat) (hi : i < t.drafts.size) (hj : j < u.drafts.size)
      (h : Draft.printIn t.drafts i = Draft.printIn u.drafts j) : t.contentOf i = u.contentOf j := by
    rw [printIn_eq_fingerprint ht hi, printIn_eq_fingerprint hu hj] at h
    exact NodeKind.encode_inj (hfits i hi) (hfits' j hj) (hapart _ (contentOf_mem hi) _ (contentOf_mem hj) h)
  rw [← printIn_of_lt hi, ← printIn_of_lt hj, t.unfold_eq i, u.unfold_eq j]
  constructor
  · intro hprint
    obtain ⟨hsize, hunfolded⟩ := unfolded_eq (sized ht) (sized hu) hcontent hi j hj hprint
    change unfolded t.kindOf (t.sizeOf i) i = unfolded u.kindOf (u.sizeOf j) j
    rw [hsize, hunfolded]
  · exact label_eq_of_unfolded (sized ht) (sized hu) (fun _ hi => printIn_eq_fingerprint ht hi)
      (fun _ hj => printIn_eq_fingerprint hu hj) hi j hj

end DraftTree

/-- Fingerprints tell what they are made of: the bytes hashed for a node tell its tag, fields and child
fingerprints; and the fingerprints of the drafts of two texts tell the trees below them. -/
theorem fingerprints_identify :
    (∀ (C D : Type) (k : NodeKind C) (k' : NodeKind D) (p : C → ContentHash) (q : D → ContentHash),
      k.Fits → k'.Fits → ((k.map p).encode = (k'.map q).encode ↔
        k.tag = k'.tag ∧ k.fields = k'.fields ∧ k.children.map p = k'.children.map q)) ∧
    ∀ text text' name name' : String, text.utf8ByteSize < 2 ^ 64 → text'.utf8ByteSize < 2 ^ 64 →
      name.utf8ByteSize < 2 ^ 64 → name'.utf8ByteSize < 2 ^ 64 →
      DraftTree.ToldApart (.ofText text name) (.ofText text' name') →
      ∀ i j (hi : i < (DraftTree.ofText text name).drafts.size) (hj : j < (DraftTree.ofText text' name').drafts.size),
        (DraftTree.ofText text name).drafts[i].fingerprint = (DraftTree.ofText text' name').drafts[j].fingerprint ↔
          ((DraftTree.ofText text name).view.unfold i).run = ((DraftTree.ofText text' name').view.unfold j).run := by
  refine ⟨fun C D k k' p q hk hk' => NodeKind.encode_map_eq_iff hk hk', ?_⟩
  intro text text' name name' htext htext' hname hname' hapart i j hi hj
  exact DraftTree.fingerprint_eq_iff (DraftTree.lowered_ofText _ _).numbered (DraftTree.lowered_ofText _ _).numbered
    (fun _ hi => DraftTree.fits_ofText htext hname hi) (fun _ hj => DraftTree.fits_ofText htext' hname' hj) hapart hi hj

/-- A variable hashes differently without its initializer. The same variable has one fingerprint in two texts,
whatever stands before it; another has another. -/
theorem fingerprints_identify_moved :
    ((NodeKind.variable_ "a" .var (some 0)).map fun _ : Nat => (default : ContentHash)).encode ≠
        ((NodeKind.variable_ "a" .var none).map fun _ : Nat => (default : ContentHash)).encode ∧
      ∃ (h : 5 < (DraftTree.ofText "var b = 2; var a = 1;" "m").drafts.size)
        (h' : 2 < (DraftTree.ofText "var a = 1;" "n").drafts.size),
        (DraftTree.ofText "var b = 2; var a = 1;" "m").drafts[5].fingerprint =
            (DraftTree.ofText "var a = 1;" "n").drafts[2].fingerprint ∧
          ((DraftTree.ofText "var b = 2; var a = 1;" "m").view.unfold 5).run =
            ((DraftTree.ofText "var a = 1;" "n").view.unfold 2).run ∧
          ((DraftTree.ofText "var b = 2; var a = 1;" "m").view.unfold 2).run ≠
            ((DraftTree.ofText "var a = 1;" "n").view.unfold 2).run := by
  obtain ⟨hnodes, htrees⟩ := fingerprints_identify
  obtain ⟨hsize, hsize', hsame, hother⟩ : ∃ (h : 5 < (DraftTree.ofText "var b = 2; var a = 1;" "m").drafts.size)
      (h' : 2 < (DraftTree.ofText "var a = 1;" "n").drafts.size),
      (DraftTree.ofText "var b = 2; var a = 1;" "m").drafts[5].fingerprint =
          (DraftTree.ofText "var a = 1;" "n").drafts[2].fingerprint ∧
        (DraftTree.ofText "var b = 2; var a = 1;" "m").drafts[2].fingerprint ≠
          (DraftTree.ofText "var a = 1;" "n").drafts[2].fingerprint := by decide +kernel
  have htold := htrees "var b = 2; var a = 1;" "var a = 1;" "m" "n" (by decide) (by decide) (by decide) (by decide)
    (by decide +kernel)
  refine ⟨fun heq => ?_, hsize, hsize', hsame, (htold 5 2 hsize hsize').mp hsame, fun heq => ?_⟩
  · obtain ⟨-, hfields, -⟩ := (hnodes Nat Nat _ _ _ _ (by decide) (by decide)).mp heq
    exact absurd hfields (by decide)
  · exact hother ((htold 2 2 (Nat.lt_trans (by decide) hsize) hsize').mpr heq)

end Palimpsest
