import Palimpsest.Node.Fingerprint
import Palimpsest.Proofs.Hash.Bytes
import Palimpsest.Proofs.Node.Kind

/-!
What is hashed for a node tells its kind and the fingerprints of its children. Lengths are written as words
of 64 bits, so the names that lists stand behind have to fit.
-/

namespace Palimpsest

theorem NodeTag.number_inj {a b : NodeTag} (h : UInt8.ofNat a.number = UInt8.ofNat b.number) : a = b := by
  let tags : List NodeTag := [.moduleDecl, .module_, .comment, .identifier, .intLiteral, .stringLiteral,
    .block, .variableDecl, .variable_, .functionDecl, .function, .formal, .foreignBlock, .erroneous]
  have hread (t : NodeTag) : tags[(UInt8.ofNat t.number).toNat]? = some t := by cases t <;> rfl
  have hboth := (hread a).symm.trans (h ▸ hread b)
  exact Option.some.inj hboth

theorem Visibility.tag_inj {v v' : Visibility} (h : UInt8.ofNat v.tag = UInt8.ofNat v'.tag) : v = v' := by
  cases v <;> cases v' <;> first | rfl | exact absurd h (by decide)

theorem VariableKind.tag_inj {v v' : VariableKind} (h : UInt8.ofNat v.tag = UInt8.ofNat v'.tag) : v = v' := by
  cases v <;> cases v' <;> first | rfl | exact absurd h (by decide)

theorem Intent.tag_inj {i i' : Intent} (h : UInt8.ofNat i.tag = UInt8.ofNat i'.tag) : i = i' := by
  cases i <;> cases i' <;> first | rfl | exact absurd h (by decide)

namespace NodeKind

open ContentHash

/-- A name of its own is shorter than what a word of 64 bits can count. -/
def Fits {C : Type} (k : NodeKind C) : Prop := ∀ name, k.symbolName? = some name → name.utf8ByteSize < 2 ^ 64

section Parts

variable {v v' : Visibility} {kind kind' : VariableKind} {intent intent' : Intent} {name name' : String}
  {c c' : ContentHash} {cs cs' : List ContentHash}

theorem wrapper_inj (h : [UInt8.ofNat v.tag] ++ [c].flatMap bytes = [UInt8.ofNat v'.tag] ++ [c'].flatMap bytes) :
    v = v' ∧ c = c' := by
  obtain ⟨htag, hchild⟩ := List.append_inj h rfl
  exact ⟨Visibility.tag_inj (List.cons.inj htag).1, (List.cons.inj (flatMap_bytes_inj hchild)).1⟩

theorem text_inj (h : Bytes.string name ++ ([] : List ContentHash).flatMap bytes =
    Bytes.string name' ++ ([] : List ContentHash).flatMap bytes) : name = name' :=
  (Bytes.string_append_inj rfl h).1

theorem counted_inj {n n' : Nat} (h : Bytes.count n ++ cs.flatMap bytes = Bytes.count n' ++ cs'.flatMap bytes) :
    cs = cs' :=
  flatMap_bytes_inj (List.append_inj h (by simp)).2

theorem named_inj {n n' : Nat} (hname : name.utf8ByteSize < 2 ^ 64) (hname' : name'.utf8ByteSize < 2 ^ 64)
    (h : Bytes.string name ++ Bytes.count n ++ cs.flatMap bytes =
      Bytes.string name' ++ Bytes.count n' ++ cs'.flatMap bytes) : name = name' ∧ cs = cs' := by
  rw [List.append_assoc, List.append_assoc] at h
  obtain ⟨hsame, hrest⟩ := Bytes.string_append_inj_of_lt hname hname' h
  exact ⟨hsame, counted_inj hrest⟩

theorem formal_inj (h : Bytes.string name ++ [UInt8.ofNat intent.tag] =
    Bytes.string name' ++ [UInt8.ofNat intent'.tag]) : name = name' ∧ intent = intent' := by
  have hlength : [UInt8.ofNat intent.tag].length = [UInt8.ofNat intent'.tag].length := rfl
  obtain ⟨hname, htag⟩ := Bytes.string_append_inj hlength h
  exact ⟨hname, Intent.tag_inj (List.cons.inj htag).1⟩

theorem variable_inj {init init' : Option ContentHash} (hname : name.utf8ByteSize < 2 ^ 64)
    (hname' : name'.utf8ByteSize < 2 ^ 64)
    (h : Bytes.string name ++ [UInt8.ofNat kind.tag, if init.isSome then 1 else 0] ++ init.toList.flatMap bytes =
      Bytes.string name' ++ [UInt8.ofNat kind'.tag, if init'.isSome then 1 else 0] ++
        init'.toList.flatMap bytes) : name = name' ∧ kind = kind' ∧ init = init' := by
  rw [List.append_assoc, List.append_assoc] at h
  obtain ⟨hsame, hrest⟩ := Bytes.string_append_inj_of_lt hname hname' h
  obtain ⟨htag, hchild⟩ := List.append_inj hrest rfl
  have hinit := congrArg List.head? (flatMap_bytes_inj hchild)
  rw [Option.head?_toList, Option.head?_toList] at hinit
  exact ⟨hsame, VariableKind.tag_inj (List.cons.inj htag).1, hinit⟩

end Parts

/-- Nodes that are hashed alike are of one kind over the same fingerprints. -/
theorem encode_inj {k k' : NodeKind ContentHash} (hk : k.Fits) (hk' : k'.Fits) (h : k.encode = k'.encode) :
    k = k' := by
  obtain ⟨hnumber, hbytes⟩ := List.cons.inj h
  have htag := NodeTag.number_inj hnumber
  cases k with
  | moduleDecl v c =>
      cases k' with
      | moduleDecl v' c' =>
          obtain ⟨rfl, rfl⟩ := wrapper_inj hbytes
          rfl
      | _ => cases htag
  | variableDecl v c =>
      cases k' with
      | variableDecl v' c' =>
          obtain ⟨rfl, rfl⟩ := wrapper_inj hbytes
          rfl
      | _ => cases htag
  | functionDecl v c =>
      cases k' with
      | functionDecl v' c' =>
          obtain ⟨rfl, rfl⟩ := wrapper_inj hbytes
          rfl
      | _ => cases htag
  | module_ name stmts =>
      cases k' with
      | module_ name' stmts' =>
          obtain ⟨rfl, rfl⟩ := named_inj (hk name rfl) (hk' name' rfl) hbytes
          rfl
      | _ => cases htag
  | function name formals body =>
      cases k' with
      | function name' formals' body' =>
          obtain ⟨rfl, hchildren⟩ := named_inj (hk name rfl) (hk' name' rfl) hbytes
          obtain ⟨rfl, hbody⟩ := List.append_inj' hchildren rfl
          rw [(List.cons.inj hbody).1]
      | _ => cases htag
  | variable_ name kind init =>
      cases k' with
      | variable_ name' kind' init' =>
          obtain ⟨rfl, rfl, rfl⟩ := variable_inj (hk name rfl) (hk' name' rfl) hbytes
          rfl
      | _ => cases htag
  | formal name intent =>
      cases k' with
      | formal name' intent' =>
          obtain ⟨rfl, rfl⟩ := formal_inj (by simpa [scalarBytes, children] using hbytes)
          rfl
      | _ => cases htag
  | block stmts =>
      cases k' with
      | block stmts' => exact congrArg block (counted_inj hbytes)
      | _ => cases htag
  | comment text =>
      cases k' with
      | comment text' => exact congrArg comment (text_inj hbytes)
      | _ => cases htag
  | identifier name =>
      cases k' with
      | identifier name' => exact congrArg identifier (text_inj hbytes)
      | _ => cases htag
  | stringLiteral value =>
      cases k' with
      | stringLiteral value' => exact congrArg stringLiteral (text_inj hbytes)
      | _ => cases htag
  | foreignBlock code =>
      cases k' with
      | foreignBlock code' => exact congrArg foreignBlock (text_inj hbytes)
      | _ => cases htag
  | intLiteral value =>
      cases k' with
      | intLiteral value' => exact congrArg intLiteral (Bytes.word64_inj (List.append_inj hbytes (by simp [scalarBytes])).1)
      | _ => cases htag
  | erroneous =>
      cases k' with
      | erroneous => rfl
      | _ => cases htag

end NodeKind
end Palimpsest
