import Palimpsest.Hash.Content
import Palimpsest.Node.Kind

/-!
Fingerprints: the hash of a node's content, its children's fingerprints included. Neither identity nor
position goes in. The bytes that are hashed determine tag, fields and child fingerprints.
-/

namespace Palimpsest
namespace NodeKind

variable {C : Type}

/-- The bytes of the fields that are no children; lists come with their lengths. -/
def scalarBytes : NodeKind C → List UInt8
  | moduleDecl v _ | variableDecl v _ | functionDecl v _ => [UInt8.ofNat v.tag]
  | module_ name stmts => Bytes.string name ++ Bytes.count stmts.length
  | comment text => Bytes.string text
  | identifier name => Bytes.string name
  | intLiteral value => Bytes.word64 value
  | stringLiteral value => Bytes.string value
  | block stmts => Bytes.count stmts.length
  | variable_ name kind init =>
    Bytes.string name ++ [UInt8.ofNat kind.tag, if init.isSome then 1 else 0]
  | function name formals _ => Bytes.string name ++ Bytes.count formals.length
  | formal name intent => Bytes.string name ++ [UInt8.ofNat intent.tag]
  | foreignBlock code => Bytes.string code
  | erroneous => []

/-- What is hashed for a node over the fingerprints of its children. -/
def encode (k : NodeKind ContentHash) : List UInt8 :=
  UInt8.ofNat k.tag.number :: (k.scalarBytes ++ k.children.flatMap ContentHash.bytes)

def fingerprint (k : NodeKind ContentHash) : ContentHash := .ofBytes k.encode

end NodeKind
end Palimpsest
