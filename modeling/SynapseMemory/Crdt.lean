import SynapseMemory.Bytes

/-!
# The CRDT library

What the nodes and the packs use of the library for documents that merge: documents, the updates
that they hold, and the encodings of both. The library is a parameter, and `mergeMeta` is
`merge_meta` of `crdt.rs` over it.
-/

namespace SynapseMemory

/-- The documents of the CRDT library, and the operations that a document holds. -/
class Crdt where
  Doc : Type
  StateVector : Type
  Update : Type
  Op : Type
  /-- `Doc::default` -/
  new : Doc
  stateVector : Doc → Bytes
  decodeStateVector : Bytes → Except String StateVector
  /-- `StateVector::default` -/
  noVector : StateVector
  encodeStateAsUpdate : Doc → StateVector → Bytes
  decodeUpdate : Bytes → Except String Update
  applyUpdate : Doc → Update → Doc × Except String Unit
  held : Doc → Set Op
  held_new : held new = ∅

/-- `merge_meta`: a new document that has taken both states. -/
def mergeMeta [Crdt] (a b : Bytes) : Except String Bytes := do
  let a ← Crdt.decodeUpdate a
  let (doc, r) := Crdt.applyUpdate Crdt.new a
  r
  let b ← Crdt.decodeUpdate b
  let (doc, r) := Crdt.applyUpdate doc b
  r
  .ok (Crdt.encodeStateAsUpdate doc Crdt.noVector)

/-- Documents of bytes: an update is some bytes, and a state vector is the bytes that are held. -/
@[reducible] def Crdt.bytes : Crdt where
  Doc := Bytes
  StateVector := Bytes
  Update := Bytes
  Op := UInt8
  new := []
  stateVector doc := doc
  decodeStateVector sv := .ok sv
  noVector := []
  encodeStateAsUpdate doc sv := doc.filter (· ∉ sv)
  decodeUpdate update := .ok update
  applyUpdate doc update := (doc ++ update.filter (· ∉ doc), .ok ())
  held doc := { x | x ∈ doc }
  held_new := by simp

end SynapseMemory
