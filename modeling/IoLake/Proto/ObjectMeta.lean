import IoLake.Lib.ByteOrder
import IoLake.Lib.OrdMap

/-!
# Object metadata and its order of writes (`proto/src/lib.rs`, `metadata.proto`)

Copies agree on the newer of two writes by `writeOrder`: the object (its stamp, then its id), then, between
copies of one object, the update.
-/

namespace IoLake.Proto

structure ShardLocation where
  position : Nat
  nodeId : Bytes
  deriving DecidableEq, Repr

structure StripeMeta where
  stripeId : Nat := 0
  ecK : Nat := 0
  ecM : Nat := 0
  shards : List ShardLocation := []
  dataSize : Nat := 0
  objectId : Bytes := []
  packId : Bytes := []
  shardsInMetadata : Bool := false
  deriving DecidableEq, Repr

structure ObjectMeta where
  bucket : Bytes := []
  key : Bytes := []
  objectId : Bytes := []
  size : Nat := 0
  modifiedAt : Nat := 0
  versionId : Bytes := []
  isDeleteMarker : Bool := false
  stripes : List StripeMeta := []
  /-- The one node that counts the object in usage. -/
  usageOwner : Bytes := []
  inlineData : Bytes := []
  /-- Replication targets and how far each got. -/
  replication : OrdMap Bytes Bytes := OrdMap.empty
  requiredLevel : Nat := 0
  stamp : Nat := 0
  updateStamp : Nat := 0
  pgPool : Bytes := []
  pgId : UInt32 := 0
  deriving DecidableEq, Repr

/-- A place in the order of writes of one key: stamp, object id, update stamp. -/
abbrev WriteOrder := Nat ×ₗ (Bytes ×ₗ Nat)

def WriteOrder.stamp (w : WriteOrder) : Nat := (ofLex w).1

namespace ObjectMeta

def writeOrder (o : ObjectMeta) : WriteOrder := toLex (o.stamp, toLex (o.objectId, o.updateStamp))

@[simp] theorem stamp_writeOrder (o : ObjectMeta) : WriteOrder.stamp o.writeOrder = o.stamp := rfl

end ObjectMeta

theorem WriteOrder.stamp_le {a b : WriteOrder} (h : a ≤ b) : a.stamp ≤ b.stamp := by
  rcases Prod.Lex.le_iff.1 h with h | h
  · exact h.le
  · exact h.1.le

theorem WriteOrder.lt_of_stamp_lt {a b : WriteOrder} (h : a.stamp < b.stamp) : a < b :=
  Prod.Lex.lt_iff.2 (.inl h)

namespace ObjectMeta

theorem stamp_le_of_le {a b : ObjectMeta} (h : a.writeOrder ≤ b.writeOrder) : a.stamp ≤ b.stamp :=
  WriteOrder.stamp_le h

/-- **The stamp decides first**, which is all a delete compares. -/
theorem lt_of_stamp_lt {a b : ObjectMeta} (h : a.stamp < b.stamp) : a.writeOrder < b.writeOrder :=
  WriteOrder.lt_of_stamp_lt h

end ObjectMeta

end IoLake.Proto
