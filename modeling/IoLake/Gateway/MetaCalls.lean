import IoLake.Gateway.OneKey
import IoLake.Osd.KeyEntries

/-!
# A gateway's metadata calls (`gateway/src/osd_pool.rs`, `common/src/stamp.rs`)

A gateway sends a write or a delete of a key to all `n` of its copies at once and waits until each has
answered or failed.  A copy that holds a newer stamp supersedes the call; the call is then stamped above what
the copies hold and sent again, up to `MAX_RESTAMPS` rounds.
-/

namespace IoLake.Gateway

open IoLake.Proto IoLake.Osd Finset

def COUNTER_BITS : Nat := 16

def COUNTER_MASK : Nat := 2 ^ COUNTER_BITS - 1

/-- A gateway's clock: the last stamp it issued or saw, and its wall clock's milliseconds. -/
structure Clock where
  last : Nat
  wall : Nat
  deriving Repr

def Clock.nextAfter (c : Clock) (seen : Nat) : Nat :=
  let wall := c.wall * 2 ^ COUNTER_BITS
  let floor := max c.last seen
  if floor < wall then wall
  else if floor % 2 ^ COUNTER_BITS < COUNTER_MASK then floor + 1
  else (floor / 2 ^ COUNTER_BITS + 1) * 2 ^ COUNTER_BITS

theorem Clock.lt_nextAfter (c : Clock) (seen : Nat) : seen < c.nextAfter seen := by
  have hfloor : seen ≤ max c.last seen := le_max_right _ _
  unfold nextAfter COUNTER_MASK COUNTER_BITS
  dsimp only
  split
  · omega
  · split <;> omega

/-- A majority. -/
def metaWriteQuorum (copies : Nat) : Nat := copies / 2 + 1

/-- Enough copies to include one that took the last acknowledged write. -/
def metaReadQuorum (copies : Nat) : Nat := copies - metaWriteQuorum copies + 1

def count {n : Nat} (p : Fin n → Bool) : Nat := (univ.filter (fun i => p i = true)).card

theorem quorums_meet {n : Nat} {A B : Finset (Fin n)} (hA : metaWriteQuorum n ≤ A.card)
    (hB : metaReadQuorum n ≤ B.card) : ∃ i, i ∈ A ∧ i ∈ B := by
  have hlt : (univ : Finset (Fin n)).card < A.card + B.card := by
    rw [card_univ, Fintype.card_fin]
    unfold metaReadQuorum metaWriteQuorum at *
    omega
  obtain ⟨i, hi⟩ := inter_nonempty_of_card_lt_card_add_card (subset_univ A)
    (subset_univ B) hlt
  exact ⟨i, (mem_inter.1 hi).1, (mem_inter.1 hi).2⟩

/-! ## Writes -/

structure MetaWrite where
  versioningEnabled : Bool := false
  expectedObjectId : Bytes := []
  versionOnly : Bool := false
  keepNewerCurrent : Bool := false
  smallShards : Bool := false
  minCopies : Nat := 0
  pg : Option PgId := none
  deriving DecidableEq, Repr

structure Displaced where
  replaced : Option ObjectMeta := none
  versionKept : Bool := false
  superseded : Bool := false
  missed : Bool := false
  deriving DecidableEq, Repr

inductive Slot (α : Type) where
  | waiting
  | ok (answer : α)
  | failed (refused : Bool)
  deriving DecidableEq, Repr

namespace Slot

variable {α : Type}

def isWaiting : Slot α → Bool
  | .waiting => true
  | _ => false

def isOk : Slot α → Bool
  | .ok _ => true
  | _ => false

def isFailed : Slot α → Bool
  | .failed _ => true
  | _ => false

end Slot

inductive Phase (n : Nat) where
  | running
  | acked (replies : Fin n → Displaced)
  | refused
  /-- A small write short of its quorum that copies whose answer was lost may hold: asked first. -/
  | asking (holds unsure suspects : Fin n → Bool)
  | withdrawing (left : Fin n → Bool)

/-- `put_object_meta_with`: `endRound` is the end of a round, `outcome` what the call returns. -/
structure PutCall (n : Nat) where
  write : MetaWrite
  object : ObjectMeta
  round : Nat := 0
  slots : Fin n → Slot (Displaced × Nat) := fun _ => .waiting
  took : Fin n → Option Displaced := fun _ => none
  phase : Phase n := .running

namespace PutCall

variable {n : Nat}

/-- Stamped above the object it was made from, or, an update, ordered among the updates of the object it read.
-/
def start (write : MetaWrite) (object : ObjectMeta) (owner : Bytes) (clock : Clock) : PutCall n :=
  let object := { withPg object write.pg with usageOwner := owner }
  { write
    object := if write.expectedObjectId = [] then
        { object with stamp := clock.nextAfter object.stamp, updateStamp := 0 }
      else { object with updateStamp := clock.nextAfter object.updateStamp } }

def restamp (c : PutCall n) : Bool :=
  c.write.expectedObjectId == [] && !c.write.versionOnly && !c.write.keepNewerCurrent

def request (c : PutCall n) : PutObjectMetaRequest :=
  { bucket := c.object.bucket
    key := c.object.key
    object := some c.object
    versioningEnabled := c.write.versioningEnabled
    expectedObjectId := c.write.expectedObjectId
    requireExisting := c.write.expectedObjectId != []
    versionOnly := c.write.versionOnly
    keepNewerCurrent := c.write.keepNewerCurrent
    pg := c.write.pg }

def heldBy (c : PutCall n) (i : Fin n) : Nat :=
  match c.slots i with
  | .ok (d, held) => if d.superseded then held else 0
  | _ => 0

def held (c : PutCall n) : Nat := univ.sup c.heldBy

def tookNow (c : PutCall n) (i : Fin n) : Option Displaced :=
  match c.took i, c.slots i with
  | some d, _ => some d
  | none, .ok (d, _) => if d.superseded then none else some d
  | none, _ => none

def counted (c : PutCall n) : PutCall n := { c with round := c.round + 1, took := c.tookNow }

def result (c : PutCall n) (i : Fin n) : Slot Displaced :=
  match c.slots i with
  | .ok (d, _) => .ok ((c.took i).getD d)
  | .failed refused => .failed refused
  | .waiting => .waiting

def applied (c : PutCall n) : Nat := count (fun i => (c.slots i).isOk)

def quorum (c : PutCall n) : Nat := max (metaWriteQuorum n) c.write.minCopies

/-- No copy can have applied the write. -/
def unapplied (c : PutCall n) : Bool :=
  decide (∀ i, c.slots i = .failed true)

def holds (c : PutCall n) (i : Fin n) : Bool :=
  match c.result i with
  | .ok d => !d.superseded
  | _ => false

def mayHold (c : PutCall n) (i : Fin n) : Bool := decide (c.result i = .failed false)

def reply (c : PutCall n) (i : Fin n) : Displaced :=
  match c.result i with
  | .ok d => d
  | _ => { missed := true }

def needed (c : PutCall n) : Nat := c.object.stripes.head?.elim 0 (·.ecK)

/-- Kept if enough copies hold it, asked for if those that did not answer could make it enough, and else
withdrawn from every copy that may hold it. -/
def settleShortSmallWrite (c : PutCall n) : Phase n :=
  let suspects := fun i => c.holds i || c.mayHold i
  if c.needed ≤ count c.holds then .refused
  else if c.needed ≤ count c.holds + count c.mayHold then .asking c.holds c.mayHold suspects
  else .withdrawing suspects

def outcome (c : PutCall n) : Phase n :=
  if (∃ i, (c.slots i).isFailed = true) ∧ c.applied < c.quorum then
    if c.unapplied then .refused
    else if c.write.smallShards then c.settleShortSmallWrite
    else .refused
  else .acked c.reply

def again (c : PutCall n) : Bool :=
  c.restamp && decide (c.held ≠ 0) && decide (c.round + 1 < OneKey.MAX_RESTAMPS)

def endRound (c : PutCall n) (clock : Clock) : PutCall n :=
  if c.again then
    { c.counted with
      object := { c.object with stamp := clock.nextAfter c.held }
      slots := fun _ => .waiting }
  else { c.counted with phase := c.counted.outcome }

end PutCall

/-! ## Deletes -/

structure MetaDeleted where
  ok : Nat
  of : Nat
  quorum : Nat
  removed : List ObjectMeta

/-- `delete_meta_from_all`. -/
structure DeleteCall (n : Nat) where
  versionId : Bytes
  pg : Option PgId
  stamp : Nat
  round : Nat := 0
  slots : Fin n → Slot DeleteObjectMetaResponse := fun _ => .waiting
  removed : List ObjectMeta := []
  returned : Option MetaDeleted := none

namespace DeleteCall

variable {n : Nat}

def start (versionId : Bytes) (pg : Option PgId) (clock : Clock) : DeleteCall n :=
  { versionId, pg, stamp := clock.nextAfter 0 }

def request (c : DeleteCall n) : DeleteObjectMetaRequest :=
  { versionId := c.versionId, stamp := c.stamp, pg := c.pg }

def heldBy (c : DeleteCall n) (i : Fin n) : Nat :=
  match c.slots i with
  | .ok r => if r.superseded then r.heldStamp else 0
  | _ => 0

def held (c : DeleteCall n) : Nat := univ.sup c.heldBy

def removedBy (c : DeleteCall n) (i : Fin n) : Option ObjectMeta :=
  match c.slots i with
  | .ok r => r.removed
  | _ => none

def counted (c : DeleteCall n) : DeleteCall n :=
  { c with round := c.round + 1, removed := c.removed ++ (List.finRange n).filterMap c.removedBy }

def again (c : DeleteCall n) : Bool :=
  decide (c.held ≠ 0) && decide (c.round + 1 < OneKey.MAX_RESTAMPS)

def endRound (c : DeleteCall n) (clock : Clock) : DeleteCall n :=
  if c.again then
    { c.counted with stamp := clock.nextAfter c.held, slots := fun _ => .waiting }
  else
    { c.counted with returned := some {
        ok := count (fun i => (c.slots i).isOk)
        of := n
        quorum := metaWriteQuorum n
        removed := c.counted.removed } }

def acked (c : DeleteCall n) : Bool := c.returned.any (fun m => decide (m.quorum ≤ m.ok))

end DeleteCall

/-! ## Reads -/

structure SmallShard where
  objectId : Bytes
  stripeId : Nat
  position : Nat
  deriving DecidableEq, Repr

structure Answer where
  found : Option ObjectMeta
  tombstone : Nat
  small : Option SmallShard := none
  deriving DecidableEq, Repr

structure ReadAcc where
  newest : Option ObjectMeta := none
  deletedAt : Nat := 0
  answered : Nat := 0
  got : List SmallShard := []

inductive ReadError where
  | noQuorum
  | tooOld (level : Nat)
  deriving DecidableEq, Repr

def FORMAT_LEVEL : Nat := 10

def smallStripe (object : ObjectMeta) : Option StripeMeta :=
  object.stripes.head?.filter (·.shardsInMetadata)

def shardOf (shard : SmallShard) (stripe : StripeMeta) : Bool :=
  shard.objectId == stripe.objectId && shard.stripeId == stripe.stripeId

namespace ReadAcc

def live (acc : ReadAcc) : Bool :=
  acc.newest.any (fun o => decide (acc.deletedAt = 0 ∨ acc.deletedAt < o.stamp))

def enough (withSmallShard : Bool) (acc : ReadAcc) : Bool :=
  !withSmallShard || acc.newest.all (fun o => (smallStripe o).all (fun s =>
    decide (s.ecK ≤ (((acc.got.filter (shardOf · s)).map (·.position)).eraseDups).length)))

def take (acc : ReadAcc) : Option Answer → ReadAcc
  | some a =>
    { newest := match a.found, acc.newest with
        | some o, some best => if best.writeOrder < o.writeOrder then some o else some best
        | some o, none => some o
        | none, best => best
      deletedAt := max acc.deletedAt a.tombstone
      answered := acc.answered + 1
      got := acc.got ++ a.small.toList }
  | none => acc

end ReadAcc

/-- Answers as they come, until a quorum of them has a live object or all have come. -/
def readLoop (quorum : Nat) (atQuorum withSmallShard : Bool) : ReadAcc → List (Option Answer) → ReadAcc
  | acc, [] => acc
  | acc, a :: rest =>
    let acc := acc.take a
    if atQuorum && decide (quorum ≤ acc.answered) && acc.live && acc.enough withSmallShard then acc
    else readLoop quorum atQuorum withSmallShard acc rest

/-- `read_object_meta`, over the answers in the order they come. -/
def readObjectMeta (n : Nat) (atQuorum withSmallShard : Bool) (answers : List (Option Answer)) :
    Except ReadError (Option ObjectMeta) :=
  let acc := readLoop (metaReadQuorum n) atQuorum withSmallShard {} answers
  if acc.answered < metaReadQuorum n then .error .noQuorum
  else if acc.live then
    match acc.newest with
    | some o => if FORMAT_LEVEL < o.requiredLevel then .error (.tooOld o.requiredLevel) else .ok (some o)
    | none => .ok none
  else .ok none

/-! ## What an overwrite lets go of -/

structure ShardTarget where
  nodeId : Bytes
  objectId : Bytes
  stripeId : Nat
  position : Nat
  owner : Bytes
  deriving DecidableEq, Repr

/-- `u32::MAX`: the position of a packed object's reference to its pack. -/
def PACK_MARKER : Nat := 2 ^ 32 - 1

def ShardTarget.isPackMarker (t : ShardTarget) : Bool :=
  t.position == PACK_MARKER && t.nodeId == []

/-- Every shard a stripe records; of a slice of a pack, one marker. -/
def stripeTarget (stripe : StripeMeta) : List ShardTarget :=
  if stripe.packId = [] then
    stripe.shards.map (fun s =>
      ⟨s.nodeId, stripe.objectId, stripe.stripeId, s.position, stripe.objectId⟩)
  else [⟨[], stripe.packId, stripe.stripeId, PACK_MARKER, stripe.packId⟩]

def stripeTargets (stripes : List StripeMeta) : List ShardTarget :=
  (((stripes.filter (fun s => s.objectId != [] || s.packId != [])).flatMap stripeTarget).filter
    (fun t => t.isPackMarker || t.nodeId != [])).eraseDups

def stripeTargetsOf (object : ObjectMeta) : List ShardTarget :=
  if object.objectId = [] then stripeTargets object.stripes
  else (stripeTargets object.stripes).map (fun t => { t with owner := object.objectId })

def targetsOf (objects : List ObjectMeta) (keep : List Bytes) : List ShardTarget :=
  ((objects.flatMap stripeTargetsOf).filter (fun t => !keep.contains t.objectId)).eraseDups

def referencedObjectIds (object : ObjectMeta) : List Bytes :=
  (object.objectId :: object.stripes.map (·.objectId)).filter (· != [])

/-- What an overwrite let go of: the shards freed at once, the objects to look at again later. -/
structure Overwritten where
  now : List ShardTarget := []
  unsettled : List ObjectMeta := []
  deriving DecidableEq, Repr

def displacedObjects (replies : List Displaced) (keep : List Bytes) : List ObjectMeta :=
  (replies.filterMap (·.replaced)).filter (fun o => o.objectId != [] && !keep.contains o.objectId)

/-- Which shards an acknowledged overwrite lets go of at once. -/
def reclaimableAfterOverwrite (replies : List Displaced) (keep : List Bytes) : Overwritten :=
  let replies := replies.filter (fun d => !d.missed)
  if replies.any (·.versionKept) then {}
  else
    let displaced := displacedObjects replies keep
    match displaced.head? with
    | none => {}
    | some first =>
      if replies.all (fun d => d.replaced.any (fun r => r.objectId == first.objectId)) then
        { now := targetsOf displaced keep }
      else { unsettled := displaced.eraseDups }

end IoLake.Gateway
