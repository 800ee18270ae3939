import IoLake.Proto.ObjectMeta

/-!
# One key's entries on one OSD (`osd/src/service.rs`)

An OSD keeps, of one key: its current object (`m…`), its versions by entry id (`v…`) and the tombstone of the
last delete of the key and of each version (`t…`).  Each handler is run whole under the key's lock.  A request
the store fails to write changes nothing, so it is a request not applied.
-/

namespace IoLake.Osd

open IoLake.Proto

structure PgId where
  pool : Bytes
  id : UInt32
  deriving DecidableEq, Repr

structure Tombstone where
  stamp : Nat
  pg : Option PgId := none
  deriving DecidableEq, Repr

structure KeyEntries where
  current : Option ObjectMeta := none
  /-- By entry id: a version's own id, `NULL_VERSION` for an object without one. -/
  versions : OrdMap Bytes ObjectMeta := OrdMap.empty
  tombstones : OrdMap Bytes Tombstone := OrdMap.empty
  deriving DecidableEq, Repr

def NULL_VERSION : Bytes := [110, 117, 108, 108]

def versionEntryId (versionId : Bytes) : Bytes :=
  if versionId = [] then NULL_VERSION else versionId

/-! ## Order and age -/

/-- Whether `stored` is a newer write than `incoming`; an unstamped write is applied over any. -/
def supersedes (stored : Option ObjectMeta) (incoming : ObjectMeta) : Bool :=
  decide (incoming.stamp ≠ 0) && stored.any (fun s => decide (incoming.writeOrder < s.writeOrder))

/-- The milliseconds of a UUIDv7, read from its text or its bytes; `none` for anything else. -/
structure Uuids where
  ofText : Bytes → Option Nat
  ofBytes : Bytes → Option Nat

def U64_MAX : Nat := 2 ^ 64 - 1

def versionAge (uuid : Uuids) (o : ObjectMeta) : Nat ×ₗ Bytes :=
  let ofObject := if o.versionId = [] then uuid.ofBytes o.objectId else none
  let ms := (uuid.ofText o.versionId <|> ofObject).getD (min (o.modifiedAt * 1000) U64_MAX)
  toLex (ms, o.versionId)

def newestVersion (uuid : Uuids) : List ObjectMeta → Option ObjectMeta
  | [] => none
  | o :: rest => some (rest.foldl (fun best v =>
      if versionAge uuid v < versionAge uuid best then best else v) o)

namespace KeyEntries

section
variable (s : KeyEntries) (versionId : Bytes)

/-- The stamp of the last delete of the version (the empty id: of the key); 0 if none. -/
def tombstone : Nat :=
  (s.tombstones.get versionId).elim 0 (·.stamp)

def deletedSince (incoming : ObjectMeta) : Bool :=
  decide (incoming.stamp ≠ 0) && decide (incoming.stamp ≤ s.tombstone versionId)

def putTombstone (stamp : Nat) (pg : Option PgId) : KeyEntries :=
  if stamp ≤ s.tombstone versionId then s
  else
    let pg := pg <|> (s.tombstones.get versionId).bind (·.pg)
    { s with tombstones := s.tombstones.insert versionId ⟨stamp, pg⟩ }

def versionEntryHolds (object : ObjectMeta) : Bool :=
  (s.versions.get (versionEntryId object.versionId)).any (fun v => v.objectId == object.objectId)

end

end KeyEntries

/-! ## `PutObjectMeta` -/

inductive Status where
  /-- `invalid_argument`: "missing object". -/
  | missingObject
  /-- `failed_precondition`: "{bucket}/{key} is no longer the object this write was built from". -/
  | noLongerTheObject (bucket key : Bytes)
  /-- `failed_precondition`: "{bucket}/{key} version {entry} is no longer the object this write was
  built from". -/
  | versionNoLongerTheObject (bucket key entry : Bytes)
  /-- `failed_precondition`: "{bucket}/{key} version {version} is not stored here". -/
  | notStoredHere (bucket key version : Bytes)
  deriving DecidableEq, Repr

structure PutObjectMetaRequest where
  bucket : Bytes := []
  key : Bytes := []
  object : Option ObjectMeta
  versioningEnabled : Bool := false
  expectedObjectId : Bytes := []
  requireExisting : Bool := false
  versionOnly : Bool := false
  keepNewerCurrent : Bool := false
  replicationUpdate : Bool := false
  replicationSet : List (Bytes × Bytes) := []
  pg : Option PgId := none
  deriving DecidableEq, Repr

structure PutObjectMetaResponse where
  replaced : Option ObjectMeta := none
  replacedVersionKept : Bool := false
  superseded : Bool := false
  heldStamp : Nat := 0
  deriving DecidableEq, Repr

def preconditionHolds (current : Option ObjectMeta) (expected : Bytes) (requireExisting : Bool) : Bool :=
  if expected = [] then true
  else current.elim (!requireExisting) (fun c => c.objectId == expected)

section
variable (uuid : Uuids) (s : KeyEntries) (req : PutObjectMetaRequest) (object : ObjectMeta)

def withPg (pg : Option PgId) : ObjectMeta :=
  match pg with
  | some p =>
    if object.pgPool = [] ∧ p.pool ≠ [] then { object with pgPool := p.pool, pgId := p.id }
    else object
  | none => object

def mergeReplication :
    Except Status (KeyEntries × PutObjectMetaResponse) :=
  let holds (o : ObjectMeta) : Bool :=
    o.objectId == object.objectId && o.versionId == object.versionId
  let merged (o : ObjectMeta) : ObjectMeta :=
    { o with replication := o.replication.extend req.replicationSet }
  let current := s.current.filter holds
  let version := if object.versionId = [] then none
    else (s.versions.get object.versionId).filter holds
  if current = none ∧ version = none then
    .error (.notStoredHere req.bucket req.key object.versionId)
  else
    .ok ({ s with
      current := if current = none then s.current else current.map merged
      versions := match version with
        | some v => s.versions.insert object.versionId (merged v)
        | none => s.versions }, {})

def putVersionEntry :
    Except Status (KeyEntries × PutObjectMetaResponse) :=
  let entry := versionEntryId object.versionId
  let prev := s.versions.get entry
  if supersedes prev object || s.deletedSince entry object then
    .ok (s, { superseded := true, heldStamp := max (prev.elim 0 (·.stamp)) (s.tombstone entry) })
  else if req.versionOnly &&
      !preconditionHolds prev req.expectedObjectId req.requireExisting then
    .error (.versionNoLongerTheObject req.bucket req.key entry)
  else
    .ok ({ s with versions := s.versions.insert entry object }, {})

/-- The object it replaces if that has no version id and versioning is on now, and the object's own. -/
def versionsWritten :
    OrdMap Bytes ObjectMeta :=
  let versions := match s.current.filter (fun o => o.versionId == []) with
    | some null =>
      if req.versioningEnabled && object.versionId != [] then s.versions.insert NULL_VERSION null
      else s.versions
    | none => s.versions
  let updatesItsVersion := !req.versioningEnabled && s.versionEntryHolds object
  if (req.versioningEnabled || updatesItsVersion) && object.versionId != [] then
    versions.insert object.versionId object
  else versions

def putCurrent :
    Except Status (KeyEntries × PutObjectMetaResponse) :=
  if !req.keepNewerCurrent && (supersedes s.current object || s.deletedSince [] object) then
    .ok (s, { superseded := true, heldStamp := max (s.current.elim 0 (·.stamp)) (s.tombstone []) })
  else if !preconditionHolds s.current req.expectedObjectId req.requireExisting then
    .error (.noLongerTheObject req.bucket req.key)
  else
    let s' : KeyEntries :=
      { s with current := some object, versions := versionsWritten s req object }
    .ok (s', {
      replaced := s.current
      replacedVersionKept := s.current.any s'.versionEntryHolds })

def olderReplica : Bool :=
  req.keepNewerCurrent &&
    s.current.any (fun c => decide (versionAge uuid object < versionAge uuid c))

def takesVersionPath : Bool :=
  req.versionOnly || (olderReplica uuid s req object && object.versionId != [])

def putObjectMeta :
    Except Status (KeyEntries × PutObjectMetaResponse) :=
  match req.object with
  | none => .error .missingObject
  | some o =>
    let object := withPg o req.pg
    if req.replicationUpdate then mergeReplication s req object
    else if takesVersionPath uuid s req object then putVersionEntry s req object
    else putCurrent s req object

end

structure DeleteObjectMetaRequest where
  bucket : Bytes := []
  key : Bytes := []
  versionId : Bytes := []
  stamp : Nat := 0
  withdrawObjectId : Bytes := []
  pg : Option PgId := none
  deriving DecidableEq, Repr

structure DeleteObjectMetaResponse where
  current : Option ObjectMeta := none
  removed : Option ObjectMeta := none
  superseded : Bool := false
  heldStamp : Nat := 0
  deriving DecidableEq, Repr

def forListing (o : ObjectMeta) : ObjectMeta := { o with inlineData := [] }

section
variable (uuid : Uuids) (s : KeyEntries) (req : DeleteObjectMetaRequest)

/-- Every entry that holds `objectId` goes, with no tombstone, and if the current one went the newest version
left becomes current. -/
def withdraw (objectId : Bytes) : KeyEntries × DeleteObjectMetaResponse :=
  let gone := (s.versions.entries.map (·.2)).filter (fun v => v.objectId == objectId)
  let versions := s.versions.filterKeys (fun k => !(s.versions.get k).any (·.objectId == objectId))
  match s.current.filter (fun c => c.objectId == objectId) with
  | some c =>
    let newest := newestVersion uuid (versions.entries.map (·.2))
    ({ s with current := newest, versions }, { current := newest.map forListing, removed := some c })
  | none =>
    ({ s with versions }, { current := s.current.map forListing, removed := gone.getLast? })

/-- The placement group a delete records: the request's, else the current object's. -/
def deletePg : Option PgId :=
  req.pg.filter (fun p => p.pool != []) <|>
    (s.current.filter (fun o => o.pgPool != [])).map (fun o => ⟨o.pgPool, o.pgId⟩)

def KeyEntries.target (versionId : Bytes) : Option ObjectMeta :=
  if versionId = [] then s.current else s.versions.get versionId

def promoted (versionId : Bytes) : Option ObjectMeta :=
  if s.current.any (fun c => versionEntryId c.versionId == versionId) then
    newestVersion uuid (s.versions.entries.map (·.2))
  else s.current

def deleteObjectMeta :
    KeyEntries × DeleteObjectMetaResponse :=
  if req.withdrawObjectId ≠ [] then withdraw uuid s req.withdrawObjectId
  else
    let target := s.target req.versionId
    if req.stamp ≠ 0 ∧ target.any (fun o => decide (req.stamp < o.stamp)) then
      (s, { superseded := true, heldStamp := target.elim 0 (·.stamp) })
    else
      let s := if req.stamp = 0 then s
        else s.putTombstone req.versionId req.stamp (deletePg s req)
      if req.versionId = [] then ({ s with current := none }, { removed := target })
      else
        let s := { s with versions := s.versions.erase req.versionId }
        let s := { s with current := promoted uuid s req.versionId }
        (s, { current := s.current.map forListing, removed := target })

end

structure GetObjectMetaResponse where
  object : Option ObjectMeta
  tombstoneStamp : Nat
  deriving DecidableEq, Repr

def objectMetaAnswer (s : KeyEntries) (versionId : Bytes) : GetObjectMetaResponse :=
  ⟨s.target versionId, s.tombstone versionId⟩

end IoLake.Osd
