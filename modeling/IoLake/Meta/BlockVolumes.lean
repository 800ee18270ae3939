import IoLake.Lib.OwnedRecords
import IoLake.Meta.StripeRefs

/-!
# Block volumes, snapshots and clones

A volume's chunks are records that each name a stripe and the referrer they hold it as: the stripe's own id
for a chunk the volume wrote, a snapshot's id, a clone's volume id for a chunk it inherited.  The calls run
one at a time; each is a sequence of Raft writes, built from the caches and applied as a compare-and-set that
expects what the caches say.  A call may be cut short between its writes, or while it waits for one, which is
then applied without the caches being told; the apply listener tells them later, one row at a time.
-/

namespace IoLake.Meta.BlockVolumes

open Proto SharedHold OwnedRecords Function
open StripeRefs (Status Code)

/-! ## Rows -/

inductive VolumeState where
  | unknown
  | creating
  | available
  | attached
  | error
  | deleting
deriving DecidableEq, Repr

def VolumeState.debug : VolumeState → String
  | .unknown => "Unknown"
  | .creating => "Creating"
  | .available => "Available"
  | .attached => "Attached"
  | .error => "Error"
  | .deleting => "Deleting"

inductive SnapshotState where
  | unknown
  | creating
  | available
  | deleting
  | error
deriving DecidableEq, Repr

def SnapshotState.debug : SnapshotState → String
  | .unknown => "Unknown"
  | .creating => "Creating"
  | .available => "Available"
  | .deleting => "Deleting"
  | .error => "Error"

structure Volume where
  volumeId : Bytes
  name : Bytes
  sizeBytes : Nat
  pool : Bytes := []
  state : VolumeState
  createdAt : Nat := 0
  updatedAt : Nat := 0
  parentSnapshotId : Bytes := []
  chunkSizeBytes : Nat := 0
  metadata : List (Bytes × Bytes) := []
deriving DecidableEq, Repr

structure Snapshot where
  snapshotId : Bytes
  volumeId : Bytes
  name : Bytes
  sizeBytes : Nat := 0
  state : SnapshotState
  createdAt : Nat := 0
deriving DecidableEq, Repr

structure BlockChunkRef where
  chunkId : Nat
  stripe : Option StripeMeta
  owner : Bytes
deriving DecidableEq, Repr

inductive Row where
  | volume (v : Volume)
  | name (volumeId : Bytes)
  | chunk (r : BlockChunkRef)
  | snapshot (s : Snapshot)
  | refs (referrers : List Bytes)
deriving DecidableEq, Repr

/-- A table, a key of it, and the number of the chunk for a row of a chunk table. -/
abbrev Key := String ×ₗ Bytes ×ₗ Nat

abbrev Rows := OrdMap Key Row

abbrev Write := Key × Option Row

def VOLUMES : String := "block_volumes"
def NAMES : String := "block_volume_names"
def CHUNKS : String := "block_chunks"
def SNAPSHOTS : String := "block_snapshots"
def SNAP_CHUNKS : String := "block_snapshot_chunks"
def STRIPE_REFS : String := "stripe_refs"

/-- Chunks per Raft write. -/
def BATCH : Nat := 100

def CHUNK_SIZE : Nat := 4 * 1024 * 1024

def key (table : String) (id : Bytes) (chunk : Nat) : Key := toLex (table, toLex (id, chunk))

def tableOf (k : Key) : String := (ofLex k).1

def idOf (k : Key) : Bytes := (ofLex (ofLex k).2).1

def chunkOf (k : Key) : Nat := (ofLex (ofLex k).2).2

def volumeAt (rows : Rows) (id : Bytes) : Option Volume :=
  match rows.get (key VOLUMES id 0) with
  | some (.volume v) => some v
  | _ => none

def snapshotAt (rows : Rows) (id : Bytes) : Option Snapshot :=
  match rows.get (key SNAPSHOTS id 0) with
  | some (.snapshot s) => some s
  | _ => none

def chunkAt (rows : Rows) (k : Key) : Option BlockChunkRef :=
  if tableOf k = CHUNKS ∨ tableOf k = SNAP_CHUNKS then
    match rows.get k with
    | some (.chunk r) => some r
    | _ => none
  else none

def refsOf (rows : Rows) (id : Bytes) : Option (List Bytes) :=
  match rows.get (key STRIPE_REFS id 0) with
  | some (.refs r) => some r
  | _ => none

def chunksOf (rows : Rows) (table : String) (id : Bytes) : List (Nat × BlockChunkRef) :=
  rows.entries.filterMap fun e =>
    if tableOf e.1 = table ∧ idOf e.1 = id then
      match e.2 with
      | .chunk r => some (chunkOf e.1, r)
      | _ => none
    else none

def text (b : Bytes) : String := String.ofList (b.map fun c => Char.ofNat c.toNat)

/-- The rows, the registry's changes over what is committed, and the stripes found free. -/
structure Build where
  writes : List Write := []
  changed : OrdMap Bytes (Option (List Bytes)) := OrdMap.empty
  free : List StripeMeta := []

def Build.refs (rows : Rows) (b : Build) (id : Bytes) : Option (List Bytes) :=
  match b.changed.get id with
  | some v => v
  | none => refsOf rows id

def Build.share (rows : Rows) (b : Build) (id owner sharer : Bytes) : Except Status Build :=
  match b.refs rows id with
  | some r =>
    if owner ∉ r then
      .error ⟨.internal,
        "stripe " ++ MetaStore.hexEncode16 id ++ " is not held by the chunk's recorded owner"⟩
    else
      .ok { b with changed := b.changed.insert id (some (if sharer ∈ r then r else r ++ [sharer])) }
  | none =>
    .ok { b with
          changed := b.changed.insert id (some (if sharer = owner then [owner] else [owner, sharer])) }

def Build.release (rows : Rows) (b : Build) (stripe : StripeMeta) (referrer : Bytes) : Build :=
  match b.refs rows stripe.objectId with
  | none => { b with free := b.free ++ [stripe] }
  | some r =>
    if referrer ∈ r then
      match left referrer r with
      | none =>
        { b with changed := b.changed.insert stripe.objectId none, free := b.free ++ [stripe] }
      | some rest => { b with changed := b.changed.insert stripe.objectId (some rest) }
    else b

def Build.write (b : Build) (k : Key) (row : Option Row) : Build :=
  { b with writes := b.writes ++ [(k, row)] }

def Build.rows (b : Build) : List Write :=
  b.writes ++ b.changed.entries.map fun e => (key STRIPE_REFS e.1 0, e.2.map Row.refs)

structure ChunkUpdate where
  chunkId : Nat
  expectedObjectId : Bytes
  stripe : Option StripeMeta
deriving DecidableEq, Repr

def Build.releaseCurrent (rows : Rows) (b : Build) : Option BlockChunkRef → Build
  | some ⟨_, some stripe, owner⟩ => b.release rows stripe owner
  | _ => b

def commitOne (rows : Rows) (volumeId : Bytes) (b : Build) (u : ChunkUpdate) : Except Status Build :=
  let k := key CHUNKS volumeId u.chunkId
  let current := chunkAt rows k
  let currentId := ((current.bind (·.stripe)).map (·.objectId)).getD []
  if currentId ≠ u.expectedObjectId then
    .error ⟨.aborted,
      "chunk " ++ toString u.chunkId ++ " of " ++ text volumeId ++ " was changed by another writer"⟩
  else
    let b := b.releaseCurrent rows current
    match u.stripe with
    | some stripe =>
      if stripe.objectId = [] then .error ⟨.invalidArgument, "a stripe needs its object id"⟩
      else .ok (b.write k (some (.chunk ⟨u.chunkId, some stripe, stripe.objectId⟩)))
    | none => .ok (b.write k none)

/-- One chunk of a snapshot or clone: held by `toId`, and shared in the registry. -/
def shareOne (rows : Rows) (fromId : Bytes) (fromIsOwner : Bool) (toTable : String) (toId : Bytes)
    (b : Build) (row : Nat × BlockChunkRef) : Except Status Build :=
  match row.2.stripe with
  | none => .ok b
  | some stripe =>
    match b.share rows stripe.objectId (if fromIsOwner then fromId else row.2.owner) toId with
    | .error e => .error e
    | .ok b =>
      .ok (b.write (key toTable toId row.2.chunkId) (some (.chunk ⟨row.2.chunkId, some stripe, toId⟩)))

def releaseOne (rows : Rows) (table : String) (ownerId : Bytes) (referrerIsOwner : Bool) (b : Build)
    (row : Nat × BlockChunkRef) : Build :=
  let b :=
    match row.2.stripe with
    | some stripe => b.release rows stripe (if referrerIsOwner then ownerId else row.2.owner)
    | none => b
  b.write (key table ownerId row.1) none

def each {α : Type} (f : Build → α → Except Status Build) : Build → List α → Except Status Build
  | b, [] => .ok b
  | b, a :: l =>
    match f b a with
    | .error e => .error e
    | .ok b => each f b l

/-! ## Calls -/

/-- Of what, as what, the rows written first and last, and the name that must not be taken. -/
structure Copy where
  fromTable : String
  fromId : Bytes
  fromIsOwner : Bool
  toTable : String
  toId : Bytes
  name : Option Bytes
  first : List Write
  last : List Write

structure Deletion where
  table : String
  id : Bytes
  referrerIsOwner : Bool
  mark : List Write
  last : List Write

inductive Job where
  | createVolume (v : Volume)
  | commitChunks (volumeId : Bytes) (updates : List ChunkUpdate)
  | copy (c : Copy)
  | delete (d : Deletion)

/-- What a call writes next: its first rows, shared or released chunks in batches, its last rows. -/
inductive Phase where
  | first
  | share (rows : List (Nat × BlockChunkRef))
  | release (freeable : List StripeMeta)
  | last (freeable : List StripeMeta)

inductive Call where
  | createVolume (name : Bytes) (sizeBytes : Nat) (pool : Bytes) (chunkSizeBytes : Nat)
      (metadata : List (Bytes × Bytes))
  | commitChunks (volumeId : Bytes) (updates : List ChunkUpdate)
  | createSnapshot (volumeId name : Bytes)
  | cloneVolume (snapshotId name : Bytes)
  | deleteVolume (volumeId : Bytes)
  | deleteSnapshot (snapshotId : Bytes)
deriving DecidableEq, Repr

def volume (rows : Rows) (id : Bytes) : Except Status Volume :=
  match volumeAt rows id with
  | some v => .ok v
  | none => .error ⟨.notFound, "volume " ++ text id ++ " not found"⟩

def snapshot (rows : Rows) (id : Bytes) : Except Status Snapshot :=
  match snapshotAt rows id with
  | some s => .ok s
  | none => .error ⟨.notFound, "snapshot " ++ text id ++ " not found"⟩

def settled (v : Volume) : Except Status Volume :=
  if v.state = .deleting ∨ v.state = .creating then
    .error ⟨.failedPrecondition, "volume " ++ text v.volumeId ++ " is " ++ v.state.debug⟩
  else .ok v

def blockCreateVolume (id : Bytes) (now : Nat) (name : Bytes) (sizeBytes : Nat) (pool : Bytes)
    (chunkSizeBytes : Nat) (metadata : List (Bytes × Bytes)) : Except Status (Job × Phase) :=
  if name = [] ∨ sizeBytes = 0 then
    .error ⟨.invalidArgument, "a volume needs a name and a size"⟩
  else
    .ok (.createVolume
      { volumeId := id
        name := name
        sizeBytes := sizeBytes
        pool := pool
        state := .available
        createdAt := now
        updatedAt := now
        chunkSizeBytes := if chunkSizeBytes = 0 then CHUNK_SIZE else chunkSizeBytes
        metadata := metadata }, .first)

def blockCommitChunks (rows : Rows) (volumeId : Bytes) (updates : List ChunkUpdate) :
    Except Status (Job × Phase) :=
  if BATCH < updates.length then
    .error ⟨.invalidArgument, "at most " ++ toString BATCH ++ " chunks per commit"⟩
  else if ¬ (updates.map ChunkUpdate.chunkId).Nodup then
    .error ⟨.invalidArgument, "a chunk appears twice in one commit"⟩
  else do
    let v ← volume rows volumeId
    let _ ← settled v
    return (.commitChunks volumeId updates, .first)

def blockCreateSnapshot (rows : Rows) (id : Bytes) (now : Nat) (volumeId name : Bytes) :
    Except Status (Job × Phase) := do
  let v ← volume rows volumeId
  let _ ← settled v
  let snap : Snapshot :=
    { snapshotId := id
      volumeId := v.volumeId
      name := name
      sizeBytes := v.sizeBytes
      state := .creating
      createdAt := now }
  return (.copy
    { fromTable := CHUNKS
      fromId := v.volumeId
      fromIsOwner := false
      toTable := SNAP_CHUNKS
      toId := id
      name := none
      first := [(key SNAPSHOTS id 0, some (.snapshot snap))]
      last := [(key SNAPSHOTS id 0, some (.snapshot { snap with state := .available }))] }, .first)

def blockCloneVolume (rows : Rows) (id : Bytes) (now : Nat) (snapshotId name : Bytes) :
    Except Status (Job × Phase) := do
  let snap ← snapshot rows snapshotId
  if snap.state ≠ .available then
    .error ⟨.failedPrecondition, "snapshot " ++ text snap.snapshotId ++ " is " ++ snap.state.debug⟩
  else if name = [] then .error ⟨.invalidArgument, "a clone needs a name"⟩
  else
    let source := volumeAt rows snap.volumeId
    let clone : Volume :=
      { volumeId := id
        name := name
        sizeBytes := snap.sizeBytes
        pool := (source.map (·.pool)).getD []
        state := .creating
        createdAt := now
        updatedAt := now
        parentSnapshotId := snap.snapshotId
        chunkSizeBytes := (source.map (·.chunkSizeBytes)).getD CHUNK_SIZE }
    return (.copy
      { fromTable := SNAP_CHUNKS
        fromId := snap.snapshotId
        fromIsOwner := true
        toTable := CHUNKS
        toId := id
        name := some name
        first := [(key VOLUMES id 0, some (.volume clone)), (key NAMES name 0, some (.name id))]
        last := [(key VOLUMES id 0, some (.volume { clone with state := .available }))] }, .first)

def blockDeleteVolume (rows : Rows) (now : Nat) (volumeId : Bytes) : Except Status (Job × Phase) := do
  let v ← volume rows volumeId
  if v.state = .attached then .error ⟨.failedPrecondition, "detach the volume first"⟩
  else
    return (.delete
      { table := CHUNKS
        id := v.volumeId
        referrerIsOwner := false
        mark := [(key VOLUMES v.volumeId 0, some (.volume { v with state := .deleting, updatedAt := now }))]
        last := [(key VOLUMES v.volumeId 0, none), (key NAMES v.name 0, none)] },
      if v.state = .deleting then .release [] else .first)

def blockDeleteSnapshot (rows : Rows) (snapshotId : Bytes) : Except Status (Job × Phase) := do
  let snap ← snapshot rows snapshotId
  return (.delete
    { table := SNAP_CHUNKS
      id := snap.snapshotId
      referrerIsOwner := true
      mark := [(key SNAPSHOTS snap.snapshotId 0, some (.snapshot { snap with state := .deleting }))]
      last := [(key SNAPSHOTS snap.snapshotId 0, none)] },
    if snap.state = .deleting then .release [] else .first)

def Call.start (rows : Rows) (id : Bytes) (now : Nat) : Call → Except Status (Job × Phase)
  | .createVolume name sizeBytes pool chunkSizeBytes metadata =>
    blockCreateVolume id now name sizeBytes pool chunkSizeBytes metadata
  | .commitChunks volumeId updates => blockCommitChunks rows volumeId updates
  | .createSnapshot volumeId name => blockCreateSnapshot rows id now volumeId name
  | .cloneVolume snapshotId name => blockCloneVolume rows id now snapshotId name
  | .deleteVolume volumeId => blockDeleteVolume rows now volumeId
  | .deleteSnapshot snapshotId => blockDeleteSnapshot rows snapshotId

def nameFree (rows : Rows) (name : Bytes) : Except Status Unit :=
  if (rows.get (key NAMES name 0)).isSome then
    .error ⟨.alreadyExists, "volume " ++ text name ++ " already exists"⟩
  else .ok ()

def build (rows : Rows) : Job → Phase → Except Status Build
  | .createVolume v, _ => do
    nameFree rows v.name
    return { writes := [(key VOLUMES v.volumeId 0, some (.volume v)),
      (key NAMES v.name 0, some (.name v.volumeId))] }
  | .commitChunks volumeId updates, _ => each (commitOne rows volumeId) {} updates
  | .copy c, .share batch =>
    each (shareOne rows c.fromId c.fromIsOwner c.toTable c.toId) {} (batch.take BATCH)
  | .copy c, .last _ => .ok { writes := c.last }
  | .copy c, _ => do
    match c.name with
    | some name => nameFree rows name
    | none => .ok ()
    return { writes := c.first }
  | .delete d, .release _ =>
    .ok (((chunksOf rows d.table d.id).take BATCH).foldl (releaseOne rows d.table d.id d.referrerIsOwner) {})
  | .delete d, .last _ => .ok { writes := d.last }
  | .delete d, _ => .ok { writes := d.mark }

inductive Answer where
  | volume (id : Bytes)
  | snapshot (id : Bytes)
  | released (freeable : List StripeMeta)
deriving DecidableEq

def Job.requestedBy : Job → String
  | .createVolume _ => "block-create-volume"
  | .commitChunks _ _ => "block-commit-chunks"
  | .copy c => if c.toTable = CHUNKS then "block-clone-volume" else "block-create-snapshot"
  | .delete d => if d.table = CHUNKS then "block-delete-volume" else "block-delete-snapshot"

def next (rows : Rows) (b : Build) : Job → Phase → Phase ⊕ Answer
  | .createVolume v, _ => .inr (.volume v.volumeId)
  | .commitChunks _ _, _ => .inr (.released b.free)
  | .copy c, .last _ => .inr (if c.toTable = CHUNKS then .volume c.toId else .snapshot c.toId)
  | .copy _, .share batch =>
    .inl (match batch.drop BATCH with
      | [] => .last []
      | rest => .share rest)
  | .copy c, _ =>
    .inl (match chunksOf rows c.fromTable c.fromId with
      | [] => .last []
      | batch => .share batch)
  | .delete _, .last free => .inr (.released free)
  | .delete _, .release free =>
    .inl (if b.writes = [] then .last free else .release (free ++ b.free))
  | .delete _, _ => .inl (.release [])

/-! ## The node -/

/-- The call under way; `source` is what its source mapped the chunks to when it started. -/
structure Running where
  job : Job
  phase : Phase
  attempt : Nat := 0
  source : Nat → Option Bytes := fun _ => none

def stripeAt (rows : Rows) (table : String) (id : Bytes) (chunk : Nat) : Option Bytes :=
  ((chunkAt rows (key table id chunk)).bind (·.stripe)).map (·.objectId)

structure State where
  table : Rows
  cache : Rows
  events : List Write := []
  running : Option Running := none
  answers : List (Except Status Answer) := []
  used : List Bytes := []
  /-- What each snapshot and clone that was answered for maps its chunks to. -/
  copies : String × Bytes → Option (Nat → Option Bytes) := fun _ => none
  holds : List (Bytes × String × Bytes) := []
  deleted : List (String × Bytes) := []

inductive Event where
  /-- A call is let in; `id` is the id it makes up. -/
  | start (c : Call) (id : Bytes) (now : Nat)
  | write (heard : Bool)
  | cut
  | listen
deriving DecidableEq, Repr

def applyWrites (rows : Rows) (ws : List Write) : Rows :=
  ws.foldl (fun m w => CompareAndSet.set m w.1 w.2) rows

def heldBy (ws : List Write) : List (Bytes × String × Bytes) :=
  ws.filterMap fun w =>
    match w.2 with
    | some (.chunk r) => r.stripe.map fun st => (st.objectId, tableOf w.1, idOf w.1)
    | _ => none

def newStripes : Job → List Bytes
  | .commitChunks _ updates => updates.filterMap fun u => u.stripe.map (·.objectId)
  | _ => []

def rewritten (updates : List ChunkUpdate) (m : Nat → Option Bytes) (chunk : Nat) : Option Bytes :=
  match updates.find? fun u => u.chunkId = chunk with
  | some u => u.stripe.map (·.objectId)
  | none => m chunk

def Job.rewrite (job : Job) (copies : String × Bytes → Option (Nat → Option Bytes)) :
    String × Bytes → Option (Nat → Option Bytes) :=
  match job with
  | .commitChunks volumeId updates =>
    update copies (CHUNKS, volumeId) ((copies (CHUNKS, volumeId)).map (rewritten updates))
  | _ => copies

def State.commit (s : State) (job : Job) (ws : List Write) : State :=
  { s with
    table := applyWrites s.table ws
    events := s.events ++ ws
    used := newStripes job ++ s.used
    copies := job.rewrite s.copies
    holds := s.holds ++ heldBy ws }

def State.answer (s : State) (a : Except Status Answer) : State :=
  { s with running := none, answers := s.answers ++ [a] }

/-- After a write.  The rows a copy shares next are read here too, with the write before them. -/
def State.goOn (s : State) (r : Running) (b : Build) : State :=
  match next s.cache b r.job r.phase with
  | .inl phase => { s with running := some { r with phase := phase, attempt := 0 } }
  | .inr a =>
    match r.job with
    | .copy c =>
      { s with copies := update s.copies (c.toTable, c.toId) (some r.source) }.answer (.ok a)
    | .delete d => { s with deleted := (d.table, d.id) :: s.deleted }.answer (.ok a)
    | _ => s.answer (.ok a)

def writeStep (s : State) (heard : Bool) (r : Running) : Option State :=
  match build s.cache r.job r.phase with
  | .error e => some (s.answer (.error e))
  | .ok b =>
    let ws := b.rows
    if ws = [] then some (s.goOn r b)
    else if (newStripes r.job).Nodup ∧ ∀ x ∈ newStripes r.job, x ∉ s.used then
      if ∀ w ∈ ws, s.table.get w.1 = s.cache.get w.1 then
        if heard then
          some ({ s.commit r.job ws with cache := applyWrites s.cache ws }.goOn r b)
        else some { s.commit r.job ws with running := none }
      else if r.attempt + 1 < 8 then some { s with running := some { r with attempt := r.attempt + 1 } }
      else some (s.answer (.error ⟨.aborted, r.job.requestedBy ++ ": state kept changing; retry"⟩))
    else none

def Call.creates : Call → Bool
  | .createVolume .. | .createSnapshot .. | .cloneVolume .. => true
  | _ => false

def startStep (s : State) (c : Call) (id : Bytes) (now : Nat) : Option State :=
  if s.running.isSome ∨ (c.creates = true ∧ id ∈ s.used) then none
  else
    let s := if c.creates then { s with used := id :: s.used } else s
    match c.start s.cache id now with
    | .error e => some (s.answer (.error e))
    | .ok (job, phase) =>
      match job with
      | .copy c =>
        some { s with running := some ⟨job, phase, 0, stripeAt s.table c.fromTable c.fromId⟩ }
      | .delete d =>
        some { s with
               running := some ⟨job, phase, 0, fun _ => none⟩
               copies := update s.copies (d.table, d.id) none }
      | _ => some { s with running := some ⟨job, phase, 0, fun _ => none⟩ }

def step (s : State) : Event → Option State
  | .start c id now => startStep s c id now
  | .write heard => s.running.bind (writeStep s heard)
  | .cut => if s.running.isSome then some { s with running := none } else none
  | .listen =>
    match s.events with
    | [] => none
    | w :: rest => some { s with cache := CompareAndSet.set s.cache w.1 w.2, events := rest }

end IoLake.Meta.BlockVolumes
