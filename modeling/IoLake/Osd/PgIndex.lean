import IoLake.Storage.MetadataKey
import IoLake.Storage.Wal
import IoLake.Osd.KeyEntries

/-!
# Metadata indexed by placement group (`osd/src/pg_index.rs`)

Beside the entries of its keys an OSD keeps one entry per key, and one per version, under the key's placement
group: `pg/{pool}\0{pg_id:u32be}{bucket}\0{key}[\0{version}]`.  As other threads see it a write is in two
parts: `PgIndexed.writeStore` reads the keys' entries and makes the one write of the store, and
`Summaries.settle` changes each group's summary by what that write changed; the locks of its keys are held
over both.
-/

namespace IoLake.Osd

open IoLake.Proto IoLake.Storage ByteFormat ChangeLog MetadataKey

structure PgEntry where
  bucket : Bytes := []
  key : Bytes := []
  tombstone : Bool := false
  stamp : UInt64 := 0
  objectId : Bytes := []
  updateStamp : UInt64 := 0
  stripes : UInt32 := 0
  positionsShort : UInt32 := 0
  namedHere : UInt32 := 0
  heldHere : UInt32 := 0
  needed : UInt32 := 0
  size : UInt64 := 0
  versionId : Bytes := []
  deriving DecidableEq, Repr

structure PgEnv where
  nodeId : Bytes
  decodeObject : Bytes → Option ObjectMeta
  encodeEntry : PgEntry → Bytes
  decodeEntry : Bytes → Option PgEntry
  xxh64 : Bytes → UInt64 → UInt64

/-- What prost documents: a string field is UTF-8, and what is encoded is decoded again. -/
structure PgEnv.Lawful (env : PgEnv) : Prop where
  pool_utf8 : ∀ b o, env.decodeObject b = some o → validUtf8 o.pgPool = true
  decode_encode : ∀ e : PgEntry, e.bucket = [] → e.key = [] → e.versionId = [] →
    env.decodeEntry (env.encodeEntry e) = some e

/-! ## Keys -/

def PG_PREFIX : Bytes := [112, 103, 47]

def pgPrefix (pg : PgId) : Bytes := PG_PREFIX ++ (pg.pool ++ 0 :: toBE 4 pg.id.toNat)

def entryKey (pg : PgId) (bucket key : Bytes) : Bytes := pgPrefix pg ++ (bucket ++ 0 :: key)

def versionKey (pg : PgId) (bucket key versionId : Bytes) : Bytes :=
  entryKey pg bucket key ++ 0 :: versionId

def keyOf (pg : PgId) (e : PgEntry) : Bytes :=
  if e.versionId = [] then entryKey pg e.bucket e.key
  else versionKey pg e.bucket e.key e.versionId

def parseEntryKey : Bytes → Option (PgId × Bytes × Bytes × Bytes)
  | 112 :: 103 :: 47 :: rest => do
    let (pool, rest) ← splitNul rest
    let pool ← fromUtf8 pool
    if rest.length < 4 then none
    else
      let id := UInt32.ofNat (fromBE (rest.take 4))
      let (bucket, rest) ← splitNul (rest.drop 4)
      let (key, version) := (splitNul rest).getD (rest, [])
      return (⟨pool, id⟩, ← fromUtf8 bucket, ← fromUtf8 key, ← fromUtf8 version)
  | _ => none

def tombstoneStamp (v : Bytes) : UInt64 :=
  if v.length < 8 then 0 else UInt64.ofNat (fromBE (v.take 8))

def tombstonePg (v : Bytes) : Option PgId :=
  if v.length < 12 then none
  else do
    let pool ← fromUtf8 (v.drop 12)
    if pool = [] then none else some ⟨pool, UInt32.ofNat (fromBE ((v.drop 8).take 4))⟩

structure Name where
  bucket : Bytes
  key : Bytes
  version : Option Bytes
  deriving DecidableEq, Repr

def touched : Bytes → Option Name
  | 109 :: rest =>
    (parseObjectMeta (109 :: rest)).map (fun (b, k) => ⟨b, k, none⟩)
  | 118 :: rest =>
    (parseObjectVersion (118 :: rest)).map (fun (b, k, v) => ⟨b, k, some v⟩)
  | 116 :: rest =>
    (parseThree rest).map (fun (b, k, v) => ⟨b, k, if v = [] then none else some v⟩)
  | _ => none

def sources (n : Name) : Bytes × Bytes :=
  match n.version with
  | none => (objectMeta n.bucket n.key, tombstone n.bucket n.key [])
  | some v => (objectVersion n.bucket n.key v, tombstone n.bucket n.key v)

structure Indexed where
  pg : PgId
  entry : PgEntry
  deriving DecidableEq, Repr

def asVersion (ix : Indexed) : Option Bytes → Indexed
  | some v => { ix with entry := { ix.entry with versionId := v } }
  | none => ix

/-- The stripes that are the object's own, not a slice of a pack. -/
def ownStripes (o : ObjectMeta) : List StripeMeta := o.stripes.filter (fun s => s.packId == [])

def U32_MAX : Nat := 2 ^ 32 - 1

def stripeShort (s : StripeMeta) : Nat :=
  (s.ecK + s.ecM) % 2 ^ 32 - min (s.shards.map (·.position)).dedup.length U32_MAX

def stripeHere (nodeId : Bytes) (s : StripeMeta) : Nat :=
  min ((s.shards.filter (fun sh => sh.nodeId == nodeId)).map (·.position)).dedup.length U32_MAX

def objectEntry (env : PgEnv) (bucket key : Bytes) (o : ObjectMeta) : PgEntry :=
  { bucket, key
    stamp := UInt64.ofNat o.stamp
    objectId := o.objectId
    updateStamp := UInt64.ofNat o.updateStamp
    stripes := UInt32.ofNat (min (ownStripes o).length U32_MAX)
    positionsShort := UInt32.ofNat ((ownStripes o).map stripeShort).sum
    namedHere := UInt32.ofNat ((ownStripes o).map (stripeHere env.nodeId)).sum
    needed := UInt32.ofNat (o.stripes.head?.elim 1 (fun s => max s.ecK 1))
    size := UInt64.ofNat o.size }

/-- The object's if there is one, else the tombstone's.  Its group is the object's, else the tombstone's, else
`hint`. -/
def derive (env : PgEnv) (bucket key : Bytes) (m t : Option Bytes) (hint : Option PgId) : Option Indexed :=
  let fromT := t.bind tombstonePg
  match m with
  | some m => (env.decodeObject m).bind (fun o =>
      (if o.pgPool = [] then fromT <|> hint else some ⟨o.pgPool, o.pgId⟩).map
        (⟨·, objectEntry env bucket key o⟩))
  | none => t.bind (fun t =>
      (fromT <|> hint).map (⟨·, { bucket, key, tombstone := true, stamp := tombstoneStamp t }⟩))

/-! ## Summaries -/

/-- What an entry adds to its group's digest: a hash of its key, its kind and its write order. -/
def entryHash (env : PgEnv) (e : PgEntry) : BitVec 128 :=
  let b := e.bucket ++ 0 :: (e.key ++ 0 :: (if e.tombstone then 1 else 0) ::
    (toBE 8 e.stamp.toNat ++ (e.objectId ++ (toBE 8 e.updateStamp.toNat ++
      (if e.versionId = [] then [] else 0 :: e.versionId)))))
  let hi := env.xxh64 b 0
  let lo := env.xxh64 b 0x9e3779b97f4a7c15
  (hi.toBitVec.setWidth 128 <<< 64) ||| lo.toBitVec.setWidth 128

structure Summary where
  objects : Nat := 0
  tombstones : Nat := 0
  maxStamp : Nat := 0
  digest : BitVec 128 := 0
  stripes : Nat := 0
  positionsShort : Nat := 0
  namedHere : Nat := 0
  deriving DecidableEq, Repr

namespace Summary

def add (env : PgEnv) (s : Summary) (e : PgEntry) : Summary :=
  let s := if e.tombstone then { s with tombstones := s.tombstones + 1 }
    else { s with
      objects := s.objects + 1
      stripes := s.stripes + e.stripes.toNat
      positionsShort := s.positionsShort + e.positionsShort.toNat
      namedHere := s.namedHere + e.namedHere.toNat }
  { s with maxStamp := max s.maxStamp e.stamp.toNat, digest := s.digest ^^^ entryHash env e }

/-- Take an entry out; the highest stamp stays. -/
def sub (env : PgEnv) (s : Summary) (e : PgEntry) : Summary :=
  let s := if e.tombstone then { s with tombstones := s.tombstones - 1 }
    else { s with
      objects := s.objects - 1
      stripes := s.stripes - e.stripes.toNat
      positionsShort := s.positionsShort - e.positionsShort.toNat
      namedHere := s.namedHere - e.namedHere.toNat }
  { s with digest := s.digest ^^^ entryHash env e }

def isEmpty (s : Summary) : Bool := s.objects == 0 && s.tombstones == 0

end Summary

abbrev Sums := PgId → Option Summary

def Sums.add (env : PgEnv) (sums : Sums) (ix : Indexed) : Sums :=
  Function.update sums ix.pg (some (((sums ix.pg).getD {}).add env ix.entry))

def Sums.sub (env : PgEnv) (sums : Sums) (ix : Indexed) : Sums :=
  match sums ix.pg with
  | some s =>
    let s := s.sub env ix.entry
    Function.update sums ix.pg (if s.isEmpty then none else some s)
  | none => sums

/-- A count under way: the entries writes put in and took out below its fence. -/
structure Counting where
  added : Sums := fun _ => none
  removed : Sums := fun _ => none
  below : Bytes := []

structure Summaries where
  live : Sums := fun _ => none
  counting : Option Counting := none

/-! ## Writes -/

section
variable (env : PgEnv) (store : OrdMap Bytes Bytes) (ops : List Change)

def putEntry (ix : Indexed) : Change :=
  (keyOf ix.pg ix.entry, some (env.encodeEntry { ix.entry with bucket := [], key := [], versionId := [] }))

def valuesAfter (mk tk : Bytes) (m t : Option Bytes) : Option Bytes × Option Bytes :=
  ops.foldl (fun v op =>
    if op.1 = mk then (op.2, v.2) else if op.1 = tk then (v.1, op.2) else v) (m, t)

abbrev Delta := Option Indexed × Option Indexed

def touchedNames : List Name := (ops.filterMap (fun op => touched op.1)).eraseDups

def deltaOf (n : Name) : Delta :=
  let (mk, tk) := sources n
  let m0 := store.get mk
  let t0 := store.get tk
  let (m1, t1) := valuesAfter ops mk tk m0 t0
  let before := (derive env n.bucket n.key m0 t0 none).map (asVersion · n.version)
  let after := (derive env n.bucket n.key m1 t1 (before.map (·.pg))).map (asVersion · n.version)
  (before, after)

def leavesUnindexed (n : Name) : Bool :=
  let (mk, tk) := sources n
  let m1 := (valuesAfter ops mk tk (store.get mk) (store.get tk)).1
  (deltaOf env store ops n).2.isNone && m1.isSome && n.version.isNone

def deltasOf : List Delta :=
  ((touchedNames ops).map (deltaOf env store ops)).filter (fun d => d.1 != d.2)

def indexOps (d : Delta) : List Change :=
  (match d.1 with
    | some b => if d.2.all (fun a => a.pg != b.pg) then [(keyOf b.pg b.entry, none)] else []
    | none => []) ++
  (match d.2 with
    | some a => [putEntry env a]
    | none => [])

end

structure PgIndexed where
  store : OrdMap Bytes Bytes := OrdMap.empty
  summaries : Summaries := {}
  unindexed : Nat := 0

def PgIndexed.writeStore (env : PgEnv) (p : PgIndexed) (ops : List MetadataOp) : PgIndexed × List Delta :=
  let ops := changesOfAll ops
  let deltas := deltasOf env p.store ops
  ({ p with
    store := applyChanges (ops ++ deltas.flatMap (indexOps env)) p.store
    unindexed := p.unindexed + (touchedNames ops).countP (leavesUnindexed env p.store ops) }, deltas)

def Sums.settle (env : PgEnv) (sums : Sums) (d : Delta) : Sums :=
  let sums := d.1.elim sums (sums.sub env)
  d.2.elim sums (sums.add env)

/-- The summaries brought up to a write: while a count is under way what changed below its fence is
kept aside. -/
def Summaries.settle (env : PgEnv) (s : Summaries) (deltas : List Delta) : Summaries :=
  match s.counting with
  | some c =>
    let below (ix : Indexed) : Bool := decide (keyOf ix.pg ix.entry < c.below)
    { s with counting := some (deltas.foldl (fun c d =>
        { c with
          removed := (d.1.filter below).elim c.removed (c.removed.add env)
          added := (d.2.filter below).elim c.added (c.added.add env) }) c) }
  | none =>
    { s with live := deltas.foldl (Sums.settle env) s.live }

def PgIndexed.write (env : PgEnv) (p : PgIndexed) (ops : List MetadataOp) : PgIndexed :=
  let (p, deltas) := p.writeStore env ops
  { p with summaries := p.summaries.settle env deltas }

def PgIndexed.summary (p : PgIndexed) (pg : PgId) : Summary := (p.summaries.live pg).getD {}

def rowEntry (env : PgEnv) (row : Bytes × Bytes) : Option Indexed :=
  (parseEntryKey row.1).bind (fun (pg, bucket, key, versionId) =>
    (env.decodeEntry row.2).map (fun e => ⟨pg, { e with bucket, key, versionId }⟩))

def countEntry (env : PgEnv) (sums : Sums) (row : Bytes × Bytes) : Sums :=
  (rowEntry env row).elim sums (sums.add env)

def recount (env : PgEnv) (store : OrdMap Bytes Bytes) : Sums :=
  (store.entries.filter (fun row => PG_PREFIX.isPrefixOf row.1)).foldl (countEntry env) (fun _ => none)

end IoLake.Osd
