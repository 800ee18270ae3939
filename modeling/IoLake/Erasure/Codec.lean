import IoLake.Lib.XorParity

/-!
# The erasure codec

`ErasureCodec::encode` and `decode` with their two backends: a maximum distance separable code, and the
layered code whose local parity is the exclusive or of a group and whose global parity is a Reed-Solomon code
over all the data.  The code libraries are parameters.
-/

namespace IoLake.Erasure

open XorParity List

abbrev Shard := List UInt8

abbrev MAX_SHARDS : Nat := 255

def isMds (dataShards parityShards : Nat) : Bool :=
  if dataShards = 0 ∨ parityShards = 0 ∨ dataShards + parityShards > MAX_SHARDS then false
  else
    let fewer := if dataShards < parityShards then dataShards else parityShards
    let more := if dataShards < parityShards then parityShards else dataShards
    fewer ≤ 3 || (fewer == 4 && more ≤ 21) || (fewer == 5 && more == 5)

def checkMds (k m : Nat) : Except String Unit :=
  if k = 0 ∨ k + m > MAX_SHARDS then
    .error (toString k ++ "+" ++ toString m ++
      " is not an erasure code: k is at least 1 and k+m at most " ++ toString MAX_SHARDS)
  else if m = 0 then
    .error (toString k ++ "+0 has no parity: one lost shard loses the object. One unprotected copy " ++
      "of each object is replication with 1 copy (meta: --replication 1); erasure " ++
      "coding has m at least 1")
  else if !isMds k m then
    .error (toString k ++ "+" ++ toString m ++ " can't rebuild its data after every loss of " ++
      toString m ++ " shards. MDS profiles: " ++
      "up to 3 parity shards with any k, 4 with k up to 21, and 5+5 (or, the other " ++
      "way round, k up to 3 with any m, k = 4 with m up to 21)")
  else .ok ()

def checkLrc (k l g : Nat) : Except String Unit :=
  let name := "LRC " ++ toString k ++ "+" ++ toString l ++ "+" ++ toString g
  if k = 0 ∨ l = 0 ∨ g = 0 then
    .error (name ++ ": data shards (k), local groups (l) and global parity (g) are " ++ "each at least 1")
  else if k % l ≠ 0 then
    .error (name ++ ": " ++ toString k ++ " data shards don't split into " ++ toString l ++
      " local groups of one size (k is a multiple of l)")
  else if k + l + g > MAX_SHARDS then
    .error (name ++ ": " ++ toString (k + l + g) ++ " shards, at most " ++ toString MAX_SHARDS)
  else .ok ()

def checkReplicas (n : Nat) : Except String Unit :=
  if n = 0 ∨ n > MAX_SHARDS then
    .error (toString n ++ " copies: replication keeps from 1 to " ++ toString MAX_SHARDS ++
      " copies of each object")
  else .ok ()

/-! ## The code libraries -/

inductive ErasureError where
  | invalidConfig (why : String)
  | decodingFailed (why : String)
  | insufficientShards (available required : Nat)
deriving DecidableEq, Repr

def ErasureError.message : ErasureError → String
  | .invalidConfig why => "invalid configuration: " ++ why
  | .decodingFailed why => "decoding failed: " ++ why
  | .insufficientShards available required =>
    "insufficient shards: have " ++ toString available ++ ", need " ++ toString required

def present (shards : List (Option Shard)) : Nat := shards.countP Option.isSome

def Holds (shards : List (Option Shard)) (stripe : List Shard) : Prop :=
  shards.length = stripe.length ∧ ∀ (i : Nat) (s : Shard), shards[i]? = some (some s) → stripe[i]? = some s

/-- A systematic code of `k` data and `m` parity shards: the parity of data shards, and the stripe (data
first) from the shards left. -/
structure MdsCode where
  parity : Nat → Nat → List Shard → List Shard
  decode : Nat → Nat → List (Option Shard) → Nat → List Nat → Except ErasureError (List Shard)

def ShardSize (size : Nat) : Prop := 0 < size ∧ 64 ∣ size

/-- What the code promises of an allowed `k+m` profile: any `k` shards of a stripe rebuild it. -/
structure MdsCode.Lawful (code : MdsCode) (k m : Nat) : Prop where
  parity_length : ∀ {data : List Shard}, data.length = k → (code.parity k m data).length = m
  parity_size : ∀ {data : List Shard} {size : Nat}, data.length = k →
    (∀ s ∈ data, s.length = size) → ∀ s ∈ code.parity k m data, s.length = size
  decode_any : ∀ {data : List Shard} {size : Nat} {shards : List (Option Shard)}
      {missing : List Nat},
    isMds k m = true → ShardSize size → data.length = k → (∀ s ∈ data, s.length = size) →
      Holds shards (data ++ code.parity k m data) → k ≤ present shards →
        (∀ i, i ∈ missing ↔ shards[i]? = some none) →
          ∃ out, code.decode k m shards size missing = .ok out ∧ k ≤ out.length ∧ out.take k = data

/-- A Reed-Solomon code of `k` original and `g` recovery shards: the recovery shards, and the originals
missing. -/
structure ReedSolomon where
  recovery : Nat → Nat → List Shard → List Shard
  decode : Nat → Nat → Nat → List (Option Shard) → List (Option Shard) → Except String (Nat → Option Shard)

/-- What the code promises of `k` originals and `g` recovery shards: any `k` of them restore the
originals missing. -/
structure ReedSolomon.Lawful (code : ReedSolomon) (k g : Nat) : Prop where
  recovery_length : ∀ {data : List Shard}, data.length = k → (code.recovery k g data).length = g
  recovery_size : ∀ {data : List Shard} {size : Nat}, data.length = k →
    (∀ s ∈ data, s.length = size) → ∀ s ∈ code.recovery k g data, s.length = size
  decode_any : ∀ {data : List Shard} {size : Nat} {originals recovery : List (Option Shard)},
    ShardSize size → data.length = k → (∀ s ∈ data, s.length = size) → Holds originals data →
      Holds recovery (code.recovery k g data) → k ≤ present originals + present recovery →
        ∃ restored, code.decode k g size originals recovery = .ok restored ∧
          ∀ i, originals[i]? = some none → restored i = data[i]?

/-! ## The layered backend -/

structure LrcConfig where
  dataShards : Nat
  localParityShards : Nat
  globalParityShards : Nat
deriving DecidableEq, Repr

namespace LrcConfig

def localGroupSize (c : LrcConfig) : Nat := c.dataShards / c.localParityShards

def total (c : LrcConfig) : Nat := c.dataShards + c.localParityShards + c.globalParityShards

structure LocalGroup where
  dataShardIndices : List Nat
  localParityIndex : Nat

section
variable (c : LrcConfig) (rs : ReedSolomon) (data : List Shard) (shards : List (Option Shard)) (size : Nat)

def localGroup (shardIndex : Nat) : Option LocalGroup :=
  if shardIndex ≥ c.dataShards + c.localParityShards then none
  else
    let groupIndex :=
      if shardIndex < c.dataShards then shardIndex / c.localGroupSize else shardIndex - c.dataShards
    some
      { dataShardIndices :=
          (range c.localGroupSize).map (groupIndex * c.localGroupSize + ·)
        localParityIndex := c.dataShards + groupIndex }

def groupData (g : Nat) : List Shard :=
  (data.drop (g * c.localGroupSize)).take c.localGroupSize

def encodeLrc : List Shard :=
  data ++ (range c.localParityShards).map (fun g => xorAll (c.groupData data g) size) ++
    rs.recovery c.dataShards c.globalParityShards data

def decodeLocal (missing : Nat) : Option Shard :=
  match c.localGroup missing with
  | none => none
  | some group =>
    let others := group.dataShardIndices.filter (fun i => i ≠ missing)
    if others.all (fun i => (shards[i]?.join).isSome) ∧ (shards[group.localParityIndex]?.join).isSome then
      some (xorAll ((others ++ [group.localParityIndex]).filterMap (fun i => shards[i]?.join)) size)
    else none

def decodeGlobal (originals recovery : List (Option Shard))
    (size : Nat) (missing : List Nat) : Except ErasureError (List Shard) :=
  let available := present originals + present recovery
  if available < c.dataShards then .error (.insufficientShards available c.dataShards)
  else
    match rs.decode c.dataShards c.globalParityShards size originals recovery with
    | .error why => .error (.decodingFailed why)
    | .ok restored =>
      match missing.find? (fun i => ¬ (i < c.dataShards ∧ (restored i).isSome)) with
      | some i =>
        .error (.decodingFailed (if i < c.dataShards then "failed to restore shard " ++ toString i
          else "cannot restore non-data shard " ++ toString i ++ " via global recovery"))
      | none => .ok (missing.filterMap restored)

def decode
    (missing : List Nat) : Except ErasureError (List Shard) :=
  if shards.length ≠ c.total then
    .error (.invalidConfig ("expected " ++ toString c.total ++ " shards, got " ++ toString shards.length))
  else
    let reconstructed := missing.filterMap (c.decodeLocal shards size)
    let remaining := missing.filter (fun i => (c.decodeLocal shards size i).isNone)
    if remaining.isEmpty then .ok reconstructed
    else
      (c.decodeGlobal rs (shards.take c.dataShards)
        ((shards.drop (c.dataShards + c.localParityShards)).take c.globalParityShards) size
        remaining).map (reconstructed ++ ·)

def localPass (c : LrcConfig) (size : Nat) : List Nat → List (Option Shard) → List (Option Shard)
  | [], refs => refs
  | i :: missing, refs =>
    match c.decodeLocal refs size i with
    | some shard => c.localPass size missing (refs.set i (some shard))
    | none => c.localPass size missing refs

def globalPass (still : List Nat)
    (refs : List (Option Shard)) : Except ErasureError (List (Option Shard)) :=
  if still.isEmpty then .ok refs
  else
    match c.decode rs refs size still with
    | .error e => .error (.decodingFailed e.message)
    | .ok global => .ok ((still.zip global).foldl (fun refs r => refs.set r.1 (some r.2)) refs)

def rebuild (missing : List Nat)
    (shards : List (Option Shard)) : Except ErasureError (List Shard) :=
  let refs := c.localPass size (missing.filter (fun i => i < c.dataShards)) shards
  let still := (range c.dataShards).filter (fun i => refs[i]? = some none)
  match c.globalPass rs size still refs with
  | .error e => .error e
  | .ok refs =>
    match (range c.dataShards).find? (fun i => (refs[i]?.join).isNone) with
    | some i => .error (.decodingFailed ("data shard " ++ toString i ++ " not rebuilt"))
    | none => .ok ((refs.take c.dataShards).filterMap id)

end

end LrcConfig

/-! ## The codec -/

inductive Backend where
  | mds (k m : Nat)
  | lrc (config : LrcConfig)
deriving DecidableEq, Repr

structure ErasureCodec where
  mdsCode : MdsCode
  reedSolomon : ReedSolomon
  backend : Backend

namespace ErasureCodec

def dataShards (codec : ErasureCodec) : Nat :=
  match codec.backend with
  | .mds k _ => k
  | .lrc c => c.dataShards

section
variable (codec : ErasureCodec) (shards : List (Option Shard))

def totalShards : Nat :=
  match codec.backend with
  | .mds k m => k + m
  | .lrc c => c.total

/-- Bytes per shard of `len` bytes over `k` data shards: a multiple of 64, and at least 64. -/
def shardSizeFor (len k : Nat) : Nat := max (((len + k - 1) / k + 63) / 64 * 64) 64

def splitShards (size : Nat) : Nat → List UInt8 → List Shard
  | 0, _ => []
  | k + 1, padded => padded.take size :: splitShards size k (padded.drop size)

def dataShardsOf (data : List UInt8) : List Shard :=
  let size := shardSizeFor data.length codec.dataShards
  splitShards size codec.dataShards
    (data ++ replicate (size * codec.dataShards - data.length) 0)

def encode (data : List UInt8) : List Shard :=
  let size := shardSizeFor data.length codec.dataShards
  let shards := codec.dataShardsOf data
  match codec.backend with
  | .mds k m => shards ++ codec.mdsCode.parity k m shards
  | .lrc c => c.encodeLrc codec.reedSolomon shards size

def dataPresent : Bool :=
  codec.dataShards ≤ shards.length && (shards.take codec.dataShards).all Option.isSome

def joinData (shards : List Shard) (originalSize : Nat) : List UInt8 :=
  shards.flatten.take originalSize

def rebuildData : Except ErasureError (List Shard) :=
  let k := codec.dataShards
  if shards.length ≠ codec.totalShards then
    .error (.invalidConfig ("expected " ++ toString codec.totalShards ++ " shard slots, got " ++
      toString shards.length))
  else if present shards < k then .error (.insufficientShards (present shards) k)
  else
    match shards.findSome? id with
    | none => .error (.insufficientShards 0 k)
    | some first =>
      let size := first.length
      if codec.dataPresent shards then .ok ((shards.take k).filterMap id)
      else
        let missing := (range shards.length).filter (fun i => shards[i]? = some none)
        match codec.backend with
        | .mds k m =>
          match codec.mdsCode.decode k m shards size missing with
          | .error e => .error (.decodingFailed e.message)
          | .ok decoded =>
            if decoded.length < k then
              .error (.decodingFailed ("decode returned " ++ toString decoded.length ++
                " shards, need the " ++ toString k ++ " data shards"))
            else .ok (decoded.take k)
        | .lrc c => c.rebuild codec.reedSolomon size missing shards

def decode (originalSize : Nat) :
    Except ErasureError (List UInt8) :=
  if codec.dataPresent shards then
    .ok (joinData ((shards.take codec.dataShards).filterMap id) originalSize)
  else
    match codec.rebuildData shards with
    | .error e => .error e
    | .ok data => .ok (joinData data originalSize)

end

end ErasureCodec

end IoLake.Erasure
