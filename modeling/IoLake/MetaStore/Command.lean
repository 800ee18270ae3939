import IoLake.Lib.ByteFormat
import IoLake.Lib.CompareAndSet
import IoLake.Meta.ActingSets

/-!
# Commands of the replicated metadata

What a committed Raft log entry does to the tables of a meta node: `apply_command` into the transaction of an
apply batch, and `apply_to_state_machine`.  The rows of all tables are one map keyed by table name and row
key.  prost and the record encodings are `Records`.
-/

namespace IoLake.MetaStore

open ByteFormat Meta List OrdMap CompareAndSet

inductive CasTable where
  | buckets | bucketPolicies | icebergNamespaces | icebergTables | deltaShares | deltaTables
  | deltaRecipients | config | pools | tenants | iamPolicies | users | groups | accessKeys
  | icebergWarehouses | policyAttachments | dataFilters | multipartUploads | objectListings
  | placementGroups | unityCatalogs | unitySchemas | unityTables | unityFunctions | unityVolumes
  | unityModels | unityModelVersions
  | named (name : String)
deriving DecidableEq, Repr

def casTableName : CasTable → String
  | .buckets => "buckets"
  | .bucketPolicies => "bucket_policies"
  | .icebergNamespaces => "iceberg_namespaces"
  | .icebergTables => "iceberg_tables"
  | .deltaShares => "delta_shares"
  | .deltaTables => "delta_tables"
  | .deltaRecipients => "delta_recipients"
  | .config => "config"
  | .pools => "pools"
  | .tenants => "tenants"
  | .iamPolicies => "iam_policies"
  | .users => "users"
  | .groups => "groups"
  | .accessKeys => "access_keys"
  | .icebergWarehouses => "iceberg_warehouses"
  | .policyAttachments => "policy_attachments"
  | .dataFilters => "data_filters"
  | .multipartUploads => "multipart_uploads"
  | .objectListings => "object_listings"
  | .placementGroups => "placement_groups"
  | .unityCatalogs => "unity_catalogs"
  | .unitySchemas => "unity_schemas"
  | .unityTables => "unity_tables"
  | .unityFunctions => "unity_functions"
  | .unityVolumes => "unity_volumes"
  | .unityModels => "unity_models"
  | .unityModelVersions => "unity_model_versions"
  | .named n => n

/-- Raft's own tables: never written by a command. -/
def RAFT_TABLES : List String := ["raft_logs", "raft_vote", "raft_state"]

abbrev RowKey := String ×ₗ String

instance rowKeyLawfulBEq : LawfulBEq RowKey := inferInstance

def rowKey (table key : String) : RowKey := toLex (table, key)

abbrev Rows := OrdMap RowKey Bytes

/-! ## Commands -/

structure CasOp where
  table : CasTable
  key : String
  expected : Option Bytes
  newValue : Option Bytes
deriving DecidableEq, Repr

def CasOp.row (op : CasOp) : CompareAndSet.Op RowKey Bytes where
  key := rowKey (casTableName op.table) op.key
  expected := op.expected
  newValue := op.newValue

inductive MetaCommand where
  | setConfig (key : String) (value : Bytes) (updatedBy : String) (updatedAt : Nat)
  | deleteConfig (key : String)
  | setOsdAdminState (nodeId : Bytes) (state : OsdAdminState) (requestedBy : String)
  | multiCas (ops : List CasOp) (requestedBy : String)
  | batch (cmds : List MetaCommand)
deriving Repr

inductive MetaResponse where
  | ok
  | configSet (version : Nat)
  | configDeleted (existed : Bool)
  | osdAdminStateSet (changed found : Bool)
  | multiCasOk
  | multiCasConflict (failedIndices : List Nat)
  | batch (answers : List MetaResponse)
  | rejected (reason : String)
deriving Repr

def MAX_OPS : Nat := 256

def CasOp.refusal (op : CasOp) : Option String :=
  match op.table with
  | .named name =>
    if name = "" then some "a table with no name"
    else if RAFT_TABLES.contains name then some ("table " ++ name ++ " is Raft's own")
    else none
  | _ => none

/-- Why a command can never be applied, whatever the state. -/
def MetaCommand.refusal : MetaCommand → Option String
  | .multiCas ops _ =>
    if MAX_OPS < ops.length then
      some ("a compare-and-set of " ++ toString ops.length ++ " operations; at most " ++ toString MAX_OPS)
    else ops.findSome? CasOp.refusal
  | _ => none

structure ConfigEntry where
  key : String
  value : Bytes
  updatedAt : Nat
  updatedBy : String
  version : Nat
deriving DecidableEq, Repr

structure OsdRecord where
  adminState : OsdAdminState
  rest : Bytes
deriving DecidableEq, Repr

structure Records where
  encodeConfig : ConfigEntry → Bytes
  decodeOsd : Bytes → Except String OsdRecord
  encodeOsd : OsdRecord → Bytes

/-! ## Applying a command -/

inductive ApplyEvent where
  | multiCasOp (table : CasTable) (key : String) (newValue : Option Bytes)
  | snapshotInstalled
deriving DecidableEq, Repr

/-- A node's log id: the term and the node of the leader that proposed the entry, and its index. -/
structure LogId where
  term : Nat
  leader : Nat
  index : Nat
deriving DecidableEq, Repr

/-- What Raft keeps beside the tables; the members are named as the last membership entry has them. -/
structure RaftPersistentState where
  lastApplied : Option LogId := none
  membership : Option LogId × List Nat := (none, [])
  configVersion : Nat := 0
deriving DecidableEq, Repr

/-- What an apply batch's transaction sees: the rows, and the events to send once it commits. -/
structure Txn where
  rows : Rows
  configVersion : Nat
  events : List ApplyEvent := []
deriving DecidableEq

def CONFIG_VERSION : RowKey := rowKey "counters" "config_version"

def decodeCounter (b : Bytes) : Except String Nat :=
  if b.length = 8 then .ok (fromBE b)
  else .error ("decode counters: a counter of " ++ toString b.length ++ " bytes")

def storedCounter (rows : Rows) : Except String Nat :=
  match rows.get CONFIG_VERSION with
  | some b => decodeCounter b
  | none => .ok 0

def hexDigit (d : Nat) : Char := "0123456789abcdef".toList.getD d '0'

def hexEncode16 (id : Bytes) : String :=
  String.ofList (id.flatMap fun b => [hexDigit (b.toNat / 16), hexDigit (b.toNat % 16)])

def applyMultiCas (txn : Txn) (ops : List CasOp) : Txn × MetaResponse :=
  match failed txn.rows (ops.map CasOp.row) with
  | [] =>
    ({ txn with
        rows := write txn.rows (ops.map CasOp.row)
        events := txn.events ++ ops.map fun op => .multiCasOp op.table op.key op.newValue }, .multiCasOk)
  | failed => (txn, .multiCasConflict failed)

def applySetConfig (codec : Records) (txn : Txn) (key : String) (value : Bytes)
    (updatedBy : String) (updatedAt : Nat) : Except String (Txn × MetaResponse) :=
  match storedCounter txn.rows with
  | .error e => .error e
  | .ok stored =>
    -- A `u64` that wraps around.
    let version := (max stored txn.configVersion + 1) % 2 ^ 64
    let bytes := codec.encodeConfig ⟨key, value, updatedAt, updatedBy, version⟩
    .ok ({ rows := (txn.rows.insert CONFIG_VERSION (toBE 8 version)).insert (rowKey "config" key) bytes
           configVersion := version
           events := txn.events ++ [.multiCasOp .config key (some bytes)] }, .configSet version)

def applySetOsdAdminState (codec : Records) (txn : Txn) (nodeId : Bytes) (state : OsdAdminState) :
    Txn × MetaResponse :=
  let key := hexEncode16 nodeId
  match txn.rows.get (rowKey "osd_nodes" key) with
  | none => (txn, .osdAdminStateSet false false)
  | some bytes =>
    match codec.decodeOsd bytes with
    | .error e => (txn, .rejected ("OSD record " ++ key ++ " doesn't decode: " ++ e))
    | .ok node =>
      if node.adminState = state then (txn, .osdAdminStateSet false true)
      else
        let bytes := codec.encodeOsd { node with adminState := state }
        ({ txn with
            rows := txn.rows.insert (rowKey "osd_nodes" key) bytes
            events := txn.events ++ [.multiCasOp (.named "osd_nodes") key (some bytes)] },
          .osdAdminStateSet true true)

def applyOne (codec : Records) (txn : Txn) (cmd : MetaCommand) : Except String (Txn × MetaResponse) :=
  match cmd.refusal with
  | some reason => .ok (txn, .rejected reason)
  | none =>
    match cmd with
    | .setConfig key value updatedBy updatedAt =>
      applySetConfig codec txn key value updatedBy updatedAt
    | .deleteConfig key =>
      .ok ({ txn with
              rows := txn.rows.erase (rowKey "config" key)
              events := txn.events ++ [.multiCasOp .config key none] },
        .configDeleted (txn.rows.contains (rowKey "config" key)))
    | .setOsdAdminState nodeId state _ => .ok (applySetOsdAdminState codec txn nodeId state)
    | .multiCas ops _ => .ok (applyMultiCas txn ops)
    | .batch _ => .ok (txn, .rejected "a batch inside a batch")

def applyAll (codec : Records) : Txn → List MetaCommand → Except String (Txn × List MetaResponse)
  | txn, [] => .ok (txn, [])
  | txn, cmd :: cmds =>
    match applyOne codec txn cmd with
    | .error e => .error e
    | .ok (txn, answer) =>
      match applyAll codec txn cmds with
      | .error e => .error e
      | .ok (txn, answers) => .ok (txn, answer :: answers)

def applyCommand (codec : Records) (txn : Txn) : MetaCommand → Except String (Txn × MetaResponse)
  | .batch cmds =>
    match applyAll codec txn cmds with
    | .error e => .error e
    | .ok (txn, answers) => .ok (txn, .batch answers)
  | cmd => applyOne codec txn cmd

inductive EntryPayload where
  | blank
  | normal (cmd : MetaCommand)
  | membership (members : List Nat)
deriving Repr

structure Entry where
  logId : LogId
  payload : EntryPayload
deriving Repr

structure Database where
  rows : Rows := empty
  state : RaftPersistentState := {}
deriving DecidableEq

def applyEntry (codec : Records) (db : Database) (entry : Entry) :
    Except String (Database × MetaResponse × List ApplyEvent) :=
  match entry.payload with
  | .blank => .ok ({ db with state := { db.state with lastApplied := some entry.logId } }, .ok, [])
  | .normal cmd =>
    match applyCommand codec ⟨db.rows, db.state.configVersion, []⟩ cmd with
    | .error e => .error e
    | .ok (txn, answer) =>
      .ok ({ rows := txn.rows
             state := { db.state with
                        lastApplied := some entry.logId, configVersion := txn.configVersion } },
        answer, txn.events)
  | .membership members =>
    .ok ({ db with
            state := { db.state with
                       lastApplied := some entry.logId, membership := (some entry.logId, members) } },
      .ok, [])

def applyEntries (codec : Records) : Database → List Entry →
    Except String (Database × List MetaResponse × List ApplyEvent)
  | db, [] => .ok (db, [], [])
  | db, entry :: entries =>
    match applyEntry codec db entry with
    | .error e => .error e
    | .ok (db, answer, events) =>
      match applyEntries codec db entries with
      | .error e => .error e
      | .ok (db, answers, rest) => .ok (db, answer :: answers, events ++ rest)

variable {codec : Records}

/-- A batch applied in parts, so that **how the log is cut into batches makes no difference.** -/
theorem applyEntries_append : ∀ (entries entries' : List Entry) (db : Database),
    applyEntries codec db (entries ++ entries') = match applyEntries codec db entries with
      | .error e => .error e
      | .ok (db, answers, events) =>
        match applyEntries codec db entries' with
        | .error e => .error e
        | .ok (db, answers', events') => .ok (db, answers ++ answers', events ++ events')
  | [], entries', db => by
    rw [nil_append]
    simp only [applyEntries]
    cases applyEntries codec db entries' <;> rfl
  | entry :: entries, entries', db => by
    rw [cons_append, applyEntries, applyEntries]
    cases applyEntry codec db entry with
    | error e => rfl
    | ok r =>
      obtain ⟨db', answer, events⟩ := r
      dsimp only
      rw [applyEntries_append entries entries' db']
      cases applyEntries codec db' entries with
      | error e => rfl
      | ok r =>
        obtain ⟨db'', answers, events'⟩ := r
        dsimp only
        cases applyEntries codec db'' entries' with
        | error e => rfl
        | ok r => simp only [cons_append, append_assoc]

/-! ## The config counter -/

def MetaCommand.oneSpares : MetaCommand → Bool
  | .multiCas ops _ => ops.all fun op => op.row.key ≠ CONFIG_VERSION
  | _ => true

def MetaCommand.sparesCounter : MetaCommand → Bool
  | .batch cmds => cmds.all MetaCommand.oneSpares
  | cmd => cmd.oneSpares

def Entry.sparesCounter (entry : Entry) : Bool :=
  match entry.payload with
  | .normal cmd => cmd.sparesCounter
  | _ => true

def CounterKept (rows : Rows) (configVersion : Nat) : Prop :=
  storedCounter rows = .ok configVersion

theorem decodeCounter_toBE {v : Nat} (h : v < 2 ^ 64) : decodeCounter (toBE 8 v) = .ok v := by
  have hmod : v % 256 ^ 8 = v := Nat.mod_eq_of_lt h
  rw [decodeCounter, if_pos (length_toBE 8 v), fromBE_toBE, hmod]

theorem rowKey_ne {t t' : String} (h : t ≠ t') (k k' : String) : rowKey t k ≠ rowKey t' k' := by
  intro heq
  exact h (congrArg (fun r : RowKey => (ofLex r).1) heq)

theorem configVersion_ne {t : String} (h : "counters" ≠ t) (k : String) : CONFIG_VERSION ≠ rowKey t k :=
  rowKey_ne h _ _

structure CounterStep (txn txn' : Txn) : Prop where
  keeps : CounterKept txn.rows txn.configVersion → CounterKept txn'.rows txn'.configVersion
  stays : (txn.rows.get CONFIG_VERSION).isSome → (txn'.rows.get CONFIG_VERSION).isSome

variable {txn txn' : Txn} {answer : MetaResponse}

theorem CounterStep.of_same (hrow : txn'.rows.get CONFIG_VERSION = txn.rows.get CONFIG_VERSION)
    (hversion : txn'.configVersion = txn.configVersion) : CounterStep txn txn' := by
  refine ⟨fun h => ?_, fun h => ?_⟩
  · rw [CounterKept, storedCounter, hrow, hversion]
    exact h
  · rw [hrow]
    exact h

theorem CounterStep.refl (txn : Txn) : CounterStep txn txn := .of_same rfl rfl

theorem CounterStep.trans {txn'' : Txn} (h : CounterStep txn txn')
    (h' : CounterStep txn' txn'') : CounterStep txn txn'' :=
  ⟨fun hk => h'.keeps (h.keeps hk), fun hs => h'.stays (h.stays hs)⟩

theorem counterStep_setConfig {key : String} {value : Bytes} {updatedBy : String} {updatedAt : Nat}
    (h : applySetConfig codec txn key value updatedBy updatedAt = .ok (txn', answer)) :
    CounterStep txn txn' := by
  unfold applySetConfig at h
  split at h
  · cases h
  rename_i stored hstored
  cases h
  have hne : CONFIG_VERSION ≠ rowKey "config" key := configVersion_ne (by decide) _
  have hrow : ((txn.rows.insert CONFIG_VERSION
      (toBE 8 ((max stored txn.configVersion + 1) % 2 ^ 64))).insert (rowKey "config" key)
        (codec.encodeConfig ⟨key, value, updatedAt, updatedBy,
          (max stored txn.configVersion + 1) % 2 ^ 64⟩)).get CONFIG_VERSION =
        some (toBE 8 ((max stored txn.configVersion + 1) % 2 ^ 64)) := by
    rw [get_insert, if_neg hne, get_insert_self]
  refine ⟨fun _ => ?_, fun _ => ?_⟩
  · rw [CounterKept, storedCounter]
    dsimp only
    rw [hrow]
    exact decodeCounter_toBE (Nat.mod_lt _ (by decide))
  · dsimp only
    rw [hrow]
    rfl

theorem counterStep_multiCas (txn : Txn) {ops : List CasOp}
    (hspares : (ops.all fun op => op.row.key ≠ CONFIG_VERSION) = true) :
    CounterStep txn (applyMultiCas txn ops).1 := by
  unfold applyMultiCas
  split
  · refine .of_same (get_write_of_notMem fun hmem => ?_) rfl
    rw [map_map] at hmem
    obtain ⟨op, hop, hkey⟩ := mem_map.1 hmem
    exact of_decide_eq_true (all_eq_true.1 hspares op hop) hkey
  · exact .refl txn

theorem counterStep_setOsdAdminState (codec : Records) (txn : Txn) (nodeId : Bytes)
    (state : OsdAdminState) : CounterStep txn (applySetOsdAdminState codec txn nodeId state).1 := by
  unfold applySetOsdAdminState
  dsimp only
  split
  · exact .refl txn
  · split
    · exact .refl txn
    · split
      · exact .refl txn
      · refine .of_same ?_ rfl
        dsimp only
        rw [get_insert, if_neg (configVersion_ne (by decide) _)]

theorem counterStep_one {cmd : MetaCommand}
    (hspares : cmd.oneSpares = true) (h : applyOne codec txn cmd = .ok (txn', answer)) :
    CounterStep txn txn' := by
  unfold applyOne at h
  split at h
  · cases h
    exact .refl txn
  cases cmd with
  | setConfig key value updatedBy updatedAt => exact counterStep_setConfig h
  | deleteConfig key =>
    cases h
    refine .of_same ?_ rfl
    dsimp only
    rw [get_erase, if_neg (configVersion_ne (by decide) _)]
  | setOsdAdminState nodeId state by_ =>
    have hstep := counterStep_setOsdAdminState codec txn nodeId state
    rw [Except.ok.inj h] at hstep
    exact hstep
  | multiCas ops by_ =>
    have hstep := counterStep_multiCas txn hspares
    rw [Except.ok.inj h] at hstep
    exact hstep
  | batch cmds =>
    cases h
    exact .refl txn

theorem counterStep_all : ∀ {cmds : List MetaCommand} {txn txn' : Txn} {answers : List MetaResponse},
    cmds.all MetaCommand.oneSpares = true → applyAll codec txn cmds = .ok (txn', answers) →
    CounterStep txn txn'
  | [], txn, txn', answers, _, h => by
    cases h
    exact .refl txn
  | cmd :: cmds, txn, txn', answers, hspares, h => by
    unfold applyAll at h
    split at h
    · cases h
    rename_i mid answer hone
    split at h
    · cases h
    rename_i last rest hall
    cases h
    rw [all_cons, Bool.and_eq_true] at hspares
    exact (counterStep_one hspares.1 hone).trans (counterStep_all hspares.2 hall)

theorem counterStep_command {cmd : MetaCommand}
    (hspares : cmd.sparesCounter = true) (h : applyCommand codec txn cmd = .ok (txn', answer)) :
    CounterStep txn txn' := by
  unfold MetaCommand.sparesCounter at hspares
  unfold applyCommand at h
  split at h
  · split at h
    · cases h
    rename_i hall
    cases h
    exact counterStep_all hspares hall
  · rename_i hbatch
    split at hspares
    · exact absurd rfl (hbatch _)
    · exact counterStep_one hspares h

/-- The config counter of the tables and the one Raft keeps agree, under commands that leave the counter's
row alone. -/
theorem counter_applyEntries : ∀ {entries : List Entry} {db db' : Database}
    {answers : List MetaResponse} {events : List ApplyEvent}, (entries.all Entry.sparesCounter) = true →
    applyEntries codec db entries = .ok (db', answers, events) →
    CounterStep ⟨db.rows, db.state.configVersion, []⟩ ⟨db'.rows, db'.state.configVersion, []⟩
  | [], db, db', answers, events, _, h => by
    cases h
    exact .refl _
  | entry :: entries, db, db', answers, events, hspares, h => by
    unfold applyEntries at h
    split at h
    · cases h
    rename_i mid answer evs hentry
    split at h
    · cases h
    rename_i last rest evs' hrest
    cases h
    rw [all_cons, Bool.and_eq_true] at hspares
    refine CounterStep.trans ?_ (counter_applyEntries hspares.2 hrest)
    have hfirst := hspares.1
    unfold Entry.sparesCounter at hfirst
    unfold applyEntry at hentry
    split at hentry
    · cases hentry
      exact .refl _
    · rename_i cmd hpayload
      rw [hpayload] at hfirst
      split at hentry
      · cases hentry
      rename_i txn answer' hcmd
      cases hentry
      have hstep := counterStep_command hfirst hcmd
      exact ⟨hstep.keeps, hstep.stays⟩
    · cases hentry
      exact .refl _

theorem lastApplied_applyEntries : ∀ {entries : List Entry} {db db' : Database}
    {answers : List MetaResponse} {events : List ApplyEvent},
    applyEntries codec db entries = .ok (db', answers, events) →
    db'.state.lastApplied = (entries.getLast?.map Entry.logId).or db.state.lastApplied ∧
      answers.length = entries.length
  | [], db, db', answers, events, h => by
    cases h
    exact ⟨rfl, rfl⟩
  | entry :: entries, db, db', answers, events, h => by
    unfold applyEntries at h
    split at h
    · cases h
    rename_i mid answer evs hentry
    split at h
    · cases h
    rename_i last rest evs' hrest
    cases h
    obtain ⟨hlast, hlen⟩ := lastApplied_applyEntries hrest
    have hmid : mid.state.lastApplied = some entry.logId := by
      unfold applyEntry at hentry
      split at hentry
      · cases hentry
        rfl
      · split at hentry
        · cases hentry
        · cases hentry
          rfl
      · cases hentry
        rfl
    refine ⟨?_, by rw [length_cons, length_cons, hlen]⟩
    rw [hlast, hmid]
    cases entries with
    | nil => rfl
    | cons e es => rw [getLast?_cons_cons, getLast?_eq_some_getLast (cons_ne_nil e es)]; rfl

end IoLake.MetaStore
