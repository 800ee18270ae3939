import IoLake.Lib.Overwrites
import IoLake.MetaStore.Replicas

/-!
# The caches of a meta node

The meta service answers from maps in memory, one per table.  Three things write them: the listener of the
node's apply events (`spawn_apply_listener`), which refreshes some of the tables; a request, once its command
is committed; and the load of every map from the tables, at a start and when a snapshot was installed.

A node's maps are one map keyed like the rows.  A group commit's batch is its commands one after another, so
that here an entry of the log has one command.
-/

namespace IoLake.Meta.Caches

open ByteFormat MetaStore Overwrites List Option Function OrdMap CompareAndSet

/-! ## What the maps hold -/

structure PlacementGroup where
  pool : String
  pgId : Nat
  rest : Bytes
deriving DecidableEq, Repr

inductive Cached (R : Type) where
  | policy (p : PolicyObject)
  | attachments (names : List Bytes)
  | placementGroup (pg : PlacementGroup)
  | raw (row : Bytes)
  | record (r : R)
deriving DecidableEq, Repr

/-- The encodings of records: policies, placement groups, and the records of every other table. -/
structure Decoders (R : Type) where
  policies : Policies
  placementGroup : Bytes → Option PlacementGroup
  record : String → Bytes → Option R
  encodeStripeRefs : R → Bytes

/-- `block_meta::TABLES`. -/
def BLOCK_TABLES : List String :=
  ["block_volumes", "block_volume_names", "block_chunks", "block_snapshots", "block_snapshot_chunks"]

def COMMA : UInt8 := 0x2C

def splitNames (csv : Bytes) : List Bytes := (csv.splitOn COMMA).filter fun name => !name.isEmpty

def joinNames (names : List Bytes) : Bytes := [COMMA].intercalate names

variable {R : Type}

def Decoders.decode (d : Decoders R) (table : String) (b : Bytes) : Option (Cached R) :=
  if table = "iam_policies" then (d.policies.decode b).map .policy
  else if table = "policy_attachments" then some (.attachments (splitNames b))
  else if table = "placement_groups" then (d.placementGroup b).map .placementGroup
  else if table ∈ BLOCK_TABLES then some (.raw b)
  else (d.record table b).map .record

abbrev Cache (R : Type) := RowKey → Option (Cached R)

def tableOf (k : RowKey) : String := (ofLex k).1

def keyOf (k : RowKey) : String := (ofLex k).2

def Decoders.row (d : Decoders R) (rows : Rows) (k : RowKey) : Option (Cached R) :=
  (rows.get k).bind (d.decode (tableOf k))

def CACHED : List String :=
  ["buckets", "bucket_policies", "multipart_uploads", "osd_nodes", "users", "access_keys", "groups",
    "data_filters", "iceberg_namespaces", "iceberg_tables", "delta_shares", "delta_tables",
    "delta_recipients", "config", "pools", "tenants", "iceberg_warehouses", "unity_catalogs",
    "unity_schemas", "unity_tables", "unity_functions", "unity_volumes", "unity_models",
    "unity_model_versions", "placement_groups", "stripe_refs", "object_lock_configs",
    "lifecycle_configs", "bucket_encryption_configs", "kms_keys", "iam_policies",
    "policy_attachments"] ++ BLOCK_TABLES

/-! ## The listener -/

section
variable (d : Decoders R) (table : String) (cache : Cache R) (key : String) (v : Option Bytes)

/-- What a row's new value puts into its table's map; a value that doesn't decode leaves the entry. -/
def Decoders.put : Option Bytes → Option (Option (Cached R))
  | some b => (d.decode table b).map some
  | none => some none

def refresh : Cache R :=
  match d.put table v with
  | some x => update cache (rowKey table key) x
  | none => cache

def configRows (bucket : String) : List RowKey :=
  [rowKey "bucket_policies" bucket, rowKey "object_lock_configs" bucket,
    rowKey "lifecycle_configs" bucket, rowKey "bucket_encryption_configs" bucket]

def forgetBucketConfig (bucket : String) : Cache R :=
  fun k => if k ∈ configRows bucket then none else cache k

def applyBucketEvent : Cache R :=
  match v with
  | some b => refresh d "buckets" cache key (some b)
  | none => forgetBucketConfig (refresh d "buckets" cache key none) key

def parseU32 (s : List Char) : Option Nat :=
  let digits := if s.head? = some '+' then s.tail else s
  if digits ≠ [] ∧ digits.all (fun c => '0' ≤ c ∧ c ≤ '9') then
    let n := digits.foldl (fun n c => 10 * n + (c.toNat - '0'.toNat)) 0
    if n < 2 ^ 32 then some n else none
  else none

def parsePgKey : Option (String × Nat) :=
  match key.toList.span (· ≠ '\x00') with
  | (_, []) => none
  | (pool, _ :: tail) => (parseU32 tail).map fun pgId => (String.ofList pool, pgId)

def pgKey (pool : String) (pgId : Nat) : String :=
  let digits := Nat.toDigits 10 pgId
  pool ++ "\x00" ++ String.ofList (replicate (10 - digits.length) '0' ++ digits)

def applyPlacementGroupEvent : Cache R :=
  match parsePgKey key with
  | none => cache
  | some (pool, pgId) => refresh d "placement_groups" cache (pgKey pool pgId) v

/-- What the listener makes of a row's event; the tables of the last line have no handler. -/
def handle (table : CasTable) (key : String) (v : Option Bytes) :
    Cache R :=
  match table with
  | .buckets => applyBucketEvent d cache key v
  | .bucketPolicies => refresh d "bucket_policies" cache key v
  | .users => refresh d "users" cache key v
  | .accessKeys => refresh d "access_keys" cache key v
  | .icebergTables => refresh d "iceberg_tables" cache key v
  | .icebergNamespaces => refresh d "iceberg_namespaces" cache key v
  | .icebergWarehouses => refresh d "iceberg_warehouses" cache key v
  | .unityCatalogs => refresh d "unity_catalogs" cache key v
  | .unitySchemas => refresh d "unity_schemas" cache key v
  | .unityTables => refresh d "unity_tables" cache key v
  | .unityFunctions => refresh d "unity_functions" cache key v
  | .unityVolumes => refresh d "unity_volumes" cache key v
  | .unityModels => refresh d "unity_models" cache key v
  | .unityModelVersions => refresh d "unity_model_versions" cache key v
  | .placementGroups => applyPlacementGroupEvent d cache key v
  | .pools => refresh d "pools" cache key v
  | .config => refresh d "config" cache key v
  | .tenants => refresh d "tenants" cache key v
  | .named t =>
    if t ∈ ["stripe_refs", "osd_nodes", "kms_keys", "multipart_uploads"] ∨ t ∈ BLOCK_TABLES then
      refresh d t cache key v
    else cache
  | .deltaShares | .deltaTables | .deltaRecipients | .iamPolicies | .groups | .policyAttachments
  | .dataFilters | .multipartUploads | .objectListings => cache

def listened : CasTable → Bool
  | .named t => ["stripe_refs", "osd_nodes", "kms_keys", "multipart_uploads"].contains t ||
      BLOCK_TABLES.contains t
  | .deltaShares | .deltaTables | .deltaRecipients | .iamPolicies | .groups | .policyAttachments
  | .dataFilters | .multipartUploads | .objectListings => false
  | _ => true

def wellKeyed (table : CasTable) (key : String) : Bool :=
  match table with
  | .placementGroups =>
    match parsePgKey key with
    | some (pool, pgId) => pgKey pool pgId == key
    | none => false
  | _ => true

def cacheEffect (k : RowKey) : ApplyEvent → Option (Option (Cached R))
  | .multiCasOp table key v =>
    if listened table = true ∧ rowKey (casTableName table) key = k then d.put (casTableName table) v
    else if table = .buckets ∧ v = none ∧ k ∈ configRows key then some none
    else none
  | .snapshotInstalled => none

end

variable (d : Decoders R)

theorem refresh_apply (table : String) (cache : Cache R) (key : String) (v : Option Bytes) (k : RowKey) :
    refresh d table cache key v k =
      (if rowKey table key = k then d.put table v else none).getD (cache k) := by
  unfold refresh
  by_cases hk : rowKey table key = k
  · subst hk
    rw [if_pos rfl]
    cases d.put table v with
    | none => rfl
    | some x => exact update_self ..
  · rw [if_neg hk]
    cases d.put table v with
    | none => rfl
    | some x => exact update_of_ne (Ne.symm hk) _ _

variable {table : CasTable} {key : String} {k : RowKey} {b : Bytes} {now : Nat}

theorem cacheEffect_row (hl : listened table = true) (key : String) (v : Option Bytes) :
    cacheEffect d (rowKey (casTableName table) key) (.multiCasOp table key v) =
      d.put (casTableName table) v :=
  if_pos ⟨hl, rfl⟩

theorem cacheEffect_of_ne {v : Option Bytes}
    (hk : listened table = true → rowKey (casTableName table) key ≠ k) :
    cacheEffect d k (.multiCasOp table key v) =
      if table = .buckets ∧ v = none ∧ k ∈ configRows key then some none else none :=
  if_neg fun h => hk h.1 h.2

theorem refresh_effect (hl : listened table = true)
    (hb : table ≠ .buckets) (cache : Cache R) (key : String) (v : Option Bytes) (k : RowKey) :
    refresh d (casTableName table) cache key v k =
      (cacheEffect d k (.multiCasOp table key v)).getD (cache k) := by
  rw [refresh_apply]
  congr 1
  by_cases hk : rowKey (casTableName table) key = k
  · subst hk
    rw [if_pos rfl, cacheEffect_row d hl]
  · rw [if_neg hk, cacheEffect_of_ne d fun _ => hk, if_neg fun h => hb h.1]

theorem not_mem_configRows (bucket bucket' : String) : rowKey "buckets" bucket ∉ configRows bucket' := by
  intro hmem
  have htable : "buckets" ∈ (configRows bucket').map tableOf := mem_map_of_mem hmem
  exact absurd (show "buckets" ∈ ["bucket_policies", "object_lock_configs", "lifecycle_configs",
    "bucket_encryption_configs"] from htable) (by decide)

variable (cache : Cache R)

theorem applyBucketEvent_effect (key : String) (v : Option Bytes)
    (k : RowKey) : applyBucketEvent d cache key v k =
      (cacheEffect d k (.multiCasOp .buckets key v)).getD (cache k) := by
  have hforget : forgetBucketConfig (refresh d "buckets" cache key none) key k =
      if k ∈ configRows key then none else refresh d "buckets" cache key none k := rfl
  by_cases hk : rowKey "buckets" key = k
  · subst hk
    have heffect : cacheEffect d (rowKey "buckets" key) (.multiCasOp .buckets key v) =
      d.put "buckets" v := cacheEffect_row d rfl key v
    rw [heffect]
    unfold applyBucketEvent
    cases v with
    | some b =>
      dsimp only
      rw [refresh_apply, if_pos rfl]
    | none =>
      dsimp only
      rw [hforget, if_neg (not_mem_configRows key key), refresh_apply, if_pos rfl]
  · have heffect : cacheEffect d k (.multiCasOp .buckets key v) =
        if v = none ∧ k ∈ configRows key then some none else none := by
      have hne : listened .buckets = true → rowKey (casTableName .buckets) key ≠ k := fun _ => hk
      rw [cacheEffect_of_ne d hne]
      simp
    rw [heffect]
    unfold applyBucketEvent
    cases v with
    | some b =>
      dsimp only
      rw [refresh_apply, if_neg hk, if_neg (by simp)]
    | none =>
      dsimp only
      rw [hforget]
      by_cases hconf : k ∈ configRows key
      · rw [if_pos hconf, if_pos ⟨rfl, hconf⟩]
        rfl
      · rw [if_neg hconf, refresh_apply, if_neg hk, if_neg fun h => hconf h.2]

theorem unheard_effect (hl : listened table = false)
    (hb : table ≠ .buckets) (cache : Cache R) (key : String) (v : Option Bytes) (k : RowKey) :
    cache k = (cacheEffect d k (.multiCasOp table key v)).getD (cache k) := by
  have hk : listened table = true → rowKey (casTableName table) key ≠ k := by
    intro h
    rw [hl] at h
    cases h
  rw [cacheEffect_of_ne d hk, if_neg fun h => hb h.1]
  rfl

theorem handle_unheard (hl : listened table = false) (key : String) (v : Option Bytes) :
    handle d cache table key v = cache := by
  cases table with
  | named t =>
    refine if_neg fun hin => ?_
    have : listened (.named t) = true := by simpa [listened] using hin
    rw [hl] at this
    cases this
  | _ => first | rfl | cases hl

theorem handle_common (hl : listened table = true) (hb : table ≠ .buckets) (hpg : table ≠ .placementGroups)
    (key : String) (v : Option Bytes) :
    handle d cache table key v = refresh d (casTableName table) cache key v := by
  cases table with
  | named t => exact if_pos (by simpa [listened] using hl)
  | buckets => exact absurd rfl hb
  | placementGroups => exact absurd rfl hpg
  | _ => first | rfl | cases hl

theorem handle_apply (hkey : wellKeyed table key = true) (v : Option Bytes) (k : RowKey) :
    handle d cache table key v k = (cacheEffect d k (.multiCasOp table key v)).getD (cache k) := by
  by_cases hb : table = .buckets
  · subst hb
    exact applyBucketEvent_effect d cache key v k
  cases hl : listened table with
  | false =>
    rw [handle_unheard d cache hl]
    exact unheard_effect d hl hb cache key v k
  | true =>
    rw [← refresh_effect d hl hb]
    by_cases hpg : table = .placementGroups
    · subst hpg
      unfold wellKeyed at hkey
      dsimp only at hkey
      split at hkey
      · rename_i pool pgId hparse
        unfold handle applyPlacementGroupEvent
        dsimp only
        rw [hparse]
        dsimp only
        rw [beq_iff_eq.1 hkey]
        rfl
      · cases hkey
    · rw [handle_common d cache hl hb hpg]

/-! ## What an entry's events say -/

def rowEffect (k : RowKey) : ApplyEvent → Option (Option Bytes)
  | .multiCasOp table key v => if rowKey (casTableName table) key = k then some v else none
  | .snapshotInstalled => none

def eventOf (op : CasOp) : ApplyEvent := .multiCasOp op.table op.key op.newValue

theorem rows_one {v : Option Bytes} {rows rows' : Rows}
    (h : rows'.get k = if k = rowKey (casTableName table) key then v else rows.get k) :
    rows'.get k = settled (rowEffect k) [.multiCasOp table key v] (rows.get k) := by
  rw [h, settled_cons, settled_nil, rowEffect]
  by_cases hk : k = rowKey (casTableName table) key
  · rw [if_pos hk, if_pos hk.symm]
    rfl
  · rw [if_neg hk, if_neg (Ne.symm hk)]
    rfl

theorem rows_write (k : RowKey) : ∀ (ops : List CasOp) (rows : Rows),
    (write rows (ops.map CasOp.row)).get k = settled (rowEffect k) (ops.map eventOf) (rows.get k) := by
  intro ops
  induction ops with
  | nil =>
    intro rows
    rfl
  | cons op ops ih =>
    intro rows
    have hfirst : (set rows (CasOp.row op).key op.newValue).get k =
        (rowEffect k (eventOf op)).getD (rows.get k) := rows_one (get_set ..)
    rw [map_cons, map_cons, settled_cons, ← hfirst]
    exact ih _

def single (entry : Entry) : Bool :=
  match entry.payload with
  | .normal (.batch _) => false
  | _ => true

variable {codec : Records}

theorem applyCommand_single {cmd : MetaCommand} (h : ∀ cmds, cmd ≠ .batch cmds) (txn : Txn) :
    applyCommand codec txn cmd = applyOne codec txn cmd := by
  cases cmd with
  | batch cmds => exact absurd rfl (h cmds)
  | _ => rfl

/-- What an entry that is no batch makes of the rows, the config counter's apart, by its events. -/
inductive Applied (codec : Records) (payload : EntryPayload) (rows rows' : Rows) :
    List ApplyEvent → Prop
  | nothing (hrows : rows' = rows) : Applied codec payload rows rows' []
  | one {table : CasTable} {key : String} {v : Option Bytes}
      (hrows : ∀ k, k ≠ CONFIG_VERSION →
        rows'.get k = if k = rowKey (casTableName table) key then v else rows.get k)
      (hv : (table = .config ∧ ∀ b ∈ v, ∃ c, b = codec.encodeConfig c) ∨
        table = .named "osd_nodes" ∧ ∃ o, v = some (codec.encodeOsd o)) :
      Applied codec payload rows rows' [.multiCasOp table key v]
  | multiCas {ops : List CasOp} {by_ : String} (hpayload : payload = .normal (.multiCas ops by_))
      (hrows : rows' = write rows (ops.map CasOp.row)) :
      Applied codec payload rows rows' (ops.map eventOf)

variable {db db' : Database} {entry : Entry} {answer : MetaResponse} {events : List ApplyEvent}

theorem applyEntry_cases (hsingle : single entry = true)
    (h : applyEntry codec db entry = .ok (db', answer, events)) :
    Applied codec entry.payload db.rows db'.rows events := by
  unfold applyEntry at h
  unfold single at hsingle
  split at h
  · cases h
    exact .nothing rfl
  · rename_i cmd hpayload
    rw [hpayload] at hsingle ⊢
    split at h
    · cases h
    rename_i txn answer' hcmd
    cases h
    have hone : ∀ cmds, cmd ≠ .batch cmds := by
      rintro cmds rfl
      cases hsingle
    rw [applyCommand_single hone] at hcmd
    unfold applyOne at hcmd
    split at hcmd
    · cases hcmd
      exact .nothing rfl
    cases cmd with
    | setConfig key value updatedBy updatedAt =>
      dsimp only at hcmd
      unfold applySetConfig at hcmd
      split at hcmd
      · cases hcmd
      cases hcmd
      refine .one (fun k hk => ?_) (.inl ⟨rfl, fun b hb => ⟨_, (some.inj hb).symm⟩⟩)
      rw [get_insert, get_insert, if_neg hk]
      rfl
    | deleteConfig key =>
      cases hcmd
      refine .one (fun k _ => ?_) (.inl ⟨rfl, nofun⟩)
      rw [get_erase]
      rfl
    | setOsdAdminState nodeId state by_ =>
      dsimp only at hcmd
      have hcmd := Except.ok.inj hcmd
      unfold applySetOsdAdminState at hcmd
      dsimp only at hcmd
      split at hcmd
      · cases hcmd
        exact .nothing rfl
      split at hcmd
      · cases hcmd
        exact .nothing rfl
      split at hcmd
      · cases hcmd
        exact .nothing rfl
      cases hcmd
      refine .one (fun k _ => ?_) (.inr ⟨rfl, _, rfl⟩)
      rw [get_insert]
      rfl
    | multiCas ops by_ =>
      dsimp only at hcmd
      have hcmd := Except.ok.inj hcmd
      unfold applyMultiCas at hcmd
      split at hcmd
      · cases hcmd
        exact .multiCas rfl rfl
      · cases hcmd
        exact .nothing rfl
    | batch cmds => cases hsingle
  · cases h
    exact .nothing rfl

/-- **An applied entry's events say what became of every row**, the config counter's apart. -/
theorem rows_applyEntry (hsingle : single entry = true) (hk : k ≠ CONFIG_VERSION)
    (h : applyEntry codec db entry = .ok (db', answer, events)) :
    db'.rows.get k = settled (rowEffect k) events (db.rows.get k) := by
  cases applyEntry_cases hsingle h with
  | nothing hrows => exact congrArg (get · k) hrows
  | one hrows _ => exact rows_one (hrows k hk)
  | multiCas _ hrows =>
    rw [hrows]
    exact rows_write k _ _

/-! ## The load of every map -/

def u32Max : Nat := 2 ^ 32 - 1

section
variable (d : Decoders R) (now : Nat) (rows : Rows)

def listPlacementGroups (pool : String) (startAfter maxResults : Nat) : List Bytes :=
  let poolPrefix := pool ++ "\x00"
  let start := if startAfter = 0 then poolPrefix else pgKey pool (min (startAfter + 1) u32Max)
  (((rows.entries.filter fun e => tableOf e.1 = "placement_groups" ∧ start ≤ keyOf e.1).takeWhile
    fun e => poolPrefix.toList.isPrefixOf (keyOf e.1).toList).take maxResults).map Prod.snd

def insertGroup (cache : Cache R) (pg : PlacementGroup) : Cache R :=
  update cache (rowKey "placement_groups" (pgKey pg.pool pg.pgId)) (some (.placementGroup pg))

def loadPool (d : Decoders R) (rows : Rows) (pool : String) : Nat → Nat → Cache R → Cache R
  | 0, _, cache => cache
  | pages + 1, nextPg, cache =>
    let page := listPlacementGroups rows pool nextPg 1000
    if page = [] then cache
    else
      let pgs := page.filterMap d.placementGroup
      let highest := pgs.foldl (fun highest pg => max highest pg.pgId) nextPg
      loadPool d rows pool pages (min (highest + 1) u32Max) (pgs.foldl insertGroup cache)

def poolNames : List String :=
  (rows.entries.filter fun e => tableOf e.1 = "pools" ∧ (d.decode "pools" e.2).isSome).map
    fun e => keyOf e.1

/-- Numbers are below `2 ^ 32`, so there are no more pages than that. -/
def loadPlacementGroups : Cache R :=
  (poolNames d rows).foldl (fun cache pool => loadPool d rows pool (2 ^ 32) 0 cache) fun _ => none

/-- A built-in policy that is not there as it is stored now, one that is there with its scope put right. -/
def loadPolicy (name : String) : Option PolicyObject :=
  match (rows.get (policyKey name)).bind d.policies.decode, builtins.find? (fun b => b.1 = name) with
  | some p, some _ => some { p with shared := p.tenant == "" && name != "consoleAdmin" }
  | some p, none => some p
  | none, some b => some (builtinPolicy now b)
  | none, none => none

def loadCaches : Cache R := fun k =>
  if tableOf k = "iam_policies" then (loadPolicy d now rows (keyOf k)).map .policy
  else if tableOf k = "placement_groups" then loadPlacementGroups d rows k
  else if tableOf k ∈ CACHED then d.row rows k
  else none

end

/-- A built-in policy that is stored has the scope the map gives it; a placement group is under its own key,
its pool is stored, and it is on the first page. -/
structure PlainLoad (d : Decoders R) (rows : Rows) : Prop where
  policies : ∀ b ∈ builtins, ∀ p ∈ (rows.get (policyKey b.1)).bind d.policies.decode,
    p.shared = (p.tenant == "" && b.1 != "consoleAdmin")
  groups : ∀ e ∈ rows.entries, tableOf e.1 = "placement_groups" → ∀ pg ∈ d.placementGroup e.2,
    keyOf e.1 = pgKey pg.pool pg.pgId ∧ pg.pool ∈ poolNames d rows ∧
      e.2 ∈ listPlacementGroups rows pg.pool 0 1000

instance (d : Decoders R) (rows : Rows) : Decidable (PlainLoad d rows) :=
  decidable_of_iff (_ ∧ _) ⟨fun h => ⟨h.1, h.2⟩, fun h => ⟨h.policies, h.groups⟩⟩

/-- prost reads back a built-in policy stored at `now`. -/
def RoundTrips (p : Policies) (now : Nat) : Prop :=
  ∀ b ∈ builtins, p.decode (p.encode (builtinPolicy now b)) = some (builtinPolicy now b)

section Load

variable {d : Decoders R} {rows : Rows}

theorem mem_listed {pool : String} {start n : Nat} (h : b ∈ listPlacementGroups rows pool start n) :
    ∃ k, rows.get k = some b ∧ tableOf k = "placement_groups" := by
  unfold listPlacementGroups at h
  obtain ⟨⟨k, b'⟩, hmem, rfl⟩ := mem_map.1 h
  have hfiltered := mem_filter.1 ((takeWhile_sublist _).subset (mem_of_mem_take hmem))
  exact ⟨k, mem_entries.1 hfiltered.1, (of_decide_eq_true hfiltered.2).1⟩

def Loaded (d : Decoders R) (rows : Rows) (cache : Cache R) : Prop :=
  ∀ k x, cache k = some x → d.row rows k = some x

theorem decode_group {d : Decoders R} (hk : tableOf k = "placement_groups") (b : Bytes) :
    d.decode (tableOf k) b = (d.placementGroup b).map .placementGroup := by
  rw [hk]
  rfl

theorem group_place (hplain : PlainLoad d rows) {pg : PlacementGroup}
    (hget : rows.get k = some b) (hk : tableOf k = "placement_groups") (hpg : d.placementGroup b = some pg) :
    rowKey "placement_groups" (pgKey pg.pool pg.pgId) = k ∧ d.row rows k = some (.placementGroup pg) := by
  have hkey := (hplain.groups (k, b) (mem_entries.2 hget) hk pg hpg).1
  refine ⟨?_, ?_⟩
  · rw [← hkey, ← hk]
    rfl
  · rw [Decoders.row, hget, bind_some, decode_group hk, hpg]
    rfl

/-- What a step of the load does: only rows of the table are in the map, and what was there is. -/
structure Grows (d : Decoders R) (rows : Rows) (cache cache' : Cache R) : Prop where
  loaded : Loaded d rows cache'
  kept : ∀ k, (cache k).isSome → (cache' k).isSome

theorem foldl_grows {α : Type} {f : Cache R → α → Cache R} : ∀ {l : List α} {cache : Cache R},
    (∀ x ∈ l, ∀ cache, Loaded d rows cache → Grows d rows cache (f cache x)) →
    Loaded d rows cache → Grows d rows cache (l.foldl f cache) ∧
      ∀ x ∈ l, ∀ k, (∀ cache, Loaded d rows cache → (f cache x k).isSome) → (l.foldl f cache k).isSome := by
  intro l
  induction l with
  | nil => exact fun _ hloaded => ⟨⟨hloaded, fun _ h => h⟩, nofun⟩
  | cons x l ih =>
    intro cache hf hloaded
    have hx := hf x mem_cons_self cache hloaded
    obtain ⟨hrest, hthere⟩ := ih (fun y hy => hf y (mem_cons_of_mem _ hy)) hx.loaded
    refine ⟨⟨hrest.loaded, fun k h => hrest.kept k (hx.kept k h)⟩, fun y hy k hk => ?_⟩
    rcases mem_cons.1 hy with rfl | hy
    · exact hrest.kept k (hk cache hloaded)
    · exact hthere y hy k hk

section
variable (hplain : PlainLoad d rows)
include hplain

theorem page_spec {page : List Bytes}
    (hpage : ∀ b ∈ page, ∃ k, rows.get k = some b ∧ tableOf k = "placement_groups")
    {cache : Cache R} (hloaded : Loaded d rows cache) :
    Grows d rows cache ((page.filterMap d.placementGroup).foldl insertGroup cache) ∧
      ∀ b ∈ page, ∀ pg ∈ d.placementGroup b, (((page.filterMap d.placementGroup).foldl insertGroup cache)
          (rowKey "placement_groups" (pgKey pg.pool pg.pgId))).isSome := by
  have hinsert : ∀ pg ∈ page.filterMap d.placementGroup, ∀ cache, Loaded d rows cache →
      Grows d rows cache (insertGroup cache pg) := by
    intro pg hpg cache hloaded
    obtain ⟨b, hb, hpg⟩ := mem_filterMap.1 hpg
    obtain ⟨k, hget, hk⟩ := hpage b hb
    obtain ⟨rfl, hrow⟩ := group_place hplain hget hk hpg
    refine ⟨fun k x hx => ?_, fun k h => ?_⟩
    · rw [insertGroup, update_apply] at hx
      split at hx
      · rename_i hk
        rw [hk, hrow, hx]
      · exact hloaded k x hx
    · rw [insertGroup, update_apply]
      split
      · rfl
      · exact h
  obtain ⟨hgrows, hthere⟩ := foldl_grows hinsert hloaded
  refine ⟨hgrows, fun b hb pg hpg => ?_⟩
  refine hthere pg (mem_filterMap.2 ⟨b, hb, hpg⟩) _ fun cache _ => ?_
  rw [insertGroup, update_self]
  rfl

theorem loadPool_grows (pool : String) : ∀ (pages nextPg : Nat) {cache : Cache R}, Loaded d rows cache →
    Grows d rows cache (loadPool d rows pool pages nextPg cache) := by
  intro pages
  induction pages with
  | zero => exact fun _ _ hloaded => ⟨hloaded, fun _ h => h⟩
  | succ pages ih =>
    intro nextPg cache hloaded
    unfold loadPool
    dsimp only
    split
    · exact ⟨hloaded, fun _ h => h⟩
    · obtain ⟨hpage, -⟩ := page_spec hplain (fun b hb => mem_listed hb) hloaded
      obtain ⟨hall, hkept⟩ := ih _ hpage.loaded
      exact ⟨hall, fun k h => hkept k (hpage.kept k h)⟩

theorem loadPool_first {pool : String} {pages : Nat} {cache : Cache R}
    (hloaded : Loaded d rows cache) (hb : b ∈ listPlacementGroups rows pool 0 1000)
    {pg : PlacementGroup} (hpg : d.placementGroup b = some pg) : (loadPool d rows pool (pages + 1) 0 cache
      (rowKey "placement_groups" (pgKey pg.pool pg.pgId))).isSome := by
  unfold loadPool
  dsimp only
  rw [if_neg (ne_nil_of_mem hb)]
  obtain ⟨hpage, hthere⟩ := page_spec hplain (fun b hb => mem_listed hb) hloaded
  exact (loadPool_grows hplain pool pages _ hpage.loaded).kept _ (hthere b hb pg hpg)

theorem loadPlacementGroups_apply
    (hk : tableOf k = "placement_groups") : loadPlacementGroups d rows k = d.row rows k := by
  have hpools : ∀ pool ∈ poolNames d rows, ∀ cache : Cache R, Loaded d rows cache →
      Grows d rows cache (loadPool d rows pool (2 ^ 32 - 1 + 1) 0 cache) :=
    fun pool _ cache => loadPool_grows hplain pool (2 ^ 32 - 1 + 1) 0
  obtain ⟨⟨hloaded, -⟩, hall⟩ := foldl_grows hpools (show Loaded d rows (fun _ => none) from nofun)
  change Loaded d rows (loadPlacementGroups d rows) at hloaded
  cases hx : loadPlacementGroups d rows k with
  | some x => exact (hloaded k x hx).symm
  | none =>
    symm
    cases hget : rows.get k with
    | none => rw [Decoders.row, hget, bind_none]
    | some b =>
      cases hpg : d.placementGroup b with
      | none =>
        rw [Decoders.row, hget, bind_some, decode_group hk, hpg]
        rfl
      | some pg =>
        obtain ⟨hkey, hpool, hlisted⟩ :=
          hplain.groups (k, b) (mem_entries.2 hget) hk pg hpg
        have hsome : (loadPlacementGroups d rows k).isSome := hall pg.pool hpool k fun cache hc => by
          rw [← (group_place hplain hget hk hpg).1]
          exact loadPool_first hplain hc hlisted hpg
        rw [hx] at hsome
        cases hsome

end

variable (p : Policies)

theorem get_seed (now : Nat) (rows : Rows) (b : String × String) (k : RowKey) : (seed p now rows b).get k =
      if k = policyKey b.1 ∧ missing p rows b = true then some (p.encode (builtinPolicy now b))
      else rows.get k := by
  unfold seed
  cases hm : missing p rows b with
  | false => simp
  | true => simp [get_insert]

theorem get_seeds_of_notMem (now : Nat) : ∀ {l : List (String × String)}
    {rows : Rows}, (∀ b ∈ l, k ≠ policyKey b.1) → (l.foldl (seed p now) rows).get k = rows.get k := by
  intro l
  induction l with
  | nil =>
    intro rows _
    rfl
  | cons b l ih =>
    intro rows h
    rw [foldl_cons, ih fun b' hb' => h b' (mem_cons_of_mem _ hb'), get_seed,
      if_neg fun h' => h b mem_cons_self h'.1]

theorem policyKey_inj {name name' : String} (h : policyKey name = policyKey name') : name = name' :=
  congrArg keyOf h

theorem get_seeds_of_mem (now : Nat) {b : String × String} :
    ∀ {l : List (String × String)} {rows : Rows}, (l.map Prod.fst).Nodup → b ∈ l →
    (l.foldl (seed p now) rows).get (policyKey b.1) =
      if missing p rows b = true then some (p.encode (builtinPolicy now b))
      else rows.get (policyKey b.1) := by
  intro l
  induction l with
  | nil =>
    intro rows _ h
    cases h
  | cons first l ih =>
    intro rows hnodup hmem
    rw [map_cons, nodup_cons] at hnodup
    rw [foldl_cons]
    rcases mem_cons.1 hmem with rfl | hmem
    · have hothers : ∀ b' ∈ l, policyKey b.1 ≠ policyKey b'.1 := by
        intro b' hb' heq
        exact hnodup.1 (policyKey_inj heq ▸ mem_map_of_mem hb')
      rw [get_seeds_of_notMem p now hothers, get_seed]
      simp
    · have hne : policyKey b.1 ≠ policyKey first.1 := by
        intro heq
        exact hnodup.1 (policyKey_inj heq ▸ mem_map_of_mem hmem)
      have hget : (seed p now rows first).get (policyKey b.1) = rows.get (policyKey b.1) := by
        rw [get_seed, if_neg fun h => hne h.1]
      have hmissing : missing p (seed p now rows first) b = missing p rows b := by
        unfold missing
        rw [hget]
      rw [ih hnodup.2 hmem, hmissing, hget]

def seededRows (d : Decoders R) (now : Nat) (rows : Rows) : Rows :=
  loadFromStore d.policies now builtins.length rows

theorem get_seededRows_of_ne (hk : tableOf k ≠ "iam_policies") :
    (seededRows d now rows).get k = rows.get k := by
  apply get_seeds_of_notMem
  rintro b - rfl
  exact hk rfl

theorem loadPolicy_apply (hplain : PlainLoad d rows) (hback : RoundTrips d.policies now)
    (name : String) : loadPolicy d now rows name =
      ((seededRows d now rows).get (policyKey name)).bind d.policies.decode := by
  have hnodup : (builtins.map Prod.fst).Nodup := by decide
  unfold loadPolicy
  cases hfind : builtins.find? (fun b => b.1 = name) with
  | none =>
    have hothers : ∀ b ∈ builtins, policyKey name ≠ policyKey b.1 := by
      intro b hb heq
      exact absurd (decide_eq_true (policyKey_inj heq).symm) (find?_eq_none.1 hfind b hb)
    have hget : (seededRows d now rows).get (policyKey name) = rows.get (policyKey name) :=
      get_seeds_of_notMem _ _ hothers
    rw [hget]
    cases (rows.get (policyKey name)).bind d.policies.decode <;> rfl
  | some b =>
    have hb := mem_of_find?_eq_some hfind
    have hname := find?_some hfind
    obtain rfl : b.1 = name := of_decide_eq_true hname
    have hget : (seededRows d now rows).get (policyKey b.1) =
        if missing d.policies rows b = true then some (d.policies.encode (builtinPolicy now b))
        else rows.get (policyKey b.1) := get_seeds_of_mem _ _ hnodup hb
    rw [hget]
    cases hp : (rows.get (policyKey b.1)).bind d.policies.decode with
    | none =>
      have hmissing : missing d.policies rows b = true := by
        rw [missing, hp]
        rfl
      rw [if_pos hmissing, bind_some]
      exact (hback b hb).symm
    | some p =>
      have hmissing : missing d.policies rows b = false := by
        rw [missing, hp]
        rfl
      rw [hmissing, if_neg Bool.false_ne_true, hp]
      dsimp only
      rw [← hplain.policies b hb p hp]

theorem loadCaches_apply (hplain : PlainLoad d rows) (hback : RoundTrips d.policies now)
    (hk : tableOf k ∈ CACHED) : loadCaches d now rows k = d.row (seededRows d now rows) k := by
  unfold loadCaches
  by_cases hpol : tableOf k = "iam_policies"
  · have hkey : policyKey (keyOf k) = k := by
      rw [policyKey, ← hpol]
      rfl
    rw [if_pos hpol, loadPolicy_apply hplain hback, hkey, Decoders.row, hpol]
    cases (seededRows d now rows).get k with
    | none | some b => rfl
  · have hrow : d.row (seededRows d now rows) k = d.row rows k := by
      rw [Decoders.row, get_seededRows_of_ne hpol]
      rfl
    rw [if_neg hpol, hrow, if_pos hk]
    split
    · rename_i hpg
      exact loadPlacementGroups_apply hplain hpg
    · rfl

end Load

end IoLake.Meta.Caches
