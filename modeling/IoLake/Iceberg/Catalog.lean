import IoLake.Lib.CompareAndSet
import IoLake.Lib.Outcomes

/-!
# The Iceberg catalog's calls

The metadata service keeps the catalog in two tables of rows, whose keys are texts built by concatenation, and
in a copy of them in memory.  A call reads the copy, and one that changes something then proposes one
compare-and-set and carries what was committed over into the copy.
-/

namespace IoLake.Iceberg

open List Yields

open CompareAndSet (Op)

abbrev Text := List Char

/-! ## Keys -/

section
variable (warehouse : Text) (levels : List Text)

/-- `iceberg_ns_key_wh`: the warehouse, U+0001, and the levels joined by U+0000. -/
def nsKeyWh : Text :=
  let ns := ['\x00'].intercalate levels
  if warehouse.isEmpty then ns else warehouse ++ '\x01' :: ns

def tableKeyWh (name : Text) : Text :=
  nsKeyWh warehouse levels ++ '\x00' :: name

def warehousePrefix : Text :=
  if warehouse.isEmpty then [] else warehouse ++ ['\x01']

def nsKey : Text := ['\x00'].intercalate levels

def tableKey (name : Text) : Text := nsKey levels ++ '\x00' :: name

end

def below (nsKey : Text) : Text := nsKey ++ ['\x00']

variable (warehouse : Text) (levels : List Text)

theorem nsKeyWh_eq : nsKeyWh warehouse levels = warehousePrefix warehouse ++ nsKey levels := by
  unfold nsKeyWh warehousePrefix nsKey
  split <;> simp

theorem tableKeyWh_eq (name : Text) :
    tableKeyWh warehouse levels name = below (nsKeyWh warehouse levels) ++ name := by
  rw [tableKeyWh, below, append_assoc, singleton_append]

theorem tableKey_eq (name : Text) : tableKey levels name = below (nsKey levels) ++ name := by
  rw [tableKey, below, append_assoc, singleton_append]

theorem nsKey_concat (last : Text) : ∀ {levels : List Text}, levels ≠ [] →
    nsKey (levels ++ [last]) = below (nsKey levels) ++ last := by
  intro levels
  induction levels with
  | nil => exact fun h => absurd rfl h
  | cons first rest ih =>
    intro _
    cases rest with
    | nil => simp [nsKey, below, intercalate]
    | cons second rest =>
      have := ih (by simp)
      simp only [nsKey, below, cons_append, intercalate_cons_cons, append_assoc] at this ⊢
      rw [this]

theorem below_dropLast {levels : List Text} (h : 1 < levels.length) :
    below (nsKeyWh warehouse levels.dropLast) <+: nsKeyWh warehouse levels := by
  have hne : levels ≠ [] := by
    rintro rfl
    simp at h
  have hparent : levels.dropLast ≠ [] := by
    intro hnil
    have := congrArg length hnil
    rw [length_dropLast, length_nil] at this
    omega
  have hkey : nsKey levels = below (nsKey levels.dropLast) ++ levels.getLast hne := by
    rw [← nsKey_concat _ hparent, dropLast_append_getLast]
  rw [nsKeyWh_eq, nsKeyWh_eq, hkey, below, below]
  simp [prefix_append_right_inj]

abbrev Properties := OrdMap Text Text

structure Namespace where
  levels : List Text
  properties : Properties
deriving DecidableEq

/-- `IcebergTableEntry`. -/
structure TableEntry where
  metadataLocation : Text
  createdAt : Nat
  updatedAt : Nat
  metadataJson : Text
  policyJson : Text := []
deriving DecidableEq, Repr

structure Tables (N T : Type) where
  namespaces : OrdMap Text N
  tables : OrdMap Text T

abbrev Rows := Tables Namespace TableEntry

abbrev Cache := Tables Properties TableEntry

inductive Code
  | invalidArgument | alreadyExists | notFound | failedPrecondition | aborted
deriving DecidableEq, Repr

structure Status where
  code : Code
  message : String
deriving DecidableEq, Repr

/-! ## Calls -/

structure TableChange where
  levels : List Text
  name : Text
  currentLocation : Text
  newLocation : Text
  newMetadata : Text
deriving DecidableEq, Repr

/-- Every call of the catalog, up to what it proposes. -/
inductive Call
  | createNamespace (levels : List Text) (properties : Properties)
  | loadNamespace (levels : List Text)
  | dropNamespace (levels : List Text)
  | listNamespaces (parent : List Text) (pageSize : Nat) (pageToken : Text)
  | updateNamespaceProperties (levels : List Text) (removals : List Text) (updates : Properties)
  | namespaceExists (levels : List Text)
  | createTable (levels : List Text) (name location metadata : Text)
  | loadTable (levels : List Text) (name : Text)
  | commitTable (change : TableChange)
  | commitTransaction (changes : List TableChange)
  | dropTable (levels : List Text) (name : Text)
  | renameTable (source : List Text) (sourceName : Text) (dest : List Text) (destName : Text)
  | listTables (levels : List Text) (pageSize : Nat) (pageToken : Text)
  | tableExists (levels : List Text) (name : Text)
  | setTablePolicy (levels : List Text) (name policy : Text)
  | getTablePolicy (levels : List Text) (name : Text)

inductive Answer
  | loaded (levels : List Text) (properties : Properties)
  | namespaces (names : List (List Text)) (nextPageToken : Text)
  | properties (updated removed missing : List Text)
  | found (yes : Bool)
  | table (location metadata : Text)
  | committed (tables : List (Text × Text))
  | tables (levels : List Text) (names : List Text) (nextPageToken : Text)
  | policy (json : Text)
  | success

/-- What a call is about to do: answer, or propose a compare-and-set in one of the tables. -/
inductive Stage
  | answer (a : Answer)
  | namespaces (ops : List (Op Text Namespace)) (conflict : Status) (a : Answer)
  | tables (ops : List (Op Text TableEntry)) (conflict : List Nat → Status) (a : Answer)

namespace Tables

variable (cache : Cache)

def namespaceAt (key : Text) : Except Status Properties :=
  match cache.namespaces.get key with
  | some properties => .ok properties
  | none => .error ⟨.notFound, "namespace not found"⟩

def tableAt (key : Text) : Except Status TableEntry :=
  match cache.tables.get key with
  | some entry => .ok entry
  | none => .error ⟨.notFound, "table not found"⟩

end Tables

def keysFrom {V : Type} (m : OrdMap Text V) (start : Text) : List Text :=
  (m.entries.map Prod.fst).filter (start.isPrefixOf ·)

def page (names : List Text) (pageSize : Nat) (pageToken : Text) : List Text × Text :=
  let size := if pageSize = 0 then 100 else min pageSize 1000
  let names := if pageToken.isEmpty then names else names.filter (pageToken < ·)
  let first := names.take size
  (first, if size < names.length then first.getLast?.getD [] else [])

section Calls

variable (w : Text) (now : Nat) (cache : Cache)

section
variable (levels : List Text)

def createNamespace (properties : Properties) : Except Status Stage :=
  let key := nsKeyWh w levels
  if levels.isEmpty then .error ⟨.invalidArgument, "namespace levels cannot be empty"⟩
  else if cache.namespaces.contains key then .error ⟨.alreadyExists, "namespace already exists"⟩
  else if 1 < levels.length ∧ cache.namespaces.contains (nsKeyWh w levels.dropLast) = false then
    .error ⟨.notFound, "parent namespace does not exist"⟩
  else .ok (.namespaces [⟨key, none, some ⟨levels, properties⟩⟩]
    ⟨.alreadyExists, "namespace already exists"⟩ (.loaded levels properties))

def dropNamespace : Except Status Stage := do
  let key := nsKeyWh w levels
  let properties ← cache.namespaceAt key
  if (keysFrom cache.tables (below key)).isEmpty = false then
    .error ⟨.failedPrecondition, "namespace is not empty (contains tables)"⟩
  else if (keysFrom cache.namespaces (below key)).isEmpty = false then
    .error ⟨.failedPrecondition, "namespace is not empty (contains child namespaces)"⟩
  else .ok (.namespaces [⟨key, some ⟨levels, properties⟩, none⟩]
    ⟨.aborted, "namespace changed since read; retry drop"⟩ .success)

def namesFrom (start : Text) (pageSize : Nat) (pageToken : Text) : Stage :=
  let keys := (keysFrom cache.namespaces start).filter fun k =>
    if start.isEmpty then !k.contains '\x00' && !k.contains '\x01'
    else !(k.drop start.length).contains '\x00'
  let (keys, next) := page keys pageSize pageToken
  .answer (.namespaces (keys.map fun k =>
    ((if k.contains '\x01' then (k.dropWhile (· ≠ '\x01')).tail else k).splitOn '\x00')) next)

def listNamespaces (parent : List Text) (pageSize : Nat) (pageToken : Text) : Except Status Stage :=
  let parentKey := if parent.isEmpty then [] else nsKeyWh w parent
  if parentKey.isEmpty then .ok (namesFrom cache (warehousePrefix w) pageSize pageToken)
  else if cache.namespaces.contains parentKey = false then
    .error ⟨.notFound, "parent namespace not found"⟩
  else .ok (namesFrom cache (below parentKey) pageSize pageToken)

def remove (state : Properties × List Text × List Text) (name : Text) : Properties × List Text × List Text :=
  if state.1.contains name then (state.1.erase name, state.2.1 ++ [name], state.2.2)
  else (state.1, state.2.1, state.2.2 ++ [name])

def updateNamespaceProperties (removals : List Text) (updates : Properties) : Except Status Stage := do
  let key := nsKeyWh w levels
  let current ← cache.namespaceAt key
  let (left, removed, missing) := removals.foldl remove (current, [], [])
  return .namespaces [⟨key, some ⟨levels, current⟩, some ⟨levels, left.extend updates.entries⟩⟩]
    ⟨.aborted, "namespace properties changed since read; retry"⟩
    (.properties (updates.entries.map Prod.fst) removed missing)

def createTable (name location metadata : Text) : Except Status Stage := do
  let _ ← cache.namespaceAt (nsKeyWh w levels)
  let key := tableKeyWh w levels name
  if cache.tables.contains key then .error ⟨.alreadyExists, "table already exists"⟩
  else .ok (.tables [⟨key, none, some ⟨location, now, now, metadata, []⟩⟩]
    (fun _ => ⟨.alreadyExists, "table already exists"⟩) (.table location metadata))

/-- The operation of one change of a table, its location compared; `place` is what a refusal begins with. -/
def changeOp (place : String) (missing : String) (change : TableChange) :
    Except Status (Op Text TableEntry) :=
  let key := tableKeyWh w change.levels change.name
  match cache.tables.get key with
  | none => .error ⟨.notFound, place ++ missing⟩
  | some entry =>
    if entry.metadataLocation ≠ change.currentLocation then
      .error ⟨.failedPrecondition, place ++ "metadata location mismatch: expected '" ++
        String.ofList change.currentLocation ++ "', actual '" ++ String.ofList entry.metadataLocation ++ "'"⟩
    else .ok ⟨key, some entry, some ⟨change.newLocation, entry.createdAt, now, change.newMetadata,
      entry.policyJson⟩⟩

def commitTable (change : TableChange) : Except Status Stage := do
  let op ← changeOp w now cache "" "table not found" change
  return .tables [op] (fun _ => ⟨.failedPrecondition, "concurrent metadata update detected"⟩)
    (.table change.newLocation change.newMetadata)

def MAX_OPS : Nat := 256

def commitTransaction (changes : List TableChange) : Except Status Stage :=
  if changes.isEmpty then .error ⟨.invalidArgument, "table_changes is empty"⟩
  else if MAX_OPS < changes.length then
    .error ⟨.invalidArgument, toString changes.length ++
      " table changes in one transaction; at most " ++ toString MAX_OPS⟩
  else do
    let ops ← changes.zipIdx.mapM fun (change, i) =>
      changeOp w now cache ("table_changes[" ++ toString i ++ "]: ") "not found" change
    return .tables ops (fun failed => ⟨.failedPrecondition,
        "concurrent metadata update detected on table_changes " ++ toString failed⟩)
      (.committed (changes.map fun change => (change.newLocation, change.newMetadata)))

def dropTable (name : Text) : Except Status Stage := do
  let entry ← cache.tableAt (tableKeyWh w levels name)
  return .tables [⟨tableKeyWh w levels name, some entry, none⟩]
    (fun _ => ⟨.aborted, "table changed since read; retry drop"⟩) .success

/-- `iceberg_rename_table` has no warehouse. -/
def renameTable (source : List Text) (sourceName : Text) (dest : List Text) (destName : Text) :
    Except Status Stage :=
  let src := tableKey source sourceName
  let dst := tableKey dest destName
  if cache.namespaces.contains (nsKey dest) = false then
    .error ⟨.notFound, "destination namespace not found"⟩
  else match cache.tables.get src with
  | none => .error ⟨.notFound, "source table not found"⟩
  | some entry =>
    if cache.tables.contains dst then .error ⟨.alreadyExists, "destination table already exists"⟩
    else .ok (.tables [⟨src, some entry, none⟩, ⟨dst, none, some entry⟩]
      (fun failed => ⟨.aborted, "rename conflict at ops " ++ toString failed ++ "; retry"⟩) .success)

def listTables (pageSize : Nat) (pageToken : Text) : Except Status Stage := do
  let start := below (nsKeyWh w levels)
  let _ ← cache.namespaceAt (nsKeyWh w levels)
  let names := ((keysFrom cache.tables start).map (·.drop start.length)).filter
    (!·.contains '\x00')
  let (names, next) := page names pageSize pageToken
  return .answer (.tables levels names next)

def setTablePolicy (name policy : Text) : Except Status Stage := do
  let entry ← cache.tableAt (tableKeyWh w levels name)
  return .tables
    [⟨tableKeyWh w levels name, some entry, some { entry with policyJson := policy, updatedAt := now }⟩]
    (fun _ => ⟨.aborted, "table changed since read; retry"⟩) .success

end

def prepare : Call → Except Status Stage
  | .createNamespace levels properties => createNamespace w cache levels properties
  | .loadNamespace levels => do
    return .answer (.loaded levels (← cache.namespaceAt (nsKeyWh w levels)))
  | .dropNamespace levels => dropNamespace w cache levels
  | .listNamespaces parent pageSize pageToken => listNamespaces w cache parent pageSize pageToken
  | .updateNamespaceProperties levels removals updates =>
    updateNamespaceProperties w cache levels removals updates
  | .namespaceExists levels =>
    .ok (.answer (.found (cache.namespaces.contains (nsKeyWh w levels))))
  | .createTable levels name location metadata => createTable w now cache levels name location metadata
  | .loadTable levels name => do
    let entry ← cache.tableAt (tableKeyWh w levels name)
    return .answer (.table entry.metadataLocation entry.metadataJson)
  | .commitTable change => commitTable w now cache change
  | .commitTransaction changes => commitTransaction w now cache changes
  | .dropTable levels name => dropTable w cache levels name
  | .renameTable source sourceName dest destName => renameTable cache source sourceName dest destName
  | .listTables levels pageSize pageToken => listTables w cache levels pageSize pageToken
  | .tableExists levels name =>
    .ok (.answer (.found (cache.tables.contains (tableKeyWh w levels name))))
  | .setTablePolicy levels name policy => setTablePolicy w now cache levels name policy
  | .getTablePolicy levels name => do
    return .answer (.policy (← cache.tableAt (tableKeyWh w levels name)).policyJson)

end Calls

def Stage.Ops (P : Op Text Namespace → Prop) (Q : Op Text TableEntry → Prop) : Stage → Prop
  | .answer _ => True
  | .namespaces ops _ _ => ∀ op ∈ ops, P op
  | .tables ops _ _ => ∀ op ∈ ops, Q op

def Call.NsOp (w : Text) (op : Op Text Namespace) : Call → Prop
  | .createNamespace levels properties => op = ⟨nsKeyWh w levels, none, some ⟨levels, properties⟩⟩
  | .dropNamespace levels => ∃ properties, op = ⟨nsKeyWh w levels, some ⟨levels, properties⟩, none⟩
  | .updateNamespaceProperties levels _ _ =>
    ∃ old new, op = ⟨nsKeyWh w levels, some ⟨levels, old⟩, some ⟨levels, new⟩⟩
  | _ => False

def TableChange.OpFor (w : Text) (now : Nat) (cache : Cache) (op : Op Text TableEntry)
    (change : TableChange) : Prop :=
  ∃ entry, cache.tables.get (tableKeyWh w change.levels change.name) = some entry ∧
    entry.metadataLocation = change.currentLocation ∧
    op = ⟨tableKeyWh w change.levels change.name, some entry,
      some ⟨change.newLocation, entry.createdAt, now, change.newMetadata, entry.policyJson⟩⟩

def Call.TableOp (w : Text) (now : Nat) (cache : Cache) (op : Op Text TableEntry) : Call → Prop
  | .createTable levels name location metadata =>
    op = ⟨tableKeyWh w levels name, none, some ⟨location, now, now, metadata, []⟩⟩
  | .commitTable change => change.OpFor w now cache op
  | .commitTransaction changes => ∃ change ∈ changes, change.OpFor w now cache op
  | .dropTable levels name => ∃ entry, op = ⟨tableKeyWh w levels name, some entry, none⟩
  | .renameTable source sourceName dest destName => ∃ entry,
    op = ⟨tableKey source sourceName, some entry, none⟩ ∨
    op = ⟨tableKey dest destName, none, some entry⟩
  | .setTablePolicy levels name policy => ∃ entry, op = ⟨tableKeyWh w levels name, some entry,
    some { entry with policyJson := policy, updatedAt := now }⟩
  | _ => False

section Ops

variable (w : Text) (now : Nat) (cache : Cache)

theorem changeOp_yields (place missing : String) (change : TableChange) :
    Yields (change.OpFor w now cache) (changeOp w now cache place missing change) := by
  unfold changeOp
  simp only
  split
  · exact error _
  · rename_i entry hentry
    exact ite (fun _ => error _) fun h => ok ⟨entry, hentry, not_not.1 h, rfl⟩

theorem commitTransaction_yields (changes : List TableChange) :
    Yields (fun stage => ∃ ops conflict a, stage = .tables ops conflict a ∧
      List.Forall₂ (fun change op => change.OpFor w now cache op) changes ops)
      (commitTransaction w now cache changes) := by
  refine Yields.ite (fun _ => Yields.error _) fun _ => ?_
  refine Yields.ite (fun _ => Yields.error _) fun _ => ?_
  refine (Yields.mapM fun change _ => changeOp_yields w now cache _ _ change.1).bind ?_
  intro ops hops
  refine Yields.pure ⟨ops, _, _, rfl, ?_⟩
  have hmap : List.Forall₂ (fun change op => change.OpFor w now cache op)
      (changes.zipIdx.map Prod.fst) ops := forall₂_map_left_iff.2 hops
  rwa [zipIdx_map_fst] at hmap

theorem prepare_ops (c : Call) :
    Yields (Stage.Ops (c.NsOp w) (c.TableOp w now cache)) (prepare w now cache c) := by
  cases c with
  | createNamespace levels properties =>
    refine Yields.ite (fun _ => Yields.error _) fun _ => ?_
    refine Yields.ite (fun _ => Yields.error _) fun _ => ?_
    refine Yields.ite (fun _ => Yields.error _) fun _ => Yields.ok ?_
    simp [Stage.Ops, Call.NsOp]
  | dropNamespace levels =>
    refine (Yields.any _).bind fun properties _ => ?_
    refine Yields.ite (fun _ => Yields.error _) fun _ => ?_
    refine Yields.ite (fun _ => Yields.error _) fun _ => Yields.ok ?_
    simp [Stage.Ops, Call.NsOp]
  | listNamespaces parent pageSize pageToken =>
    refine Yields.ite (fun _ => Yields.ok trivial) fun _ => ?_
    exact Yields.ite (fun _ => Yields.error _) fun _ => Yields.ok trivial
  | updateNamespaceProperties levels removals updates =>
    refine (Yields.any _).bind fun current _ => Yields.pure ?_
    simp [Stage.Ops, Call.NsOp]
  | namespaceExists levels | tableExists levels name => exact Yields.ok trivial
  | createTable levels name location metadata =>
    refine (Yields.any _).bind fun _ _ => ?_
    refine Yields.ite (fun _ => Yields.error _) fun _ => Yields.ok ?_
    simp [Stage.Ops, Call.TableOp]
  | commitTable change =>
    refine (changeOp_yields w now cache "" "table not found" change).bind fun op hop => Yields.pure ?_
    simpa [Stage.Ops, Call.TableOp] using hop
  | commitTransaction changes =>
    intro stage hstage
    obtain ⟨ops, conflict, a, rfl, hops⟩ := commitTransaction_yields w now cache changes stage hstage
    intro op hop
    obtain ⟨i, hi, rfl⟩ := getElem_of_mem hop
    have hi' := hops.length_eq ▸ hi
    exact ⟨changes[i], getElem_mem _, hops.get hi' hi⟩
  | dropTable levels name =>
    refine (Yields.any _).bind fun entry _ => Yields.pure ?_
    simp [Stage.Ops, Call.TableOp]
  | renameTable source sourceName dest destName =>
    refine Yields.ite (fun _ => Yields.error _) fun _ => ?_
    split
    · exact Yields.error _
    · rename_i entry _
      refine Yields.ite (fun _ => Yields.error _) fun _ => Yields.ok ?_
      intro op hop
      exact ⟨entry, mem_pair.1 hop⟩
  | setTablePolicy levels name policy =>
    refine (Yields.any _).bind fun entry _ => Yields.pure ?_
    intro op hop
    exact ⟨entry, mem_singleton.1 hop⟩
  | _ => exact (Yields.any _).bind fun _ _ => Yields.pure trivial

end Ops

/-- The compare-and-set: all of its operations, or the call's answer to a conflict. -/
def Stage.commit (rows : Rows) : Stage → Except Status Rows
  | .answer _ => .ok rows
  | .namespaces ops conflict _ =>
    if CompareAndSet.failed rows.namespaces ops = [] then
      .ok { rows with namespaces := CompareAndSet.write rows.namespaces ops }
    else .error conflict
  | .tables ops conflict _ =>
    if CompareAndSet.failed rows.tables ops = [] then
      .ok { rows with tables := CompareAndSet.write rows.tables ops }
    else .error (conflict (CompareAndSet.failed rows.tables ops))

theorem Stage.commit_namespaces {rows : Rows} {ops : List (Op Text Namespace)} {conflict : Status}
    {a : Answer} : Yields (fun after => (∀ op ∈ ops, rows.namespaces.get op.key = op.expected) ∧
      after = { rows with namespaces := CompareAndSet.write rows.namespaces ops })
      ((Stage.namespaces ops conflict a).commit rows) :=
  ite (fun h => ok ⟨CompareAndSet.failed_eq_nil.1 h, rfl⟩) fun _ => error _

theorem Stage.commit_tables {rows : Rows} {ops : List (Op Text TableEntry)}
    {conflict : List Nat → Status} {a : Answer} :
    Yields (fun after => (∀ op ∈ ops, rows.tables.get op.key = op.expected) ∧
      after = { rows with tables := CompareAndSet.write rows.tables ops })
      ((Stage.tables ops conflict a).commit rows) :=
  ite (fun h => ok ⟨CompareAndSet.failed_eq_nil.1 h, rfl⟩) fun _ => error _

def Stage.mirror (cache : Cache) : Stage → Cache
  | .answer _ => cache
  | .namespaces ops _ _ =>
    let ops := ops.map fun op => ⟨op.key, none, op.newValue.map Namespace.properties⟩
    { cache with namespaces := CompareAndSet.write cache.namespaces ops }
  | .tables ops _ _ => { cache with tables := CompareAndSet.write cache.tables ops }

def Stage.reply : Stage → Answer
  | .answer a => a
  | .namespaces _ _ a => a
  | .tables _ _ a => a

structure Leader where
  rows : Rows
  cache : Cache

/-- One call from beginning to end. -/
def exec (w : Text) (now : Nat) (call : Call) (s : Leader) : Except Status Answer × Leader :=
  match prepare w now s.cache call with
  | .error e => (.error e, s)
  | .ok stage =>
    match stage.commit s.rows with
    | .error e => (.error e, s)
    | .ok rows => (.ok stage.reply, ⟨rows, stage.mirror s.cache⟩)

end IoLake.Iceberg
