import Mathlib

/-!
# Table metadata: requirements and updates

A table's metadata is a JSON document.  A commit's requirements are checked against it and its updates applied
in order; the document is then numbered, dated and stored under a new location.
-/

namespace IoLake.Iceberg

inductive Json
  | null
  | bool (b : Bool)
  | num (n : Int)
  | str (s : String)
  | arr (items : List Json)
  | obj (fields : List (String × Json))

namespace Json

def get (field : String) : Json → Option Json
  | .obj fields => fields.lookup field
  | _ => none

def asStr : Json → Option String
  | .str s => some s
  | _ => none

def asI64 : Json → Option Int
  | .num n => if -(2 ^ 63) ≤ n ∧ n < 2 ^ 63 then some n else none
  | _ => none

def isObject : Json → Bool
  | .obj _ => true
  | _ => false

def insert (field : String) (value : Json) : List (String × Json) → List (String × Json)
  | [] => [(field, value)]
  | (f, v) :: rest => if f = field then (f, value) :: rest else (f, v) :: insert field value rest

/-- `metadata[field] = value`: null becomes an object, and anything else but an object panics. -/
def set (metadata : Json) (field : String) (value : Json) : Except String Json :=
  match metadata with
  | .obj fields => .ok (.obj (insert field value fields))
  | .null => .ok (.obj [(field, value)])
  | _ => .error "panic: cannot access key in a JSON value that is not an object"

def modify (field : String) (f : Json → Json) (metadata : Json) : Json :=
  match metadata, metadata.get field with
  | .obj fields, some value => .obj (insert field (f value) fields)
  | _, _ => metadata

end Json

open Json

inductive TableRequirement
  | assertCreate
  | assertTableUuid (uuid : String)
  | assertRefSnapshotId (ref : String) (snapshotId : Option Int)
  | assertLastAssignedFieldId (id : Int)
  | assertCurrentSchemaId (id : Int)
  | assertLastAssignedPartitionId (id : Int)
  | assertDefaultSpecId (id : Int)
  | assertDefaultSortOrderId (id : Int)

inductive TableUpdate
  | assignUuid (uuid : String)
  | upgradeFormatVersion (version : Int)
  | addSchema (schema : Json) (lastColumnId : Option Int)
  | setCurrentSchema (id : Int)
  | addSpec (spec : Json)
  | setDefaultSpec (id : Int)
  | addSortOrder (order : Json)
  | setDefaultSortOrder (id : Int)
  | addSnapshot (snapshot : Json)
  | setSnapshotRef (refName : String) (rest : Json)
  | removeSnapshots (ids : List Int)
  | removeSnapshotRef (refName : String)
  | setLocation (location : String)
  | setProperties (updates : List (String × String))
  | removeProperties (removals : List String)

def showOption (id : Option Int) : String := id.elim "None" fun n => "Some(" ++ toString n ++ ")"

section
variable (metadata : Json) (field : String)

def assertI64Field (expected : Int) : Except String Unit :=
  let current := ((metadata.get field).bind asI64).getD 0
  if current ≠ expected then .error ("requirement failed: " ++ field ++ " mismatch (expected " ++
    toString expected ++ ", got " ++ toString current ++ ")")
  else .ok ()

def validateRequirement : TableRequirement → Except String Unit
  | .assertCreate =>
    if (metadata.get "table-uuid").isSome then .error "requirement failed: table already exists"
    else .ok ()
  | .assertTableUuid uuid =>
    let current := ((metadata.get "table-uuid").bind asStr).getD ""
    if current ≠ uuid then .error ("requirement failed: table UUID mismatch (expected " ++ uuid ++
      ", got " ++ current ++ ")")
    else .ok ()
  | .assertRefSnapshotId ref snapshotId =>
    let current := (((metadata.get "refs").bind (Json.get ref)).bind (Json.get "snapshot-id")).bind asI64
    if current ≠ snapshotId then .error ("requirement failed: ref '" ++ ref ++
      "' snapshot-id mismatch (expected " ++ showOption snapshotId ++ ", got " ++ showOption current ++ ")")
    else .ok ()
  | .assertLastAssignedFieldId id => assertI64Field metadata "last-column-id" id
  | .assertCurrentSchemaId id => assertI64Field metadata "current-schema-id" id
  | .assertLastAssignedPartitionId id => assertI64Field metadata "last-partition-id" id
  | .assertDefaultSpecId id => assertI64Field metadata "default-spec-id" id
  | .assertDefaultSortOrderId id => assertI64Field metadata "default-sort-order-id" id

/-- The requirements of a commit in turn, refusals with their texts. -/
def validateRequirements (requirements : List TableRequirement) :
    Except String Unit := requirements.forM (validateRequirement metadata)

def pushToArray (value : Json) : Except String Json :=
  match metadata.get field with
  | some (.arr items) => metadata.set field (.arr (items ++ [value]))
  | _ => .error ("metadata missing '" ++ field ++ "' array")

def ensureObject : Except String Json :=
  if (metadata.get field).any isObject then .ok metadata else metadata.set field (.obj [])

def applySingleUpdate : TableUpdate → Except String Json
  | .assignUuid uuid => metadata.set "table-uuid" (.str uuid)
  | .upgradeFormatVersion version => metadata.set "format-version" (.num version)
  | .addSchema schema lastColumnId => do
    let metadata ← pushToArray metadata "schemas" schema
    match lastColumnId with
    | some id => metadata.set "last-column-id" (.num id)
    | none => .ok metadata
  | .setCurrentSchema id => metadata.set "current-schema-id" (.num id)
  | .addSpec spec => pushToArray metadata "partition-specs" spec
  | .setDefaultSpec id => metadata.set "default-spec-id" (.num id)
  | .addSortOrder order => pushToArray metadata "sort-orders" order
  | .setDefaultSortOrder id => metadata.set "default-sort-order-id" (.num id)
  | .addSnapshot snapshot => pushToArray metadata "snapshots" snapshot
  | .setSnapshotRef refName rest => do
    let metadata ← ensureObject metadata "refs"
    let refs ← ((metadata.get "refs").getD .null).set refName rest
    let metadata ← metadata.set "refs" refs
    -- `current-snapshot-id` follows the branch `main`.
    match if refName = "main" then (rest.get "snapshot-id").bind asI64 else none with
    | some id => metadata.set "current-snapshot-id" (.num id)
    | none => .ok metadata
  | .removeSnapshots ids => .ok (metadata.modify "snapshots" fun
    | .arr items => .arr (items.filter fun s =>
      ((s.get "snapshot-id").bind asI64).all fun id => !ids.contains id)
    | other => other)
  | .removeSnapshotRef refName => .ok (metadata.modify "refs" fun
    | .obj fields => .obj (fields.filter fun f => f.1 != refName)
    | other => other)
  | .setLocation location => metadata.set "location" (.str location)
  | .setProperties updates => do
    let metadata ← ensureObject metadata "properties"
    return metadata.modify "properties" fun
      | .obj fields => .obj (updates.foldl (fun fields u => insert u.1 (.str u.2) fields) fields)
      | other => other
  | .removeProperties removals => .ok (metadata.modify "properties" fun
    | .obj fields => .obj (fields.filter fun f => !removals.contains f.1)
    | other => other)

def applyUpdates (updates : List TableUpdate) : Except String Json :=
  updates.foldlM applySingleUpdate metadata

end

def pad5 (n : Int) : String :=
  let digits := toString n.natAbs
  let width := if n < 0 then 4 else 5
  (if n < 0 then "-" else "") ++ String.ofList (List.replicate (width - digits.length) '0') ++ digits

structure Commit where
  requirements : List TableRequirement
  updates : List TableUpdate

/-- The document a commit makes of `metadata`, and the location it is stored under.  `confine` refuses a
location outside the warehouse; `suffix` is the first part of a new UUID. -/
def advance (confine : String → Except String Unit) (location : String) (metadata : Json) (c : Commit)
    (now logged : Int) (suffix : String) : Except String (String × Json) := do
  validateRequirements metadata c.requirements
  let metadata ← applyUpdates metadata c.updates
  let base := ((metadata.get "location").bind asStr).getD ""
  confine base
  let seq := ((metadata.get "last-sequence-number").bind asI64).getD 0 + 1
  let metadata ← metadata.set "last-sequence-number" (.num seq)
  let metadata ← metadata.set "last-updated-ms" (.num now)
  let metadata := metadata.modify "metadata-log" fun
    | .arr items => .arr (items ++ [.obj [("metadata-file", .str location), ("timestamp-ms", .num logged)]])
    | other => other
  return (base ++ "/metadata/" ++ pad5 seq ++ "-" ++ suffix ++ ".metadata.json", metadata)

end IoLake.Iceberg
