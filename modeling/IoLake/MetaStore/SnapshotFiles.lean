import IoLake.Lib.Directory
import IoLake.MetaStore.Command

/-!
# The snapshots of a meta node, as files

A snapshot that is built and one that is received are each written to a temporary file, renamed to
`<id>.data`, and described by `<id>.meta`, itself renamed from a temporary file; then every other file of the
directory is deleted (`keep_snapshot`).  The two run beside each other, one file-system call at a time.  A
listing of the directory gives each name that is there throughout it; of the others it may give any.
-/

namespace IoLake.MetaStore.Snapshots

/-! ## Files -/

abbrev FileName := String ×ₗ String

def file (stem extension : String) : FileName := toLex (stem, extension)

structure SnapshotMeta where
  lastLogId : Option LogId
  lastMembership : Option LogId × List Nat
  snapshotId : String
deriving DecidableEq, Repr

structure Snapshot (D : Type) where
  description : SnapshotMeta
  tables : D
deriving DecidableEq, Repr

inductive Content (D : Type) where
  | empty
  | data (tables : D)
  | description (m : SnapshotMeta)
deriving DecidableEq, Repr

instance (D : Type) : Inhabited (Content D) := ⟨.empty⟩

abbrev Dir (D : Type) := Directory FileName (Content D)

def dataFile (id : String) : FileName := file id "data"

def metaFile (id : String) : FileName := file id "meta"

def metaTmp (id : String) : FileName := file (id ++ ".meta") "tmp"

/-- The order of log ids, with none below all. -/
def rank (l : Option LogId) : Nat ×ₗ Nat ×ₗ Nat ×ₗ Nat :=
  match l with
  | none => toLex (0, toLex (0, toLex (0, 0)))
  | some l => toLex (1, toLex (l.term, toLex (l.leader, l.index)))

def better (best : Option (FileName × SnapshotMeta)) (m : SnapshotMeta) : Bool :=
  match best with
  | none => true
  | some (_, b) => decide (rank b.lastLogId < rank m.lastLogId)

/-- The snapshot a description file is about, if its content reads as one. -/
def described {D : Type} (dir : Dir D) (n : FileName) : Option (FileName × SnapshotMeta) :=
  if (ofLex n).2 = "meta" then
    match dir.read n with
    | some (.description m) => some (dataFile (ofLex n).1, m)
    | _ => none
  else none

def pick {D : Type} (dir : Dir D) (best : Option (FileName × SnapshotMeta)) (p : FileName × SnapshotMeta) :
    Option (FileName × SnapshotMeta) :=
  if (dir.inode p.1).isSome ∧ better best p.2 = true then some p else best

def consider {D : Type} (dir : Dir D) (best : Option (FileName × SnapshotMeta)) (n : FileName) :
    Option (FileName × SnapshotMeta) :=
  match described dir n with
  | some p => pick dir best p
  | none => best

/-- The described snapshot furthest on whose data file is there. -/
def currentSnapshotFiles {D : Type} (dir : Dir D) : Option (FileName × SnapshotMeta) :=
  dir.list.foldl (consider dir) none

/-! ## The two calls -/

/-- The two calls that may be under way at the same time. -/
inductive Who where
  | build
  | install
deriving DecidableEq, Repr

def Who.other : Who → Who
  | .build => .install
  | .install => .build

inductive Failure where
  | taken
  | noFile
  | gone
  | unopened
deriving DecidableEq, Repr

/-- Between two stages a call makes one file-system call, or reads or replaces the state machine. -/
inductive Stage (D : Type) where
  | start
  | create
  | fill (handle : Nat)
  | move (k : Snapshot D)
  | describe (k : Snapshot D)
  | write (k : Snapshot D) (handle : Nat)
  | publish (k : Snapshot D)
  | list (k : Snapshot D)
  | clean (k : Snapshot D) (left : List FileName)
  | look (k : Snapshot D)
  | looking (k : Snapshot D) (left : List FileName) (best found : Option (FileName × SnapshotMeta))
  | openData (k : Snapshot D) (best : Option (FileName × SnapshotMeta))
  | discard (k : Snapshot D) (e : Failure)
  | discardCheck (k : Snapshot D) (e : Failure)
  | discardData (k : Snapshot D) (e : Failure)
  | discardTmp (k : Snapshot D) (e : Failure)
  | failed (e : Failure)
  | returned (k : Snapshot D) (current : Option SnapshotMeta)
deriving DecidableEq

structure Machine (D : Type) where
  tables : D
  lastApplied : Option LogId
  membership : Option LogId × List Nat
deriving DecidableEq

def snapshotId (l : Option LogId) : String :=
  "meta-snap-" ++ toString ((l.map (·.term)).getD 0) ++ "-" ++ toString ((l.map (·.index)).getD 0)

def Machine.snapshot {D : Type} (m : Machine D) : Snapshot D :=
  ⟨⟨m.lastApplied, m.membership, snapshotId m.lastApplied⟩, m.tables⟩

structure State (D : Type) where
  machine : Machine D
  dir : Dir D
  received : Snapshot D
  stage : Who → Stage D
  tmp : Who → FileName

variable {D : Type}

def State.installed (s : State D) : Machine D :=
  ⟨s.received.tables, s.received.description.lastLogId, s.received.description.lastMembership⟩

def State.taken (s : State D) : Who → Snapshot D
  | .build => s.machine.snapshot
  | .install => s.received

/-- The next file-system call, where it does not depend on a listing: the stage, the directory and the
state machine after it. -/
def State.go (s : State D) (w : Who) : Option (Stage D × Dir D × Machine D) :=
  match s.stage w with
  | .start =>
    some (.create, s.dir, match w with
      | .build => s.machine
      | .install => s.installed)
  | .create =>
    match s.dir.createNew (s.tmp w) .empty with
    | some (dir, handle) => some (.fill handle, dir, s.machine)
    | none => some (.failed .taken, s.dir, s.machine)
  | .fill handle => some (.move (s.taken w), s.dir.write handle (.data (s.taken w).tables), s.machine)
  | .move k =>
    match s.dir.rename (s.tmp w) (dataFile k.description.snapshotId) with
    | some dir => some (.describe k, dir, s.machine)
    | none => some (.discard k .noFile, s.dir, s.machine)
  | .describe k =>
    let (dir, handle) := s.dir.create (metaTmp k.description.snapshotId) .empty
    some (.write k handle, dir, s.machine)
  | .write k handle => some (.publish k, s.dir.write handle (.description k.description), s.machine)
  | .publish k =>
    match s.dir.rename (metaTmp k.description.snapshotId) (metaFile k.description.snapshotId) with
    | some dir => some (.list k, dir, s.machine)
    | none => some (.discard k .noFile, s.dir, s.machine)
  | .list k => some (.clean k s.dir.list, s.dir, s.machine)
  | .look k => some (.looking k s.dir.list none none, s.dir, s.machine)
  | .looking k left best (some p) => some (.looking k left (pick s.dir best p) none, s.dir, s.machine)
  | .openData _ none => some (.failed .gone, s.dir, s.machine)
  | .openData k (some p) =>
    if (s.dir.inode p.1).isSome then some (.returned k (some p.2), s.dir, s.machine)
    else some (.failed .unopened, s.dir, s.machine)
  | .discard k e => some (.discardCheck k e, s.dir.remove (s.tmp w), s.machine)
  | .discardCheck k e =>
    if (s.dir.inode (metaFile k.description.snapshotId)).isSome then some (.failed e, s.dir, s.machine)
    else some (.discardData k e, s.dir, s.machine)
  | .discardData k e =>
    some (.discardTmp k e, s.dir.remove (dataFile k.description.snapshotId), s.machine)
  | .discardTmp k e => some (.failed e, s.dir.remove (metaTmp k.description.snapshotId), s.machine)
  | .looking _ _ _ none | .clean _ _ | .failed _ | .returned _ _ => none

/-- A listing meets a name. -/
def State.visit (s : State D) (w : Who) (n : FileName) : Option (Stage D × Dir D) :=
  match s.stage w with
  | .clean k left =>
    some (.clean k (left.filter (· ≠ n)),
      if n = dataFile k.description.snapshotId ∨ n = metaFile k.description.snapshotId then s.dir
      else s.dir.remove n)
  | .looking k left best none => some (.looking k (left.filter (· ≠ n)) best (described s.dir n), s.dir)
  | _ => none

def State.finish (s : State D) (w : Who) : Option (Stage D) :=
  match s.stage w with
  | .clean k left =>
    if ∀ n ∈ left, s.dir.inode n = none then
      some (match w with
        | .build => .look k
        | .install => .returned k none)
    else none
  | .looking k left best none => if ∀ n ∈ left, s.dir.inode n = none then some (.openData k best) else none
  | _ => none

inductive Event (D : Type) where
  | go (w : Who)
  | visit (w : Who) (n : FileName)
  | finish (w : Who)
  | apply (m : Machine D)

def State.at (s : State D) (w : Who) (stage : Stage D) (dir : Dir D) (machine : Machine D) : State D :=
  { s with stage := Function.update s.stage w stage, dir := dir, machine := machine }

def step (s : State D) : Event D → Option (State D)
  | .go w => (s.go w).map fun r => s.at w r.1 r.2.1 r.2.2
  | .visit w n => (s.visit w n).map fun r => s.at w r.1 r.2 s.machine
  | .finish w => (s.finish w).map fun stage => s.at w stage s.dir s.machine
  | .apply m => some { s with machine := m }

end IoLake.MetaStore.Snapshots
