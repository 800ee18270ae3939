import IoLake.Lib.Steps
import IoLake.Storage.Wal
import IoLake.Storage.DiskIndexScan

/-!
# The metadata store over its crashes (`storage/src/metadata/store.rs`)

A store is a log in front of an index.  `Live` is an open one with everything that may be under way in it;
`World` adds what an observer of the whole run knows: the operations started, those acknowledged and under
which LSN, and the log as it stands.

`step` is one step of one of the parties, under the locks the code takes:

* a writer: `begin`, `append`, `apply`, `ack`, or `refuse` when the log has failed under it;
* group commit: `syncStart`, `syncEnd`;
* a checkpoint: `checkpointStart`, `checkpointMark`, `checkpointFlush`, then the cut of the log in its passes,
  each of which may fail;
* a crash, which keeps every record a sync covered and any part of the rest, and `reopen`.

The store has no guard against two things a run may do, and what it promises fails there (`Recovery`):

* two writers of one key may apply in the other order than they logged (`keysFree` says they do not);
* an open counts every record it finds as synced, though a record that survived one crash without a sync can
  be lost by the next (`keepsRead` says it is not).
-/

namespace IoLake.Storage

open ChangeLog

/-! ## An open store -/

/-- Where a writer is between taking the gate and its answer.  It lets the gate go once applied. -/
inductive Stage where
  | started
  | written (lsn : Nat)
  | applied (lsn : Nat)
  deriving DecidableEq, Repr

structure Writer where
  id : Nat
  op : MetadataOp
  stage : Stage

inductive Checkpoint where
  | idle
  | ready
  | marked (m : WalMark)
  | flushed (m : WalMark)
  | copied (m : WalMark) (first : Nat)
  /-- The new log is renamed into place, the directory not yet synced; the log's locks are held. -/
  | renamed

def Checkpoint.mark : Checkpoint → Option WalMark
  | .marked m => some m
  | .flushed m => some m
  | .copied m _ => some m
  | _ => none

def Checkpoint.holdsLocks : Checkpoint → Bool
  | .renamed => true
  | _ => false

structure Live where
  wal : Wal
  index : DiskIndex
  writers : List Writer
  syncing : Option Nat
  checkpoint : Checkpoint
  /-- The log file a rename replaced while the directory is not synced: a power cut can bring it
  back. -/
  replaced : Option WalFile

structure Disk where
  db : Db
  log : WalFile

def createStore : Live := ⟨Wal.create, DiskIndex.openDb Db.empty, [], none, .idle, none⟩

/-- `MetadataStore::open`: the log replayed over the index from the one after its label. -/
def openStore (d : Disk) : Except Error Live :=
  let index := DiskIndex.openDb d.db
  let checkpointLsn := index.checkpointLsn
  match Wal.openReplaying d.log (checkpointLsn + 1) with
  | .error e => .error e
  | .ok (wal, entries) =>
    .ok ⟨wal.advancePast checkpointLsn, index.applyAll entries, [], none, .idle, none⟩

/-! ## The run -/

structure LogEntry where
  id : Nat
  op : MetadataOp

structure Started where
  op : MetadataOp
  ackedBefore : Nat

structure Ack where
  id : Nat
  lsn : Nat
  deriving DecidableEq, Repr

inductive Phase where
  | live (l : Live)
  | down (d : Disk)

structure World where
  phase : Phase
  log : List LogEntry
  started : List Started
  acked : List Ack
  /-- The last LSN a successful sync of the log has covered, whatever the store takes to be synced. -/
  durable : Nat

def World.init : World := ⟨.live createStore, [], [], [], 0⟩

inductive Event where
  | begin (op : MetadataOp)
  | append (id : Nat) (e : WriteEnd)
  | syncStart
  | syncEnd (ok : Bool)
  | apply (id : Nat)
  | refuse (id : Nat)
  | ack (id : Nat)
  | checkpointStart (c : DiskIndex.Commit)
  | checkpointMark (ok : Bool)
  | checkpointFlush (c : DiskIndex.Commit)
  | truncateFirst (ok : Bool)
  | truncateSecond (ok : Bool)
  | dirSync (ok : Bool)
  | crash (kept : Nat) (torn : Option Bool) (old : Bool)
  | reopen

def disjointKeys (a b : MetadataOp) : Bool :=
  a.changes.all (fun c => b.changes.all (fun c' => decide (c.1 ≠ c'.1)))

def MetadataOp.isEmpty : MetadataOp → Bool
  | .batch [] => true
  | _ => false

section
variable (writers : List Writer) (w : World) (l : Live) (id : Nat)

def setStage (s : Stage) : List Writer :=
  writers.map (fun x => if x.id = id then { x with stage := s } else x)

def dropWriter : List Writer :=
  writers.filter (fun x => decide (x.id ≠ id))

def findWriter : Option Writer :=
  writers.find? (fun x => decide (x.id = id))

def Writer.holdsGate (x : Writer) : Bool :=
  match x.stage with
  | .applied _ => false
  | _ => true

def reachesLog (w : Wal) (e : WriteEnd) : Bool :=
  !w.failed && (decide (e = .written) || decide (e = .failed .all))

def stepAppend (e : WriteEnd) : Option World :=
  if l.checkpoint.holdsLocks then none
  else
    match findWriter l.writers id with
    | some ⟨_, op, .started⟩ =>
      let log := if reachesLog l.wal e then w.log ++ [⟨id, op⟩] else w.log
      match l.wal.append op e with
      | (wal, .ok lsn) =>
        some { w with phase := .live { l with wal := wal, writers := setStage l.writers id (.written lsn) }
                      log := log }
      | (wal, .error _) =>
        some { w with phase := .live { l with wal := wal, writers := dropWriter l.writers id }
                      log := log }
    | _ => none

/-- A crash: of the log file (or the one it replaced, where that rename may be undone) every record that a
sync covered is left, and any number of the rest. -/
def stepCrash (kept : Nat) (torn : Option Bool) (old : Bool) : Option World :=
  match (if old then l.replaced else some l.wal.log) with
  | none => none
  | some file =>
    if kept ≤ file.records.length ∧
        (file.records.drop kept).all (fun r => decide (w.durable < r.lsn)) then
      some { w with phase := .down ⟨l.index.db, ⟨file.records.take kept, torn⟩⟩
                    log := w.log.take (w.log.length - (file.records.length - kept)) }
    else none

def stepLive : Event → Option World
  | .begin op =>
    if !op.flat then none
    -- nothing to write: answered at once, nothing logged
    else if op.isEmpty then some w
    else
      some { w with
        phase := .live { l with writers := l.writers ++ [⟨w.started.length, op, .started⟩] }
        started := w.started ++ [⟨op, w.acked.length⟩] }
  | .append id e => stepAppend w l id e
  | .syncStart =>
    if l.syncing.isSome || l.checkpoint.holdsLocks then none
    else
      match l.wal.syncSample with
      | .ok covered => some { w with phase := .live { l with syncing := some covered } }
      | .error _ => none
  | .syncEnd ok =>
    match l.syncing with
    | some covered =>
      some { w with phase := .live { l with wal := l.wal.synced covered ok, syncing := none }
                    durable := if ok then max w.durable covered else w.durable }
    | none => none
  | .apply id =>
    match findWriter l.writers id with
    | some ⟨_, op, .written lsn⟩ =>
      if lsn ≤ l.wal.syncedLsn then
        some { w with phase := .live { l with
          index := l.index.applyAll op.changes, writers := setStage l.writers id (.applied lsn) } }
      else none
    | _ => none
  | .refuse id =>
    match findWriter l.writers id with
    | some ⟨_, _, .written lsn⟩ =>
      if l.wal.failed ∧ l.wal.syncedLsn < lsn then
        some { w with phase := .live { l with writers := dropWriter l.writers id } }
      else none
    | _ => none
  | .ack id =>
    match findWriter l.writers id with
    | some ⟨_, _, .applied lsn⟩ =>
      some { w with phase := .live { l with writers := dropWriter l.writers id }
                    acked := w.acked ++ [⟨id, lsn⟩] }
    | _ => none
  | .checkpointStart c =>
    match l.checkpoint with
    | .idle =>
      match l.index.frozen with
      | none => some { w with phase := .live { l with checkpoint := .ready } }
      | some _ =>
        match l.index.flushFrozen l.index.checkpointLsn c with
        | (index, ok) =>
          some { w with phase := .live { l with
            index := index, checkpoint := if ok then .ready else .idle } }
    | _ => none
  | .checkpointMark ok =>
    match l.checkpoint with
    | .ready =>
      if l.writers.any Writer.holdsGate then none
      else
        match l.wal.mark with
        | .ok m =>
          if ok then some { w with phase := .live { l with
            index := l.index.freeze.1, checkpoint := .marked m } }
          else some { w with phase := .live { l with checkpoint := .idle } }
        | .error _ => some { w with phase := .live { l with checkpoint := .idle } }
    | _ => none
  | .checkpointFlush c =>
    match l.checkpoint with
    | .marked m =>
      match l.index.flushFrozen m.lsn c with
      | (index, ok) =>
        some { w with phase := .live { l with
          index := index, checkpoint := if ok then .flushed m else .idle } }
    | _ => none
  | .truncateFirst ok =>
    match l.checkpoint with
    | .flushed m =>
      match l.wal.truncateFirst m with
      | .ok first => some { w with phase := .live { l with
          checkpoint := if ok then .copied m first else .idle } }
      | .error _ => some { w with phase := .live { l with checkpoint := .idle } }
    | _ => none
  | .truncateSecond ok =>
    match l.checkpoint with
    | .copied m first =>
      if l.syncing.isSome then none
      else
        match l.wal.truncateSecond m first with
        | .ok wal =>
          if ok then some { w with phase := .live { l with
            wal := wal, checkpoint := .renamed, replaced := some l.wal.log } }
          else some { w with phase := .live { l with checkpoint := .idle } }
        | .error _ => some { w with phase := .live { l with checkpoint := .idle } }
    | _ => none
  | .dirSync ok =>
    match l.checkpoint with
    | .renamed =>
      some { w with phase := .live { l with
                      wal := l.wal.dirSynced ok, checkpoint := .idle
                      replaced := if ok then none else l.replaced }
                    durable := if ok then max w.durable l.wal.writtenLsn else w.durable }
    | _ => none
  | .crash kept torn old => stepCrash w l kept torn old
  | .reopen => none

def step (e : Event) : Option World :=
  match w.phase with
  | .live l => stepLive w l e
  | .down d =>
    match e with
    | .reopen =>
      match openStore d with
      -- cutting a torn tail off syncs the file; a log that ends with a record is left as it is
      | .ok l => some { w with phase := .live l
                               durable := if d.log.torn.isSome then max w.durable l.wal.writtenLsn
                                 else w.durable }
      | .error _ => none
    | _ => none

/-- An operation that begins touches no key of one under way. -/
def keysFree : Event → Bool
  | .begin op =>
    match w.phase with
    | .live l => l.writers.all (fun x => disjointKeys x.op op && disjointKeys op x.op)
    | .down _ => true
  | _ => true

/-- A crash loses no record that the store takes to be synced, one that an open has read among them. -/
def keepsRead : Event → Bool
  | .crash kept _ old =>
    match w.phase with
    | .live l => (if old then l.replaced else some l.wal.log).all fun file =>
        (file.records.drop kept).all fun r => decide (l.wal.syncedLsn < r.lsn)
    | .down _ => true
  | _ => true

def Careful (e : Event) : Prop := keysFree w e = true ∧ keepsRead w e = true

instance (e : Event) : Decidable (Careful w e) := inferInstanceAs (Decidable (_ ∧ _))

end

def run (es : List Event) : Option World := Steps.run step World.init es

/-- Every step of the run is careful. -/
def CarefulRun (es : List Event) : Prop := Steps.Along step Careful World.init es

instance (es : List Event) : Decidable (CarefulRun es) := inferInstanceAs (Decidable (Steps.Along ..))

end IoLake.Storage
