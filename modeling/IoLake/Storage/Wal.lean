import IoLake.Storage.DiskIndex

/-!
# The metadata log (`storage/src/metadata/wal.rs`)

The log file is a list of whole records, each an operation under its LSN, and what a write cut short may have
left after them.
-/

namespace IoLake.Storage

open ChangeLog List DiskIndex

/-! ## Operations -/

inductive MetadataOp where
  | put (key value : Bytes)
  | delete (key : Bytes)
  | batch (ops : List MetadataOp)

mutual
def MetadataOp.changes : MetadataOp → List Change
  | .put key value => [(key, some value)]
  | .delete key => [(key, none)]
  | .batch ops => changesOfAll ops

def changesOfAll : List MetadataOp → List Change
  | [] => []
  | op :: ops => op.changes ++ changesOfAll ops
end

def entriesOf : MetadataOp → List Change
  | .put key value => [(key, some value)]
  | .delete key => [(key, none)]
  | .batch ops => ops.flatMap fun
    | .put key value => [(key, some value)]
    | .delete key => [(key, none)]
    | .batch _ => []

def MetadataOp.flat : MetadataOp → Bool
  | .put _ _ => true
  | .delete _ => true
  | .batch ops => ops.all fun
    | .batch _ => false
    | _ => true

theorem changesOfAll_eq : ∀ {ops : List MetadataOp}, (MetadataOp.batch ops).flat = true →
    changesOfAll ops = entriesOf (.batch ops)
  | [], _ => rfl
  | op :: ops, h => by
    simp only [MetadataOp.flat, all_cons, Bool.and_eq_true] at h
    have ih := @changesOfAll_eq ops h.2
    rw [changesOfAll, ih]
    cases op with
    | put key value | delete key => rfl
    | batch inner => simp at h

theorem entriesOf_eq_changes {op : MetadataOp} (h : op.flat = true) : entriesOf op = op.changes := by
  cases op with
  | put key value | delete key => rfl
  | batch ops => exact (changesOfAll_eq h).symm

def DiskIndex.applyEntry (d : DiskIndex) (c : Change) : DiskIndex :=
  match c.2 with
  | some v => d.put c.1 v
  | none => d.delete c.1

def DiskIndex.applyAll (d : DiskIndex) (l : List Change) : DiskIndex :=
  l.foldl applyEntry d

theorem DiskIndex.applyEntry_eq (d : DiskIndex) (c : Change) :
    d.applyEntry c = { d with active := d.active.set c.1 c.2 } := by
  obtain ⟨k, v⟩ := c
  cases v <;> rfl

theorem DiskIndex.view_applyAll : ∀ (l : List Change) (d : DiskIndex),
    (d.applyAll l).view = applyChanges l d.view
  | [], _ => rfl
  | c :: l, d => by
    have ih := view_applyAll l (d.applyEntry c)
    rw [applyEntry_eq d c, view_set] at ih
    rw [← applyEntry_eq] at ih
    exact ih

@[simp] theorem DiskIndex.applyAll_db : ∀ (l : List Change) (d : DiskIndex), (d.applyAll l).db = d.db
  | [], _ => rfl
  | c :: l, d => by
    refine (applyAll_db l (d.applyEntry c)).trans ?_
    rw [applyEntry_eq]

@[simp] theorem DiskIndex.applyAll_frozen : ∀ (l : List Change) (d : DiskIndex),
    (d.applyAll l).frozen = d.frozen
  | [], _ => rfl
  | c :: l, d => by
    refine (applyAll_frozen l (d.applyEntry c)).trans ?_
    rw [applyEntry_eq]

/-! ## The log -/

structure Record where
  lsn : Nat
  op : MetadataOp

/-- Its whole records in order, and what follows them: nothing, or part of a record, which may hold the bytes
of a whole one. -/
structure WalFile where
  records : List Record
  torn : Option Bool

/-- The last LSN written, where its record ends (in records), and which file that is in. -/
structure WalMark where
  lsn : Nat
  offset : Nat
  file : Nat

structure Wal where
  log : WalFile
  nextLsn : Nat
  writtenLsn : Nat
  syncedLsn : Nat
  file : Nat
  failed : Bool

inductive Left where
  | nothing
  | part (holdsWhole : Bool)
  | all
  deriving DecidableEq, Repr

/-- Written; refused for want of room and cut off again; or failed otherwise, which leaves something unknown.
-/
inductive WriteEnd where
  | written
  | noRoom
  | failed (left : Left)
  deriving DecidableEq, Repr

namespace Wal

def currentLsn (w : Wal) : Nat := w.nextLsn - 1

def errFailed : Error := .storage "metadata log: takes no writes after an earlier failure"
def errWrite : Error := .storage "metadata log: write failed"
def errStale : Error := .storage "WAL truncation: the mark is from a log since replaced"

/-- Numbered only once written; a record the filesystem had no room for is cut off again, any other failure
fails the log for good. -/
def append (w : Wal) (op : MetadataOp) (e : WriteEnd) : Wal × Except Error Nat :=
  if w.failed then (w, .error errFailed)
  else
    match e with
    | .written =>
      ({ w with log := { w.log with records := w.log.records ++ [⟨w.nextLsn, op⟩] }
                nextLsn := w.nextLsn + 1, writtenLsn := w.nextLsn }, .ok w.nextLsn)
    | .noRoom => (w, .error errWrite)
    | .failed .nothing => ({ w with failed := true }, .error errWrite)
    | .failed (.part b) =>
      ({ w with log := { w.log with torn := some b }, failed := true }, .error errWrite)
    | .failed .all =>
      ({ w with log := { w.log with records := w.log.records ++ [⟨w.nextLsn, op⟩] }
                failed := true }, .error errWrite)

/-- Group commit: a sync claims what was written when it started. -/
def syncSample (w : Wal) : Except Error Nat :=
  if w.failed then .error errFailed else .ok w.writtenLsn

def synced (w : Wal) (covered : Nat) (ok : Bool) : Wal :=
  if ok then { w with syncedLsn := max w.syncedLsn covered } else { w with failed := true }

def mark (w : Wal) : Except Error WalMark :=
  if w.failed then .error errFailed
  else .ok ⟨w.currentLsn, w.log.records.length, w.file⟩

/-- Pass one of the cut: how much of the file is copied with appends going on. -/
def truncateFirst (w : Wal) (m : WalMark) : Except Error Nat :=
  if w.failed then .error errFailed
  else if m.file ≠ w.file ∨ w.log.records.length < m.offset then .error errStale
  else .ok w.log.records.length

/-- The rest copied with appends and syncs held, and the new file renamed over the old. -/
def truncateSecond (w : Wal) (m : WalMark) (first : Nat) : Except Error Wal :=
  if w.failed then .error errFailed
  else if m.file ≠ w.file ∨ w.log.records.length < first then .error errStale
  else .ok { w with log := ⟨w.log.records.drop m.offset, none⟩, file := w.file + 1 }

def dirSynced (w : Wal) (ok : Bool) : Wal :=
  if ok then { w with syncedLsn := max w.syncedLsn w.writtenLsn } else { w with failed := true }

/-- Never number a record at or below `lsn`. -/
def advancePast (w : Wal) (lsn : Nat) : Wal :=
  { w with nextLsn := max w.nextLsn (lsn + 1), writtenLsn := max w.writtenLsn lsn
           syncedLsn := max w.syncedLsn lsn }

def withFile (log : WalFile) (lastLsn : Nat) : Wal :=
  ⟨log, lastLsn + 1, lastLsn, lastLsn, 0, false⟩

def create : Wal := withFile ⟨[], none⟩ 0

end Wal

def errMissing : Error := .storage "metadata log: records are missing"
def errDamaged : Error := .storage "metadata log: damage, not a torn append"

def scanRecords (fromLsn : Nat) : Nat → List Record → Except Error (Nat × List Change)
  | lastLsn, [] => .ok (lastLsn, [])
  | lastLsn, r :: records =>
    if lastLsn = 0 ∧ fromLsn < r.lsn then .error errMissing
    else if lastLsn ≠ 0 ∧ r.lsn ≠ lastLsn + 1 then .error errMissing
    else
      match scanRecords fromLsn r.lsn records with
      | .error e => .error e
      | .ok (last, entries) =>
        .ok (last, (if fromLsn ≤ r.lsn then entriesOf r.op else []) ++ entries)

/-- Records must follow on from one another and from where the replay starts; a torn tail is cut off, and one
that holds a whole record is damage. -/
def scanWal (file : WalFile) (fromLsn : Nat) : Except Error (Nat × List Change) :=
  match scanRecords fromLsn 0 file.records with
  | .error e => .error e
  | .ok r => if file.torn = some true then .error errDamaged else .ok r

def Wal.openReplaying (file : WalFile) (fromLsn : Nat) : Except Error (Wal × List Change) :=
  match scanWal file fromLsn with
  | .error e => .error e
  | .ok (lastLsn, entries) => .ok (Wal.withFile { file with torn := none } lastLsn, entries)

def recordsFrom (lsn : Nat) : List MetadataOp → List Record
  | [] => []
  | op :: ops => ⟨lsn, op⟩ :: recordsFrom (lsn + 1) ops

@[simp] theorem length_recordsFrom : ∀ (lsn : Nat) (ops : List MetadataOp),
    (recordsFrom lsn ops).length = ops.length
  | _, [] => rfl
  | lsn, _ :: ops => by simp [recordsFrom, length_recordsFrom (lsn + 1) ops]

theorem recordsFrom_append : ∀ (lsn : Nat) (a b : List MetadataOp),
    recordsFrom lsn (a ++ b) = recordsFrom lsn a ++ recordsFrom (lsn + a.length) b
  | _, [], _ => by simp [recordsFrom]
  | lsn, op :: a, b => by
    simp only [cons_append, recordsFrom, recordsFrom_append (lsn + 1) a b, length_cons,
      show lsn + (a.length + 1) = lsn + 1 + a.length by omega]

theorem recordsFrom_drop : ∀ (n lsn : Nat) (ops : List MetadataOp),
    (recordsFrom lsn ops).drop n = recordsFrom (lsn + n) (ops.drop n)
  | 0, _, _ => rfl
  | n + 1, _, [] => by simp [recordsFrom]
  | n + 1, lsn, _ :: ops => by
    simp only [recordsFrom, drop_succ_cons, recordsFrom_drop n (lsn + 1) ops,
      show lsn + 1 + n = lsn + (n + 1) by omega]

theorem recordsFrom_take : ∀ (n lsn : Nat) (ops : List MetadataOp),
    (recordsFrom lsn ops).take n = recordsFrom lsn (ops.take n)
  | 0, _, _ => rfl
  | n + 1, _, [] => by simp [recordsFrom]
  | n + 1, lsn, _ :: ops => by
    simp only [recordsFrom, take_succ_cons, recordsFrom_take n (lsn + 1) ops]

theorem scanRecords_from (fromLsn : Nat) : ∀ (last : Nat) (ops : List MetadataOp),
    (last = 0 → fromLsn ≠ 0) → scanRecords fromLsn last (recordsFrom (last + 1) ops) =
      .ok (last + ops.length, (ops.drop (fromLsn - (last + 1))).flatMap entriesOf)
  | last, [], _ => by simp [recordsFrom, scanRecords]
  | last, op :: ops, h => by
    have ih := scanRecords_from fromLsn (last + 1) ops (by omega)
    have h₁ : ¬ (last = 0 ∧ fromLsn < last + 1) := by omega
    have h₂ : ¬ (last ≠ 0 ∧ last + 1 ≠ last + 1) := by omega
    simp only [recordsFrom, scanRecords, if_neg h₁, if_neg h₂, ih]
    congr 1
    refine Prod.ext (by simp only [length_cons]; omega) ?_
    show (if fromLsn ≤ last + 1 then entriesOf op else []) ++ _ = _
    split
    · have e₁ : fromLsn - (last + 1) = 0 := by omega
      have e₂ : fromLsn - (last + 1 + 1) = 0 := by omega
      rw [e₁, e₂]
      rfl
    · have e₁ : fromLsn - (last + 1) = fromLsn - (last + 1 + 1) + 1 := by omega
      rw [e₁, drop_succ_cons]
      rfl

theorem scanWal_ok {ops : List MetadataOp} {base from' : Nat} (hb : base ≤ from')
    (torn : Option Bool) (ht : torn ≠ some true) :
    scanWal ⟨recordsFrom (base + 1) (ops.drop base), torn⟩ (from' + 1) =
      .ok (if ops.length ≤ base then 0 else ops.length, (ops.drop from').flatMap entriesOf) := by
  unfold scanWal
  have key : scanRecords (from' + 1) 0 (recordsFrom (base + 1) (ops.drop base)) =
      .ok (if ops.length ≤ base then 0 else ops.length, (ops.drop from').flatMap entriesOf) := by
    cases hd : ops.drop base with
    | nil =>
      have hlen : ops.length ≤ base := drop_eq_nil_iff.1 hd
      have hf : ops.drop from' = [] := drop_eq_nil_iff.2 (hlen.trans hb)
      simp [recordsFrom, scanRecords, hlen, hf]
    | cons op rest =>
      have hlt : ¬ ops.length ≤ base := by
        intro hle
        rw [drop_eq_nil_of_le hle] at hd
        cases hd
      have hrest := scanRecords_from (from' + 1) (base + 1) rest (by omega)
      have hlen : base + 1 + rest.length = ops.length := by
        have := congrArg length hd
        simp only [length_drop, length_cons] at this
        omega
      have h₁ : ¬ (from' + 1 < base + 1) := by omega
      simp only [recordsFrom, scanRecords, h₁, and_false, if_false, ne_eq, not_true_eq_false,
        false_and, hrest]
      refine congrArg Except.ok (Prod.ext ?_ ?_)
      · rw [if_neg hlt]
        exact hlen
      · have hfrom : ops.drop from' = (op :: rest).drop (from' - base) := by
          rw [← hd, drop_drop, show base + (from' - base) = from' by omega]
        show (if from' + 1 ≤ base + 1 then entriesOf op else []) ++ _ = _
        rw [hfrom]
        split
        · have e₁ : from' - base = 0 := by omega
          have e₂ : from' + 1 - (base + 1 + 1) = 0 := by omega
          rw [e₁, e₂]
          rfl
        · have e₁ : from' - base = from' + 1 - (base + 1 + 1) + 1 := by omega
          rw [e₁, drop_succ_cons]
          rfl
  rw [key]
  simp [ht]

end IoLake.Storage
