import IoLake.Lib.ByteOrder
import IoLake.Lib.OverlayScan

/-!
# The metadata index (`storage/src/metadata/disk_index.rs`)

Recent changes stand in memory, the rest in a B-tree file.  `DiskIndex.view` is what the layers stand for, and
**a flush moves the frozen changes into the file and leaves the view alone** (`view_flushFrozen`).
-/

namespace IoLake.Storage

open ChangeLog OverlayScan List Option OrdMap

abbrev Row := Bytes × Bytes

abbrev Change := Bytes × Option Bytes

/-- redb's room for one entry besides the key and value, with a margin. -/
def slack (key : Bytes) : Nat := key.length + 64

def TAIL_MAX : Nat := 1024

def splitAt (key : Bytes) (len : Nat) : Option Nat :=
  let page := (len + slack key).nextPowerOfTwo / 2
  if page < 4096 then none
  -- below zero the difference wraps past every length, so nothing is longer than it
  else if page < slack key then none
  else
    let first := page - slack key
    if first < len ∧ len - first ≤ TAIL_MAX then some first else none

def mayBeSplit (key : Bytes) (len : Nat) : Bool :=
  let full := len + slack key
  decide (4096 ≤ full) && decide full.isPowerOfTwo

def whole (tails : OrdMap Bytes Bytes) (key value : Bytes) : Bytes :=
  if mayBeSplit key value.length then
    match tails.get key with
    | some rest => value ++ rest
    | none => value
  else value

theorem half_isPowerOfTwo {n : Nat} (h : 4096 ≤ n.nextPowerOfTwo / 2) :
    (n.nextPowerOfTwo / 2).isPowerOfTwo := by
  obtain ⟨k, hk⟩ := Nat.isPowerOfTwo_nextPowerOfTwo n
  cases k with
  | zero =>
    rw [hk] at h
    simp at h
  | succ k => exact ⟨k, by rw [hk, Nat.pow_succ]; omega⟩

theorem splitAt_some {key : Bytes} {len at' : Nat} (h : splitAt key len = some at') :
    at' ≤ len ∧ mayBeSplit key at' = true := by
  unfold splitAt at h
  simp only [ite_none_left_eq_some, ite_none_right_eq_some] at h
  obtain ⟨h₁, h₂, ⟨h₃, -⟩, h₄⟩ := h
  have hfull : at' + slack key = (len + slack key).nextPowerOfTwo / 2 := by
    have := some.inj h₄
    omega
  refine ⟨by have := some.inj h₄; omega, ?_⟩
  have h4096 : 4096 ≤ (len + slack key).nextPowerOfTwo / 2 := by omega
  simp [mayBeSplit, hfull, h4096, half_isPowerOfTwo h4096]

/-! ## The file -/

/-- The tables of the index file: `entries`, `tails`, and the state's `checkpoint_lsn`. -/
structure Db where
  entries : OrdMap Bytes Bytes
  tails : OrdMap Bytes Bytes
  checkpointLsn : Option Nat
  deriving DecidableEq, Inhabited

def Db.empty : Db := ⟨OrdMap.empty, OrdMap.empty, none⟩

def Db.map (db : Db) : OrdMap Bytes Bytes := db.entries.mapValues (whole db.tails)

/-- One entry of the frozen memtable written to the file: a rest of the value it replaces goes
with that value. -/
def Db.write (db : Db) (c : Change) : Db :=
  let tails := db.tails.erase c.1
  match c.2 with
  | some v =>
    match splitAt c.1 v.length with
    | some at' =>
      { db with entries := db.entries.insert c.1 (v.take at'), tails := tails.insert c.1 (v.drop at') }
    | none => { db with entries := db.entries.insert c.1 v, tails := tails }
  | none => { db with entries := db.entries.erase c.1, tails := tails }

def Db.writeAll (db : Db) (l : List Change) : Db := l.foldl Db.write db

variable (db : Db) (k : Bytes)

theorem Db.get_map : db.map.get k = (db.entries.get k).map (whole db.tails k) := get_mapValues _ _ _

theorem whole_congr {t t' : OrdMap Bytes Bytes} {k : Bytes} (h : t.get k = t'.get k) (v : Bytes) :
    whole t k v = whole t' k v := by
  simp only [whole, h]

theorem whole_of_get_none {t : OrdMap Bytes Bytes} {k v : Bytes} (h : t.get k = none) : whole t k v = v := by
  simp [whole, h]

theorem Db.map_write (c : Change) : (db.write c).map = applyChange db.map c := by
  obtain ⟨k, v⟩ := c
  apply OrdMap.ext_get
  intro k'
  rw [get_applyChange, Db.get_map, Db.get_map]
  unfold Db.write
  by_cases hk : k' = k
  · subst hk
    rw [if_pos rfl]
    cases v with
    | none => simp
    | some v =>
      cases hs : splitAt k' v.length with
      | none => simp [hs, whole_of_get_none]
      | some at' =>
        obtain ⟨hle, hmay⟩ := splitAt_some hs
        simp [hs, whole, length_take, Nat.min_eq_left hle, hmay]
  · rw [if_neg hk]
    cases v with
    | none =>
      simp only [get_erase, if_neg hk]
      exact congrArg (Option.map · _) (funext fun v => whole_congr (by simp [get_erase, hk]) v)
    | some v =>
      cases hs : splitAt k v.length with
      | none =>
        simp only [hs, get_insert, if_neg hk]
        exact congrArg (Option.map · _)
          (funext fun v => whole_congr (by simp [get_erase, hk]) v)
      | some at' =>
        simp only [hs, get_insert, if_neg hk]
        exact congrArg (Option.map · _)
          (funext fun v => whole_congr (by simp [get_insert, get_erase, hk]) v)

theorem Db.map_writeAll : ∀ (l : List Change) (db : Db), (db.writeAll l).map = applyChanges l db.map
  | [], db => rfl
  | c :: l, db => by
    have ih := Db.map_writeAll l (db.write c)
    rw [Db.map_write] at ih
    exact ih

theorem Db.writeAll_checkpointLsn : ∀ (l : List Change) (db : Db),
    (db.writeAll l).checkpointLsn = db.checkpointLsn
  | [], _ => rfl
  | c :: l, db => by
    refine (Db.writeAll_checkpointLsn l (db.write c)).trans ?_
    unfold Db.write
    repeat (first | rfl | split)

/-- Changes not yet in the file, `none` a delete; `Memtable.range` copies a bounded window of it. -/
structure Memtable where
  map : OrdMap Bytes (Option Bytes)
  bytes : Nat
  deriving DecidableEq, Inhabited

def Memtable.empty : Memtable := ⟨OrdMap.empty, 0⟩

def Memtable.set (m : Memtable) (key : Bytes) (value : Option Bytes) : Memtable :=
  ⟨m.map.insert key value, m.bytes + (key.length + (value.map length).getD 0 + 64)⟩

def atStart (pfx : Bytes) (after : Option Bytes) (k : Bytes) : Bool :=
  match after with
  | none => decide (pfx ≤ k)
  | some a => decide (a < k)

def prefixRange {V : Type} (m : OrdMap Bytes V) (pfx : Bytes) (after : Option Bytes) : List (Bytes × V) :=
  (m.entries.filter (fun e => atStart pfx after e.1)).takeWhile (fun e => pfx.isPrefixOf e.1)

def Memtable.range (m : Memtable) (pfx : Bytes) (after : Option Bytes) (limit : Nat) : List Change × Bool :=
  let range := prefixRange m.map pfx after
  let out := range.take limit
  (out, decide (out.length < limit) || (range.drop limit).isEmpty)

/-! ## The memtables' overlay of the file -/

def WINDOW : Nat := 1024

/-- The memtables' entries under a prefix, read a window at a time. -/
structure Overlay where
  tables : List Memtable
  pfx : Bytes
  after : Option Bytes
  window : List Change
  done : Bool

def Overlay.new (tables : List Memtable) (pfx : Bytes) (after : Option Bytes) : Overlay :=
  ⟨tables, pfx, after, [], false⟩

def cutAt (entries : List Change) (all : Bool) (upto : Option Bytes) : Option Bytes :=
  match entries.getLast? with
  | some (last, _) => if !all && upto.all (fun u => decide (last < u)) then some last else upto
  | none => upto

def fillTable (pfx : Bytes) (after : Option Bytes) (acc : OrdMap Bytes (Option Bytes) × Option Bytes)
    (t : Memtable) : OrdMap Bytes (Option Bytes) × Option Bytes :=
  let (entries, all) := t.range pfx after WINDOW
  (acc.1.extend entries, cutAt entries all acc.2)

def keepThrough (merged : OrdMap Bytes (Option Bytes)) (upto : Bytes) : OrdMap Bytes (Option Bytes) :=
  let later := merged.filterKeys (fun k => decide (upto ≤ k))
  let kept := merged.filterKeys (fun k => decide (k < upto))
  match later.get upto with
  | some v => kept.insert upto v
  | none => kept

def Overlay.fill (o : Overlay) : Overlay :=
  let (merged, upto) := o.tables.foldl (fillTable o.pfx o.after) (empty, none)
  let merged := match upto with
    | some u => keepThrough merged u
    | none => merged
  { o with window := merged.entries, after := upto, done := upto.isNone }

/-- What the iterator yields with at most `fuel` further windows. -/
def Overlay.items : Nat → Overlay → List Change
  | 0, o => o.window
  | fuel + 1, o => o.window ++ if o.done then [] else Overlay.items fuel o.fill

def Overlay.fuel (o : Overlay) : Nat := (o.tables.map (fun t => t.map.size)).sum

/-! ## The index -/

inductive Error where
  | storage (what : String)
  deriving DecidableEq, Repr

/-- `put`, `delete`, `freeze`, `flushFrozen`, and the reads `get`, `forEachPrefix`, `snapshot`, `len`. -/
structure DiskIndex where
  db : Db
  active : Memtable
  frozen : Option Memtable
  deriving DecidableEq, Inhabited

namespace DiskIndex

def openDb (db : Db) : DiskIndex := ⟨db, Memtable.empty, none⟩

def checkpointLsn (d : DiskIndex) : Nat := d.db.checkpointLsn.getD 0

def put (d : DiskIndex) (key value : Bytes) : DiskIndex :=
  { d with active := d.active.set key (some value) }

def delete (d : DiskIndex) (key : Bytes) : DiskIndex :=
  { d with active := d.active.set key none }

def memtables (d : DiskIndex) : List Memtable := d.frozen.toList ++ [d.active]

def get (d : DiskIndex) (key : Bytes) : Option Bytes :=
  match d.active.map.get key with
  | some v => v
  | none =>
    match d.frozen.bind (fun f => f.map.get key) with
    | some v => v
    | none => (d.db.entries.get key).map (whole d.db.tails key)

/-- `map_while(|r| r.ok())`: the rows of a file iterator before its first failed read. -/
def okRows {α : Type} : List (Except Error α) → List α
  | .ok r :: rows => r :: okRows rows
  | _ => []

/-- The file's rows merged with the memtables' changes in key order, each handed to `f` until it returns
`false`. -/
def scanLoop {σ : Type} (tails : OrdMap Bytes Bytes) (f : Bytes → Bytes → σ → Bool × σ) :
    List Row → List Change → σ → σ
  | [], [], s => s
  | (k, v) :: file, [], s =>
    match f k (whole tails k v) s with
    | (true, s') => scanLoop tails f file [] s'
    | (false, s') => s'
  | [], (_, none) :: mem, s => scanLoop tails f [] mem s
  | [], (k, some v) :: mem, s =>
    match f k v s with
    | (true, s') => scanLoop tails f [] mem s'
    | (false, s') => s'
  | (fk, fv) :: file, (k, c) :: mem, s =>
    if k ≤ fk then
      -- the memtable's entry replaces the file's
      match c with
      | none => scanLoop tails f (dropKey k ((fk, fv) :: file)) mem s
      | some v =>
        match f k v s with
        | (true, s') => scanLoop tails f (dropKey k ((fk, fv) :: file)) mem s'
        | (false, s') => s'
    else
      match f fk (whole tails fk fv) s with
      | (true, s') => scanLoop tails f file ((k, c) :: mem) s'
      | (false, s') => s'
termination_by file mem => file.length + mem.length
decreasing_by
  all_goals simp only [length_cons, length_nil]
  all_goals try have := length_dropKey_le k ((fk, fv) :: file)
  all_goals try simp only [length_cons] at this
  all_goals omega

/-- Call `f` on each entry under `pfx`, in key order, starting after `after` (or at the prefix),
until `f` returns `false`. -/
def forEachPrefix {σ : Type} (d : DiskIndex) (pfx : Bytes) (after : Option Bytes)
    (f : Bytes → Bytes → σ → Bool × σ) (s : σ) : Except Error Unit × σ :=
  let overlay := Overlay.new d.memtables pfx after
  let file := (okRows ((d.db.entries.entries.filter (fun e => atStart pfx after e.1)).map .ok)).takeWhile
    (fun e => pfx.isPrefixOf e.1)
  (.ok (), scanLoop d.db.tails f file (overlay.items overlay.fuel) s)

/-- `Snapshot`: the range as a read transaction saw the file, and as the memtables held it. -/
structure Snapshot where
  entries : OrdMap Bytes Bytes
  tails : OrdMap Bytes Bytes
  mem : OrdMap Bytes (Option Bytes)
  from' : Bytes
  below : Bytes

def inRange (from' below k : Bytes) : Bool := decide (from' ≤ k) && decide (k < below)

/-- The entries in `[from', below)`; `none` where the ordered map's `range` panics, its start past its end. -/
def snapshot (d : DiskIndex) (from' below : Bytes) : Option Snapshot :=
  if from' ≤ below then
    let mem := d.memtables.foldl
      (fun mem t => mem.extend (t.map.entries.filter (fun e => inRange from' below e.1))) empty
    some ⟨d.db.entries, d.db.tails, mem, from', below⟩
  else none

def Snapshot.forEach {σ : Type} (sn : Snapshot) (f : Bytes → Bytes → σ → Bool × σ) (s : σ) :
    Except Error Unit × σ :=
  let file := okRows
    ((sn.entries.entries.filter (fun e => inRange sn.from' sn.below e.1)).map .ok)
  (.ok (), scanLoop sn.tails f file sn.mem.entries s)

def len (d : DiskIndex) : Nat :=
  let overlay := d.memtables.foldl
    (fun o t => t.map.entries.foldl (fun o e => o.insert e.1 e.2.isSome) o)
    (empty : OrdMap Bytes Bool)
  overlay.entries.foldl
    (fun n e => match e.2, d.db.entries.contains e.1 with
      | true, false => n + 1
      | false, true => n - 1
      | _, _ => n)
    d.db.entries.size

/-- Start a checkpoint: the memtable stops taking changes, a new one takes them.  `false` if one is
already under way. -/
def freeze (d : DiskIndex) : DiskIndex × Bool :=
  match d.frozen with
  | some _ => (d, false)
  | none => ({ d with active := Memtable.empty, frozen := some d.active }, true)

/-- How a commit to the file ends: answered, refused before anything of it landed, or landed with
its answer lost. -/
inductive Commit where
  | done
  | refused
  | unanswered
  deriving DecidableEq, Repr

def flushed (db : Db) (frozen : Memtable) (lsn : Nat) : Db :=
  { db.writeAll frozen.map.entries with checkpointLsn := some lsn }

/-- Write the frozen memtable to the file as holding every change through `lsn`; on an error it stays frozen.
-/
def flushFrozen (d : DiskIndex) (lsn : Nat) (commit : Commit) : DiskIndex × Bool :=
  match d.frozen with
  | none => (d, true)
  | some frozen =>
    match commit with
    | .done => ({ d with db := flushed d.db frozen lsn, frozen := none }, true)
    | .refused => (d, false)
    | .unanswered => ({ d with db := flushed d.db frozen lsn }, false)

/-! ## What the layers stand for -/

/-- The changes held in memory, the active memtable's over the frozen one's. -/
def pending (d : DiskIndex) : OrdMap Bytes (Option Bytes) :=
  d.memtables.foldl (fun m t => m.extend t.map.entries) empty

/-- **The map the index stands for**: the file's, with the changes in memory applied. -/
def view (d : DiskIndex) : OrdMap Bytes Bytes := applyChanges d.pending.entries d.db.map

variable (d : DiskIndex)

theorem get_pending : d.pending.get k = (d.active.map.get k).or (d.frozen.bind (fun f => f.map.get k)) := by
  unfold pending memtables
  cases d.frozen with
  | none | some f => simp [get_extend_entries]

theorem get_view : d.view.get k = (d.pending.get k).getD (d.db.map.get k) := get_applyTable _ _ _

theorem view_eq : d.view = applyChanges d.active.map.entries
      (applyChanges ((d.frozen.map (fun f => f.map.entries)).getD []) d.db.map) := by
  apply OrdMap.ext_get
  intro k
  rw [get_view, get_pending, get_applyTable]
  cases d.frozen with
  | none => cases d.active.map.get k <;> rfl
  | some f =>
    simp only [map_some, getD_some, get_applyTable]
    cases d.active.map.get k <;> rfl

theorem get_eq_view : d.get k = d.view.get k := by
  rw [get_view, get_pending, Db.get_map]
  unfold get
  cases d.active.map.get k with
  | some v => rfl
  | none => cases d.frozen.bind (fun f => f.map.get k) <;> rfl

theorem view_set (key : Bytes) (value : Option Bytes) :
    ({ d with active := d.active.set key value } : DiskIndex).view = applyChange d.view (key, value) := by
  rw [view_eq, view_eq]
  exact applyChanges_entries_insert _ _ _ _

theorem view_freeze : d.freeze.1.view = d.view := by
  unfold freeze
  cases hf : d.frozen with
  | some f => rfl
  | none => simp [view_eq, hf, Memtable.empty]

theorem map_flushed (frozen : Memtable) (lsn : Nat) :
    (flushed db frozen lsn).map = applyChanges frozen.map.entries db.map :=
  Db.map_writeAll frozen.map.entries db

theorem view_flushFrozen (lsn : Nat) (commit : Commit) : (d.flushFrozen lsn commit).1.view = d.view := by
  unfold flushFrozen
  cases hf : d.frozen with
  | none => rfl
  | some f =>
    cases commit with
    | done => simp [view_eq, hf, map_flushed]
    | refused => rfl
    | unanswered =>
      -- the frozen changes are read again over a file that already holds them
      simp [view_eq, hf, map_flushed, applyChanges_absorb (fun k h => h)]

@[simp] theorem view_openDb : (openDb db).view = db.map := by
  simp [view_eq, openDb, Memtable.empty]

end DiskIndex

end IoLake.Storage
