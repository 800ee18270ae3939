import IoLake.Lib.ProtoWire
import IoLake.Storage.Wal
import IoLake.Storage.WalRuns

/-!
# A write applied live and replayed (`storage/src/metadata/{types,store,wal}.rs`)

Two recursions interpret an operation: `applyLive`, as it is answered, to any depth, and `entriesOf`, from its
log record, which takes the puts and deletes of a batch and leaves out the batches inside it.
-/

namespace IoLake.Storage.LogBytes

open ChangeLog Framing List Option DiskIndex MetadataWal MetadataOp

/-! ## The operation's record -/

inductive OpRecord where
  | mk (kind : Nat) (key value : Bytes) (ops : List OpRecord)

mutual
def OpRecord.of : MetadataOp → OpRecord
  | .put key value => .mk 1 key value []
  | .delete key => .mk 2 key [] []
  | .batch ops => .mk 3 [] [] (OpRecord.ofAll ops)

def OpRecord.ofAll : List MetadataOp → List OpRecord
  | [] => []
  | op :: ops => OpRecord.of op :: OpRecord.ofAll ops
end

mutual
/-- `OpRecord::into_op`: `none` for a kind this release does not know. -/
def OpRecord.intoOp : OpRecord → Option MetadataOp
  | .mk kind key value ops =>
    match kind with
    | 1 => some (.put key value)
    | 2 => some (.delete key)
    | 3 => (OpRecord.intoOps ops).map .batch
    | _ => none

def OpRecord.intoOps : List OpRecord → Option (List MetadataOp)
  | [] => some []
  | r :: rs => (OpRecord.intoOp r).bind fun op => (OpRecord.intoOps rs).map (op :: ·)
end

mutual
/-- What is encoded is what is decoded, nested to any depth. -/
theorem OpRecord.intoOp_of : ∀ (op : MetadataOp), (OpRecord.of op).intoOp = some op
  | .put key value => rfl
  | .delete key => rfl
  | .batch ops => by
    rw [OpRecord.of, OpRecord.intoOp, OpRecord.intoOps_ofAll ops]
    rfl

theorem OpRecord.intoOps_ofAll : ∀ (ops : List MetadataOp), OpRecord.intoOps (OpRecord.ofAll ops) = some ops
  | [] => rfl
  | op :: ops => by
    rw [OpRecord.ofAll, OpRecord.intoOps, OpRecord.intoOp_of op, OpRecord.intoOps_ofAll ops]
    rfl
end

mutual
def OpRecord.depth : OpRecord → Nat
  | .mk _ _ _ ops => OpRecord.depthAll ops

def OpRecord.depthAll : List OpRecord → Nat
  | [] => 0
  | r :: rs => max (r.depth + 1) (OpRecord.depthAll rs)
end

/-- The protobuf codec of `OpRecord`. -/
structure Prost where
  encode : OpRecord → Bytes
  decode : Bytes → Option OpRecord

/-- prost decodes messages nested up to this many levels. -/
def RECURSION_LIMIT : Nat := 100

/-- prost's documented behaviour on a message: it is decoded as it was encoded, unless it is nested
beyond the limit. -/
def Prost.ReadsBack (p : Prost) (r : OpRecord) : Prop :=
  p.decode (p.encode r) = if r.depth ≤ RECURSION_LIMIT then some r else none

def MetadataOp.toBytes (p : Prost) (op : MetadataOp) : Bytes := p.encode (OpRecord.of op)

def MetadataOp.fromBytes (p : Prost) (data : Bytes) : Option MetadataOp :=
  (p.decode data).bind OpRecord.intoOp

variable {p : Prost} {db : Db} {rs : List WalRecord} {crc : Crc} {wal : MetadataWal} {ops : List MetadataOp}

theorem MetadataOp.fromBytes_toBytes {op : MetadataOp} (hp : p.ReadsBack (OpRecord.of op)) :
    fromBytes p (toBytes p op) = if (OpRecord.of op).depth ≤ RECURSION_LIMIT then some op else none := by
  rw [fromBytes, toBytes, hp]
  split_ifs
  · exact OpRecord.intoOp_of op
  · rfl

mutual
def applyLive (d : DiskIndex) : MetadataOp → DiskIndex
  | .put key value => d.put key value
  | .delete key => d.delete key
  | .batch ops => applyAllLive d ops

def applyAllLive (d : DiskIndex) : List MetadataOp → DiskIndex
  | [] => d
  | op :: ops => applyAllLive (applyLive d op) ops
end

mutual
theorem view_applyLive : ∀ (op : MetadataOp) (d : DiskIndex),
    (applyLive d op).view = applyChanges op.changes d.view
  | .put key value, d => view_set d key (some value)
  | .delete key, d => view_set d key none
  | .batch ops, d => by
    rw [applyLive, changes]
    exact view_applyAllLive ops d

theorem view_applyAllLive : ∀ (ops : List MetadataOp) (d : DiskIndex),
    (applyAllLive d ops).view = applyChanges (changesOfAll ops) d.view
  | [], d => rfl
  | op :: ops, d => by
    rw [applyAllLive, changesOfAll, view_applyAllLive ops, view_applyLive op, applyChanges_append]
end

def writeStore (crc : Crc) (p : Prost) (d : DiskIndex) (wal : MetadataWal) (ops : List MetadataOp) :
    Option (DiskIndex × MetadataWal) :=
  if ops.isEmpty then some (d, wal)
  else
    match wal.append crc (MetadataOp.toBytes p (.batch ops)) .complete with
    | (wal, some _) => some (applyAllLive d ops, wal)
    | (_, none) => none

def openStore (crc : Crc) (p : Prost) (db : Db) (file : Bytes) : Except OpenError (DiskIndex × MetadataWal) :=
  let index := openDb db
  (scanWal crc (MetadataOp.fromBytes p) (index.checkpointLsn + 1) file).map fun s =>
    (index.applyAll (s.entries.flatMap (fun e => entriesOf e.2)),
      (withFile (file.take s.endPos) s.lastLsn).advancePast index.checkpointLsn)

def reopenedView (crc : Crc) (p : Prost) (db : Db) (file : Bytes) : Except OpenError (OrdMap Bytes Bytes) :=
  (openStore crc p db file).map fun x => x.1.view

theorem replay_append {α : Type} (decode : Bytes → Option α) (fromLsn : Nat) (b : List WalRecord) :
    ∀ (a : List WalRecord), replay decode fromLsn (a ++ b) =
      (replay decode fromLsn a).bind fun x => (replay decode fromLsn b).map (x ++ ·)
  | [] => by
    cases h : replay decode fromLsn b <;> simp [replay, h, Except.bind, Except.map]
  | r :: a => by
    rw [cons_append, replay, replay, replay_append decode fromLsn b a]
    split
    · cases decode r.data with
      | none => rfl
      | some op =>
        cases replay decode fromLsn a with
        | error e => rfl
        | ok x => cases replay decode fromLsn b <;> rfl
    · rfl

/-- The log holds the records `rs` and takes appends, the write will be numbered after the index file's label,
and a restart now would show what it shows. -/
structure Ready (crc : Crc) (p : Prost) (db : Db) (rs : List WalRecord) (d : DiskIndex)
    (wal : MetadataWal) : Prop where
  log : LogHolds crc wal rs
  running : wal.failed = false
  room : wal.nextLsn + 1 < 2 ^ 64
  label : (openDb db).checkpointLsn < wal.nextLsn
  starts : rs = [] → wal.nextLsn = (openDb db).checkpointLsn + 1
  shown : reopenedView crc p db wal.log = .ok d.view

theorem reopenedView_encode (crc : Crc) (p : Prost) (hc : Consecutive rs)
    (hfrom : ∀ r ∈ rs.head?, r.lsn ≤ (openDb db).checkpointLsn + 1) :
    reopenedView crc p db (encode (enc crc) rs) =
      (replay (MetadataOp.fromBytes p) ((openDb db).checkpointLsn + 1) rs).map fun es =>
        applyChanges (es.flatMap (fun e => entriesOf e.2)) db.map := by
  have hnone : ¬ HoldsWhole crc (lastLsn 0 rs) [] := by
    rintro ⟨a, b, ha, hab, -⟩
    exact ha (append_eq_nil_iff.1 hab.symm).1
  have hscan := scanWal_encode crc (MetadataOp.fromBytes p) _ hc hfrom (nextRecord_nil crc) hnone
  rw [append_nil] at hscan
  unfold reopenedView openStore
  dsimp only
  rw [hscan]
  cases replay (MetadataOp.fromBytes p) ((openDb db).checkpointLsn + 1) rs with
  | error e => rfl
  | ok es => simp only [Except.map, view_applyAll, view_openDb]

theorem head_le_of_reopened {m : OrdMap Bytes Bytes} (hc : Consecutive rs)
    (h : reopenedView crc p db (encode (enc crc) rs) = .ok m) :
    ∀ r ∈ rs.head?, r.lsn ≤ (openDb db).checkpointLsn + 1 := by
  intro r hr
  by_contra hlt
  cases rs with
  | nil => cases hr
  | cons y rs =>
    obtain rfl : y = r := by simpa using hr
    have hscan := scanWal_startsAfter crc (MetadataOp.fromBytes p) _
      (hc.fits y mem_cons_self) (encode (enc crc) rs) (Nat.not_le.1 hlt)
    rw [reopenedView, openStore, encode_cons, hscan] at h
    cases h

/-- **What a restart shows after a write**: the puts and deletes directly in the list; or nothing, where the
record does not decode. -/
theorem Ready.reopened {d : DiskIndex} (h : Ready crc p db rs d wal)
    (hp : p.ReadsBack (OpRecord.of (.batch ops)))
    (hlen : (MetadataOp.toBytes p (.batch ops)).length < 2 ^ 32) : reopenedView crc p db
        (wal.log ++ enc crc ⟨wal.nextLsn, MetadataOp.toBytes p (.batch ops)⟩) =
      if (OpRecord.of (.batch ops)).depth ≤ RECURSION_LIMIT then
        .ok (applyChanges (entriesOf (.batch ops)) d.view)
      else .error (.undecodable wal.nextLsn) := by
  have hshown := h.shown
  have hlog := h.log.log_eq h.running
  have hc := h.log.next h.running hlen h.room
  have hreplayed : (openDb db).checkpointLsn + 1 ≤ wal.nextLsn := h.label
  rw [hlog] at hshown
  have hfrom := head_le_of_reopened h.log.consecutive hshown
  have hfrom' : ∀ r ∈ (rs ++ [(⟨wal.nextLsn, MetadataOp.toBytes p (.batch ops)⟩ :
      WalRecord)]).head?, r.lsn ≤ (openDb db).checkpointLsn + 1 := by
    intro r hr
    cases rs with
    | nil =>
      cases hr
      exact Nat.le_of_eq (h.starts rfl)
    | cons x rs => exact hfrom r hr
  rw [reopenedView_encode crc p h.log.consecutive hfrom] at hshown
  have hsplit : encode (enc crc) rs ++ enc crc ⟨wal.nextLsn, MetadataOp.toBytes p (.batch ops)⟩ =
      encode (enc crc) (rs ++ [⟨wal.nextLsn, MetadataOp.toBytes p (.batch ops)⟩]) := by simp
  rw [hlog, hsplit, reopenedView_encode crc p hc hfrom', replay_append]
  -- the records before it decode, as the log was opened
  cases hes : replay (MetadataOp.fromBytes p) ((openDb db).checkpointLsn + 1) rs with
  | error e =>
    rw [hes] at hshown
    cases hshown
  | ok es =>
    rw [hes] at hshown
    have hview : applyChanges (es.flatMap (fun e => entriesOf e.2)) db.map = d.view :=
      Except.ok.inj hshown
    simp only [Except.bind, replay, if_pos hreplayed, MetadataOp.fromBytes_toBytes hp]
    split_ifs with hd
    · simp only [Except.map, flatMap_append, flatMap_cons, flatMap_nil,
        append_nil, applyChanges_append, hview]
    · rfl

/-! ## When the two agree -/

/-- From every store the write succeeds in, a restart shows what the write made live. -/
def ReplayAgrees (crc : Crc) (p : Prost) (ops : List MetadataOp) : Prop :=
  ∀ db rs d wal, Ready crc p db rs d wal → ∀ d' wal', writeStore crc p d wal ops = some (d', wal') →
    reopenedView crc p db wal'.log = .ok d'.view

def LastChangesDirect (ops : List MetadataOp) : Prop :=
  ∀ k, lastChange (changesOfAll ops) k = lastChange (entriesOf (.batch ops)) k

theorem writeStore_cons (crc : Crc) (p : Prost) (d : DiskIndex) (hne : ops ≠ []) (hf : wal.failed = false) :
    writeStore crc p d wal ops = if 2 ^ 32 ≤ (MetadataOp.toBytes p (.batch ops)).length then none
      else some (applyAllLive d ops,
        { wal with log := wal.log ++ enc crc ⟨wal.nextLsn, MetadataOp.toBytes p (.batch ops)⟩
                   size := wal.size + (enc crc ⟨wal.nextLsn, MetadataOp.toBytes p (.batch ops)⟩).length
                   nextLsn := wal.nextLsn + 1, writtenLsn := wal.nextLsn }) := by
  rw [writeStore, if_neg (by simpa using hne), append, hf]
  simp only [Bool.false_eq_true, or_false]
  split_ifs <;> rfl

theorem Ready.agrees_iff {d : DiskIndex} (h : Ready crc p db rs d wal)
    (hp : p.ReadsBack (OpRecord.of (.batch ops))) (hne : ops ≠ [])
    (hlen : (MetadataOp.toBytes p (.batch ops)).length < 2 ^ 32) :
    (∀ d' wal', writeStore crc p d wal ops = some (d', wal') → reopenedView crc p db wal'.log = .ok d'.view) ↔
      (OpRecord.of (.batch ops)).depth ≤ RECURSION_LIMIT ∧
        applyChanges (entriesOf (.batch ops)) d.view = applyChanges (changesOfAll ops) d.view := by
  have hafter := h.reopened hp hlen
  have hwrite := writeStore_cons crc p d hne h.running
  rw [if_neg (Nat.not_le.2 hlen)] at hwrite
  constructor
  · intro hagree
    have hview := hagree _ _ hwrite
    dsimp only at hview
    rw [hafter, view_applyAllLive] at hview
    split at hview
    · rename_i hd
      exact ⟨hd, Except.ok.inj hview⟩
    · cases hview
  · rintro ⟨hd, heq⟩ d' wal' hw
    rw [hwrite] at hw
    cases hw
    rw [hafter, if_pos hd, heq, view_applyAllLive]

theorem Ready.fresh (crc : Crc) (p : Prost) (hdb : db.checkpointLsn = none) :
    Ready crc p db [] (openDb db) (withFile [] 0) := by
  have hlabel : (openDb db).checkpointLsn = 0 := by
    rw [checkpointLsn, openDb, hdb]
    rfl
  refine ⟨⟨Consecutive.nil, .inl rfl, fun _ => rfl, fun _ hne => absurd rfl hne, by simp, rfl, le_rfl⟩,
    rfl, by decide, ?_, fun _ => ?_, ?_⟩
  · rw [hlabel]
    exact Nat.zero_lt_one
  · rw [hlabel]
    rfl
  · rw [view_openDb]
    exact reopenedView_encode crc p Consecutive.nil (by simp)

def oneKey (k : Bytes) (v : Option Bytes) : Db := Db.empty.write (k, v)

theorem oneKey_map (k : Bytes) (v : Option Bytes) : (oneKey k v).map.get k = v := by
  rw [oneKey, Db.map_write, get_applyChange, if_pos rfl]

theorem oneKey_label (k : Bytes) (v : Option Bytes) : (oneKey k v).checkpointLsn = none :=
  Db.writeAll_checkpointLsn [(k, v)] Db.empty

/-- Replay shows what was applied live, from every store, exactly where the last change of each key is made
directly by the list, and nothing is nested deeper than prost decodes. -/
theorem replay_agrees_iff (crc : Crc) (p : Prost) (ops : List MetadataOp)
    (hp : p.ReadsBack (OpRecord.of (.batch ops))) :
    ReplayAgrees crc p ops ↔ 2 ^ 32 ≤ (MetadataOp.toBytes p (.batch ops)).length ∨
      (OpRecord.of (.batch ops)).depth ≤ RECURSION_LIMIT ∧ LastChangesDirect ops := by
  by_cases hne : ops = []
  · -- nothing is logged, and nothing is changed
    subst hne
    refine iff_of_true (fun db rs d wal hr d' wal' hw => ?_) (.inr ⟨Nat.zero_le _, fun k => rfl⟩)
    cases hw
    exact hr.shown
  by_cases hlen : 2 ^ 32 ≤ (MetadataOp.toBytes p (.batch ops)).length
  · refine iff_of_true (fun db rs d wal hr d' wal' hw => ?_) (.inl hlen)
    rw [writeStore_cons crc p d hne hr.running, if_pos hlen] at hw
    cases hw
  have hagree : ∀ db rs d wal, Ready crc p db rs d wal → _ := fun db rs d wal hr =>
    hr.agrees_iff hp hne (Nat.not_le.1 hlen)
  constructor
  · intro h
    have hfresh : ∀ k v, (OpRecord.of (.batch ops)).depth ≤ RECURSION_LIMIT ∧
        (lastChange (entriesOf (.batch ops)) k).getD v = (lastChange (changesOfAll ops) k).getD v := by
      intro k v
      have hready := Ready.fresh crc p (oneKey_label k v)
      obtain ⟨hd, heq⟩ := (hagree _ _ _ _ hready).1 (h _ _ _ _ hready)
      rw [view_openDb] at heq
      have hget := congrArg (fun m => m.get k) heq
      simp only [get_applyChanges, oneKey_map] at hget
      exact ⟨hd, hget⟩
    refine .inr ⟨(hfresh [] none).1, fun k => ?_⟩
    have h₁ := (hfresh k none).2
    have h₂ := (hfresh k (some [])).2
    cases ha : lastChange (changesOfAll ops) k with
    | none =>
      cases hb : lastChange (entriesOf (.batch ops)) k with
      | none => rfl
      | some b =>
        simp only [ha, hb, getD_none, getD_some] at h₁ h₂
        rw [h₁] at h₂
        cases h₂
    | some a =>
      cases hb : lastChange (entriesOf (.batch ops)) k with
      | none =>
        simp only [ha, hb, getD_none, getD_some] at h₁ h₂
        rw [← h₁] at h₂
        cases h₂
      | some b =>
        simp only [ha, hb, getD_some] at h₁
        rw [h₁]
  · rintro (hbig | ⟨hd, hlast⟩) db rs d wal hr
    · exact absurd hbig hlen
    · refine (hagree db rs d wal hr).2 ⟨hd, OrdMap.ext_get fun k => ?_⟩
      rw [get_applyChanges, get_applyChanges, hlast k]

open ProtoWire

mutual
def protoEncode : OpRecord → Bytes
  | .mk kind key value ops =>
    (if kind = 0 then [] else 0x08 :: varint 5 kind) ++ lenField 0x12 key ++ lenField 0x1A value ++
      protoEncodeAll ops

def protoEncodeAll : List OpRecord → Bytes
  | [] => []
  | r :: rs =>
    (0x22 :: varint 10 (protoEncode r).length ++ protoEncode r) ++ protoEncodeAll rs
end

def prostFor (r : OpRecord) : Prost :=
  ⟨protoEncode, fun b => if b = protoEncode r then some r else none⟩

theorem prostFor_readsBack {r : OpRecord} (h : r.depth ≤ RECURSION_LIMIT) : (prostFor r).ReadsBack r := by
  rw [Prost.ReadsBack, if_pos h]
  exact if_pos rfl

def coveredBatch : List MetadataOp := [.batch [.put [1] [2]], .put [1] [3]]

theorem coveredBatch_replays :
    ReplayAgrees crc32c (prostFor (OpRecord.of (.batch coveredBatch))) coveredBatch := by
  refine (replay_agrees_iff crc32c _ coveredBatch (prostFor_readsBack (by decide))).2
    (.inr ⟨by decide, fun k => ?_⟩)
  have hall : changesOfAll coveredBatch = [([1], some [2])] ++ [([1], some [3])] := rfl
  have hdirect : entriesOf (.batch coveredBatch) = [] ++ [([1], some [3])] := rfl
  rw [hall, hdirect, lastChange_concat, lastChange_concat]
  split_ifs with hk
  · rfl
  · exact (lastChange_eq_none.2 fun ⟨c, hc, hck⟩ => hk (by
      rw [mem_singleton.1 hc] at hck
      exact hck.symm))

def nestedBatch : List MetadataOp := [.batch [.put [1] [2]]]

/-- A batch inside a write is gone after a restart. -/
theorem nested_batch_lost : ∃ d wal shown,
    writeStore crc32c (prostFor (OpRecord.of (.batch nestedBatch))) (DiskIndex.openDb Db.empty)
      (MetadataWal.withFile [] 0) nestedBatch = some (d, wal) ∧
    reopenedView crc32c (prostFor (OpRecord.of (.batch nestedBatch))) Db.empty wal.log = .ok shown ∧
    d.get [1] = some [2] ∧ shown.get [1] = none := by
  have hready := Ready.fresh crc32c (prostFor (OpRecord.of (.batch nestedBatch)))
    (show Db.empty.checkpointLsn = none from rfl)
  have hwrite := writeStore_cons crc32c (prostFor (OpRecord.of (.batch nestedBatch)))
    (openDb Db.empty) (show nestedBatch ≠ [] from nofun)
    (show (withFile [] 0).failed = false from rfl)
  rw [if_neg (by decide)] at hwrite
  have hshown := hready.reopened (prostFor_readsBack (by decide)) (by decide)
  rw [if_pos (by decide)] at hshown
  exact ⟨_, _, _, hwrite, hshown, by decide, by decide⟩

end IoLake.Storage.LogBytes
