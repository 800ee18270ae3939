import IoLake.Storage.StoreInvariant

/-!
# What a reopened store holds

`Inv` is what holds of a store in every state of a careful run, open or down: its log, its writers, the log's
file, the index and what the index shows, each in its own terms (`StoreInvariant`).

* `step_inv` — every careful step keeps it, each step of a checkpoint with each of its failures; `run_inv` — so
  does a run;
* `reopened_store_shows_log` — after any careful run the store opens, unless its torn tail holds a whole record,
  and shows a log with every acknowledged operation at the LSN of its answer;
* `reopened_store_differs` — what a run that is not careful can do: show the writes of one key in the other order
  (`reordered`), or leave a log that no open accepts (`lostAfterOpen`);
* `crash_keeps_reads` — what was read of a key is still there after a crash.
-/

namespace IoLake.Storage

open ChangeLog List Option DiskIndex

structure LiveInv (w : World) (l : Live) : Prop where
  log : LogInv w.log w.started w.acked l.wal.syncedLsn
  writers : WriterInv w.log w.started l.wal.syncedLsn l.writers
  wal : WalInv (opsOf w.log) l.wal l.syncing l.checkpoint l.replaced l.index.checkpointLsn
  index : IndexInv w.log l.index l.wal.syncedLsn l.checkpoint
  view : ViewInv w.log l.wal.syncedLsn l.index.view l.writers l.wal.failed

structure DownInv (w : World) (d : Disk) : Prop where
  log : LogInv w.log w.started w.acked w.log.length
  file : HoldsFrom (opsOf w.log) (d.db.checkpointLsn.getD 0) d.log.records
  index : ∃ m, d.db.checkpointLsn.getD 0 ≤ m ∧ m ≤ w.log.length ∧ d.db.map = applyLog (w.log.take m)

def Inv (w : World) : Prop :=
  match w.phase with
  | .live l => LiveInv w l
  | .down d => DownInv w d

@[simp] theorem length_opsOf (log : List LogEntry) : (opsOf log).length = log.length := by
  simp [opsOf]

@[simp] theorem opsOf_append (a b : List LogEntry) : opsOf (a ++ b) = opsOf a ++ opsOf b := by
  simp [opsOf]

theorem init_inv : Inv World.init where
  log := ⟨nodup_nil, by simp [World.init], by simp [World.init], le_rfl, by simp [World.init],
    by simp [World.init], by simp [World.init]⟩
  writers := WriterInv.nil
  wal := ⟨le_rfl, le_rfl, le_rfl, fun _ => ⟨rfl, rfl⟩, nofun, ⟨0, le_rfl, rfl, nofun⟩, nofun, nofun,
    fun m hm => by rcases hm with hm | ⟨_, hm⟩ <;> cases hm⟩
  index := ⟨⟨0, le_rfl, le_rfl, rfl⟩, nofun, nofun, nofun⟩
  view := ViewInv.nil rfl le_rfl

variable {w : World} {l : Live}

/-! ## Writers -/

variable {w' : World}

namespace LiveInv

variable (h : LiveInv w l)
include h

theorem inv (durable : Nat) : Inv { w with phase := .live l, durable } := { h with }

theorem begin {op : MetadataOp} (hf : op.flat = true)
    (hd : l.writers.all (fun x => disjointKeys x.op op && disjointKeys op x.op) = true) :
    LiveInv { w with started := w.started ++ [⟨op, w.acked.length⟩] }
      { l with writers := l.writers ++ [⟨w.started.length, op, .started⟩] } where
  log := h.log.start hf
  writers := by
    refine h.writers.start (fun e he => ?_) _ hd
    obtain ⟨st, hst, -⟩ := h.log.known e he
    exact (List.getElem?_eq_some_iff.1 hst).1
  wal := h.wal
  index := h.index
  view := h.view.start rfl

variable {x : Writer} {lsn : Nat} {m : WalMark}

theorem leave (hx : x ∈ l.writers) (hs : ∀ lsn, x.stage ≠ .written lsn) :
    LiveInv w { l with writers := dropWriter l.writers x.id } :=
  { h with
    writers := h.writers.drop x.id
    view := h.view.drop (fun _ hy hyx => h.writers.eq_of_id hy hx hyx) hs }

theorem failLog (torn : Option Bool) : LiveInv w { l with
      wal := { l.wal with log := { l.wal.log with torn := torn }, failed := true } } :=
  { h with
    wal := h.wal.keep rfl rfl rfl rfl rfl (fun _ => rfl)
    view := h.view.fail }

def longer (wal : Wal) (op : MetadataOp) : WalFile :=
  { wal.log with records := wal.log.records ++ [⟨wal.nextLsn, op⟩] }

theorem appendWritten (hf : l.wal.failed = false) (hck : l.checkpoint.holdsLocks = false) (hx : x ∈ l.writers)
    (hs : x.stage = .started) : LiveInv { w with log := w.log ++ [⟨x.id, x.op⟩] }
      { l with
        wal := { l.wal with log := longer l.wal x.op, nextLsn := l.wal.nextLsn + 1
                            writtenLsn := l.wal.nextLsn, failed := false }
        writers := setStage l.writers x.id (.written l.wal.nextLsn) } := by
  obtain ⟨st, hst, hop⟩ := h.writers.known x hx
  have hn : l.wal.nextLsn = w.log.length + 1 := by simpa using (h.wal.next hf).1
  refine ⟨?_, ?_, ?_, h.index.grow h.log.safe _, ?_⟩
  · rw [← hop]
    exact h.log.write hst (h.writers.fresh x hx hs)
  · rw [hn]
    exact h.writers.write hx
  · simp only [opsOf_append]
    exact h.wal.grow hf hck x.op rfl rfl rfl (fun _ => rfl) (.inl rfl)
  · have hv := h.view
    rw [hf] at hv
    exact hv.write h.writers hx hs _

theorem appendLeft (hf : l.wal.failed = false) (hck : l.checkpoint.holdsLocks = false) (hx : x ∈ l.writers)
    (hs : x.stage = .started) : LiveInv { w with log := w.log ++ [⟨x.id, x.op⟩] }
      { l with
        wal := { l.wal with log := longer l.wal x.op, failed := true }
        writers := dropWriter l.writers x.id } := by
  obtain ⟨st, hst, hop⟩ := h.writers.known x hx
  refine ⟨?_, ?_, ?_, h.index.grow h.log.safe _, ?_⟩
  · rw [← hop]
    exact h.log.write hst (h.writers.fresh x hx hs)
  · exact (h.writers.drop x.id).grow (fun y hy => (mem_dropWriter.1 hy).2)
  · simp only [opsOf_append]
    exact h.wal.grow hf hck x.op rfl rfl rfl nofun (.inr ⟨rfl, rfl⟩)
  · have hv := h.view
    rw [hf] at hv
    exact hv.writeFailed h.writers hx hs

theorem append {id : Nat} {e : WriteEnd} (hw : stepAppend w l id e = some w') : Inv w' := by
  unfold stepAppend at hw
  split at hw
  · cases hw
  rename_i hck
  rw [Bool.not_eq_true] at hck
  split at hw
  case h_2 => cases hw
  rename_i x op hfind
  obtain ⟨hx, hid⟩ := findWriter_some hfind
  simp only at hid
  subst hid
  have hleft := h.leave hx nofun
  cases hf : l.wal.failed with
  | true =>
    -- the log refuses; its writer leaves
    simp only [Wal.append, reachesLog, hf] at hw
    obtain rfl := some.inj hw
    exact hleft.inv _
  | false =>
    cases e with
    | written =>
      simp only [Wal.append, reachesLog, hf] at hw
      obtain rfl := some.inj hw
      exact (h.appendWritten hf hck hx rfl).inv _
    | noRoom =>
      simp only [Wal.append, reachesLog, hf] at hw
      obtain rfl := some.inj hw
      exact hleft.inv _
    | failed left =>
      cases left with
      | nothing =>
        simp only [Wal.append, reachesLog, hf] at hw
        obtain rfl := some.inj hw
        exact (hleft.failLog l.wal.log.torn).inv _
      | part b =>
        simp only [Wal.append, reachesLog, hf] at hw
        obtain rfl := some.inj hw
        exact (hleft.failLog (some b)).inv _
      | all =>
        simp only [Wal.append, reachesLog, hf] at hw
        obtain rfl := some.inj hw
        exact (h.appendLeft hf hck hx rfl).inv _

theorem syncStart {covered : Nat} (hs : l.wal.syncSample = .ok covered) :
    LiveInv w { l with syncing := some covered } :=
  { h with wal := { h.wal with
      syncing_le := by
        rintro c hc
        obtain rfl := some.inj hc
        unfold Wal.syncSample at hs
        split at hs
        · cases hs
        · obtain rfl := Except.ok.inj hs
          exact h.wal.written_le } }

theorem sync {wal : Wal} {ck : Checkpoint} {old : Option WalFile} {s : Option Nat}
    (hle : l.wal.syncedLsn ≤ wal.syncedLsn) (hfail : wal.failed = l.wal.failed)
    (hwal : WalInv (opsOf w.log) wal s ck old l.index.checkpointLsn)
    (hidx : IndexInv w.log l.index l.wal.syncedLsn ck) :
    LiveInv w { l with wal := wal, syncing := s, checkpoint := ck, replaced := old } := by
  have hmax := hwal.synced_le
  rw [length_opsOf] at hmax
  refine ⟨h.log.sync hle hmax, h.writers.sync hle, hwal, hidx.sync hle, ?_⟩
  show ViewInv _ _ _ _ wal.failed
  rw [hfail]
  exact h.view.sync hle

theorem syncEnd {covered : Nat} (hs : l.syncing = some covered) (ok : Bool) :
    LiveInv w { l with wal := l.wal.synced covered ok, syncing := none } := by
  cases ok with
  | true =>
    exact h.sync (le_max_left _ _) rfl (h.wal.sync (h.wal.syncing_le covered hs)) h.index
  | false =>
    have hf := h.failLog l.wal.log.torn
    exact { hf with wal := { hf.wal with syncing_le := nofun } }

theorem apply (hx : x ∈ l.writers) (hs : x.stage = .written lsn) (hle : lsn ≤ l.wal.syncedLsn) :
    LiveInv w { l with
      index := l.index.applyAll x.op.changes, writers := setStage l.writers x.id (.applied lsn) } := by
  refine ⟨h.log, h.writers.apply hx hs hle, ?_, h.index.active _, ?_⟩
  · show WalInv _ _ _ _ _ (l.index.applyAll x.op.changes).checkpointLsn
    rw [show (l.index.applyAll x.op.changes).checkpointLsn = l.index.checkpointLsn by
      simp [checkpointLsn]]
    exact h.wal
  · show ViewInv _ _ (l.index.applyAll x.op.changes).view _ _
    rw [view_applyAll]
    exact h.view.apply h.writers h.log.ids hx hs hle

theorem refuse (hf : l.wal.failed = true) (id : Nat) :
    LiveInv w { l with writers := dropWriter l.writers id } := by
  refine { h with writers := h.writers.drop id, view := ?_ }
  have hv := h.view
  rw [hf] at hv
  show ViewInv _ _ _ _ l.wal.failed
  rw [hf]
  exact hv.dropFailed id

theorem ack (hx : x ∈ l.writers) (hs : x.stage = .applied lsn) :
    LiveInv { w with acked := w.acked ++ [⟨x.id, lsn⟩] }
      { l with writers := dropWriter l.writers x.id } := by
  have hl := h.leave hx (by rw [hs]; exact nofun)
  obtain ⟨h₁, h₂⟩ := h.writers.placed x hx lsn (.inr hs)
  exact { hl with log := h.log.ack h₁ (h.writers.applied x hx lsn hs) h₂ rfl }

theorem label_le : l.index.checkpointLsn ≤ w.log.length := by
  have h₁ := h.wal.label_le
  have h₂ := h.wal.synced_le
  rw [length_opsOf] at h₂
  omega

theorem checkpointReady (hck : l.checkpoint = .idle)
    (hz : l.index.frozen = none) : LiveInv w { l with checkpoint := .ready } :=
  { h with
    wal := h.wal.checkpoint nofun le_rfl h.wal.label_le (by simp [hck])
      (fun m hm => by rcases hm with hm | ⟨_, hm⟩ <;> cases hm)
    index := h.index.checkpoint nofun (fun _ => hz) }

theorem checkpointIdle (hck : l.checkpoint ≠ .renamed) : LiveInv w { l with checkpoint := .idle } :=
  { h with
    wal := h.wal.checkpoint nofun le_rfl h.wal.label_le (fun hr => absurd hr hck)
      (fun m hm => by rcases hm with hm | ⟨_, hm⟩ <;> cases hm)
    index := h.index.checkpoint nofun nofun }

theorem flush {z : Memtable} (hz : l.index.frozen = some z) {m : Nat}
    (hlsn : lsn ≤ m) (hlab : l.index.checkpointLsn ≤ lsn) (hm : m ≤ l.wal.syncedLsn)
    (hmap : applyChanges z.map.entries l.index.db.map = applyLog (w.log.take m))
    (hck : l.checkpoint ≠ .renamed) (c : DiskIndex.Commit) (ck : Checkpoint)
    (hmark : ∀ m, ck.mark = some m → l.checkpoint.mark = some m) (hck' : ∀ m, ck ≠ .marked m)
    (hcut : ∀ m, (ck = .flushed m ∨ ∃ first, ck = .copied m first) → m.lsn ≤ lsn) : LiveInv w { l with
      index := (l.index.flushFrozen lsn c).1
      checkpoint := if (l.index.flushFrozen lsn c).2 then ck else .idle } := by
  obtain ⟨hidx, hok, hlabel⟩ := h.index.flush hz hlsn hm hmap c
  have hlab₁ : l.index.checkpointLsn ≤ (l.index.flushFrozen lsn c).1.checkpointLsn := by
    rcases hlabel with hl | hl <;> omega
  have hlab₂ : (l.index.flushFrozen lsn c).1.checkpointLsn ≤ l.wal.syncedLsn := by
    have := h.wal.label_le
    rcases hlabel with hl | hl <;> omega
  refine ⟨h.log, h.writers, ?_, ?_, ?_⟩
  · cases hb : (l.index.flushFrozen lsn c).2 with
    | true =>
      refine h.wal.checkpoint hmark hlab₁ hlab₂ (fun hr => absurd hr hck) fun m' hm' => ?_
      rw [(hok hb).2]
      exact hcut m' hm'
    | false =>
      exact h.wal.checkpoint nofun hlab₁ hlab₂ (fun hr => absurd hr hck)
        (fun m hm => by rcases hm with hm | ⟨_, hm⟩ <;> cases hm)
  · cases hb : (l.index.flushFrozen lsn c).2 with
    | true => exact hidx.checkpoint hck' (fun _ => (hok hb).1)
    | false => exact hidx
  · show ViewInv _ _ (l.index.flushFrozen lsn c).1.view _ _
    rw [view_flushFrozen]
    exact h.view

theorem checkpointMark (hck : l.checkpoint = .ready)
    (hq : l.writers.any Writer.holdsGate = false) (hm : l.wal.mark = .ok m) :
    LiveInv w { l with index := l.index.freeze.1, checkpoint := .marked m } := by
  obtain ⟨hf, hlsn, hwal⟩ := h.wal.mark hm hck
  have hv := h.view
  rw [hf] at hv
  obtain ⟨hview, hsync⟩ := hv.quiet hq
  rw [length_opsOf] at hlsn
  have hlabel : l.index.freeze.1.checkpointLsn = l.index.checkpointLsn := by
    unfold freeze checkpointLsn
    rw [h.index.ready hck]
  refine ⟨h.log, h.writers, ?_, h.index.freeze hck hview hlsn hsync h.label_le, ?_⟩
  · show WalInv _ _ _ _ _ l.index.freeze.1.checkpointLsn
    rw [hlabel]
    exact hwal
  · show ViewInv _ _ l.index.freeze.1.view _ _
    rw [view_freeze]
    exact h.view

theorem truncateFirst (hck : l.checkpoint = .flushed m)
    (first : Nat) : LiveInv w { l with checkpoint := .copied m first } := by
  refine { h with wal := ?_, index := h.index.checkpoint nofun nofun }
  refine h.wal.checkpoint ?_ le_rfl h.wal.label_le (by simp [hck]) ?_
  · intro m' hm'
    rw [hck]
    exact hm'
  · rintro m' (hm' | ⟨_, hm'⟩)
    · cases hm'
    · obtain ⟨rfl, -⟩ := Checkpoint.copied.inj hm'
      exact h.wal.cut m (.inl hck)

theorem truncateSecond {first : Nat} (hck : l.checkpoint = .copied m first) {wal : Wal}
    (ht : l.wal.truncateSecond m first = .ok wal) :
    LiveInv w { l with wal := wal, checkpoint := .renamed, replaced := some l.wal.log } := by
  obtain ⟨hwal, hsync, hfail⟩ := h.wal.rename hck ht
  exact h.sync hsync.ge hfail hwal (h.index.checkpoint nofun nofun)

theorem dirSync (hck : l.checkpoint = .renamed) (ok : Bool) : LiveInv w { l with
      wal := l.wal.dirSynced ok, checkpoint := .idle
      replaced := if ok then none else l.replaced } := by
  have hwal := h.wal
  rw [hck] at hwal
  have hidx : IndexInv w.log l.index l.wal.syncedLsn .idle := h.index.checkpoint nofun nofun
  cases ok with
  | true => exact h.sync (le_max_left _ _) rfl (hwal.dirSync true) hidx
  | false => exact ⟨h.log, h.writers, hwal.dirSync false, hidx, h.view.fail⟩

end LiveInv

theorem recordsFrom_lsn {lsn q : Nat} {ops : List MetadataOp} {r : Record}
    (h : (recordsFrom lsn ops)[q]? = some r) : r.lsn = lsn + q := by
  have hd : (recordsFrom lsn ops).drop q = recordsFrom (lsn + q) (ops.drop q) :=
    recordsFrom_drop q lsn ops
  have hhead : ((recordsFrom lsn ops).drop q)[0]? = some r := by
    rw [getElem?_drop]
    exact h
  rw [hd] at hhead
  cases hops : ops.drop q with
  | nil =>
    rw [hops] at hhead
    cases hhead
  | cons op rest =>
    rw [hops] at hhead
    obtain rfl := some.inj hhead
    rfl

theorem holdsFrom_crash {ops : List MetadataOp} {label synced kept : Nat} {records : List Record}
    (h : HoldsFrom ops label records) (hl : label ≤ synced) (hs : synced ≤ ops.length)
    (hk : kept ≤ records.length) (hkeep : (records.drop kept).all (fun r => decide (synced < r.lsn)) = true) :
    synced ≤ ops.length - (records.length - kept) ∧
      HoldsFrom (ops.take (ops.length - (records.length - kept))) label (records.take kept) := by
  obtain ⟨base, hb, hr⟩ := h
  have hlen : records.length = ops.length - base := by rw [hr]; simp
  have hK : ops.length - (records.length - kept) = base + kept := by omega
  rw [hK]
  refine ⟨?_, base, hb, ?_⟩
  · by_cases hlt : kept < records.length
    · -- the first record lost is past what is synced
      have hget : records[kept]? = some records[kept] := getElem?_eq_getElem hlt
      have hmem : records[kept] ∈ records.drop kept := by
        rw [mem_iff_getElem?]
        exact ⟨0, by rw [getElem?_drop]; exact hget⟩
      have hsync := of_decide_eq_true (all_eq_true.1 hkeep _ hmem)
      have hfrom : (recordsFrom (base + 1) (ops.drop base))[kept]? = some records[kept] := by
        rw [← hr]
        exact hget
      have hlsn := recordsFrom_lsn hfrom
      omega
    · omega
  · rw [hr, recordsFrom_take, drop_take, show base + kept - base = kept by omega]

theorem LiveInv.holdsFrom (h : LiveInv w l) {old : Bool} {file : WalFile}
    (hfile : (if old then l.replaced else some l.wal.log) = some file) :
    HoldsFrom (opsOf w.log) l.index.checkpointLsn file.records := by
  cases old with
  | true => exact h.wal.old file hfile
  | false =>
    obtain rfl := some.inj hfile
    obtain ⟨base, hb, hr, -⟩ := h.wal.file
    exact ⟨base, hb, hr⟩

theorem lost_unsynced (hp : w.phase = .live l) {kept : Nat} {torn : Option Bool} {old : Bool}
    (hkeeps : keepsRead w (.crash kept torn old) = true) {file : WalFile}
    (hfile : (if old then l.replaced else some l.wal.log) = some file) :
    (file.records.drop kept).all (fun r => decide (l.wal.syncedLsn < r.lsn)) = true := by
  simpa [keepsRead, hp, hfile] using hkeeps

theorem LiveInv.crash (h : LiveInv w l) (hp : w.phase = .live l) {kept : Nat} {torn : Option Bool} {old : Bool}
    (hkeeps : keepsRead w (.crash kept torn old) = true) (hw : stepCrash w l kept torn old = some w') :
    Inv w' := by
  unfold stepCrash at hw
  split at hw
  · cases hw
  rename_i file hfile
  split at hw
  case isFalse => cases hw
  rename_i hcond
  obtain rfl := some.inj hw
  have hholds := h.holdsFrom hfile
  have hkept := lost_unsynced hp hkeeps hfile
  obtain ⟨hsync, hfrom⟩ := holdsFrom_crash hholds h.wal.label_le h.wal.synced_le hcond.1 hkept
  rw [length_opsOf] at hsync hfrom
  have hops : opsOf (w.log.take (w.log.length - (file.records.length - kept))) =
      (opsOf w.log).take (w.log.length - (file.records.length - kept)) := by
    simp [opsOf, map_take]
  refine ⟨h.log.crash hsync, ?_, ?_⟩
  · show HoldsFrom (opsOf (w.log.take _)) _ _
    rw [hops]
    exact hfrom
  · obtain ⟨m, h₁, h₂, h₃⟩ := h.index.file
    refine ⟨m, h₁, ?_, ?_⟩
    · have := h.wal.synced_le
      simp only [length_take]
      rw [length_opsOf] at this
      omega
    · show l.index.db.map = applyLog ((w.log.take _).take m)
      rw [take_take, Nat.min_eq_left (by omega)]
      exact h₃

theorem entries_eq_changes {log : List LogEntry} {started : List Started} {acked : List Ack}
    {n c : Nat} (h : LogInv log started acked n) :
    ((opsOf log).drop c).flatMap entriesOf = (log.drop c).flatMap LogEntry.changes := by
  unfold opsOf
  rw [← map_drop, flatMap_map]
  refine flatMap_congr fun e he => ?_
  obtain ⟨st, hst, hop⟩ := h.known e (mem_of_mem_drop he)
  exact entriesOf_eq_changes (hop ▸ h.flat st (mem_of_getElem? hst))

theorem DownInv.open_ok {d : Disk} (h : DownInv w d) (ht : d.log.torn ≠ some true) :
    ∃ l, openStore d = .ok l ∧ l.index.view = applyLog w.log ∧ LiveInv { w with phase := .live l } l := by
  obtain ⟨base, hb, hr⟩ := h.file
  obtain ⟨m, hm₁, hm₂, hmap⟩ := h.index
  set c := d.db.checkpointLsn.getD 0 with hc
  have hscan : scanWal d.log (c + 1) =
      .ok (if w.log.length ≤ base then 0 else w.log.length, (w.log.drop c).flatMap LogEntry.changes) := by
    have hfile : d.log = ⟨recordsFrom (base + 1) ((opsOf w.log).drop base), d.log.torn⟩ := by
      rw [← hr]
    rw [hfile, scanWal_ok hb _ ht, entries_eq_changes h.log, length_opsOf]
  -- the last LSN found, or the label where the log is empty: the log's end either way
  have hlast : max (if w.log.length ≤ base then 0 else w.log.length) c = w.log.length := by
    split <;> omega
  have hopen : openStore d = .ok ⟨⟨⟨d.log.records, none⟩, w.log.length + 1, w.log.length,
      w.log.length, 0, false⟩,
      (openDb d.db).applyAll ((w.log.drop c).flatMap LogEntry.changes), [], none, .idle, none⟩ := by
    unfold openStore Wal.openReplaying
    simp only [checkpointLsn, openDb, ← hc, hscan, Wal.withFile, Wal.advancePast, hlast]
    rw [show max ((if w.log.length ≤ base then 0 else w.log.length) + 1) (c + 1) = w.log.length + 1 by omega]
  have hview : ((openDb d.db).applyAll
      ((w.log.drop c).flatMap LogEntry.changes)).view = applyLog w.log := by
    rw [view_applyAll, view_openDb, hmap, applyLog_replay _ hm₁]
  have hlabel : ((openDb d.db).applyAll
      ((w.log.drop c).flatMap LogEntry.changes)).checkpointLsn = c := by
    simp [checkpointLsn, openDb, hc]
  refine ⟨_, hopen, hview, h.log, WriterInv.nil, ?_, ?_, ViewInv.nil hview le_rfl⟩
  · refine ⟨by simp, ?_, by simp, fun _ => by simp, by simp, ⟨base, ?_, hr, by simp [Checkpoint.mark]⟩,
      by simp, by simp, fun m hm => by rcases hm with hm | ⟨_, hm⟩ <;> cases hm⟩
    · rw [hlabel]
      exact hm₁.trans hm₂
    · rw [hlabel]
      exact hb
  · refine ⟨⟨m, hlabel.le.trans hm₁, hm₂, ?_⟩, ?_, by simp, by simp⟩
    · rw [applyAll_db]
      exact hmap
    · rw [applyAll_frozen]
      simp [openDb]

theorem torn_of_openStore {d : Disk} (ho : openStore d = .ok l) : d.log.torn ≠ some true := by
  intro ht
  unfold openStore Wal.openReplaying scanWal at ho
  cases hs : scanRecords ((openDb d.db).checkpointLsn + 1) 0 d.log.records <;>
    simp [hs, ht] at ho

theorem DownInv.reopen {d : Disk} (h : DownInv w d) (ho : openStore d = .ok l) :
    l.index.view = applyLog w.log ∧ LiveInv { w with phase := .live l } l := by
  obtain ⟨l', ho', hl⟩ := h.open_ok (torn_of_openStore ho)
  rw [ho] at ho'
  exact Except.ok.inj ho' ▸ hl

theorem LiveInv.step (h : LiveInv w l) (hp : w.phase = .live l) {e : Event}
    (hk : Careful w e) (hs : stepLive w l e = some w') : Inv w' := by
  cases e with
  | begin op =>
    simp only [stepLive] at hs
    split at hs
    · cases hs
    rename_i hf
    split at hs
    · obtain rfl := some.inj hs
      unfold Inv
      rw [hp]
      exact h
    · obtain rfl := some.inj hs
      have hfree := hk.1
      simp only [keysFree, hp] at hfree
      exact (h.begin (by simpa using hf) hfree).inv _
  | append id e => exact h.append hs
  | syncStart =>
    simp only [stepLive] at hs
    split at hs
    · cases hs
    · split at hs
      · rename_i hsample
        obtain rfl := some.inj hs
        exact (h.syncStart hsample).inv _
      · cases hs
  | syncEnd ok =>
    simp only [stepLive] at hs
    split at hs
    · rename_i hsync
      obtain rfl := some.inj hs
      exact (h.syncEnd hsync ok).inv _
    · cases hs
  | apply id =>
    simp only [stepLive] at hs
    split at hs
    · rename_i hfind
      obtain ⟨hx, rfl⟩ := findWriter_some hfind
      split at hs
      · rename_i hle
        obtain rfl := some.inj hs
        exact (h.apply hx rfl hle).inv _
      · cases hs
    · cases hs
  | refuse id =>
    simp only [stepLive] at hs
    split at hs
    · split at hs
      · rename_i hf
        obtain rfl := some.inj hs
        exact (h.refuse hf.1 id).inv _
      · cases hs
    · cases hs
  | ack id =>
    simp only [stepLive] at hs
    split at hs
    · rename_i hfind
      obtain ⟨hx, rfl⟩ := findWriter_some hfind
      obtain rfl := some.inj hs
      exact (h.ack hx rfl).inv _
    · cases hs
  | checkpointStart c =>
    simp only [stepLive] at hs
    split at hs
    · rename_i hck
      split at hs
      · rename_i hz
        obtain rfl := some.inj hs
        exact (h.checkpointReady hck hz).inv _
      · -- a memtable an earlier checkpoint left goes first, under the old label
        rename_i z hz
        obtain ⟨m, h₁, h₂, h₃⟩ := h.index.frozen z hz
        obtain rfl := some.inj hs
        exact (h.flush hz h₁ le_rfl h₂ h₃ (by simp [hck]) c .ready (by rintro _ ⟨⟩) (by simp)
          (fun m hm => by rcases hm with hm | ⟨_, hm⟩ <;> cases hm)).inv _
    · cases hs
  | checkpointMark ok =>
    simp only [stepLive] at hs
    split at hs
    · rename_i hck
      split at hs
      · cases hs
      · rename_i hq
        split at hs
        · rename_i hm
          split at hs
          · obtain rfl := some.inj hs
            exact (h.checkpointMark hck (by simpa using hq) hm).inv _
          · obtain rfl := some.inj hs
            exact (h.checkpointIdle (by simp [hck])).inv _
        · obtain rfl := some.inj hs
          exact (h.checkpointIdle (by simp [hck])).inv _
    · cases hs
  | checkpointFlush c =>
    simp only [stepLive] at hs
    split at hs
    · rename_i m hck
      obtain ⟨z, hz, h₁, h₂, h₃⟩ := h.index.marked m hck
      obtain rfl := some.inj hs
      refine (h.flush hz le_rfl h₁ h₂ h₃ (by simp [hck]) c (.flushed m) ?_ (by simp) ?_).inv _
      · intro m' hm'
        rw [hck]
        exact hm'
      · rintro m' (hm' | ⟨_, hm'⟩)
        · obtain rfl := Checkpoint.flushed.inj hm'
          exact le_rfl
        · cases hm'
    · cases hs
  | truncateFirst ok =>
    simp only [stepLive] at hs
    split at hs
    · rename_i m hck
      split at hs
      · obtain rfl := some.inj hs
        cases ok with
        | true => exact (h.truncateFirst hck _).inv _
        | false => exact (h.checkpointIdle (by simp [hck])).inv _
      · obtain rfl := some.inj hs
        exact (h.checkpointIdle (by simp [hck])).inv _
    · cases hs
  | truncateSecond ok =>
    simp only [stepLive] at hs
    split at hs
    · rename_i m first hck
      split at hs
      · cases hs
      · split at hs
        · rename_i ht
          split at hs
          · obtain rfl := some.inj hs
            exact (h.truncateSecond hck ht).inv _
          · obtain rfl := some.inj hs
            exact (h.checkpointIdle (by simp [hck])).inv _
        · obtain rfl := some.inj hs
          exact (h.checkpointIdle (by simp [hck])).inv _
    · cases hs
  | dirSync ok =>
    simp only [stepLive] at hs
    split at hs
    · rename_i hck
      obtain rfl := some.inj hs
      exact (h.dirSync hck ok).inv _
    · cases hs
  | crash kept torn old => exact h.crash hp hk.2 hs
  | reopen => cases hs

/-- Every step of a writer, a sync, a checkpoint or a crash keeps the store's invariant. -/
theorem step_inv (w : World) (e : Event) (w' : World) (h : Inv w) (hk : Careful w e)
    (hs : step w e = some w') : Inv w' := by
  unfold step at hs
  unfold Inv at h
  split at hs
  · rename_i l hp
    rw [hp] at h
    exact h.step hp hk hs
  · rename_i d hp
    rw [hp] at h
    split at hs
    · split at hs
      · rename_i hopen
        obtain rfl := some.inj hs
        exact (h.reopen hopen).2.inv _
      · cases hs
    · cases hs

theorem run_inv {es : List Event} (hc : CarefulRun es) (hr : run es = some w) : Inv w :=
  Steps.run_invariant_along step_inv es World.init w init_inv hc hr

/-- Every acknowledged operation at the LSN of its answer; besides them operations that were started, each at
most once, and after everything acknowledged before it started. -/
structure Explains (w : World) (log : List LogEntry) : Prop where
  acked : ∀ a ∈ w.acked, 1 ≤ a.lsn ∧ ∃ st, w.started[a.id]? = some st ∧ log[a.lsn - 1]? = some ⟨a.id, st.op⟩
  started : ∀ e ∈ log, ∃ st, w.started[e.id]? = some st ∧ st.op = e.op
  once : (log.map LogEntry.id).Nodup
  order : ∀ q e st, log[q]? = some e → w.started[e.id]? = some st →
    ∀ a ∈ w.acked.take st.ackedBefore, a.lsn < q + 1

theorem LogInv.explains {n : Nat} (h : LogInv w.log w.started w.acked n) : Explains w w.log where
  acked a ha := by
    obtain ⟨h₁, -, e, he, hid⟩ := h.placed a ha
    obtain ⟨st, hst, hop⟩ := h.known e (mem_of_getElem? he)
    refine ⟨h₁, st, hid ▸ hst, ?_⟩
    rw [he, ← hid, hop]
  started := h.known
  once := h.ids
  order q e st hq hst a ha := Nat.lt_succ_of_le (h.order q e st hq hst a ha)

/-- **After any careful run, a reopened store shows a log that holds every acknowledged operation at the LSN it
was answered with**, and besides them only operations that were started (`Explains`). -/
theorem reopened_store_shows_log (es : List Event) (hc : CarefulRun es) (w : World) (d : Disk)
    (hr : run es = some w) (hd : w.phase = .down d) : (∀ l, openStore d = .ok l →
      ∃ log, Explains w log ∧ l.index.view = applyLog log ∧ l.index.ReadsAs (applyLog log)) ∧
    ((∃ l, openStore d = .ok l) ↔ d.log.torn ≠ some true) := by
  have hinv := run_inv hc hr
  unfold Inv at hinv
  rw [hd] at hinv
  refine ⟨fun l hl => ?_, fun ⟨l, hl⟩ ht => ?_, fun ht => ?_⟩
  · have hview := (hinv.reopen hl).1
    exact ⟨w.log, hinv.log.explains, hview, hview ▸ l.index.readsAs_view⟩
  · exact torn_of_openStore hl ht
  · obtain ⟨l, hl, -⟩ := hinv.open_ok ht
    exact ⟨l, hl⟩

/-- A batch is written and not synced; a crash keeps it; the reopened store acknowledges a put of one of its
keys. -/
def survivingBatch : List Event :=
  [.begin (.batch [.put [97] [1], .put [98] [1]]), .append 0 .written, .crash 1 none false, .reopen,
    .begin (.put [98] [2]), .append 1 .written, .syncStart, .syncEnd true, .apply 1, .ack 1,
    .crash 2 none false]

theorem survivingBatch_reopens : ∃ w d, run survivingBatch = some w ∧ w.phase = .down d ∧
    (∀ l, openStore d = .ok l →
      ∃ log, Explains w log ∧ l.index.view = applyLog log ∧ l.index.ReadsAs (applyLog log)) ∧
    ((∃ l, openStore d = .ok l) ↔ d.log.torn ≠ some true) :=
  ⟨_, _, rfl, rfl, reopened_store_shows_log survivingBatch (by decide +kernel) _ _ rfl rfl⟩

/-- The acknowledged operations in LSN order, followed by operations that were started and never acknowledged.
-/
def UnackedAtEnd (w : World) (m : OrdMap Bytes Bytes) : Prop :=
  ∃ (acks : List Ack) (log tail : List LogEntry), acks.Perm w.acked ∧
    acks.Pairwise (fun a b => a.lsn < b.lsn) ∧
    log = acks.filterMap (fun a => w.started[a.id]?.map (fun st => ⟨a.id, st.op⟩)) ∧
    (∀ e ∈ tail, (∃ st, w.started[e.id]? = some st ∧ st.op = e.op) ∧ ∀ a ∈ w.acked, a.id ≠ e.id) ∧
    m = applyLog (log ++ tail)

theorem survivingBatch_end : ∃ w d l, run survivingBatch = some w ∧ w.phase = .down d ∧
    openStore d = .ok l ∧ w.acked = [⟨1, 2⟩] ∧
    w.started = [⟨.batch [.put [97] [1], .put [98] [1]], 0⟩, ⟨.put [98] [2], 0⟩] ∧
    l.index.get [97] = some [1] ∧ l.index.get [98] = some [2] :=
  ⟨_, _, _, rfl, rfl, rfl, rfl, rfl, rfl, rfl⟩

/-- The batch is followed by the put: no log that ends with it makes the map the open shows. -/
theorem survivingBatch_not_at_end : ∃ w d l, run survivingBatch = some w ∧ w.phase = .down d ∧
    openStore d = .ok l ∧ ¬ UnackedAtEnd w l.index.view := by
  obtain ⟨w, d, l, hr, hd, hl, hacked, hstarted, ha, hb⟩ := survivingBatch_end
  refine ⟨w, d, l, hr, hd, hl, ?_⟩
  rintro ⟨acks, log, tail, hperm, -, hlog, htail, hm⟩
  rw [hacked, perm_singleton] at hperm
  subst hperm
  rw [hstarted] at hlog htail
  rw [get_eq_view, hm] at ha hb
  -- what may stand at the end is the batch, any number of times
  have hbatch : ∀ e ∈ tail, e.changes = [([97], some [1]), ([98], some [1])] := by
    intro e he
    obtain ⟨⟨st, hst, hop⟩, hne⟩ := htail e he
    have h1 : (1 : Nat) ≠ e.id := hne ⟨1, 2⟩ (by simp [hacked])
    have hid := (List.getElem?_eq_some_iff.1 hst).1
    have h0 : e.id = 0 := by
      simp only [length_cons, length_nil] at hid
      omega
    rw [h0] at hst
    obtain rfl := some.inj hst
    unfold LogEntry.changes
    rw [← hop]
    rfl
  have hput : log.flatMap LogEntry.changes = [([98], some [2])] := by
    rw [hlog]
    rfl
  rcases eq_nil_or_concat tail with rfl | ⟨init, e, rfl⟩
  · unfold applyLog at ha
    rw [append_nil, hput] at ha
    revert ha
    decide
  · rw [concat_eq_append, ← append_assoc, applyLog_append] at hb
    simp only [flatMap_cons, flatMap_nil, append_nil, hbatch e (by simp)] at hb
    rw [get_applyChanges] at hb
    revert hb
    rw [show lastChange [(([97] : Bytes), some ([1] : Bytes)), ([98], some [1])] [98] =
      some (some [1]) by decide]
    simp

/-- Two puts of one key are applied in the other order than they were logged, and a checkpoint makes that the
file's. -/
def reordered : List Event :=
  [.begin (.put [97] [1]), .begin (.put [97] [2]), .append 0 .written, .append 1 .written, .syncStart,
    .syncEnd true, .apply 1, .apply 0, .ack 0, .ack 1, .checkpointStart .done, .checkpointMark true,
    .checkpointFlush .done, .crash 2 none false]

theorem reordered_end : ∃ w d l, run reordered = some w ∧ w.phase = .down d ∧ openStore d = .ok l ∧
    w.acked = [⟨0, 1⟩, ⟨1, 2⟩] ∧ w.started = [⟨.put [97] [1], 0⟩, ⟨.put [97] [2], 0⟩] ∧
    l.index.get [97] = some [1] :=
  ⟨_, _, _, rfl, rfl, rfl, rfl, rfl, by decide +kernel⟩

/-- The second put was logged last, and the open shows the first. -/
theorem reordered_not_explained : ∃ w d l, run reordered = some w ∧ w.phase = .down d ∧
    openStore d = .ok l ∧ ¬ ∃ log, Explains w log ∧ l.index.view = applyLog log := by
  obtain ⟨w, d, l, hr, hd, hl, hacked, hstarted, hget⟩ := reordered_end
  refine ⟨w, d, l, hr, hd, hl, ?_⟩
  rintro ⟨log, hlog, hview⟩
  -- the two puts are acknowledged, at the first two places, and nothing else was started
  obtain ⟨-, st, hst, h0⟩ := hlog.acked ⟨0, 1⟩ (by simp [hacked])
  obtain ⟨-, st', hst', h1⟩ := hlog.acked ⟨1, 2⟩ (by simp [hacked])
  rw [hstarted] at hst hst'
  obtain rfl := some.inj hst
  obtain rfl := some.inj hst'
  have hids : log.map LogEntry.id ⊆ range 2 := by
    intro i hi
    obtain ⟨e, he, rfl⟩ := mem_map.1 hi
    obtain ⟨st, hst, -⟩ := hlog.started e he
    rw [hstarted] at hst
    exact mem_range.2 (List.getElem?_eq_some_iff.1 hst).1
  have hlength := (hlog.once.subperm hids).length_le
  match log, h0, h1, hlength with
  | [_, _], h0, h1, _ =>
    obtain rfl := some.inj h0
    obtain rfl := some.inj h1
    rw [get_eq_view, hview] at hget
    revert hget
    decide
  | _ :: _ :: _ :: _, _, _, hlength => simp at hlength

/-- Two records survive a crash without a sync; a checkpoint of the reopened store flushes them; the second is
lost by the next crash.  The next record is numbered past the label, and leaves a gap. -/
def lostAfterOpen : List Event :=
  [.begin (.put [97] [1]), .append 0 .written, .begin (.put [98] [1]), .append 1 .written, .crash 2 none false,
    .reopen, .checkpointStart .done, .checkpointMark true, .checkpointFlush .done, .crash 1 none false, .reopen,
    .begin (.put [99] [1]), .append 2 .written, .syncStart, .syncEnd true, .apply 2, .ack 2, .crash 2 none false]

/-- The open refuses a log of acknowledged records. -/
theorem lostAfterOpen_refused : ∃ w d, run lostAfterOpen = some w ∧ w.phase = .down d ∧ w.acked = [⟨2, 3⟩] ∧
    d.log.torn = none ∧ ∀ l, openStore d ≠ .ok l := by
  have hend : (run lostAfterOpen).any (fun w => match w.phase with
      | .down d => w.acked = [⟨2, 3⟩] && d.log.torn.isNone && (openStore d).toOption.isNone
      | .live _ => false) = true := by
    decide +kernel
  obtain ⟨w, hr, hw⟩ := (any_eq_true _ _).1 hend
  cases hp : w.phase with
  | live l => simp [hp] at hw
  | down d =>
    simp only [hp, Bool.and_eq_true, decide_eq_true_eq, isNone_iff_eq_none] at hw
    refine ⟨w, d, hr, hp, hw.1.1, hw.1.2, fun l hl => ?_⟩
    have hopen := hw.2
    rw [hl] at hopen
    cases hopen

/-- **What a reopened store shows is not always the acknowledged operations in their order with the others at
the end.**  An operation that was never acknowledged may be followed by one that was; without `keysFree` the
map is of no log in the order of the LSNs; and without `keepsRead` the open may refuse the log. -/
theorem reopened_store_differs :
    (∃ es w d l, CarefulRun es ∧ run es = some w ∧ w.phase = .down d ∧ openStore d = .ok l ∧
      ¬ UnackedAtEnd w l.index.view) ∧
    (∃ es w d l, Steps.Along step (fun w e => keepsRead w e = true) World.init es ∧ run es = some w ∧
      w.phase = .down d ∧ openStore d = .ok l ∧ ¬ ∃ log, Explains w log ∧ l.index.view = applyLog log) ∧
    ∃ es w d, Steps.Along step (fun w e => keysFree w e = true) World.init es ∧ run es = some w ∧
      w.phase = .down d ∧ w.acked ≠ [] ∧ d.log.torn = none ∧ ∀ l, openStore d ≠ .ok l := by
  obtain ⟨w, d, hr, hd, hacked, htorn, hopen⟩ := lostAfterOpen_refused
  refine ⟨⟨survivingBatch, ?_⟩, ⟨reordered, ?_⟩, lostAfterOpen, w, d, by decide +kernel, hr, hd,
    by simp [hacked], htorn, hopen⟩
  · obtain ⟨w, d, l, hend⟩ := survivingBatch_not_at_end
    exact ⟨w, d, l, by decide +kernel, hend⟩
  · obtain ⟨w, d, l, hend⟩ := reordered_not_explained
    exact ⟨w, d, l, by decide +kernel, hend⟩

/-! ## Reads and crashes -/

theorem LiveInv.synced_le_kept (h : LiveInv w l) (hp : w.phase = .live l) {kept : Nat} {torn : Option Bool}
    {old : Bool} (hkeeps : keepsRead w (.crash kept torn old) = true)
    (hw : stepCrash w l kept torn old = some w') :
    ∃ n, l.wal.syncedLsn ≤ n ∧ w'.log = w.log.take n := by
  unfold stepCrash at hw
  split at hw
  · cases hw
  rename_i file hfile
  split at hw
  case isFalse => cases hw
  rename_i hcond
  obtain rfl := some.inj hw
  have hsync := (holdsFrom_crash (h.holdsFrom hfile) h.wal.label_le h.wal.synced_le hcond.1
    (lost_unsynced hp hkeeps hfile)).1
  rw [length_opsOf] at hsync
  exact ⟨_, hsync, rfl⟩

/-- **A crash undoes no read.**  After a careful run whose log has not failed, what an open store shows of a key
that no record written and not yet applied changes is what it shows of it after any crash that loses no record
it takes to be synced, once reopened. -/
theorem crash_keeps_reads {es : List Event} {w w' : World} {l l' : Live} {d : Disk} {kept : Nat}
    {torn : Option Bool} {old : Bool} (hc : CarefulRun es) (hr : run es = some w) (hl : w.phase = .live l)
    (hkeeps : keepsRead w (.crash kept torn old) = true) (hcrash : step w (.crash kept torn old) = some w')
    (hd : w'.phase = .down d) (ho : openStore d = .ok l') (hf : l.wal.failed = false) {k : Bytes}
    (hk : ∀ x ∈ l.writers, ∀ lsn, x.stage = .written lsn → ∀ c ∈ x.op.changes, c.1 ≠ k) :
    l'.index.get k = l.index.get k := by
  have hinv := run_inv hc hr
  have hdown := step_inv w _ w' hinv ⟨rfl, hkeeps⟩ hcrash
  unfold Inv at hinv hdown
  rw [hl] at hinv
  rw [hd] at hdown
  obtain ⟨pend, hp⟩ := hinv.view
  have hpend : ∀ e ∈ pend, ∀ c ∈ e.changes, c.1 ≠ k := by
    intro e he c hc
    obtain ⟨x, hx, -, hop, lsn, hs⟩ := hp.owned hf e he
    exact hk x hx lsn hs c (hop ▸ hc)
  obtain ⟨n, hn, hlog⟩ : ∃ n, l.wal.syncedLsn ≤ n ∧ w'.log = w.log.take n := by
    unfold step at hcrash
    simp only [hl] at hcrash
    exact hinv.synced_le_kept hl hkeeps hcrash
  -- what the crash took away was not synced, so it was not applied
  have hlost : ∀ c ∈ (w.log.drop n).flatMap LogEntry.changes, c.1 ≠ k := by
    intro c hc
    obtain ⟨e, he, hc⟩ := mem_flatMap.1 hc
    obtain ⟨q, hq⟩ := mem_iff_getElem?.1 he
    rw [getElem?_drop] at hq
    exact hpend e (hp.unsynced (n + q) e (by omega) hq) c hc
  calc l'.index.get k = (applyLog w'.log).get k := by rw [get_eq_view, (hdown.reopen ho).1]
    _ = (applyLog (w.log.take n ++ w.log.drop n)).get k := by
      rw [applyLog_append, get_applyChanges_of_not hlost, hlog]
    _ = l.index.get k := by
      rw [take_append_drop, ← hp.makes, get_eq_view]
      refine get_applyChanges_of_not (fun c hc => ?_) _
      obtain ⟨e, he, hc⟩ := mem_flatMap.1 hc
      exact hpend e he c hc

def readThenCrash : List Event :=
  [.begin (.put [97] [1]), .append 0 .written, .syncStart, .syncEnd true, .apply 0, .begin (.put [98] [2]),
    .append 1 .written]

theorem read_kept_by_crash : ∃ w w' l l' d, run readThenCrash = some w ∧ w.phase = .live l ∧
    step w (.crash 1 none false) = some w' ∧ w'.phase = .down d ∧ openStore d = .ok l' ∧
    l.index.get [97] = some [1] ∧ l'.index.get [97] = l.index.get [97] := by
  have hr : run readThenCrash = some _ := rfl
  refine ⟨_, _, _, _, _, hr, rfl, rfl, rfl, rfl, rfl,
    crash_keeps_reads (by decide +kernel) hr rfl (show keepsRead _ (.crash 1 none false) = true from rfl)
      (show step _ (.crash 1 none false) = some _ from rfl) rfl rfl rfl ?_⟩
  rintro x (_ | ⟨_, _ | ⟨_, ⟨⟩⟩⟩) lsn hs c hc
  · cases hs
  · cases mem_singleton.1 hc
    decide

end IoLake.Storage
