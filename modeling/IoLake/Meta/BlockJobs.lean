import IoLake.Meta.BlockChunks

/-!
# The writes of a call

Every call has one volume or snapshot that it creates, writes to or deletes, its target.
-/

namespace IoLake.Meta.BlockVolumes

open Proto SharedHold OwnedRecords List
open StripeRefs (Status)

/-! ## Targets -/

def Job.target : Job → String × Bytes
  | .createVolume v => (CHUNKS, v.volumeId)
  | .commitChunks volumeId _ => (CHUNKS, volumeId)
  | .copy c => (c.toTable, c.toId)
  | .delete d => (d.table, d.id)

inductive Plain (target : String × Bytes) (w : Write) : Prop where
  | volume (v : Volume) (htarget : target = (CHUNKS, v.volumeId))
      (hw : w = (key VOLUMES v.volumeId 0, some (.volume v)))
  | noVolume (id : Bytes) (htarget : target = (CHUNKS, id)) (hw : w = (key VOLUMES id 0, none))
  | snapshot (sn : Snapshot) (htarget : target = (SNAP_CHUNKS, sn.snapshotId))
      (hw : w = (key SNAPSHOTS sn.snapshotId 0, some (.snapshot sn)))
  | noSnapshot (id : Bytes) (htarget : target = (SNAP_CHUNKS, id)) (hw : w = (key SNAPSHOTS id 0, none))
  | name (name : Bytes) (volumeId : Option Bytes) (hw : w = (key NAMES name 0, volumeId.map .name))

def Of (target : String × Bytes) (w : Write) : Prop :=
  Plain target w ∨ ∃ (chunk : Nat) (r : Option BlockChunkRef), w = (key target.1 target.2 chunk, r.map .chunk)

variable {target : String × Bytes} {w : Write} {rows : Rows} {b b' : Build} {used : List Bytes}

theorem Plain.table (h : Plain target w) :
    tableOf w.1 = VOLUMES ∨ tableOf w.1 = SNAPSHOTS ∨ tableOf w.1 = NAMES := by
  cases h with
  | volume v _ hw | noVolume id _ hw => exact .inl (hw ▸ rfl)
  | snapshot sn _ hw | noSnapshot id _ hw => exact .inr (.inl (hw ▸ rfl))
  | name name _ hw => exact .inr (.inr (hw ▸ rfl))

theorem Plain.not_chunk (h : Plain target w) :
    tableOf w.1 ≠ CHUNKS ∧ tableOf w.1 ≠ SNAP_CHUNKS ∧ tableOf w.1 ≠ STRIPE_REFS := by
  rcases h.table with h | h | h <;> rw [h] <;> decide

theorem Of.not_refs (htable : target.1 = CHUNKS ∨ target.1 = SNAP_CHUNKS) (h : Of target w) :
    tableOf w.1 ≠ STRIPE_REFS := by
  rcases h with h | ⟨chunk, r, rfl⟩
  · exact h.not_chunk.2.2
  · show target.1 ≠ STRIPE_REFS
    rcases htable with htable | htable <;> rw [htable] <;> decide

variable {k : Key} {id volumeId : Bytes}

theorem mem_rows {row : Option Row} (h : (k, row) ∈ b.rows) :
    (k, row) ∈ b.writes ∨ tableOf k = STRIPE_REFS := by
  rcases mem_append.1 h with h | h
  · exact .inl h
  · obtain ⟨e, -, he⟩ := mem_map.1 h
    cases he
    exact .inr rfl

theorem volumeAt_some {v : Volume} :
    volumeAt rows id = some v ↔ rows.get (key VOLUMES id 0) = some (.volume v) := by
  unfold volumeAt
  split
  · rename_i v' hv'
    rw [hv']
    constructor
    · rintro ⟨⟩
      rfl
    · rintro ⟨⟩
      rfl
  · rename_i hno
    constructor
    · rintro ⟨⟩
    · intro h
      exact absurd h (hno v)

theorem snapshotAt_some {sn : Snapshot} :
    snapshotAt rows id = some sn ↔ rows.get (key SNAPSHOTS id 0) = some (.snapshot sn) := by
  unfold snapshotAt
  split
  · rename_i sn' hsn'
    rw [hsn']
    constructor
    · rintro ⟨⟩
      rfl
    · rintro ⟨⟩
      rfl
  · rename_i hno
    constructor
    · rintro ⟨⟩
    · intro h
      exact absurd h (hno sn)

theorem chunkAt_some {r : BlockChunkRef} (h : chunkAt rows k = some r) :
    rows.get k = some (.chunk r) ∧ (tableOf k = CHUNKS ∨ tableOf k = SNAP_CHUNKS) := by
  unfold chunkAt at h
  split at h
  · rename_i htable
    split at h
    · rename_i r' hr'
      cases h
      exact ⟨hr', htable⟩
    · cases h
  · cases h

section frame

variable (htable : target.1 = CHUNKS ∨ target.1 = SNAP_CHUNKS) (hof : ∀ w ∈ b.writes, Of target w)
include htable hof

theorem plain_row_of {row : Row} (h : (applyWrites rows b.rows).get k = some row)
    (hk : tableOf k ≠ CHUNKS ∧ tableOf k ≠ SNAP_CHUNKS ∧ tableOf k ≠ STRIPE_REFS) :
    rows.get k = some row ∨ Plain target (k, some row) := by
  rcases get_applyWrites_some h with h | h
  · exact .inl h
  · rcases mem_rows h with h | h
    · rcases hof _ h with h | ⟨chunk, r, h⟩
      · exact .inr h
      · have hown : tableOf k = target.1 := congrArg tableOf (Prod.mk.inj h).1
        rcases htable with htable | htable
        · exact absurd (hown.trans htable) hk.1
        · exact absurd (hown.trans htable) hk.2.1
    · exact absurd h hk.2.2

theorem volumeAt_of {v : Volume} (h : volumeAt (applyWrites rows b.rows) id = some v) :
    volumeAt rows id = some v ∨ (target = (CHUNKS, id) ∧ v.volumeId = id) := by
  rcases plain_row_of htable hof (volumeAt_some.1 h)
    (show VOLUMES ≠ CHUNKS ∧ VOLUMES ≠ SNAP_CHUNKS ∧ VOLUMES ≠ STRIPE_REFS by decide) with h | h
  · exact .inl (volumeAt_some.2 h)
  · cases h with
    | volume v' htarget hw =>
      cases (Prod.mk.inj hw).2
      have hid := (key_inj (Prod.mk.inj hw).1).1
      exact .inr ⟨by rw [htarget, hid], hid.symm⟩
    | noVolume id' _ hw | snapshot sn _ hw | noSnapshot id' _ hw => cases (Prod.mk.inj hw).2
    | name name row hw =>
      exact absurd (congrArg tableOf (Prod.mk.inj hw).1) (show VOLUMES ≠ NAMES by decide)

theorem snapshotAt_of {sn : Snapshot} (h : snapshotAt (applyWrites rows b.rows) id = some sn) :
    snapshotAt rows id = some sn ∨ (target = (SNAP_CHUNKS, id) ∧ sn.snapshotId = id) := by
  rcases plain_row_of htable hof (snapshotAt_some.1 h)
    (show SNAPSHOTS ≠ CHUNKS ∧ SNAPSHOTS ≠ SNAP_CHUNKS ∧ SNAPSHOTS ≠ STRIPE_REFS by decide) with h | h
  · exact .inl (snapshotAt_some.2 h)
  · cases h with
    | volume v _ hw | noVolume id' _ hw | noSnapshot id' _ hw => cases (Prod.mk.inj hw).2
    | snapshot sn' htarget hw =>
      cases (Prod.mk.inj hw).2
      have hid := (key_inj (Prod.mk.inj hw).1).1
      exact .inr ⟨by rw [htarget, hid], hid.symm⟩
    | name name row hw =>
      exact absurd (congrArg tableOf (Prod.mk.inj hw).1) (show SNAPSHOTS ≠ NAMES by decide)

omit htable in
theorem chunkAt_of (hk : (tableOf k, idOf k) ≠ target) :
    chunkAt (applyWrites rows b.writes) k = chunkAt rows k := by
  rw [chunkAt, chunkAt]
  split
  · rename_i hchunk
    rw [get_applyWrites_of_notMem]
    rintro w hw rfl
    rcases hof w hw with h | ⟨chunk, r, rfl⟩
    · obtain ⟨hchunks, hsnaps, -⟩ := h.not_chunk
      rcases hchunk with hchunk | hchunk
      · exact hchunks hchunk
      · exact hsnaps hchunk
    · exact hk rfl
  · rfl

end frame

/-- **What a write that was built comes to**: rows of its target, and records and registry entries that change
together. -/
structure Written (rows : Rows) (used : List Bytes) (job : Job) (b : Build) : Prop where
  of : ∀ w ∈ b.writes, Of job.target w
  changes : ∃ used', (∀ x, x ∈ used' ↔ x ∈ newStripes job ∨ x ∈ used) ∧
    Changes ⟨chunkAt rows, refsOf rows, used, []⟩ (worldOf rows b used')
  named : ∀ k r, (k, some (.chunk r)) ∈ b.writes → chunkAt (applyWrites rows b.writes) k = some r

theorem written_plain {job : Job} {ws : List Write} (hws : ∀ w ∈ ws, Plain job.target w)
    (hnew : newStripes job = []) : Written rows used job { writes := ws } := by
  have hchunks : chunkAt (applyWrites rows ws) = chunkAt rows :=
    chunkAt_applyWrites rows fun w hw => ⟨(hws w hw).not_chunk.1, (hws w hw).not_chunk.2.1⟩
  refine ⟨fun w hw => .inl (hws w hw), ⟨used, fun x => by simp [hnew], ?_⟩, fun k r hk => ?_⟩
  · rw [worldOf]
    dsimp only
    rw [hchunks]
    exact .refl
  · cases hws _ hk with
    | volume v _ hw | noVolume id _ hw | snapshot sn _ hw | noSnapshot id _ hw => cases (Prod.mk.inj hw).2
    | name name volumeId hw =>
      have hrow := (Prod.mk.inj hw).2
      cases volumeId with
      | none | some volumeId => cases hrow

theorem written_chunks {α : Type} {l : List α} {job : Job} {n : α → Nat} {r : α → Option BlockChunkRef}
    (htable : job.target.1 = CHUNKS ∨ job.target.1 = SNAP_CHUNKS) (hnodup : (l.map n).Nodup)
    (hwrites : b.writes = l.map fun a => (key job.target.1 job.target.2 (n a), (r a).map Row.chunk))
    (hchanges : ∃ used', (∀ x, x ∈ used' ↔ x ∈ newStripes job ∨ x ∈ used) ∧
      Changes ⟨chunkAt rows, refsOf rows, used, []⟩ (worldOf rows b used')) : Written rows used job b ∧
      (∀ a ∈ l, chunkAt (applyWrites rows b.writes) (key job.target.1 job.target.2 (n a)) = r a) ∧
      ∀ k, (∀ a ∈ l, k ≠ key job.target.1 job.target.2 (n a)) →
        chunkAt (applyWrites rows b.writes) k = chunkAt rows k := by
  have hrecords : ∀ a ∈ l,
      chunkAt (applyWrites rows b.writes) (key job.target.1 job.target.2 (n a)) = r a := by
    intro a ha
    have hkeys : (b.writes.map Prod.fst).Nodup := by
      rw [hwrites, map_map]
      exact (pairwise_map.1 hnodup).map _ fun a a' hne heq => hne (key_inj heq).2
    refine (if_pos htable).trans ?_
    rw [get_applyWrites_of_mem hkeys (hwrites ▸ mem_map_of_mem ha)]
    cases r a with
    | none | some r => rfl
  refine ⟨⟨fun w hw => ?_, hchanges, fun k c hk => ?_⟩, hrecords, fun k hk => ?_⟩
  · rw [hwrites] at hw
    obtain ⟨a, -, rfl⟩ := mem_map.1 hw
    exact .inr ⟨n a, r a, rfl⟩
  · rw [hwrites] at hk
    obtain ⟨a, ha, heq⟩ := mem_map.1 hk
    obtain ⟨rfl, hrow⟩ := Prod.mk.inj heq
    obtain ⟨c', hc', hrow⟩ := Option.map_eq_some_iff.1 hrow
    cases hrow
    rw [hrecords a ha, hc']
  · rw [chunkAt, chunkAt, get_applyWrites_of_notMem]
    intro w hw heq
    rw [hwrites] at hw
    obtain ⟨a, ha, rfl⟩ := mem_map.1 hw
    exact hk a ha heq.symm

theorem release_writes (rows : Rows) (b : Build) (st : StripeMeta) (referrer : Bytes) :
    (b.release rows st referrer).writes = b.writes := by
  unfold Build.release
  split
  · rfl
  · split
    · split <;> rfl
    · rfl

theorem releaseCurrent_writes (rows : Rows) (b : Build) (current : Option BlockChunkRef) :
    (b.releaseCurrent rows current).writes = b.writes := by
  unfold Build.releaseCurrent
  split
  · exact release_writes rows b _ _
  · rfl

theorem commitOne_writes {u : ChunkUpdate} (h : commitOne rows volumeId b u = .ok b') :
    b'.writes = b.writes ++ [(key CHUNKS volumeId u.chunkId, u.record.map Row.chunk)] := by
  unfold commitOne at h
  dsimp only at h
  split at h
  · cases h
  · rw [ChunkUpdate.record]
    split at h
    · rename_i st hst
      rw [hst]
      split at h
      · cases h
      · cases h
        rw [Build.write, releaseCurrent_writes]
        rfl
    · rename_i hst
      rw [hst]
      cases h
      rw [Build.write, releaseCurrent_writes]
      rfl

theorem commit_writes : ∀ {updates : List ChunkUpdate} {b b' : Build},
    each (commitOne rows volumeId) b updates = .ok b' → b'.writes = b.writes ++
      updates.map fun u => (key CHUNKS volumeId u.chunkId, u.record.map Row.chunk) := by
  intro updates
  induction updates with
  | nil =>
    intro b b' h
    cases h
    simp
  | cons u us ih =>
    intro b b' h
    rw [each] at h
    split at h
    · cases h
    · rename_i b₁ hb₁
      rw [ih h, commitOne_writes hb₁]
      simp

/-- Each kind of write leaves what is not its target's as it is. -/
theorem written_commit {updates : List ChunkUpdate}
    (hb : Blocks ⟨chunkAt rows, refsOf rows, used, []⟩) (hid : volumeId ∈ used)
    (hnodup : (updates.map ChunkUpdate.chunkId).Nodup)
    (hfresh : (newStripes (.commitChunks volumeId updates)).Nodup)
    (hnew : ∀ x ∈ newStripes (.commitChunks volumeId updates), x ∉ used)
    (h : each (commitOne rows volumeId) {} updates = .ok b) :
    Written rows used (.commitChunks volumeId updates) b ∧
      (∀ u ∈ updates, chunkAt (applyWrites rows b.writes) (key CHUNKS volumeId u.chunkId) = u.record) ∧
      ∀ k, (∀ u ∈ updates, k ≠ key CHUNKS volumeId u.chunkId) →
        chunkAt (applyWrites rows b.writes) k = chunkAt rows k := by
  exact written_chunks (.inl rfl) hnodup (commit_writes h)
    (commit_changes (show Blocks (worldOf rows {} used) from hb) hid hnodup (fun _ _ => rfl) hfresh hnew h)

theorem commit_free : ∀ {updates : List ChunkUpdate} {b b' : Build},
    (∀ u ∈ updates, chunkAt rows (key CHUNKS volumeId u.chunkId) = none) →
    each (commitOne rows volumeId) b updates = .ok b' → b'.free = b.free := by
  intro updates
  induction updates with
  | nil =>
    intro b b' _ h
    cases h
    rfl
  | cons u us ih =>
    intro b b' hnone h
    rw [each] at h
    split at h
    · cases h
    · rename_i b₁ hb₁
      rw [ih (fun v hv => hnone v (mem_cons_of_mem _ hv)) h]
      unfold commitOne at hb₁
      dsimp only at hb₁
      rw [hnone u mem_cons_self] at hb₁
      split at hb₁
      · cases hb₁
      · split at hb₁
        · split at hb₁
          · cases hb₁
          · cases hb₁
            rfl
        · cases hb₁
          rfl

theorem share_same {owner sharer : Bytes} (h : b.share rows id owner sharer = .ok b') :
    b'.writes = b.writes ∧ b'.free = b.free := by
  unfold Build.share at h
  split at h
  · split at h
    · cases h
    · cases h
      exact ⟨rfl, rfl⟩
  · cases h
    exact ⟨rfl, rfl⟩

theorem share_writes {fromId : Bytes} {fromIsOwner : Bool} {toTable : String} {toId : Bytes} :
    ∀ {batch : List (Nat × BlockChunkRef)} {b b' : Build},
    (∀ row ∈ batch, row.2.chunkId = row.1 ∧ ∃ st, row.2.stripe = some st) →
    each (shareOne rows fromId fromIsOwner toTable toId) b batch = .ok b' →
    b'.writes = b.writes ++ batch.map fun row =>
      (key toTable toId row.1, (some { row.2 with owner := toId }).map Row.chunk) := by
  intro batch
  induction batch with
  | nil =>
    intro b b' _ h
    cases h
    simp
  | cons row batch ih =>
    intro b b' hrows h
    rw [each] at h
    split at h
    · cases h
    · rename_i b₁ hb₁
      obtain ⟨hchunk, st, hst⟩ := hrows row mem_cons_self
      rw [ih (fun row' hrow' => hrows row' (mem_cons_of_mem _ hrow')) h]
      unfold shareOne at hb₁
      rw [hst] at hb₁
      dsimp only at hb₁
      split at hb₁
      · cases hb₁
      · rename_i b₂ hb₂
        cases hb₁
        rw [Build.write, (share_same hb₂).1, hchunk, ← hst]
        simp [← hchunk]

theorem written_share {c : Copy} {batch : List (Nat × BlockChunkRef)}
    (hb : Blocks ⟨chunkAt rows, refsOf rows, used, []⟩)
    (howner : c.fromIsOwner = true → c.fromTable = SNAP_CHUNKS)
    (htable : c.toTable = CHUNKS ∨ c.toTable = SNAP_CHUNKS) (htables : c.fromTable ≠ c.toTable)
    (hid : c.toId ∈ used) (hnodup : (batch.map Prod.fst).Nodup)
    (hfrom : ∀ row ∈ batch, chunkAt rows (key c.fromTable c.fromId row.1) = some row.2)
    (hto : ∀ row ∈ batch, chunkAt rows (key c.toTable c.toId row.1) = none)
    (hrows : ∀ k r, chunkAt rows k = some r → idOf k = c.toId → tableOf k = c.toTable)
    (hnames : ¬ World.Names ⟨chunkAt rows, refsOf rows, used, []⟩ c.toId)
    (h : each (shareOne rows c.fromId c.fromIsOwner c.toTable c.toId) {} batch = .ok b) :
    Written rows used (.copy c) b ∧
      (∀ row ∈ batch, chunkAt (applyWrites rows b.writes) (key c.toTable c.toId row.1) =
        some { row.2 with owner := c.toId }) ∧
      ∀ k, (∀ row ∈ batch, k ≠ key c.toTable c.toId row.1) →
        chunkAt (applyWrites rows b.writes) k = chunkAt rows k := by
  refine written_chunks htable hnodup (share_writes (fun row hrow => ?_) h)
    ⟨used, fun x => by simp [newStripes], share_changes howner htable htables hid
      (show Blocks (worldOf rows {} used) from hb) hnodup hfrom hto hrows hnames h⟩
  obtain ⟨-, hchunk, -, st, hst, -⟩ := hb.known _ _ (hfrom row hrow)
  exact ⟨hchunk, st, hst⟩

theorem releaseOne_writes (rows : Rows) (table : String) (ownerId : Bytes) (referrerIsOwner : Bool)
    (b : Build) (row : Nat × BlockChunkRef) : (releaseOne rows table ownerId referrerIsOwner b row).writes =
      b.writes ++ [(key table ownerId row.1, none)] := by
  unfold releaseOne
  dsimp only
  split
  · rw [Build.write, release_writes]
  · rfl

theorem releases_writes (rows : Rows) (table : String) (ownerId : Bytes) (referrerIsOwner : Bool) :
    ∀ (batch : List (Nat × BlockChunkRef)) (b : Build),
    (batch.foldl (releaseOne rows table ownerId referrerIsOwner) b).writes =
      b.writes ++ batch.map fun row => (key table ownerId row.1, none) := by
  intro batch
  induction batch with
  | nil =>
    intro b
    simp
  | cons row batch ih =>
    intro b
    rw [foldl_cons, ih, releaseOne_writes]
    simp

theorem release_free {st stripe : StripeMeta} {referrer : Bytes}
    (h : st ∈ (b.release rows stripe referrer).free) : st ∈ b.free ∨ st = stripe := by
  have hone : st ∈ b.free ++ [stripe] → st ∈ b.free ∨ st = stripe := by simp
  unfold Build.release at h
  split at h
  · exact hone h
  · split at h
    · split at h
      · exact hone h
      · exact .inl h
    · exact .inl h

theorem releases_free (rows : Rows) (table : String) (ownerId : Bytes) (referrerIsOwner : Bool) :
    ∀ (batch : List (Nat × BlockChunkRef)) (b : Build),
    ∀ st ∈ (batch.foldl (releaseOne rows table ownerId referrerIsOwner) b).free,
      st ∈ b.free ∨ ∃ row ∈ batch, row.2.stripe = some st := by
  intro batch
  induction batch with
  | nil => exact fun b st hst => .inl hst
  | cons row batch ih =>
    intro b st hst
    rw [foldl_cons] at hst
    rcases ih _ st hst with hst | ⟨row', hrow', hst⟩
    · unfold releaseOne at hst
      dsimp only at hst
      split at hst
      · rename_i stripe hstripe
        rcases release_free hst with hst | rfl
        · exact .inl hst
        · exact .inr ⟨row, mem_cons_self, hstripe⟩
      · exact .inl hst
    · exact .inr ⟨row', mem_cons_of_mem _ hrow', hst⟩

theorem written_release {d : Deletion} {batch : List (Nat × BlockChunkRef)}
    (hb : Blocks ⟨chunkAt rows, refsOf rows, used, []⟩) (htable : d.table = CHUNKS ∨ d.table = SNAP_CHUNKS)
    (howner : d.referrerIsOwner = true → d.table = SNAP_CHUNKS) (hnodup : (batch.map Prod.fst).Nodup)
    (hrows : ∀ row ∈ batch, chunkAt rows (key d.table d.id row.1) = some row.2) :
    Written rows used (.delete d) (batch.foldl (releaseOne rows d.table d.id d.referrerIsOwner) {}) := by
  refine (written_chunks (r := fun _ => none) ?_ hnodup
    (releases_writes rows d.table d.id d.referrerIsOwner batch {}) ⟨used, fun x => by simp [newStripes], ?_⟩).1
  · exact htable
  · exact release_changes htable howner (show Blocks (worldOf rows {} used) from hb) hnodup hrows

end IoLake.Meta.BlockVolumes
