import IoLake.Meta.BlockJobs

/-!
# Runs of the block service

Where a call reads caches that lag behind, a stripe may be answered free that a snapshot holds
(`shared_then_freed`): the caches were not told of a batch of the snapshot whose caller was cut short.
-/

namespace IoLake.Meta.BlockVolumes

open Proto SharedHold OwnedRecords List Function Option Steps
open StripeRefs (Status)

/-! ## What holds in every state -/

def Named (rows : Rows) (x : Bytes) : Prop := ∃ k o, recs (chunkAt rows) k = some (x, o)

/-- A deleted volume or snapshot has no rows left, and its id is not used again. -/
structure Gone (rows : Rows) (used : List Bytes) (table : String) (id : Bytes) : Prop where
  used : id ∈ used
  chunks : ∀ chunk, chunkAt rows (key table id chunk) = none
  volume : table = CHUNKS → volumeAt rows id = none
  snapshot : table = SNAP_CHUNKS → snapshotAt rows id = none

/-- What holds of the tables, and of all that was answered for. -/
structure Kept (s : State) : Prop where
  blocks : Blocks ⟨chunkAt s.table, refsOf s.table, s.used, []⟩
  volumes : ∀ id v, volumeAt s.table id = some v → id ∈ s.used ∧ v.volumeId = id
  snapshots : ∀ id sn, snapshotAt s.table id = some sn → id ∈ s.used ∧ sn.snapshotId = id
  freed : ∀ f, .ok (.released f) ∈ s.answers → ∀ st ∈ f, st.objectId ∈ s.used ∧ ¬ Named s.table st.objectId
  copied : ∀ p m, s.copies p = some m → p.2 ∈ s.used ∧ ∀ chunk, stripeAt s.table p.1 p.2 chunk = m chunk
  held : ∀ k x o, recs (chunkAt s.table) k = some (x, o) → (x, tableOf k, idOf k) ∈ s.holds
  deleted : ∀ p ∈ s.deleted, Gone s.table s.used p.1 p.2

variable {s s' : State} {r : Running} {b : Build}

theorem Blocks.use {w : World} {used : List Bytes} (h : Blocks w) (hused : ∀ x ∈ w.used, x ∈ used) :
    Blocks { w with used := used } := by
  refine ⟨h.consistent, fun k r hr => ?_, h.place, fun x r hr => hused x (h.registered x r hr),
    fun st hst => ⟨hused _ (h.freed st hst).1, (h.freed st hst).2⟩⟩
  obtain ⟨htable, hchunk, hid, st, hst, hx, howner, hsnap⟩ := h.known k r hr
  exact ⟨htable, hchunk, hused _ hid, st, hst, hused _ hx, howner, hsnap⟩

theorem Kept.use (h : Kept s) {used : List Bytes} (hmem : ∀ x ∈ s.used, x ∈ used) :
    Kept { s with used := used } := by
  refine ⟨h.blocks.use hmem, fun id v hv => ?_, fun id sn hsn => ?_, fun f hf st hst => ?_,
    fun p m hm => ?_, h.held, fun p hp => ?_⟩
  · exact (h.volumes id v hv).imp_left (hmem _)
  · exact (h.snapshots id sn hsn).imp_left (hmem _)
  · exact (h.freed f hf st hst).imp_left (hmem _)
  · exact (h.copied p m hm).imp_left (hmem _)
  · exact { h.deleted p hp with used := hmem _ (h.deleted p hp).used }

theorem Kept.answer (h : Kept s) {a : Except Status Answer} (hfreed : ∀ f, a = .ok (.released f) →
    ∀ st ∈ f, st.objectId ∈ s.used ∧ ¬ Named s.table st.objectId) : Kept (s.answer a) := by
  refine { h with freed := fun f hf => ?_ }
  rcases mem_append.1 hf with hf | hf
  · exact h.freed f hf
  · exact hfreed f (mem_singleton.1 hf).symm

variable {p : String × Bytes} {source : Nat → Option Bytes} {phase : Phase} {rows rows' : Rows}
  {id volumeId : Bytes} {v : Volume} {c : Copy} {d : Deletion} {sn : Snapshot} {now : Nat}

theorem Kept.copy (h : Kept s) {map : Option (Nat → Option Bytes)} (hp : ∀ m, map = some m →
    p.2 ∈ s.used ∧ ∀ chunk, stripeAt s.table p.1 p.2 chunk = m chunk) :
    Kept { s with copies := update s.copies p map } := by
  refine { h with copied := fun p' m' hm' => ?_ }
  dsimp only at hm'
  by_cases hpp : p' = p
  · subst hpp
    rw [update_self] at hm'
    exact hp m' hm'
  · rw [update_of_ne hpp] at hm'
    exact h.copied p' m' hm'

theorem Kept.forget (h : Kept s) (p : String × Bytes) :
    Kept { s with copies := update s.copies p none } := h.copy nofun

theorem Kept.delete (h : Kept s) (hp : Gone s.table s.used p.1 p.2) :
    Kept { s with deleted := p :: s.deleted } := by
  refine { h with deleted := fun p' hp' => ?_ }
  rcases mem_cons.1 hp' with rfl | hp'
  · exact hp
  · exact h.deleted p' hp'

/-! ## The call under way -/

def Phase.freeable : Phase → List StripeMeta
  | .release free => free
  | .last free => free
  | _ => []

structure Copied (rows : Rows) (c : Copy) (todo : List (Nat × BlockChunkRef)) : Prop where
  nodup : (todo.map Prod.fst).Nodup
  there : ∀ row ∈ todo, chunkAt rows (key c.fromTable c.fromId row.1) = some row.2
  absent : ∀ row ∈ todo, chunkAt rows (key c.toTable c.toId row.1) = none
  done : ∀ chunk, (∀ row ∈ todo, row.1 ≠ chunk) →
    stripeAt rows c.toTable c.toId chunk = stripeAt rows c.fromTable c.fromId chunk

def Copy.Progress (rows : Rows) (c : Copy) : Phase → Prop
  | .share todo => Copied rows c todo
  | .last _ => Copied rows c []
  | _ => ∀ chunk, chunkAt rows (key c.toTable c.toId chunk) = none

structure Copying (s : State) (c : Copy) (source : Nat → Option Bytes) (phase : Phase) : Prop where
  table : c.fromTable = CHUNKS ∨ c.fromTable = SNAP_CHUNKS
  tables : c.fromTable ≠ c.toTable
  owner : c.fromIsOwner = true → c.fromTable = SNAP_CHUNKS
  first : ∀ w ∈ c.first, Plain (c.toTable, c.toId) w
  last : ∀ w ∈ c.last, Plain (c.toTable, c.toId) w
  unnamed : ¬ Named s.table c.toId
  rows : ∀ k r, chunkAt s.table k = some r → idOf k = c.toId → tableOf k = c.toTable
  uncopied : s.copies (c.toTable, c.toId) = none
  source : ∀ chunk, stripeAt s.table c.fromTable c.fromId chunk = source chunk
  progress : c.Progress s.table phase

structure Deleting (s : State) (d : Deletion) (phase : Phase) : Prop where
  owner : d.referrerIsOwner = true → d.table = SNAP_CHUNKS
  mark : ∀ w ∈ d.mark, Plain (d.table, d.id) w
  last : (d.table = CHUNKS ∧ ∃ name, d.last = [(key VOLUMES d.id 0, none), (key NAMES name 0, none)]) ∨
    (d.table = SNAP_CHUNKS ∧ d.last = [(key SNAPSHOTS d.id 0, none)])
  uncopied : s.copies (d.table, d.id) = none
  free : ∀ st ∈ phase.freeable, st.objectId ∈ s.used ∧ ¬ Named s.table st.objectId ∧
    (st.objectId, d.table, d.id) ∈ s.holds
  gone : ∀ free, phase = .last free → ∀ chunk, chunkAt s.table (key d.table d.id chunk) = none

def Working (s : State) (source : Nat → Option Bytes) (phase : Phase) : Job → Prop
  | .createVolume _ => True
  | .commitChunks _ updates => (updates.map ChunkUpdate.chunkId).Nodup
  | .copy c => Copying s c source phase
  | .delete d => Deleting s d phase

variable {job : Job}

theorem Working.frame {cache : Rows} {events : List Write} {running : Option Running}
    (h : Working s source phase job) :
    Working { s with cache := cache, events := events, running := running } source phase job := by
  cases job with
  | createVolume v => trivial
  | commitChunks volumeId updates => exact h
  | copy c => exact { (show Copying s c source phase from h) with }
  | delete d => exact { (show Deleting s d phase from h) with }

structure RunningOk (s : State) (r : Running) : Prop where
  table : r.job.target.1 = CHUNKS ∨ r.job.target.1 = SNAP_CHUNKS
  used : r.job.target.2 ∈ s.used
  live : r.job.target ∉ s.deleted
  working : Working s r.source r.phase r.job

structure Inv (s : State) : Prop where
  kept : Kept s
  running : ∀ r, s.running = some r → RunningOk s r

theorem Inv.run (hk : Kept s) (hr : RunningOk s r) : Inv { s with running := some r } := by
  refine ⟨{ hk with }, fun r' hr' => ?_⟩
  cases hr'
  exact { hr with working := hr.working.frame }

theorem stripeAt_congr {table : String} {chunk : Nat}
    (h : chunkAt rows' (key table id chunk) = chunkAt rows (key table id chunk)) :
    stripeAt rows' table id chunk = stripeAt rows table id chunk := by
  rw [stripeAt, stripeAt, h]

theorem rewrite_of_ne {copies : String × Bytes → Option (Nat → Option Bytes)}
    (hp : p ≠ job.target) : job.rewrite copies p = copies p := by
  cases job with
  | createVolume v | copy c | delete d => rfl
  | commitChunks volumeId updates => exact update_of_ne hp _ _

theorem held_or_old {k : Key} {x o : Bytes} (h : recs (chunkAt (applyWrites rows b.rows)) k = some (x, o)) :
    recs (chunkAt rows) k = some (x, o) ∨ (x, tableOf k, idOf k) ∈ heldBy b.rows := by
  obtain ⟨c, st, hc, hst, rfl, rfl⟩ := recs_some_iff.1 h
  obtain ⟨hget, htable⟩ := chunkAt_some hc
  rcases get_applyWrites_some hget with hold | hnew
  · left
    have hc' : chunkAt rows k = some c := by
      rw [chunkAt, if_pos htable, hold]
    exact recs_some hc' hst
  · right
    refine mem_filterMap.2 ⟨(k, some (.chunk c)), hnew, ?_⟩
    dsimp only
    rw [hst]
    rfl

theorem Written.chunkAt_of_ne (hw : Written s.table s.used job b) {k : Key}
    (hne : (tableOf k, idOf k) ≠ job.target) :
    chunkAt (applyWrites s.table b.rows) k = chunkAt s.table k := by
  rw [chunkAt_rows]
  exact chunkAt_of hw.of hne

section committed

variable {job : Job} (hk : Kept s) (htable : job.target.1 = CHUNKS ∨ job.target.1 = SNAP_CHUNKS)
  (hw : Written s.table s.used job b)
include hk htable hw

theorem committed_blocks : Blocks ⟨chunkAt (applyWrites s.table b.rows), refsOf (applyWrites s.table b.rows),
    newStripes job ++ s.used, b.free⟩ := by
  obtain ⟨used', hused', hchanges⟩ := hw.changes
  have hafter := hk.blocks.changes hchanges
  rw [chunkAt_rows, refsOf_rows s.table b fun w hmem => (hw.of w hmem).not_refs htable]
  exact hafter.use fun x hx => mem_append.2 ((hused' x).1 hx)

omit hk htable in
theorem committed_unnamed {x : Bytes} (hx : x ∈ s.used) (hno : ¬ Named s.table x) :
    ¬ Named (applyWrites s.table b.rows) x := by
  obtain ⟨used', hused', hchanges⟩ := hw.changes
  intro hnamed
  rw [Named, chunkAt_rows] at hnamed
  rcases names_of_changes hchanges hnamed with hold | ⟨-, hnew⟩
  · exact hno hold
  · exact hnew hx

theorem Kept.commit (hid : job.target.2 ∈ s.used) (hlive : job.target ∉ s.deleted)
    (hcopies : ∀ m, job.rewrite s.copies job.target = some m →
      ∀ chunk, stripeAt (applyWrites s.table b.rows) job.target.1 job.target.2 chunk = m chunk) :
    Kept (s.commit job b.rows) := by
  have h := hk.use fun x hx => mem_append_right (newStripes job) hx
  have hid : job.target.2 ∈ newStripes job ++ s.used := mem_append_right _ hid
  refine ⟨{ committed_blocks hk htable hw with freed := nofun }, fun id v hv => ?_, fun id sn hsn => ?_,
    fun f hf st hst => ?_, fun p m hm => ?_, fun k x o hrec => ?_, fun p hp => ?_⟩
  · rcases volumeAt_of htable hw.of hv with hv | ⟨htarget, hvid⟩
    · exact h.volumes id v hv
    · rw [htarget] at hid
      exact ⟨hid, hvid⟩
  · rcases snapshotAt_of htable hw.of hsn with hsn | ⟨htarget, hsid⟩
    · exact h.snapshots id sn hsn
    · rw [htarget] at hid
      exact ⟨hid, hsid⟩
  · refine (h.freed f hf st hst).imp_right fun hno => ?_
    exact committed_unnamed hw (hk.freed f hf st hst).1 hno
  · by_cases hp : p = job.target
    · subst hp
      exact ⟨hid, hcopies m hm⟩
    · obtain ⟨hused, hmap⟩ := h.copied p m ((rewrite_of_ne hp).symm.trans hm)
      refine ⟨hused, fun chunk => ?_⟩
      exact (stripeAt_congr (hw.chunkAt_of_ne hp)).trans (hmap chunk)
  · rcases held_or_old hrec with hrec | hrec
    · exact mem_append_left _ (hk.held k x o hrec)
    · exact mem_append_right _ hrec
  · have hp' : p ≠ job.target := fun heq => hlive (heq ▸ hp)
    obtain ⟨hused, hchunks, hvolume, hsnapshot⟩ := h.deleted p hp
    refine ⟨hused, fun chunk => (hw.chunkAt_of_ne (k := key p.1 p.2 chunk) hp').trans (hchunks chunk),
      fun htab => ?_, fun htab => ?_⟩
    · refine eq_none_iff_forall_ne_some.2 fun v hv => ?_
      rcases volumeAt_of htable hw.of hv with hv | ⟨htarget, -⟩
      · exact absurd ((hvolume htab).symm.trans hv) (by simp)
      · exact absurd (by rw [htarget, ← htab]) hp'
    · refine eq_none_iff_forall_ne_some.2 fun sn hsn => ?_
      rcases snapshotAt_of htable hw.of hsn with hsn | ⟨htarget, -⟩
      · exact absurd ((hsnapshot htab).symm.trans hsn) (by simp)
      · exact absurd (by rw [htarget, ← htab]) hp'

end committed

theorem build_createVolume (h : build rows (.createVolume v) phase = .ok b) :
    b = { writes := [(key VOLUMES v.volumeId 0, some (.volume v)),
      (key NAMES v.name 0, some (.name v.volumeId))] } := by
  simp only [build, bind, Except.bind] at h
  split at h
  · cases h
  · cases h
    rfl

theorem build_first (hshare : ∀ todo, phase ≠ .share todo)
    (hlast : ∀ free, phase ≠ .last free) (h : build rows (.copy c) phase = .ok b) :
    b = { writes := c.first } := by
  cases phase with
  | share todo => exact absurd rfl (hshare todo)
  | last free => exact absurd rfl (hlast free)
  | first | release free =>
    simp only [build, bind, Except.bind] at h
    split at h
    · split at h
      · cases h
      · cases h
        rfl
    · cases h
      rfl

theorem plain_createVolume : ∀ w ∈ ([(key VOLUMES v.volumeId 0, some (.volume v)),
    (key NAMES v.name 0, some (.name v.volumeId))] : List Write), Plain (CHUNKS, v.volumeId) w := by
  intro w hw
  rcases mem_cons.1 hw with rfl | hw
  · exact .volume v rfl rfl
  · rw [mem_singleton.1 hw]
    exact .name v.name (some v.volumeId) rfl

theorem Deleting.last_plain (hd : Deleting s d phase) : ∀ w ∈ d.last, Plain (d.table, d.id) w := by
  intro w hw
  rcases hd.last with ⟨htable, name, hlast⟩ | ⟨htable, hlast⟩
  · rw [hlast] at hw
    rcases mem_cons.1 hw with rfl | hw
    · exact .noVolume d.id (by rw [htable]) rfl
    · rw [mem_singleton.1 hw]
      exact .name name none rfl
  · rw [hlast] at hw
    rw [mem_singleton.1 hw]
    exact .noSnapshot d.id (by rw [htable]) rfl

theorem commit_rewrites {updates : List ChunkUpdate}
    {m : Nat → Option Bytes} (hm : ∀ chunk, stripeAt rows CHUNKS volumeId chunk = m chunk)
    (hrecords : ∀ u ∈ updates, chunkAt rows' (key CHUNKS volumeId u.chunkId) = u.record)
    (hothers : ∀ k, (∀ u ∈ updates, k ≠ key CHUNKS volumeId u.chunkId) → chunkAt rows' k = chunkAt rows k)
    (chunk : Nat) : stripeAt rows' CHUNKS volumeId chunk = rewritten updates m chunk := by
  rw [rewritten]
  split
  · rename_i u hu
    have hchunk : u.chunkId = chunk := by simpa using find?_some hu
    subst hchunk
    rw [stripeAt, hrecords u (mem_of_find?_eq_some hu), ChunkUpdate.record]
    cases u.stripe with
    | none | some st => rfl
  · rename_i hnone
    rw [← hm chunk]
    refine stripeAt_congr (hothers _ fun u hu heq => ?_)
    have hne := find?_eq_none.1 hnone u hu
    exact hne (by simpa using (key_inj heq).2.symm)

variable {todo : List (Nat × BlockChunkRef)}

theorem Copying.shares (hc : Copying s c source (.share todo))
    (hk : Kept s) (htable : c.toTable = CHUNKS ∨ c.toTable = SNAP_CHUNKS) (hid : c.toId ∈ s.used)
    (hb : build s.table (.copy c) (.share todo) = .ok b) : Written s.table s.used (.copy c) b ∧
      (∀ row ∈ todo.take BATCH, chunkAt (applyWrites s.table b.writes) (key c.toTable c.toId row.1) =
        some { row.2 with owner := c.toId }) ∧
      ∀ k, (∀ row ∈ todo.take BATCH, k ≠ key c.toTable c.toId row.1) →
        chunkAt (applyWrites s.table b.writes) k = chunkAt s.table k := by
  have hcopied : Copied s.table c todo := hc.progress
  exact written_share hk.blocks hc.owner htable hc.tables hid
    (hcopied.nodup.sublist ((take_sublist _ _).map _))
    (fun row hrow => hcopied.there row (mem_of_mem_take hrow))
    (fun row hrow => hcopied.absent row (mem_of_mem_take hrow)) hc.rows hc.unnamed hb

/-- What the call under way writes. -/
theorem RunningOk.written (hr : RunningOk s r) (hk : Kept s)
    (hfresh : (newStripes r.job).Nodup ∧ ∀ x ∈ newStripes r.job, x ∉ s.used)
    (hb : build s.table r.job r.phase = .ok b) :
    Written s.table s.used r.job b ∧ ∀ m, r.job.rewrite s.copies r.job.target = some m →
      ∀ chunk, stripeAt (applyWrites s.table b.rows) r.job.target.1 r.job.target.2 chunk = m chunk := by
  obtain ⟨htable, hused, -, hworking⟩ := hr
  obtain ⟨job, phase, attempt, source⟩ := r
  dsimp only at htable hused hworking hfresh hb ⊢
  cases job with
  | createVolume v =>
    rw [build_createVolume hb]
    refine ⟨written_plain plain_createVolume rfl, fun m hm chunk => ?_⟩
    refine (stripeAt_congr ?_).trans ((hk.copied _ m hm).2 chunk)
    rw [chunkAt_rows]
    refine congrFun (chunkAt_applyWrites s.table fun w hw => ?_) _
    have hplain := plain_createVolume w hw
    exact ⟨hplain.not_chunk.1, hplain.not_chunk.2.1⟩
  | commitChunks volumeId updates =>
    obtain ⟨hw, hrecords, hothers⟩ :=
      written_commit hk.blocks hused hworking hfresh.1 hfresh.2 hb
    refine ⟨hw, fun m hm chunk => ?_⟩
    have hm' : (s.copies (CHUNKS, volumeId)).map (rewritten updates) = some m :=
      (update_self (CHUNKS, volumeId) _ s.copies).symm.trans hm
    obtain ⟨m₀, hm₀, rfl⟩ := map_eq_some_iff.1 hm'
    rw [← chunkAt_rows] at hrecords hothers
    exact commit_rewrites (hk.copied _ m₀ hm₀).2 hrecords hothers chunk
  | copy c =>
    have hc : Copying s c source phase := hworking
    refine ⟨?_, fun m hm => absurd (hc.uncopied.symm.trans hm) (by simp)⟩
    cases phase with
    | first | release free =>
      rw [build_first (by simp) (by simp) hb]
      exact written_plain hc.first rfl
    | share todo => exact (hc.shares hk htable hused hb).1
    | last free =>
      cases hb
      exact written_plain hc.last rfl
  | delete d =>
    have hd : Deleting s d phase := hworking
    refine ⟨?_, fun m hm => absurd (hd.uncopied.symm.trans hm) (by simp)⟩
    cases phase with
    | first | share todo =>
      cases hb
      exact written_plain hd.mark rfl
    | release free =>
      cases hb
      refine written_release hk.blocks htable hd.owner
        ((chunksOf_nodup s.table d.table d.id).sublist ((take_sublist _ _).map _)) fun row hrow => ?_
      exact (mem_chunksOf htable).1 (mem_of_mem_take hrow)
    | last free =>
      cases hb
      exact written_plain hd.last_plain rfl

/-! ## After the write -/

def State.wrote (s : State) (job : Job) (b : Build) : State :=
  { s.commit job b.rows with cache := applyWrites s.cache b.rows }

theorem Copying.wrote {phase' : Phase}
    (hc : Copying s c source phase) (hid : c.toId ∈ s.used) (hw : Written s.table s.used (.copy c) b)
    (hprogress : c.Progress (applyWrites s.table b.rows) phase') :
    Copying (s.wrote (.copy c) b) c source phase' := by
  refine { hc with
    unnamed := committed_unnamed hw hid hc.unnamed
    rows := fun k r hr hidk => ?_
    source := fun chunk => ?_
    progress := hprogress }
  · by_cases hk : (tableOf k, idOf k) = (c.toTable, c.toId)
    · exact (Prod.mk.inj hk).1
    · exact hc.rows k r ((hw.chunkAt_of_ne hk).symm.trans hr) hidk
  · refine (stripeAt_congr (hw.chunkAt_of_ne fun heq => ?_)).trans (hc.source chunk)
    exact hc.tables (Prod.mk.inj heq).1

theorem copied_none (hfrom : c.fromTable = CHUNKS ∨ c.fromTable = SNAP_CHUNKS)
    (hno : ∀ chunk, chunkAt rows (key c.toTable c.toId chunk) = none) :
    Copied rows c (chunksOf rows c.fromTable c.fromId) := by
  refine ⟨chunksOf_nodup _ _ _, fun row hrow => (mem_chunksOf hfrom).1 hrow, fun row _ => hno row.1,
    fun chunk hchunk => ?_⟩
  rw [stripeAt, stripeAt, hno chunk]
  cases hr : chunkAt rows (key c.fromTable c.fromId chunk) with
  | none => rfl
  | some r => exact absurd rfl (hchunk (chunk, r) ((mem_chunksOf hfrom).2 hr))

theorem Copied.batch (h : Copied rows c todo) (htables : c.fromTable ≠ c.toTable)
    (hcopied : ∀ row ∈ todo.take BATCH, chunkAt rows' (key c.toTable c.toId row.1) =
      some { row.2 with owner := c.toId })
    (hothers : ∀ k, (∀ row ∈ todo.take BATCH, k ≠ key c.toTable c.toId row.1) →
      chunkAt rows' k = chunkAt rows k) : Copied rows' c (todo.drop BATCH) := by
  have hfrom : ∀ chunk, chunkAt rows' (key c.fromTable c.fromId chunk) =
      chunkAt rows (key c.fromTable c.fromId chunk) := fun chunk =>
    hothers _ fun row _ => key_ne htables c.fromId c.toId chunk row.1
  have hsplit : (todo.take BATCH ++ todo.drop BATCH).map Prod.fst = todo.map Prod.fst := by
    rw [take_append_drop]
  have hnodup := h.nodup
  rw [← hsplit, map_append] at hnodup
  obtain ⟨-, hdrop, hdisjoint⟩ := nodup_append.1 hnodup
  have hsub : ∀ row ∈ todo.drop BATCH, row ∈ todo := fun row hrow => mem_of_mem_drop hrow
  refine ⟨hdrop, fun row hrow => ?_, fun row hrow => ?_, fun chunk hchunk => ?_⟩
  · rw [hfrom]
    exact h.there row (hsub row hrow)
  · rw [hothers]
    · exact h.absent row (hsub row hrow)
    · intro row' hrow' heq
      exact hdisjoint _ (mem_map_of_mem hrow') _ (mem_map_of_mem hrow) (key_inj heq).2.symm
  · by_cases hin : ∃ row ∈ todo.take BATCH, row.1 = chunk
    · obtain ⟨row, hrow, rfl⟩ := hin
      rw [stripeAt, stripeAt, hcopied row hrow, hfrom, h.there row (mem_of_mem_take hrow)]
      rfl
    · push Not at hin
      have hto : chunkAt rows' (key c.toTable c.toId chunk) = chunkAt rows (key c.toTable c.toId chunk) :=
        hothers _ fun row hrow heq => hin row hrow (key_inj heq).2.symm
      rw [stripeAt_congr hto, stripeAt_congr (hfrom chunk)]
      refine h.done chunk fun row hrow => ?_
      rw [← take_append_drop BATCH todo] at hrow
      rcases mem_append.1 hrow with hrow | hrow
      · exact hin row hrow
      · exact hchunk row hrow

theorem chunkAt_plain {target : String × Bytes} {ws : List Write}
    (h : ∀ w ∈ ws, Plain target w) : chunkAt (applyWrites rows ({ writes := ws } : Build).rows) = chunkAt rows := by
  rw [chunkAt_rows]
  exact chunkAt_applyWrites rows fun w hw => ⟨(h w hw).not_chunk.1, (h w hw).not_chunk.2.1⟩

theorem Copied.next : Copied rows c todo →
    c.Progress rows (match todo with
      | [] => .last []
      | rest => .share rest) := by
  cases todo with
  | nil | cons row rest => exact id

theorem Copying.goOn (hc : Copying s c source phase) (hcache : s.cache = s.table) (hid : c.toId ∈ s.used)
    (hk : Kept s) (htable : c.toTable = CHUNKS ∨ c.toTable = SNAP_CHUNKS)
    (hw : Written s.table s.used (.copy c) b) (hb : build s.table (.copy c) phase = .ok b) :
    (∀ phase', next (s.wrote (.copy c) b).cache b (.copy c) phase = .inl phase' →
      Copying (s.wrote (.copy c) b) c source phase') ∧
    ∀ a, next (s.wrote (.copy c) b).cache b (.copy c) phase = .inr a → (∀ f, a ≠ .released f) ∧
      ∀ chunk, stripeAt (s.wrote (.copy c) b).table c.toTable c.toId chunk = source chunk := by
  cases phase with
  | first | release free =>
    refine ⟨fun phase' hnext => hc.wrote hid hw ?_, nofun⟩
    have hnone : Copied (applyWrites s.table b.rows) c
        (chunksOf (applyWrites s.table b.rows) c.fromTable c.fromId) := by
      refine copied_none hc.table fun chunk => ?_
      rw [build_first (by simp) (by simp) hb, chunkAt_plain hc.first]
      exact hc.progress chunk
    simp only [BlockVolumes.next, State.wrote, hcache] at hnext
    cases hnext
    exact hnone.next
  | share todo =>
    refine ⟨fun phase' hnext => hc.wrote hid hw ?_, nofun⟩
    obtain ⟨-, hthere, hothers⟩ := hc.shares hk htable hid hb
    rw [← chunkAt_rows] at hthere hothers
    have hcopied : Copied s.table c todo := hc.progress
    cases hnext
    exact (hcopied.batch hc.tables hthere hothers).next
  | last free =>
    refine ⟨nofun, fun a ha => ⟨fun f hf => ?_, fun chunk => ?_⟩⟩
    · subst hf
      simp only [BlockVolumes.next] at ha
      split at ha <;> cases ha
    · cases hb
      have hcopied : Copied s.table c [] := hc.progress
      have hchunks : chunkAt (applyWrites s.table ({ writes := c.last } : Build).rows) = chunkAt s.table :=
        chunkAt_plain hc.last
      rw [State.wrote, State.commit, stripeAt, hchunks]
      exact (hcopied.done chunk nofun).trans (hc.source chunk)

theorem Deleting.wrote {phase' : Phase} (hd : Deleting s d phase) (hw : Written s.table s.used (.delete d) b)
    (hfree : ∀ st ∈ phase'.freeable, st ∈ phase.freeable ∨ (st.objectId ∈ s.used ∧
      ¬ Named (applyWrites s.table b.rows) st.objectId ∧ (st.objectId, d.table, d.id) ∈ s.holds))
    (hgone : ∀ free, phase' = .last free →
      ∀ chunk, chunkAt (applyWrites s.table b.rows) (key d.table d.id chunk) = none) :
    Deleting (s.wrote (.delete d) b) d phase' := by
  refine ⟨hd.owner, hd.mark, hd.last, hd.uncopied, fun st hst => ?_, hgone⟩
  rcases hfree st hst with hst | ⟨hused, hno, hheld⟩
  · obtain ⟨hused, hno, hheld⟩ := hd.free st hst
    exact ⟨mem_append_right _ hused, committed_unnamed hw hused hno, mem_append_left _ hheld⟩
  · exact ⟨mem_append_right _ hused, hno, mem_append_left _ hheld⟩

theorem Deleting.last_gone (hd : Deleting s d phase) (rows : Rows) :
    (d.table = CHUNKS → volumeAt (applyWrites rows ({ writes := d.last } : Build).rows) d.id = none) ∧
      (d.table = SNAP_CHUNKS →
        snapshotAt (applyWrites rows ({ writes := d.last } : Build).rows) d.id = none) := by
  have hrows : ({ writes := d.last } : Build).rows = d.last := append_nil _
  rw [hrows]
  rcases hd.last with ⟨htable, name, hlast⟩ | ⟨htable, hlast⟩
  · refine ⟨fun _ => ?_, fun hsnap => absurd (htable.symm.trans hsnap) (by decide)⟩
    have hkeys : (d.last.map Prod.fst).Nodup := by
      rw [hlast]
      refine nodup_cons.2 ⟨fun hmem => ?_, nodup_singleton _⟩
      exact absurd (congrArg tableOf (mem_singleton.1 hmem)) (show VOLUMES ≠ NAMES by decide)
    rw [volumeAt, get_applyWrites_of_mem hkeys (by rw [hlast]; exact mem_cons_self)]
  · refine ⟨fun hvolume => absurd (htable.symm.trans hvolume) (by decide), fun _ => ?_⟩
    have hkeys : (d.last.map Prod.fst).Nodup := by
      rw [hlast]
      exact nodup_singleton _
    rw [snapshotAt, get_applyWrites_of_mem hkeys (by rw [hlast]; exact mem_cons_self)]

theorem Deleting.goOn (hd : Deleting s d phase) (hid : d.id ∈ s.used)
    (hk : Kept s) (htable : d.table = CHUNKS ∨ d.table = SNAP_CHUNKS)
    (hw : Written s.table s.used (.delete d) b) (hb : build s.table (.delete d) phase = .ok b) :
    (∀ phase', next (s.wrote (.delete d) b).cache b (.delete d) phase = .inl phase' →
      Deleting (s.wrote (.delete d) b) d phase') ∧
    ∀ a, next (s.wrote (.delete d) b).cache b (.delete d) phase = .inr a →
      a = .released phase.freeable ∧ Deleting (s.wrote (.delete d) b) d phase ∧
      Gone (s.wrote (.delete d) b).table (s.wrote (.delete d) b).used d.table d.id := by
  cases phase with
  | first | share todo =>
    refine ⟨fun phase' hnext => ?_, nofun⟩
    cases hnext
    exact hd.wrote hw (nofun) nofun
  | release free =>
    refine ⟨fun phase' hnext => ?_, nofun⟩
    have hblocks := committed_blocks hk
      (show (Job.delete d).target.1 = CHUNKS ∨ (Job.delete d).target.1 = SNAP_CHUNKS from htable) hw
    simp only [next] at hnext
    cases hnext
    split
    · rename_i hempty
      -- Nothing was left to release.
      refine hd.wrote hw (fun st hst => .inl hst) fun free' _ chunk => ?_
      rw [chunkAt_rows, hempty]
      show chunkAt s.table _ = none
      cases hb
      rw [releases_writes] at hempty
      have hnil : (chunksOf s.table d.table d.id).take BATCH = [] :=
        map_eq_nil_iff.1 (append_eq_nil_iff.1 hempty).2
      cases hr : chunkAt s.table (key d.table d.id chunk) with
      | none => rfl
      | some r =>
        have hmem : (chunk, r) ∈ chunksOf s.table d.table d.id := (mem_chunksOf htable).2 hr
        rcases take_eq_nil_iff.1 hnil with hzero | hnone
        · exact absurd hzero (by decide)
        · rw [hnone] at hmem
          exact absurd hmem not_mem_nil
    · refine hd.wrote hw (fun st hst => ?_) nofun
      rcases mem_append.1 hst with hst | hst
      · exact .inl hst
      · right
        have hunnamed := (hblocks.freed st hst).2
        cases hb
        rcases releases_free s.table d.table d.id d.referrerIsOwner _ {} st hst with hst | ⟨row, hrow, hst⟩
        · exact absurd hst not_mem_nil
        · have hchunk := (mem_chunksOf htable).1 (mem_of_mem_take hrow)
          have hrec := recs_some hchunk hst
          exact ⟨hk.blocks.used_of_names ⟨_, _, hrec⟩, hunnamed, hk.held _ _ _ hrec⟩
  | last free =>
    refine ⟨nofun, fun a ha => ?_⟩
    cases ha
    cases hb
    have hchunks : chunkAt (applyWrites s.table ({ writes := d.last } : Build).rows) = chunkAt s.table :=
      chunkAt_plain hd.last_plain
    have hgone : ∀ chunk, chunkAt (applyWrites s.table ({ writes := d.last } : Build).rows)
        (key d.table d.id chunk) = none := by
      rw [hchunks]
      exact hd.gone free rfl
    obtain ⟨hvolume, hsnapshot⟩ := hd.last_gone s.table
    exact ⟨rfl, hd.wrote hw (fun st hst => .inl hst) fun _ _ => hgone,
      ⟨mem_append_right _ hid, hgone, hvolume, hsnapshot⟩⟩

theorem Inv.goOn (hi : Inv s) (hr : s.running = some r) (hcache : s.cache = s.table)
    (hfresh : (newStripes r.job).Nodup ∧ ∀ x ∈ newStripes r.job, x ∉ s.used)
    (hb : build s.table r.job r.phase = .ok b) : Inv ((s.wrote r.job b).goOn r b) := by
  have hok := hi.running r hr
  obtain ⟨hw, hcopies⟩ := hok.written hi.kept hfresh hb
  have hkept : Kept (s.wrote r.job b) :=
    { hi.kept.commit hok.table hw hok.used hok.live hcopies with }
  have hused : r.job.target.2 ∈ (s.wrote r.job b).used := mem_append_right _ hok.used
  have hblocks := committed_blocks hi.kept hok.table hw
  have hphase : ∀ phase, Working (s.wrote r.job b) r.source phase r.job →
      Inv { s.wrote r.job b with running := some { r with phase := phase, attempt := 0 } } :=
    fun phase hworking => .run hkept ⟨hok.table, hused, hok.live, hworking⟩
  have hanswer : ∀ {s₁ : State} {a : Except Status Answer}, Kept (s₁.answer a) → Inv (s₁.answer a) :=
    fun h => ⟨h, nofun⟩
  obtain ⟨job, phase, attempt, source⟩ := r
  dsimp only at hb hw hkept hused hblocks hphase ⊢
  have hworking := hok.working
  dsimp only at hworking
  rw [State.goOn]
  cases job with
  | createVolume v =>
    exact hanswer (hkept.answer nofun)
  | commitChunks volumeId updates =>
    refine hanswer (hkept.answer fun f hf st hst => ?_)
    cases hf
    exact hblocks.freed st hst
  | copy c =>
    have hc : Copying s c source phase := hworking
    obtain ⟨hnext, hdone⟩ := hc.goOn hcache hok.used hi.kept hok.table hw hb
    split
    · rename_i phase' hphase'
      exact hphase phase' (hnext phase' hphase')
    · rename_i a ha
      obtain ⟨hnot, hsource⟩ := hdone a ha
      have hcopy := hkept.copy (p := (c.toTable, c.toId)) fun m hm => ⟨hused, some.inj hm ▸ hsource⟩
      exact hanswer (hcopy.answer fun f hf => absurd (Except.ok.inj hf) (hnot f))
  | delete d =>
    have hd : Deleting s d phase := hworking
    obtain ⟨hnext, hdone⟩ := hd.goOn hok.used hi.kept hok.table hw hb
    split
    · rename_i phase' hphase'
      exact hphase phase' (hnext phase' hphase')
    · rename_i a ha
      obtain ⟨rfl, hd', hgone⟩ := hdone a ha
      refine hanswer ((hkept.delete (p := (d.table, d.id)) hgone).answer fun f hf st hst => ?_)
      cases hf
      exact ⟨(hd'.free st hst).1, (hd'.free st hst).2.1⟩

/-! ## A call is let in -/

structure Fresh (s : State) (id : Bytes) : Prop where
  unnamed : ¬ Named s.table id
  rows : ∀ k r, chunkAt s.table k = some r → idOf k ≠ id
  uncopied : ∀ table, s.copies (table, id) = none
  live : ∀ table, (table, id) ∉ s.deleted

theorem Kept.fresh (h : Kept s) (hid : id ∉ s.used) : Fresh s id := by
  refine ⟨fun hnamed => hid (h.blocks.used_of_names hnamed), fun k r hr heq => ?_, fun table => ?_,
    fun table hdeleted => hid (h.deleted _ hdeleted).used⟩
  · obtain ⟨-, -, hused, -⟩ := h.blocks.known k r hr
    exact hid (heq ▸ hused)
  · cases hm : s.copies (table, id) with
    | none => rfl
    | some m => exact absurd (h.copied _ m hm).1 hid

theorem Kept.volume_live (h : Kept s) (hv : volumeAt s.table id = some v) :
    (CHUNKS, id) ∉ s.deleted := fun hdeleted =>
  absurd (((h.deleted _ hdeleted).volume rfl).symm.trans hv) (by simp)

theorem Kept.snapshot_live (h : Kept s) (hsn : snapshotAt s.table id = some sn) :
    (SNAP_CHUNKS, id) ∉ s.deleted := fun hdeleted =>
  absurd (((h.deleted _ hdeleted).snapshot rfl).symm.trans hsn) (by simp)

theorem volume_ok (h : volume rows id = .ok v) : volumeAt rows id = some v := by
  unfold volume at h
  split at h
  · rename_i v' hv'
    cases h
    exact hv'
  · cases h

theorem snapshot_ok (h : snapshot rows id = .ok sn) : snapshotAt rows id = some sn := by
  unfold snapshot at h
  split at h
  · rename_i sn' hsn'
    cases h
    exact hsn'
  · cases h

theorem Fresh.copying (h : Fresh s c.toId) (htable : c.fromTable = CHUNKS ∨ c.fromTable = SNAP_CHUNKS)
    (htables : c.fromTable ≠ c.toTable) (howner : c.fromIsOwner = true → c.fromTable = SNAP_CHUNKS)
    (hfirst : ∀ w ∈ c.first, Plain (c.toTable, c.toId) w)
    (hlast : ∀ w ∈ c.last, Plain (c.toTable, c.toId) w) :
    Copying s c (stripeAt s.table c.fromTable c.fromId) .first := by
  refine ⟨htable, htables, howner, hfirst, hlast, h.unnamed, fun k r hr hidk => ?_, h.uncopied _,
    fun _ => rfl, fun chunk => ?_⟩
  · exact absurd hidk (h.rows k r hr)
  · cases hr : chunkAt s.table (key c.toTable c.toId chunk) with
    | none => rfl
    | some r => exact absurd rfl (h.rows _ r hr)

theorem plain_volume {w : Write}
    (hw : w = (key VOLUMES id 0, some (.volume v))) (hid : v.volumeId = id) : Plain (CHUNKS, id) w := by
  subst hid
  exact .volume v rfl hw

theorem plain_snapshot {w : Write}
    (hw : w = (key SNAPSHOTS id 0, some (.snapshot sn))) (hid : sn.snapshotId = id) :
    Plain (SNAP_CHUNKS, id) w := by
  subst hid
  exact .snapshot sn rfl hw

theorem start_createSnapshot {name : Bytes}
    (hfresh : Fresh s id) (h : blockCreateSnapshot s.table id now volumeId name = .ok (job, phase)) :
    ∃ c, job = .copy c ∧ c.toTable = SNAP_CHUNKS ∧ c.toId = id ∧
      Copying s c (stripeAt s.table c.fromTable c.fromId) phase := by
  simp only [blockCreateSnapshot, bind, Except.bind] at h
  split at h
  · cases h
  · split at h
    · cases h
    · cases h
      refine ⟨_, rfl, rfl, rfl, Fresh.copying (c := ⟨_, _, _, _, _, _, _, _⟩) hfresh (.inl rfl)
        (show CHUNKS ≠ SNAP_CHUNKS by decide) (nofun) (fun w hw => ?_) fun w hw => ?_⟩
      · exact plain_snapshot (mem_singleton.1 hw) rfl
      · exact plain_snapshot (mem_singleton.1 hw) rfl

theorem start_cloneVolume {snapshotId name : Bytes}
    (hfresh : Fresh s id) (h : blockCloneVolume s.table id now snapshotId name = .ok (job, phase)) :
    ∃ c, job = .copy c ∧ c.toTable = CHUNKS ∧ c.toId = id ∧
      Copying s c (stripeAt s.table c.fromTable c.fromId) phase := by
  simp only [blockCloneVolume, bind, Except.bind] at h
  split at h
  · cases h
  · split at h
    · cases h
    · split at h
      · cases h
      · cases h
        refine ⟨_, rfl, rfl, rfl, Fresh.copying (c := ⟨_, _, _, _, _, _, _, _⟩) hfresh (.inr rfl)
          (show SNAP_CHUNKS ≠ CHUNKS by decide) (fun _ => rfl) (fun w hw => ?_) fun w hw => ?_⟩
        · rcases mem_cons.1 hw with hw | hw
          · exact plain_volume hw rfl
          · exact .name name (some id) (mem_singleton.1 hw)
        · exact plain_volume (mem_singleton.1 hw) rfl

theorem start_commitChunks {updates : List ChunkUpdate}
    (h : blockCommitChunks s.table volumeId updates = .ok (job, phase)) :
    job = .commitChunks volumeId updates ∧ (updates.map ChunkUpdate.chunkId).Nodup ∧
      ∃ v, volumeAt s.table volumeId = some v := by
  simp only [blockCommitChunks, bind, Except.bind] at h
  split at h
  · cases h
  · split at h
    · cases h
    · rename_i hnodup
      split at h
      · cases h
      · rename_i v hv
        split at h
        · cases h
        · cases h
          exact ⟨rfl, not_not.1 hnodup, v, volume_ok hv⟩

theorem deleting_start (howner : d.referrerIsOwner = true → d.table = SNAP_CHUNKS)
    (hmark : ∀ w ∈ d.mark, Plain (d.table, d.id) w) (hlast : (d.table = CHUNKS ∧
        ∃ name, d.last = [(key VOLUMES d.id 0, none), (key NAMES name 0, none)]) ∨
      (d.table = SNAP_CHUNKS ∧ d.last = [(key SNAPSHOTS d.id 0, none)]))
    (hphase : phase = .release [] ∨ phase = .first) :
    Deleting { s with copies := update s.copies (d.table, d.id) none } d phase := by
  refine ⟨howner, hmark, hlast, update_self .., fun st hst => ?_, fun free hfree => ?_⟩
  · rcases hphase with rfl | rfl
    · exact absurd hst not_mem_nil
    · exact absurd hst not_mem_nil
  · rcases hphase with rfl | rfl
    · cases hfree
    · cases hfree

theorem start_deleteVolume (hk : Kept s) (h : blockDeleteVolume s.table now volumeId = .ok (job, phase)) :
    ∃ d, job = .delete d ∧ d.table = CHUNKS ∧ (∃ v, volumeAt s.table d.id = some v) ∧
      Deleting { s with copies := update s.copies (d.table, d.id) none } d phase := by
  simp only [blockDeleteVolume, bind, Except.bind] at h
  split at h
  · cases h
  · rename_i v hv
    have hv := volume_ok hv
    obtain ⟨-, hvid⟩ := hk.volumes volumeId v hv
    split at h
    · cases h
    · cases h
      refine ⟨_, rfl, rfl, ⟨v, hvid.symm ▸ hv⟩, deleting_start (nofun) (fun w hw => ?_)
        (.inl ⟨rfl, v.name, rfl⟩) ?_⟩
      · exact plain_volume (mem_singleton.1 hw) rfl
      · split
        · exact .inl rfl
        · exact .inr rfl

theorem start_deleteSnapshot {snapshotId : Bytes} (hk : Kept s)
    (h : blockDeleteSnapshot s.table snapshotId = .ok (job, phase)) :
    ∃ d, job = .delete d ∧ d.table = SNAP_CHUNKS ∧ (∃ sn, snapshotAt s.table d.id = some sn) ∧
      Deleting { s with copies := update s.copies (d.table, d.id) none } d phase := by
  simp only [blockDeleteSnapshot, bind, Except.bind] at h
  split at h
  · cases h
  · rename_i sn hsn
    have hsn := snapshot_ok hsn
    obtain ⟨-, hsid⟩ := hk.snapshots snapshotId sn hsn
    cases h
    refine ⟨_, rfl, rfl, ⟨sn, hsid.symm ▸ hsn⟩, deleting_start (fun _ => rfl) (fun w hw => ?_)
      (.inr ⟨rfl, rfl⟩) ?_⟩
    · exact plain_snapshot (mem_singleton.1 hw) rfl
    · split
      · exact .inl rfl
      · exact .inr rfl

theorem Inv.start {c : Call} (hi : Inv s) (hcache : s.cache = s.table)
    (h : startStep s c id now = some s') : Inv s' := by
  unfold startStep at h
  split at h
  · cases h
  · rename_i hgo
    push Not at hgo
    obtain ⟨-, hunused⟩ := hgo
    obtain ⟨s₁, hs₁, hkept, hfresh, hcache'⟩ : ∃ s₁,
        (if c.creates then { s with used := id :: s.used } else s) = s₁ ∧ Kept s₁ ∧
        (c.creates = true → Fresh s₁ id ∧ id ∈ s₁.used) ∧ s₁.cache = s₁.table := by
      by_cases hcreates : c.creates = true
      · have hfresh := hi.kept.fresh (hunused hcreates)
        exact ⟨_, if_pos hcreates, hi.kept.use fun x hx => mem_cons_of_mem _ hx,
          fun _ => ⟨{ hfresh with }, mem_cons_self⟩, hcache⟩
      · exact ⟨s, if_neg hcreates, hi.kept, fun h => absurd h hcreates, hcache⟩
    rw [hs₁] at h
    dsimp only at h
    split at h
    · cases h
      exact ⟨hkept.answer nofun, nofun⟩
    · rename_i job phase hstart
      rw [hcache'] at hstart
      cases c with
      | createVolume name sizeBytes pool chunkSizeBytes metadata =>
        obtain ⟨hfresh, hused⟩ := hfresh rfl
        simp only [Call.start, blockCreateVolume] at hstart
        split at hstart
        · cases hstart
        · cases hstart
          cases h
          exact .run hkept ⟨.inl rfl, hused, hfresh.live _, trivial⟩
      | commitChunks volumeId updates =>
        obtain ⟨rfl, hnodup, v, hv⟩ := start_commitChunks hstart
        cases h
        exact .run hkept ⟨.inl rfl, (hkept.volumes volumeId v hv).1, hkept.volume_live hv, hnodup⟩
      | createSnapshot volumeId name =>
        obtain ⟨hfresh, hused⟩ := hfresh rfl
        obtain ⟨c, rfl, htable, rfl, hc⟩ := start_createSnapshot hfresh hstart
        cases h
        exact .run hkept ⟨.inr htable, hused, hfresh.live _, hc⟩
      | cloneVolume snapshotId name =>
        obtain ⟨hfresh, hused⟩ := hfresh rfl
        obtain ⟨c, rfl, htable, rfl, hc⟩ := start_cloneVolume hfresh hstart
        cases h
        exact .run hkept ⟨.inl htable, hused, hfresh.live _, hc⟩
      | deleteVolume volumeId =>
        obtain ⟨d, rfl, htable, ⟨v, hv⟩, hd⟩ := start_deleteVolume hkept hstart
        cases h
        have hlive : (d.table, d.id) ∉ s₁.deleted := htable ▸ hkept.volume_live hv
        exact .run (hkept.forget _) ⟨.inl htable, (hkept.volumes d.id v hv).1, hlive, hd⟩
      | deleteSnapshot snapshotId =>
        obtain ⟨d, rfl, htable, ⟨sn, hsn⟩, hd⟩ := start_deleteSnapshot hkept hstart
        cases h
        have hlive : (d.table, d.id) ∉ s₁.deleted := htable ▸ hkept.snapshot_live hsn
        exact .run (hkept.forget _) ⟨.inr htable, (hkept.snapshots d.id sn hsn).1, hlive, hd⟩

theorem wrote_nil {r : Running} (hb : build s.table r.job r.phase = .ok b) (hrows : b.rows = []) :
    newStripes r.job = [] ∧ s.wrote r.job b = s := by
  have hwrites : b.writes = [] := (append_eq_nil_iff.1 hrows).1
  have hnothing : newStripes r.job = [] ∧ r.job.rewrite s.copies = s.copies := by
    obtain ⟨job, phase, attempt, source⟩ := r
    cases job with
    | createVolume v | copy c | delete d => exact ⟨rfl, rfl⟩
    | commitChunks volumeId updates =>
      have hlist := commit_writes hb
      rw [hwrites] at hlist
      have hnil : updates = [] := map_eq_nil_iff.1 (append_eq_nil_iff.1 hlist.symm).2
      subst hnil
      refine ⟨rfl, update_eq_self_iff.2 ?_⟩
      cases s.copies (CHUNKS, volumeId) with
      | none | some m => rfl
  refine ⟨hnothing.1, ?_⟩
  rw [State.wrote, State.commit, hrows, hnothing.1, hnothing.2]
  simp [applyWrites, heldBy]

theorem writeStep_cases {heard : Bool} (hcache : s.cache = s.table) (h : writeStep s heard r = some s') :
    (∃ e, build s.table r.job r.phase = .error e ∧ s' = s.answer (.error e)) ∨
    ∃ b, build s.table r.job r.phase = .ok b ∧
      ((newStripes r.job).Nodup ∧ ∀ x ∈ newStripes r.job, x ∉ s.used) ∧ (s' = (s.wrote r.job b).goOn r b ∨
        heard = false ∧ s' = { s.commit r.job b.rows with running := none }) := by
  unfold writeStep at h
  split at h
  · rename_i e he
    rw [hcache] at he
    cases h
    exact .inl ⟨e, he, rfl⟩
  · rename_i b hb
    rw [hcache] at hb
    dsimp only at h
    right
    refine ⟨b, hb, ?_⟩
    split at h
    · rename_i hrows
      cases h
      obtain ⟨hnone, hsame⟩ := wrote_nil hb hrows
      rw [hnone, hsame]
      exact ⟨⟨nodup_nil, nofun⟩, .inl rfl⟩
    · split at h
      · rename_i hfresh
        refine ⟨hfresh, ?_⟩
        split at h
        · split at h
          · cases h
            exact .inl rfl
          · rename_i hheard
            cases h
            exact .inr ⟨by simpa using hheard, rfl⟩
        · rename_i hsame
          exact absurd (fun w _ => by rw [hcache]) hsame
      · cases h

/-- A call reads caches that are up to date. -/
def Careful (s : State) : Event → Prop
  | .start _ _ _ => s.cache = s.table
  | .write _ => s.cache = s.table
  | .cut => True
  | .listen => True

instance (s : State) (e : Event) : Decidable (Careful s e) :=
  match e with
  | .start _ _ _ => inferInstanceAs (Decidable (s.cache = s.table))
  | .write _ => inferInstanceAs (Decidable (s.cache = s.table))
  | .cut => .isTrue trivial
  | .listen => .isTrue trivial

/-- Every step whose call reads caches that are up to date keeps them. -/
theorem Inv.step {e : Event} (hi : Inv s) (hcareful : Careful s e)
    (h : BlockVolumes.step s e = some s') : Inv s' := by
  cases e with
  | start c id now => exact hi.start hcareful h
  | write heard =>
    obtain ⟨r, hr, hw⟩ := bind_eq_some_iff.1 h
    rcases writeStep_cases hcareful hw with ⟨e, -, rfl⟩ | ⟨b, hb, hfresh, rfl | ⟨-, rfl⟩⟩
    · exact ⟨hi.kept.answer nofun, nofun⟩
    · exact hi.goOn hr hcareful hfresh hb
    · have hok := hi.running r hr
      obtain ⟨hw, hcopies⟩ := hok.written hi.kept hfresh hb
      exact ⟨{ hi.kept.commit hok.table hw hok.used hok.live hcopies with }, nofun⟩
  | cut =>
    simp only [BlockVolumes.step] at h
    split at h
    · cases h
      exact ⟨{ hi.kept with }, nofun⟩
    · cases h
  | listen =>
    simp only [BlockVolumes.step] at h
    split at h
    · cases h
    · cases h
      exact ⟨{ hi.kept with }, fun r hr => { hi.running r hr with working := (hi.running r hr).working.frame }⟩

def State.empty : State := { table := OrdMap.empty, cache := OrdMap.empty }

theorem Inv.empty : Inv State.empty := by
  have hchunks : chunkAt OrdMap.empty = fun _ => none := by
    funext k
    unfold chunkAt
    split <;> rfl
  have hrecs : ∀ k (p : Bytes × Bytes), recs (chunkAt OrdMap.empty) k ≠ some p := by
    intro k p
    rw [recs, hchunks]
    rintro ⟨⟩
  have hconsistent : Consistent (recs (chunkAt OrdMap.empty)) (refsOf OrdMap.empty) :=
    ⟨by simp [refsOf], by simp [refsOf],
      fun x k k' o o' _ h => absurd h (hrecs k _), fun x o k k' h => absurd h (hrecs k _)⟩
  have hblocks : Blocks ⟨chunkAt OrdMap.empty, refsOf OrdMap.empty, [], []⟩ := by
    refine ⟨hconsistent, fun k r hr => ?_, fun k k' x o o' h => absurd h (hrecs k _),
      by simp [refsOf], by simp⟩
    dsimp only at hr
    rw [hchunks] at hr
    cases hr
  refine ⟨⟨hblocks, by simp [State.empty, volumeAt], by simp [State.empty, snapshotAt], fun f hf => ?_,
    by simp [State.empty], fun k x o h => absurd h (hrecs k _), fun p hp => ?_⟩, by simp [State.empty]⟩
  · exact absurd hf not_mem_nil
  · exact absurd hp not_mem_nil

/-- The registry has exactly the owners of the records, snapshots and clones keep their maps, and what is
answered free is named by nothing. -/
theorem copies_keep_their_chunks {events : List Event} {s : State}
    (hcareful : Steps.Along step Careful State.empty events)
    (hrun : Steps.run step State.empty events = some s) : (∀ x, (∃ refs, refsOf s.table x = some refs ∧
        ∀ o, o ∈ refs ↔ ∃ k, recs (chunkAt s.table) k = some (x, o)) ∨
      (refsOf s.table x = none ∧ ∀ k k' o o', recs (chunkAt s.table) k = some (x, o) →
        recs (chunkAt s.table) k' = some (x, o') → k = k')) ∧
    (∀ table id m, s.copies (table, id) = some m → ∀ chunk, stripeAt s.table table id chunk = m chunk) ∧
    ∀ freeable, .ok (.released freeable) ∈ s.answers → ∀ st ∈ freeable, ∀ k o,
      recs (chunkAt s.table) k ≠ some (st.objectId, o) := by
  have hi : Inv s := run_invariant_along (I := Inv) (fun _ _ _ => Inv.step) events State.empty s
    Inv.empty hcareful hrun
  refine ⟨fun x => ?_, fun table id m hm => (hi.kept.copied _ m hm).2, fun f hf st hst k o hrec => ?_⟩
  · cases hr : refsOf s.table x with
    | some refs => exact .inl ⟨refs, rfl, hi.kept.blocks.consistent.listed x refs hr⟩
    | none => exact .inr ⟨rfl, fun k k' o o' => hi.kept.blocks.consistent.single x k k' o o' hr⟩
  · exact (hi.kept.freed f hf st hst).2 ⟨k, o, hrec⟩

def stripe (objectId : Bytes) : StripeMeta := { ecK := 4, ecM := 2, dataSize := 4096, objectId := objectId }

def volumeWritten : List Event :=
  [.start (.createVolume [118] 4194304 [] 0 []) [1] 0, .write true,
    .start (.commitChunks [1] [⟨0, [], some (stripe [7])⟩]) [] 1, .write true]

/-- A snapshot's caller is cut short while the chunk is shared; the chunk is written again before the caches
are told. -/
def staleRun : List Event :=
  volumeWritten ++ [.start (.createSnapshot [1] [115]) [2] 2, .write true, .write false,
      .start (.commitChunks [1] [⟨0, [7], some (stripe [8])⟩]) [] 3, .write true]

/-- A stripe is answered free that a snapshot's record names. -/
theorem shared_then_freed : ∃ s, Steps.run step State.empty staleRun = some s ∧
    .ok (.released [stripe [7]]) ∈ s.answers ∧
    recs (chunkAt s.table) (key SNAP_CHUNKS [2] 0) = some ([7], [2]) := by
  obtain ⟨s, hrun, hanswer, hrec⟩ : ∃ s, run step State.empty staleRun = some s ∧
      s.answers[2]? = some (.ok (.released [stripe [7]])) ∧
      recs (chunkAt s.table) (key SNAP_CHUNKS [2] 0) = some ([7], [2]) := by
    decide +kernel
  exact ⟨s, hrun, mem_of_getElem? hanswer, hrec⟩

/-- A snapshot is taken and cloned, the volume written to again, and the volume and then the clone
deleted. -/
def copiedRun : List Event :=
  volumeWritten ++ [.start (.createSnapshot [1] [115]) [2] 2, .write true, .write true, .write true,
      .start (.cloneVolume [2] [99]) [3] 3, .write true, .write true, .write true,
      .start (.commitChunks [1] [⟨0, [7], some (stripe [8])⟩]) [] 4, .write true,
      .start (.deleteVolume [1]) [] 5, .write true, .write true, .write true, .write true]

theorem copiedRun_keeps : ∃ s, Steps.run step State.empty copiedRun = some s ∧
    s.copies (SNAP_CHUNKS, [2]) ≠ none ∧ s.copies (CHUNKS, [3]) ≠ none ∧
    (∀ table id m, s.copies (table, id) = some m → ∀ chunk, stripeAt s.table table id chunk = m chunk) ∧
    .ok (.released [stripe [8]]) ∈ s.answers ∧
    ∀ freeable, .ok (.released freeable) ∈ s.answers → ∀ st ∈ freeable, ∀ k o,
      recs (chunkAt s.table) k ≠ some (st.objectId, o) := by
  obtain ⟨s, hrun, hsnap, hclone, hanswer⟩ : ∃ s, run step State.empty copiedRun = some s ∧
      (s.copies (SNAP_CHUNKS, [2])).isSome ∧ (s.copies (CHUNKS, [3])).isSome ∧
      s.answers[5]? = some (.ok (.released [stripe [8]])) := by
    decide +kernel
  have hcareful : Steps.Along step Careful State.empty copiedRun := by decide +kernel
  obtain ⟨-, hmaps, hfreed⟩ := copies_keep_their_chunks hcareful hrun
  exact ⟨s, hrun, isSome_iff_ne_none.1 hsnap, isSome_iff_ne_none.1 hclone, hmaps,
    mem_of_getElem? hanswer, hfreed⟩

end IoLake.Meta.BlockVolumes
