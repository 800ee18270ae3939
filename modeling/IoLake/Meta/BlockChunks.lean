import IoLake.Meta.BlockVolumes

/-!
# The chunks one Raft write changes

A commit drops the records of the chunks it replaces and adds those of its new stripes; a snapshot or clone
shares records; a deletion drops them.
-/

namespace IoLake.Meta.BlockVolumes

open Proto SharedHold OwnedRecords List Function OrdMap CompareAndSet
open StripeRefs (Status)

/-! ## One change at a time -/

theorem key_of (k : Key) : key (tableOf k) (idOf k) (chunkOf k) = k := rfl

def recs (chunks : Key → Option BlockChunkRef) (k : Key) : Option (Bytes × Bytes) :=
  (chunks k).bind fun r => r.stripe.map fun st => (st.objectId, r.owner)

/-- The chunk records, the registry, the ids used and the stripes found free. -/
structure World where
  chunks : Key → Option BlockChunkRef
  refs : Bytes → Option (List Bytes)
  used : List Bytes
  free : List StripeMeta

def World.Names (w : World) (x : Bytes) : Prop := ∃ k o, recs w.chunks k = some (x, o)

/-- What a Raft write keeps of the chunk records and the registry. -/
structure Blocks (w : World) : Prop where
  consistent : Consistent (recs w.chunks) w.refs
  known : ∀ k r, w.chunks k = some r → (tableOf k = CHUNKS ∨ tableOf k = SNAP_CHUNKS) ∧
    r.chunkId = chunkOf k ∧ idOf k ∈ w.used ∧
    ∃ st, r.stripe = some st ∧ st.objectId ∈ w.used ∧
      (r.owner = st.objectId ∨ r.owner = idOf k) ∧ (tableOf k = SNAP_CHUNKS → r.owner = idOf k)
  /-- The records that name a stripe are of the same chunk, in their volumes and snapshots. -/
  place : ∀ k k' x o o', recs w.chunks k = some (x, o) → recs w.chunks k' = some (x, o') →
    chunkOf k = chunkOf k'
  registered : ∀ x r, w.refs x = some r → x ∈ w.used
  freed : ∀ st ∈ w.free, st.objectId ∈ w.used ∧ ¬ w.Names st.objectId

inductive Change (w : World) : World → Prop where
  | drop {k : Key} {r : BlockChunkRef} {st : StripeMeta} (hk : w.chunks k = some r)
      (hst : r.stripe = some st) :
      Change w
        { w with
          chunks := update w.chunks k none
          refs := update w.refs st.objectId (released w.refs st.objectId r.owner)
          free := if released w.refs st.objectId r.owner = none then w.free ++ [st] else w.free }
  | add {volumeId : Bytes} {chunk : Nat} {st : StripeMeta}
      (hk : w.chunks (key CHUNKS volumeId chunk) = none) (hid : volumeId ∈ w.used)
      (hx : st.objectId ∉ w.used) :
      Change w
        { w with
          chunks := update w.chunks (key CHUNKS volumeId chunk)
            (some ⟨chunk, some st, st.objectId⟩)
          used := st.objectId :: w.used }
  | share {k : Key} {r : BlockChunkRef} {st : StripeMeta} {toTable : String} {toId : Bytes}
      (hk : w.chunks k = some r) (hst : r.stripe = some st)
      (htable : toTable = CHUNKS ∨ toTable = SNAP_CHUNKS) (hid : toId ∈ w.used)
      (hto : w.chunks (key toTable toId r.chunkId) = none)
      (hno : ∀ k, recs w.chunks k ≠ some (st.objectId, toId)) :
      Change w
        { w with
          chunks := update w.chunks (key toTable toId r.chunkId)
            (some ⟨r.chunkId, some st, toId⟩)
          refs := update w.refs st.objectId (shared w.refs st.objectId r.owner toId) }

theorem recs_update (chunks : Key → Option BlockChunkRef) (k : Key) (r : Option BlockChunkRef) :
    recs (update chunks k r) =
      update (recs chunks) k (r.bind fun r => r.stripe.map fun st => (st.objectId, r.owner)) := by
  funext k'
  by_cases hk : k' = k
  · rw [hk, update_self, recs, update_self]
  · rw [update_of_ne hk, recs, update_of_ne hk]
    rfl

variable {chunks : Key → Option BlockChunkRef} {k k' : Key} {r : BlockChunkRef} {st : StripeMeta}
  {x o : Bytes} {table : String} {row : Nat × BlockChunkRef}

theorem recs_some (hk : chunks k = some r) (hst : r.stripe = some st) : recs chunks k = some (st.objectId, r.owner) := by
  rw [recs, hk, Option.bind_some, hst]
  rfl

variable {w w' : World}

theorem Blocks.used_of_names (h : Blocks w) (hx : w.Names x) : x ∈ w.used := by
  obtain ⟨k, o, hrec⟩ := hx
  obtain ⟨r, hr, hst⟩ := Option.bind_eq_some_iff.1 hrec
  obtain ⟨-, -, -, st, hst', hused, -⟩ := h.known k r hr
  rw [hst'] at hst
  cases hst
  exact hused

theorem recs_some_iff : recs chunks k = some (x, o) ↔
      ∃ r st, chunks k = some r ∧ r.stripe = some st ∧ st.objectId = x ∧ r.owner = o := by
  constructor
  · intro h
    obtain ⟨r, hr, hnamed⟩ := Option.bind_eq_some_iff.1 h
    obtain ⟨st, hst, heq⟩ := Option.map_eq_some_iff.1 hnamed
    obtain ⟨hx, ho⟩ := Prod.mk.inj heq
    exact ⟨r, st, hr, hst, hx, ho⟩
  · rintro ⟨r, st, hr, hst, rfl, rfl⟩
    exact recs_some hr hst

theorem recs_update_some {v : Option BlockChunkRef} (h : recs (update chunks k v) k' = some (x, o)) :
    (k' = k ∧ ∃ r st, v = some r ∧ r.stripe = some st ∧ st.objectId = x ∧ r.owner = o) ∨
      (k' ≠ k ∧ recs chunks k' = some (x, o)) := by
  obtain ⟨r, st, hr, hst, hx, ho⟩ := recs_some_iff.1 h
  rcases update_some hr with ⟨rfl, hv⟩ | ⟨hne, hr⟩
  · exact .inl ⟨rfl, r, st, hv, hst, hx, ho⟩
  · exact .inr ⟨hne, recs_some_iff.2 ⟨r, st, hr, hst, hx, ho⟩⟩

theorem recs_update_of {v : Option BlockChunkRef} (hk : recs chunks k ≠ some (x, o))
    (h : recs chunks k' = some (x, o)) : recs (update chunks k v) k' = some (x, o) := by
  rw [recs_update]
  exact update_some_of_ne hk h

theorem Change.names (hc : Change w w') (hx : w'.Names x) : w.Names x ∨ (x ∈ w'.used ∧ x ∉ w.used) := by
  obtain ⟨k', o, hrec⟩ := hx
  cases hc with
  | drop hk hst =>
    rcases recs_update_some hrec with ⟨-, _, _, hv, -⟩ | ⟨-, hrec⟩
    · cases hv
    · exact .inl ⟨k', o, hrec⟩
  | add hk hid hx =>
    rcases recs_update_some hrec with ⟨-, _, _, hv, hst, rfl, -⟩ | ⟨-, hrec⟩
    · cases hv
      cases hst
      exact .inr ⟨mem_cons_self, hx⟩
    · exact .inl ⟨k', o, hrec⟩
  | share hk hst htable hid hto hno =>
    rcases recs_update_some hrec with ⟨-, _, _, hv, hst', rfl, -⟩ | ⟨-, hrec⟩
    · cases hv
      cases hst'
      exact .inl ⟨_, _, recs_some hk hst⟩
    · exact .inl ⟨k', o, hrec⟩

theorem Change.used_mono (hc : Change w w') : ∀ x ∈ w.used, x ∈ w'.used := by
  intro x hx
  cases hc with
  | drop | share => exact hx
  | add => exact mem_cons_of_mem _ hx

theorem Change.free_mono (hc : Change w w') : ∀ st ∈ w.free, st ∈ w'.free := by
  intro st hst
  cases hc with
  | drop =>
    dsimp only
    split
    · exact mem_append_left _ hst
    · exact hst
  | add | share => exact hst

theorem Change.kept (h : Blocks w) (hc : Change w w') (hx : w.Names x) :
    w'.Names x ∨ ∃ st ∈ w'.free, st.objectId = x := by
  obtain ⟨k', o, hrec⟩ := hx
  cases hc with
  | @drop k r st hk hst =>
    have hdropped := recs_some hk hst
    by_cases hxst : st.objectId = x
    · subst hxst
      by_cases hfree : released w.refs st.objectId r.owner = none
      · right
        refine ⟨st, ?_, rfl⟩
        dsimp only
        rw [if_pos hfree]
        exact mem_append_right _ (mem_singleton_self st)
      · left
        have hother := mt (h.consistent.free_iff hdropped).2 hfree
        push Not at hother
        obtain ⟨j, p, hne, hj⟩ := hother
        refine ⟨j, p, ?_⟩
        dsimp only
        rw [recs_update, update_of_ne hne]
        exact hj
    · exact .inl ⟨k', o, recs_update_of (by simp [hdropped, hxst]) hrec⟩
  | add hk hid hx => exact .inl ⟨k', o, recs_update_of (by simp [recs, hk]) hrec⟩
  | share hk hst htable hid hto hno => exact .inl ⟨k', o, recs_update_of (by simp [recs, hto]) hrec⟩

/-- Every change keeps the records and the registry in step. -/
theorem Blocks.change (h : Blocks w) (hc : Change w w') : Blocks w' := by
  have hfreed : ∀ st ∈ w.free, st.objectId ∈ w'.used ∧ ¬ w'.Names st.objectId := by
    intro st hst
    obtain ⟨hused, hnot⟩ := h.freed st hst
    refine ⟨hc.used_mono _ hused, fun hnames => ?_⟩
    rcases hc.names hnames with hnames | ⟨-, hnew⟩
    · exact hnot hnames
    · exact hnew hused
  cases hc with
  | @drop k r st hk hst =>
    have hrec := recs_some hk hst
    have hused := h.used_of_names ⟨k, r.owner, hrec⟩
    have hold : ∀ {k' x o}, recs (update w.chunks k none) k' = some (x, o) →
        k' ≠ k ∧ recs w.chunks k' = some (x, o) := by
      intro k' x o hr
      rcases recs_update_some hr with ⟨-, _, _, hv, -⟩ | hr
      · cases hv
      · exact hr
    refine ⟨?_, fun k' r' hr' => ?_, fun k₁ k₂ x o₁ o₂ h₁ h₂ =>
      h.place k₁ k₂ x o₁ o₂ (hold h₁).2 (hold h₂).2, fun x r' hr' => ?_, fun st' hst' => ?_⟩
    · dsimp only
      rw [recs_update]
      exact h.consistent.drop hrec
    · rcases update_some hr' with ⟨-, hv⟩ | ⟨-, hr'⟩
      · cases hv
      · exact h.known k' r' hr'
    · rcases update_some hr' with ⟨rfl, -⟩ | ⟨-, hr'⟩
      · exact hused
      · exact h.registered x r' hr'
    · dsimp only at hst'
      split at hst'
      · rename_i hfree
        rcases mem_append.1 hst' with hst' | hst'
        · exact hfreed st' hst'
        · rw [mem_singleton.1 hst']
          refine ⟨hused, ?_⟩
          rintro ⟨k', o', hrec'⟩
          obtain ⟨hne, hrec'⟩ := hold hrec'
          exact (h.consistent.free_iff hrec).1 hfree k' o' hne hrec'
      · exact hfreed st' hst'
  | @add volumeId chunk st hk hid hx =>
    have hunnamed : ∀ k o, recs w.chunks k ≠ some (st.objectId, o) :=
      fun k o hrec => hx (h.used_of_names ⟨k, o, hrec⟩)
    have hrefs : w.refs st.objectId = none :=
      Option.eq_none_iff_forall_ne_some.2 fun r hr => hx (h.registered _ r hr)
    refine ⟨?_, fun k' r' hr' => ?_, fun k₁ k₂ x o₁ o₂ h₁ h₂ => ?_, fun x r' hr' =>
      mem_cons_of_mem _ (h.registered x r' hr'), hfreed⟩
    · dsimp only
      rw [recs_update]
      exact h.consistent.add (by rw [recs, hk]; rfl) hrefs hunnamed _
    · rcases update_some hr' with ⟨rfl, hv⟩ | ⟨-, hr'⟩
      · cases hv
        exact ⟨.inl rfl, rfl, mem_cons_of_mem _ hid, st, rfl, mem_cons_self, .inl rfl,
          fun hne => absurd (show CHUNKS = SNAP_CHUNKS from hne) (by decide)⟩
      · obtain ⟨htable, hchunk, hid', st', hst', hused, howner, hsnap⟩ := h.known k' r' hr'
        exact ⟨htable, hchunk, mem_cons_of_mem _ hid', st', hst', mem_cons_of_mem _ hused, howner, hsnap⟩
    · rcases recs_update_some h₁ with ⟨rfl, _, _, hv, hst, rfl, -⟩ | ⟨-, h₁⟩
      · cases hv
        cases hst
        rcases recs_update_some h₂ with ⟨rfl, -⟩ | ⟨-, h₂⟩
        · rfl
        · exact absurd h₂ (hunnamed _ _)
      · rcases recs_update_some h₂ with ⟨-, _, _, hv, hst, rfl, -⟩ | ⟨-, h₂⟩
        · cases hv
          cases hst
          exact absurd h₁ (hunnamed _ _)
        · exact h.place k₁ k₂ x o₁ o₂ h₁ h₂
  | @share k r st toTable toId hk hst htable hid hto hno =>
    have hrec := recs_some hk hst
    have hused := h.used_of_names ⟨k, r.owner, hrec⟩
    have hsame : r.chunkId = chunkOf k := (h.known k r hk).2.1
    refine ⟨?_, fun k' r' hr' => ?_, fun k₁ k₂ x o₁ o₂ h₁ h₂ => ?_, fun x r' hr' => ?_, hfreed⟩
    · dsimp only
      rw [recs_update]
      exact h.consistent.share hrec (by rw [recs, hto]; rfl) hno
    · rcases update_some hr' with ⟨rfl, hv⟩ | ⟨-, hr'⟩
      · cases hv
        exact ⟨htable, rfl, hid, st, rfl, hused, .inr rfl, fun _ => rfl⟩
      · exact h.known k' r' hr'
    · rcases recs_update_some h₁ with ⟨rfl, _, _, hv, hst', rfl, -⟩ | ⟨-, h₁⟩
      · cases hv
        cases hst'
        rcases recs_update_some h₂ with ⟨rfl, -⟩ | ⟨-, h₂⟩
        · rfl
        · exact hsame.trans (h.place k k₂ _ _ _ hrec h₂)
      · rcases recs_update_some h₂ with ⟨rfl, _, _, hv, hst', rfl, -⟩ | ⟨-, h₂⟩
        · cases hv
          cases hst'
          exact (h.place k₁ k _ _ _ h₁ hrec).trans hsame.symm
        · exact h.place k₁ k₂ x o₁ o₂ h₁ h₂
    · rcases update_some hr' with ⟨rfl, -⟩ | ⟨-, hr'⟩
      · exact hused
      · exact h.registered x r' hr'

abbrev Changes : World → World → Prop := Relation.ReflTransGen Change

theorem Blocks.changes (h : Blocks w) (hc : Changes w w') : Blocks w' := by
  induction hc with
  | refl => exact h
  | tail _ hstep ih => exact ih.change hstep

theorem used_of_changes (hc : Changes w w') : ∀ x ∈ w.used, x ∈ w'.used := by
  induction hc with
  | refl => exact fun _ hx => hx
  | tail _ hstep ih => exact fun x hx => hstep.used_mono x (ih x hx)

/-- A stripe that is named afterwards was named before or is new; one that was named is still, or was found
free. -/
theorem names_of_changes (hc : Changes w w') (hx : w'.Names x) : w.Names x ∨ (x ∈ w'.used ∧ x ∉ w.used) := by
  induction hc with
  | refl => exact .inl hx
  | tail hpre hstep ih =>
    rcases hstep.names hx with hx | ⟨hused, hnew⟩
    · rcases ih hx with hx | ⟨hused, hnew⟩
      · exact .inl hx
      · exact .inr ⟨hstep.used_mono _ hused, hnew⟩
    · exact .inr ⟨hused, fun hold => hnew (used_of_changes hpre _ hold)⟩

theorem kept_of_changes (h : Blocks w) (hc : Changes w w') (hx : w.Names x) :
    w'.Names x ∨ ∃ st ∈ w'.free, st.objectId = x := by
  induction hc with
  | refl => exact .inl hx
  | tail hpre hstep ih =>
    rcases ih with hx | ⟨st, hst, hid⟩
    · exact hstep.kept (h.changes hpre) hx
    · exact .inr ⟨st, hstep.free_mono st hst, hid⟩

variable {rows : Rows} {b b' : Build} {used : List Bytes}

/-- The records, the registry and the free stripes as a write has changed them so far. -/
def worldOf (rows : Rows) (b : Build) (used : List Bytes) : World :=
  ⟨chunkAt (applyWrites rows b.writes), b.refs rows, used, b.free⟩

abbrev Build.records (rows : Rows) (b : Build) : Key → Option BlockChunkRef :=
  chunkAt (applyWrites rows b.writes)

theorem get_applyWrites_self (rows : Rows) (ws : List Write) (k : Key) (row : Option Row) :
    (applyWrites rows (ws ++ [(k, row)])).get k = row := by
  rw [applyWrites, foldl_append]
  exact (get_set _ k k row).trans (if_pos rfl)

theorem get_applyWrites_of_ne (rows : Rows) (ws : List Write) {k' : Key} (hne : k' ≠ k)
    (row : Option Row) : (applyWrites rows (ws ++ [(k, row)])).get k' = (applyWrites rows ws).get k' := by
  rw [applyWrites, foldl_append]
  exact (get_set _ k k' row).trans (if_neg hne)

theorem worldOf_write (htable : tableOf k = CHUNKS ∨ tableOf k = SNAP_CHUNKS) (r : Option BlockChunkRef)
    (hwrites : b'.writes = b.writes) : worldOf rows (b'.write k (r.map Row.chunk)) used =
      { worldOf rows b' used with chunks := update (b.records rows) k r } := by
  have hchunks : chunkAt (applyWrites rows (b.writes ++ [(k, r.map Row.chunk)])) =
      update (chunkAt (applyWrites rows b.writes)) k r := by
    funext k'
    by_cases hk : k' = k
    · subst hk
      rw [update_self, chunkAt, if_pos htable, get_applyWrites_self]
      cases r with
      | none | some r => rfl
    · rw [update_of_ne hk, chunkAt, chunkAt, get_applyWrites_of_ne rows b.writes hk]
  rw [worldOf, Build.write, hwrites, hchunks]
  rfl

theorem refs_insert (rows : Rows) (b : Build) (x : Bytes) (v : Option (List Bytes)) (free : List StripeMeta) :
    Build.refs rows { b with changed := b.changed.insert x v, free := free } =
      update (b.refs rows) x v := by
  funext y
  rw [Build.refs]
  dsimp only
  rw [get_insert]
  by_cases hy : y = x
  · rw [if_pos hy, hy, update_self]
  · rw [if_neg hy, update_of_ne hy]
    rfl

theorem release_spec (h : Blocks (worldOf rows b used))
    (hk : b.records rows k = some r) (hst : r.stripe = some st) : (b.release rows st r.owner).refs rows =
        update (b.refs rows) st.objectId (released (b.refs rows) st.objectId r.owner) ∧
      (b.release rows st r.owner).free =
        (if released (b.refs rows) st.objectId r.owner = none then b.free ++ [st] else b.free) ∧
      (b.release rows st r.owner).writes = b.writes := by
  have hrec := recs_some hk hst
  unfold Build.release
  split
  · rename_i hnone
    have hreleased : released (b.refs rows) st.objectId r.owner = none := by
      rw [released, hnone]
      rfl
    refine ⟨?_, by rw [if_pos hreleased], rfl⟩
    rw [hreleased]
    exact (update_eq_self_iff.2 hnone.symm).symm
  · rename_i refs hrefs
    have hmem : r.owner ∈ refs := (h.consistent.listed _ refs hrefs r.owner).2 ⟨k, hrec⟩
    have hreleased : released (b.refs rows) st.objectId r.owner = left r.owner refs := by
      rw [released, hrefs]
      rfl
    rw [if_pos hmem, hreleased]
    split
    · rename_i hleft
      exact ⟨by rw [refs_insert, hleft], by rw [if_pos hleft], rfl⟩
    · rename_i rest hleft
      refine ⟨?_, by rw [hleft, if_neg (Option.some_ne_none _)], rfl⟩
      rw [hleft]
      exact refs_insert rows b st.objectId (some rest) b.free

theorem share_spec (h : Blocks (worldOf rows b used)) {sharer : Bytes} (hk : b.records rows k = some r)
    (hst : r.stripe = some st) (hno : ∀ k, recs (b.records rows) k ≠ some (st.objectId, sharer))
    (hshare : b.share rows st.objectId r.owner sharer = .ok b') : b'.refs rows =
        update (b.refs rows) st.objectId (shared (b.refs rows) st.objectId r.owner sharer) ∧
      b'.free = b.free ∧ b'.writes = b.writes := by
  have hrec := recs_some hk hst
  have hnot : sharer ∉ ((b.refs rows) st.objectId).getD [r.owner] := by
    intro hmem
    obtain ⟨k', hk'⟩ := (h.consistent.mem_getD_iff hrec sharer).1 hmem
    exact hno k' hk'
  unfold Build.share at hshare
  split at hshare
  · rename_i refs hrefs
    rw [hrefs, Option.getD_some] at hnot
    split at hshare
    · cases hshare
    · cases hshare
      refine ⟨?_, rfl, rfl⟩
      rw [shared, hrefs]
      exact refs_insert rows b st.objectId _ b.free
  · rename_i hnone
    rw [hnone, Option.getD_none] at hnot
    have hne : sharer ≠ r.owner := fun heq => hnot (by rw [heq]; exact mem_singleton_self _)
    cases hshare
    refine ⟨?_, rfl, rfl⟩
    rw [shared, hnone, if_neg hne]
    exact refs_insert rows b st.objectId _ b.free

def ChunkUpdate.record (u : ChunkUpdate) : Option BlockChunkRef :=
  u.stripe.map fun st => ⟨u.chunkId, some st, st.objectId⟩

theorem releaseCurrent_spec (hb : Blocks (worldOf rows b used)) (k : Key) : Changes (worldOf rows b used)
        { worldOf rows (b.releaseCurrent rows (b.records rows k)) used with
          chunks := update (b.records rows) k none } ∧
      (b.releaseCurrent rows (b.records rows k)).writes = b.writes := by
  cases hk : b.records rows k with
  | none =>
    rw [update_eq_self_iff.2 hk.symm]
    exact ⟨.refl, rfl⟩
  | some r =>
    obtain ⟨-, -, -, st, hst, -⟩ := hb.known k r hk
    obtain ⟨chunkId, stripe, owner⟩ := r
    cases hst
    obtain ⟨hrefs, hfree, hwrites⟩ := release_spec hb hk rfl
    have hdrop := Change.drop (w := worldOf rows b used) hk rfl
    refine ⟨.single ?_, hwrites⟩
    dsimp only [worldOf, Build.releaseCurrent] at hdrop ⊢
    rw [hrefs, hfree]
    exact hdrop

theorem commitOne_changes {volumeId : Bytes} {u : ChunkUpdate} (hb : Blocks (worldOf rows b used))
    (hcur : b.records rows (key CHUNKS volumeId u.chunkId) =
      chunkAt rows (key CHUNKS volumeId u.chunkId)) (hid : volumeId ∈ used)
    (hnew : ∀ st, u.stripe = some st → st.objectId ∉ used) (h : commitOne rows volumeId b u = .ok b') :
    Changes (worldOf rows b used) (worldOf rows b' ((u.stripe.map (·.objectId)).toList ++ used)) ∧
      b'.records rows = update (b.records rows) (key CHUNKS volumeId u.chunkId) u.record := by
  obtain ⟨hdrop, hwrites⟩ := releaseCurrent_spec hb (key CHUNKS volumeId u.chunkId)
  rw [hcur] at hdrop hwrites
  unfold commitOne at h
  dsimp only at h
  split at h
  · cases h
  · generalize b.releaseCurrent rows (chunkAt rows (key CHUNKS volumeId u.chunkId)) = b₁ at h hdrop hwrites
    have hworld : ∀ used, worldOf rows (b₁.write (key CHUNKS volumeId u.chunkId) (u.record.map Row.chunk))
        used = { worldOf rows b₁ used with
                 chunks := update (b.records rows) (key CHUNKS volumeId u.chunkId) u.record } :=
      fun used => worldOf_write (.inl rfl) u.record hwrites
    rw [ChunkUpdate.record] at hworld ⊢
    split at h
    · rename_i st hst
      rw [hst] at hworld ⊢
      split at h
      · cases h
      · cases h
        refine ⟨hdrop.tail ?_, congrArg World.chunks (hworld used)⟩
        have hadd := Change.add (w := { worldOf rows b₁ used with
          chunks := update (b.records rows) (key CHUNKS volumeId u.chunkId) none })
          (update_self (key CHUNKS volumeId u.chunkId) ..) hid (hnew st hst)
        rw [update_idem] at hadd
        exact hworld _ ▸ hadd
    · rename_i hst
      rw [hst] at hworld ⊢
      cases h
      exact ⟨hworld used ▸ hdrop, congrArg World.chunks (hworld used)⟩

theorem key_inj {id id' : Bytes} {c c' : Nat} (h : key table id c = key table id' c') : id = id' ∧ c = c' :=
  ⟨congrArg idOf h, congrArg chunkOf h⟩

theorem key_ne {table' : String} (h : table ≠ table') (id id' : Bytes) (c c' : Nat) :
    key table id c ≠ key table' id' c' := fun heq => h (congrArg tableOf heq)

theorem commit_changes {volumeId : Bytes} : ∀ {updates : List ChunkUpdate} {b b' : Build}
    {used : List Bytes}, Blocks (worldOf rows b used) → volumeId ∈ used →
    (updates.map ChunkUpdate.chunkId).Nodup → (∀ u ∈ updates, b.records rows (key CHUNKS volumeId u.chunkId) =
      chunkAt rows (key CHUNKS volumeId u.chunkId)) →
    (updates.filterMap fun u => u.stripe.map (·.objectId)).Nodup →
    (∀ x ∈ updates.filterMap fun u => u.stripe.map (·.objectId), x ∉ used) →
    each (commitOne rows volumeId) b updates = .ok b' →
    ∃ used', (∀ x, x ∈ used' ↔ x ∈ (updates.filterMap fun u => u.stripe.map (·.objectId)) ∨ x ∈ used) ∧
      Changes (worldOf rows b used) (worldOf rows b' used') := by
  intro updates
  induction updates with
  | nil =>
    intro b b' used _ _ _ _ _ _ h
    cases h
    exact ⟨used, by simp, .refl⟩
  | cons u us ih =>
    intro b b' used hb hid hchunks hcur hnodup hnew h
    rw [each] at h
    split at h
    · cases h
    · rename_i b₁ hb₁
      obtain ⟨hu, hus⟩ := nodup_cons.1 hchunks
      have hfirst : (filterMap (fun u : ChunkUpdate => u.stripe.map (·.objectId)) (u :: us)) =
          (u.stripe.map (·.objectId)).toList ++ us.filterMap fun u => u.stripe.map (·.objectId) := by
        rw [filterMap_cons]
        cases u.stripe with
        | none | some st => rfl
      rw [hfirst] at hnodup hnew ⊢
      have hnewu : ∀ st, u.stripe = some st → st.objectId ∉ used := by
        intro st hst
        refine hnew _ (mem_append_left _ ?_)
        rw [hst]
        exact mem_singleton_self _
      obtain ⟨hone, hafter⟩ := commitOne_changes hb (hcur u mem_cons_self) hid hnewu hb₁
      have hcur' : ∀ v ∈ us, b₁.records rows (key CHUNKS volumeId v.chunkId) =
          chunkAt rows (key CHUNKS volumeId v.chunkId) := by
        intro v hv
        rw [hafter, update_of_ne fun heq => hu (mem_map.2 ⟨v, hv, (key_inj heq).2⟩)]
        exact hcur v (mem_cons_of_mem _ hv)
      have hnew' : ∀ x ∈ us.filterMap fun u => u.stripe.map (·.objectId),
          x ∉ (u.stripe.map (·.objectId)).toList ++ used := by
        intro x hx hmem
        rcases mem_append.1 hmem with hmem | hmem
        · exact (nodup_append.1 hnodup).2.2 x hmem x hx rfl
        · exact hnew x (mem_append_right _ hx) hmem
      obtain ⟨used', hused', hrest⟩ := ih (hb.changes hone)
        (mem_append_right _ hid) hus hcur' (nodup_append.1 hnodup).2.1 hnew' h
      refine ⟨used', fun x => ?_, hone.trans hrest⟩
      rw [hused', mem_append, mem_append]
      tauto

theorem shareOne_changes {fromTable : String} {fromId : Bytes} {fromIsOwner : Bool} {toTable : String}
    {toId : Bytes} (hb : Blocks (worldOf rows b used))
    (hfrom : b.records rows (key fromTable fromId row.1) = some row.2)
    (howner : fromIsOwner = true → fromTable = SNAP_CHUNKS)
    (htable : toTable = CHUNKS ∨ toTable = SNAP_CHUNKS) (hid : toId ∈ used)
    (hto : b.records rows (key toTable toId row.1) = none)
    (hrows : ∀ k r, b.records rows k = some r → idOf k = toId → tableOf k = toTable)
    (hnames : ¬ (worldOf rows b used).Names toId)
    (h : shareOne rows fromId fromIsOwner toTable toId b row = .ok b') :
    Changes (worldOf rows b used) (worldOf rows b' used) ∧ b'.records rows = update (b.records rows)
        (key toTable toId row.1) (some { row.2 with owner := toId }) := by
  obtain ⟨chunk, r⟩ := row
  obtain ⟨-, hchunk, -, st, hst, -, -, hsnap⟩ := hb.known _ r hfrom
  have hchunk : r.chunkId = chunk := hchunk
  have hown : (if fromIsOwner then fromId else r.owner) = r.owner := by
    split
    · rename_i hflag
      exact (hsnap (howner hflag)).symm
    · rfl
  -- The copy has no record of the stripe: it would be at this very chunk.
  have hno : ∀ k, recs (b.records rows) k ≠ some (st.objectId, toId) := by
    intro k hrec
    obtain ⟨r', st', hr', hst', hx, ho⟩ := recs_some_iff.1 hrec
    obtain ⟨-, -, -, st'', hst'', -, howned, -⟩ := hb.known k r' hr'
    rw [hst'] at hst''
    cases hst''
    rcases howned with howned | howned
    · refine hnames ⟨key fromTable fromId chunk, r.owner, ?_⟩
      rw [← ho, howned, hx]
      exact recs_some hfrom hst
    · have hidk : idOf k = toId := howned.symm.trans ho
      have hplace : chunkOf k = chunk := hb.place k _ _ _ _ hrec (recs_some hfrom hst)
      have hkey : k = key toTable toId chunk := by
        rw [← key_of k, hrows k r' hr' hidk, hidk, hplace]
      rw [hkey] at hr'
      rw [hto] at hr'
      cases hr'
  unfold shareOne at h
  dsimp only at h
  rw [hst] at h
  dsimp only at h
  rw [hown] at h
  split at h
  · cases h
  · rename_i b₁ hb₁
    cases h
    obtain ⟨hrefs, hfree, hwrites⟩ := share_spec hb hfrom hst hno hb₁
    have hrecord : ({ r with owner := toId } : BlockChunkRef) = ⟨r.chunkId, some st, toId⟩ := by
      rw [← hst]
    rw [hrecord, hchunk]
    have hworld : worldOf rows (b₁.write (key toTable toId chunk) (some (.chunk ⟨chunk, some st, toId⟩))) used =
        { worldOf rows b₁ used with
          chunks := update (b.records rows) (key toTable toId chunk) (some ⟨chunk, some st, toId⟩) } :=
      worldOf_write (k := key toTable toId chunk) htable (some ⟨chunk, some st, toId⟩) hwrites
    refine ⟨.single ?_, congrArg World.chunks hworld⟩
    have hshare := Change.share (w := worldOf rows b used) hfrom hst htable hid (hchunk ▸ hto) hno
    dsimp only [worldOf] at hshare hworld ⊢
    rw [hworld, hrefs, hfree]
    rw [hchunk] at hshare
    exact hshare

theorem share_changes {fromTable : String} {fromId : Bytes} {fromIsOwner : Bool} {toTable : String}
    {toId : Bytes} (howner : fromIsOwner = true → fromTable = SNAP_CHUNKS)
    (htable : toTable = CHUNKS ∨ toTable = SNAP_CHUNKS) (htables : fromTable ≠ toTable)
    (hid : toId ∈ used) : ∀ {batch : List (Nat × BlockChunkRef)} {b b' : Build},
    Blocks (worldOf rows b used) → (batch.map Prod.fst).Nodup →
    (∀ row ∈ batch, b.records rows (key fromTable fromId row.1) = some row.2) →
    (∀ row ∈ batch, b.records rows (key toTable toId row.1) = none) →
    (∀ k r, b.records rows k = some r → idOf k = toId → tableOf k = toTable) →
    ¬ (worldOf rows b used).Names toId →
    each (shareOne rows fromId fromIsOwner toTable toId) b batch = .ok b' →
    Changes (worldOf rows b used) (worldOf rows b' used) := by
  intro batch
  induction batch with
  | nil =>
    intro b b' _ _ _ _ _ _ h
    cases h
    exact .refl
  | cons row batch ih =>
    intro b b' hb hnodup hfrom hto hrows hnames h
    rw [each] at h
    split at h
    · cases h
    · rename_i b₁ hb₁
      obtain ⟨hrow, hrest⟩ := nodup_cons.1 hnodup
      obtain ⟨hone, hafter⟩ := shareOne_changes hb (hfrom row mem_cons_self) howner htable hid
        (hto row mem_cons_self) hrows hnames hb₁
      refine hone.trans (ih (hb.changes hone) hrest (fun row' hrow' => ?_) (fun row' hrow' => ?_)
        (fun k r hr hidk => ?_) (fun hnamed => ?_) h)
      · rw [hafter, update_of_ne (key_ne htables fromId toId row'.1 row.1)]
        exact hfrom row' (mem_cons_of_mem _ hrow')
      · rw [hafter, update_of_ne fun heq => hrow (mem_map.2 ⟨row', hrow', (key_inj heq).2⟩)]
        exact hto row' (mem_cons_of_mem _ hrow')
      · rw [hafter] at hr
        rcases update_some hr with ⟨rfl, -⟩ | ⟨-, hr⟩
        · rfl
        · exact hrows k r hr hidk
      · rcases names_of_changes hone hnamed with hnamed | ⟨hin, hout⟩
        · exact hnames hnamed
        · exact hout hin

theorem releaseOne_changes {ownerId : Bytes} {referrerIsOwner : Bool} (hb : Blocks (worldOf rows b used))
    (htable : table = CHUNKS ∨ table = SNAP_CHUNKS) (howner : referrerIsOwner = true → table = SNAP_CHUNKS)
    (hrow : b.records rows (key table ownerId row.1) = some row.2) : Changes (worldOf rows b used)
        (worldOf rows (releaseOne rows table ownerId referrerIsOwner b row) used) ∧
      (releaseOne rows table ownerId referrerIsOwner b row).records rows =
        update (b.records rows) (key table ownerId row.1) none := by
  obtain ⟨chunk, r⟩ := row
  obtain ⟨-, -, -, st, hst, -, -, hsnap⟩ := hb.known _ r hrow
  have hown : (if referrerIsOwner then ownerId else r.owner) = r.owner := by
    split
    · rename_i hflag
      exact (hsnap (howner hflag)).symm
    · rfl
  obtain ⟨hrefs, hfree, hwrites⟩ := release_spec hb hrow hst
  have hone : releaseOne rows table ownerId referrerIsOwner b (chunk, r) =
      (b.release rows st r.owner).write (key table ownerId chunk) none := by
    unfold releaseOne
    dsimp only
    rw [hst]
    dsimp only
    rw [hown]
  have hworld : worldOf rows ((b.release rows st r.owner).write (key table ownerId chunk) none) used =
      { worldOf rows (b.release rows st r.owner) used with
        chunks := update (b.records rows) (key table ownerId chunk) none } :=
    worldOf_write (k := key table ownerId chunk) htable none hwrites
  rw [hone]
  refine ⟨.single ?_, congrArg World.chunks hworld⟩
  have hdrop := Change.drop (w := worldOf rows b used) hrow hst
  dsimp only [worldOf] at hdrop hworld ⊢
  rw [hworld, hrefs, hfree]
  exact hdrop

theorem release_changes {ownerId : Bytes} {referrerIsOwner : Bool}
    (htable : table = CHUNKS ∨ table = SNAP_CHUNKS) (howner : referrerIsOwner = true → table = SNAP_CHUNKS) :
    ∀ {batch : List (Nat × BlockChunkRef)} {b : Build}, Blocks (worldOf rows b used) →
    (batch.map Prod.fst).Nodup → (∀ row ∈ batch, b.records rows (key table ownerId row.1) = some row.2) →
    Changes (worldOf rows b used)
      (worldOf rows (batch.foldl (releaseOne rows table ownerId referrerIsOwner) b) used) := by
  intro batch
  induction batch with
  | nil => exact fun _ _ _ => .refl
  | cons row batch ih =>
    intro b hb hnodup hrows
    obtain ⟨hrow, hrest⟩ := nodup_cons.1 hnodup
    obtain ⟨hone, hafter⟩ := releaseOne_changes hb htable howner (hrows row mem_cons_self)
    refine hone.trans (ih (hb.changes hone) hrest fun row' hrow' => ?_)
    rw [hafter, update_of_ne fun heq => hrow (mem_map.2 ⟨row', hrow', (key_inj heq).2⟩)]
    exact hrows row' (mem_cons_of_mem _ hrow')

/-! ### The rows afterwards -/

theorem get_applyWrites_of_notMem : ∀ {ws : List Write} {rows : Rows},
    (∀ w ∈ ws, w.1 ≠ k) → (applyWrites rows ws).get k = rows.get k := by
  intro ws
  induction ws with
  | nil => exact fun _ => rfl
  | cons w ws ih =>
    intro rows h
    have hrest : (applyWrites (set rows w.1 w.2) ws).get k =
        (set rows w.1 w.2).get k := ih fun w' hw' => h w' (mem_cons_of_mem _ hw')
    rw [applyWrites, foldl_cons]
    refine hrest.trans ((get_set rows w.1 k w.2).trans (if_neg ?_))
    exact fun heq => h w mem_cons_self heq.symm

theorem applyWrites_append (rows : Rows) (ws ws' : List Write) :
    applyWrites rows (ws ++ ws') = applyWrites (applyWrites rows ws) ws' := foldl_append

theorem chunkAt_applyWrites {ws : List Write} (rows : Rows)
    (h : ∀ w ∈ ws, tableOf w.1 ≠ CHUNKS ∧ tableOf w.1 ≠ SNAP_CHUNKS) :
    chunkAt (applyWrites rows ws) = chunkAt rows := by
  funext k
  rw [chunkAt, chunkAt]
  split
  · rename_i htable
    rw [get_applyWrites_of_notMem]
    intro w hw heq
    subst heq
    rcases htable with htable | htable
    · exact (h w hw).1 htable
    · exact (h w hw).2 htable
  · rfl

theorem refsOf_applyWrites {ws : List Write} (rows : Rows) (h : ∀ w ∈ ws, tableOf w.1 ≠ STRIPE_REFS) :
    refsOf (applyWrites rows ws) = refsOf rows := by
  funext x
  rw [refsOf, refsOf, get_applyWrites_of_notMem]
  intro w hw heq
  exact h w hw (by rw [heq]; rfl)

theorem get_applyWrites_some {row : Row} : ∀ {ws : List Write} {rows : Rows},
    (applyWrites rows ws).get k = some row → rows.get k = some row ∨ (k, some row) ∈ ws := by
  intro ws
  induction ws with
  | nil => exact fun h => .inl h
  | cons w ws ih =>
    intro rows h
    rcases ih (show (applyWrites (set rows w.1 w.2) ws).get k = some row from h) with h | h
    · by_cases hk : k = w.1
      · subst hk
        have hset := (get_set rows w.1 w.1 w.2).trans (if_pos rfl)
        rw [hset] at h
        exact .inr (h ▸ mem_cons_self)
      · exact .inl (((get_set rows w.1 k w.2).trans (if_neg hk)).symm.trans h)
    · exact .inr (mem_cons_of_mem _ h)

theorem get_applyWrites_of_mem {v : Option Row} : ∀ {ws : List Write} {rows : Rows},
    (ws.map Prod.fst).Nodup → (k, v) ∈ ws → (applyWrites rows ws).get k = v := by
  intro ws
  induction ws with
  | nil => exact nofun
  | cons w ws ih =>
    intro rows hnodup hmem
    obtain ⟨hw, hws⟩ := nodup_cons.1 hnodup
    rcases mem_cons.1 hmem with rfl | hmem
    · have hrest : ∀ w' ∈ ws, w'.1 ≠ k := fun w' hw' heq => hw (mem_map.2 ⟨w', hw', heq⟩)
      rw [applyWrites, foldl_cons]
      refine (get_applyWrites_of_notMem hrest).trans ?_
      exact (get_set rows k k v).trans (if_pos rfl)
    · exact ih hws hmem

theorem refsOf_rows (rows : Rows) (b : Build) (h : ∀ w ∈ b.writes, tableOf w.1 ≠ STRIPE_REFS) :
    refsOf (applyWrites rows b.rows) = b.refs rows := by
  funext x
  have hnodup : ((b.changed.entries.map fun e =>
      ((key STRIPE_REFS e.1 0, e.2.map Row.refs) : Write)).map Prod.fst).Nodup := by
    rw [map_map, List.Nodup, pairwise_map]
    refine b.changed.sorted.imp fun hlt heq => ?_
    exact hlt.ne (key_inj heq).1
  rw [Build.rows, applyWrites_append, Build.refs, refsOf]
  cases hx : b.changed.get x with
  | some v =>
    have hmem : (key STRIPE_REFS x 0, v.map Row.refs) ∈ b.changed.entries.map fun e =>
        ((key STRIPE_REFS e.1 0, e.2.map Row.refs) : Write) :=
      mem_map.2 ⟨(x, v), mem_entries.2 hx, rfl⟩
    rw [get_applyWrites_of_mem hnodup hmem]
    cases v with
    | none | some r => rfl
  | none =>
    rw [get_applyWrites_of_notMem]
    · exact congrFun (refsOf_applyWrites rows h) x
    · intro w hw heq
      obtain ⟨e, he, rfl⟩ := mem_map.1 hw
      have hex : e.1 = x := (key_inj heq).1
      exact get_eq_none.1 hx e.2 (hex ▸ he)

theorem chunkAt_rows (rows : Rows) (b : Build) :
    chunkAt (applyWrites rows b.rows) = chunkAt (applyWrites rows b.writes) := by
  rw [Build.rows, applyWrites_append]
  refine chunkAt_applyWrites _ fun w hw => ?_
  obtain ⟨e, -, rfl⟩ := mem_map.1 hw
  exact ⟨show STRIPE_REFS ≠ CHUNKS by decide, show STRIPE_REFS ≠ SNAP_CHUNKS by decide⟩

theorem mem_chunksOf {id : Bytes} (htable : table = CHUNKS ∨ table = SNAP_CHUNKS) :
    row ∈ chunksOf rows table id ↔ chunkAt rows (key table id row.1) = some row.2 := by
  have htable' : tableOf (key table id row.1) = CHUNKS ∨ tableOf (key table id row.1) = SNAP_CHUNKS :=
    htable
  rw [chunkAt, if_pos htable', chunksOf, mem_filterMap]
  constructor
  · rintro ⟨⟨k, v⟩, hmem, hrow⟩
    split at hrow
    · rename_i hat
      split at hrow
      · rename_i r hv
        cases hrow
        have hk : key table id (chunkOf k) = k := by rw [← hat.1, ← hat.2, key_of]
        dsimp only at hv ⊢
        rw [hk, mem_entries.1 hmem, hv]
      · cases hrow
    · cases hrow
  · intro hget
    split at hget
    · rename_i r hr
      cases hget
      exact ⟨_, mem_entries.2 hr, if_pos ⟨rfl, rfl⟩⟩
    · cases hget

theorem key_of_chunk {table : String} {id : Bytes} {e : Key × Row} {row : Nat × BlockChunkRef}
    (h : (if tableOf e.1 = table ∧ idOf e.1 = id then
        match e.2 with
        | .chunk r => some (chunkOf e.1, r)
        | _ => none
      else none) = some row) : e.1 = key table id row.1 := by
  split at h
  · rename_i hat
    split at h
    · cases h
      rw [← hat.1, ← hat.2, key_of]
    · cases h
  · cases h

theorem chunksOf_nodup (rows : Rows) (table : String) (id : Bytes) :
    ((chunksOf rows table id).map Prod.fst).Nodup := by
  rw [List.Nodup, pairwise_map]
  refine rows.sorted.filterMap _ fun e e' hlt row hrow row' hrow' heq => ?_
  rw [key_of_chunk hrow, key_of_chunk hrow', heq] at hlt
  exact lt_irrefl _ hlt

end IoLake.Meta.BlockVolumes
