import IoLake.MetaStore.SnapshotFiles

/-!
# A snapshot built while another is installed

A clean-up that meets the temporary file of the other call deletes it, and the other call fails
(`copy_deleted_by_build`).  The invariant says which files of each call are there at each of its stages
(`Inv`); a careful clean-up meets none of the other's (`Careful`).  Then no call fails, each goes on until it
has returned, and the current snapshot is the one further on (`snapshots_undisturbed`).
-/

namespace IoLake.MetaStore.Snapshots

open Directory List Option

variable {D : Type}

variable {n : FileName} {m : Machine D} {w : Who} {r : Stage D × Dir D × Machine D} {k : Snapshot D} {dir : Dir D}

theorem described_some {p : FileName × SnapshotMeta}
    (h : described dir n = some p) : (ofLex n).2 = "meta" ∧ dir.read n = some (.description p.2) ∧
      p.1 = dataFile (ofLex n).1 := by
  unfold described at h
  split at h
  · rename_i hext
    split at h
    · rename_i m hm
      cases h
      exact ⟨hext, hm, rfl⟩
    · cases h
  · cases h

theorem described_metaFile {id : String} {m : SnapshotMeta}
    (h : dir.read (metaFile id) = some (.description m)) :
    described dir (metaFile id) = some (dataFile id, m) := by
  have hext : (ofLex (metaFile id)).2 = "meta" := rfl
  rw [described, if_pos hext, h]
  rfl

theorem pick_le (dir : Dir D) (q p : FileName × SnapshotMeta) :
    ∃ q', pick dir (some q) p = some q' ∧ rank q.2.lastLogId ≤ rank q'.2.lastLogId := by
  unfold pick
  split
  · rename_i hpick
    have hlt : rank q.2.lastLogId < rank p.2.lastLogId := by simpa [better] using hpick.2
    exact ⟨p, rfl, le_of_lt hlt⟩
  · exact ⟨q, rfl, le_rfl⟩

theorem pick_takes (best : Option (FileName × SnapshotMeta)) {p : FileName × SnapshotMeta}
    (h : dir.inode p.1 ≠ none) : ∃ q, pick dir best p = some q ∧ rank p.2.lastLogId ≤ rank q.2.lastLogId := by
  unfold pick
  split
  · exact ⟨p, rfl, le_rfl⟩
  · rename_i hnot
    have hsome : (dir.inode p.1).isSome = true := isSome_iff_ne_none.2 h
    cases best with
    | none => exact absurd ⟨hsome, rfl⟩ hnot
    | some q =>
      refine ⟨q, rfl, not_lt.1 fun hlt => hnot ⟨hsome, ?_⟩⟩
      simpa [better] using hlt

theorem pick_cases {best : Option (FileName × SnapshotMeta)} {p q : FileName × SnapshotMeta}
    (h : pick dir best p = some q) : (q = p ∧ dir.inode p.1 ≠ none) ∨ best = some q := by
  unfold pick at h
  split at h
  · rename_i hpick
    cases h
    exact .inl ⟨rfl, isSome_iff_ne_none.1 hpick.1⟩
  · exact .inr h

/-- The current snapshot is the furthest that is whole. -/
theorem currentSnapshotFiles_spec (dir : Dir D) : (∀ q, currentSnapshotFiles dir = some q →
      ∃ n, described dir n = some q ∧ dir.inode q.1 ≠ none) ∧
    ∀ n p, described dir n = some p → dir.inode p.1 ≠ none →
      ∃ q, currentSnapshotFiles dir = some q ∧ rank p.2.lastLogId ≤ rank q.2.lastLogId := by
  have hfold : ∀ ps : List (FileName × SnapshotMeta),
      (∀ q, ps.foldl (pick dir) none = some q → q ∈ ps ∧ dir.inode q.1 ≠ none) ∧
      ∀ p ∈ ps, dir.inode p.1 ≠ none →
        ∃ q, ps.foldl (pick dir) none = some q ∧ rank p.2.lastLogId ≤ rank q.2.lastLogId := by
    intro ps
    -- On what comes last, which is compared with the best before it.
    induction ps using reverseRecOn with
    | nil => simp
    | append_singleton ps p₀ ih =>
      rw [foldl_append, foldl_cons, foldl_nil]
      refine ⟨fun q hq => ?_, fun p hp hdata => ?_⟩
      · rcases pick_cases hq with ⟨rfl, hdata⟩ | hbest
        · exact ⟨by simp, hdata⟩
        · exact ⟨mem_append_left _ (ih.1 q hbest).1, (ih.1 q hbest).2⟩
      · rcases mem_append.1 hp with hp | hp
        · obtain ⟨q, hq, hle⟩ := ih.2 p hp hdata
          obtain ⟨q', hq', hle'⟩ := pick_le dir q p₀
          rw [hq]
          exact ⟨q', hq', hle.trans hle'⟩
        · cases mem_singleton.1 hp
          exact pick_takes _ hdata
  have hcurrent : currentSnapshotFiles dir = (dir.list.filterMap (described dir)).foldl (pick dir) none := by
    rw [foldl_filterMap]
    refine congrArg (dir.list.foldl · none) (funext fun best => funext fun n => ?_)
    unfold consider
    cases described dir n <;> rfl
  obtain ⟨hfrom, hall⟩ := hfold (dir.list.filterMap (described dir))
  rw [hcurrent]
  refine ⟨fun q hq => ?_, fun n p hp hdata => hall p ?_ hdata⟩
  · obtain ⟨n, -, hn⟩ := mem_filterMap.1 (hfrom q hq).1
    exact ⟨n, hn, (hfrom q hq).2⟩
  · exact mem_filterMap.2 ⟨n, mem_list.2 (inode_of_read (described_some hp).2.1), hp⟩

@[simp] def Stage.snap : Stage D → Option (Snapshot D)
  | .start | .create | .fill _ | .failed _ => none
  | .move k | .describe k | .write k _ | .publish k | .list k | .clean k _ | .look k | .looking k _ _ _
  | .openData k _ | .discard k _ | .discardCheck k _ | .discardData k _ | .discardTmp k _
  | .returned k _ => some k

def State.kept (s : State D) : Who → Option (Snapshot D)
  | .build => (s.stage .build).snap
  | .install => some s.received

@[simp] def filesOf (tmp : FileName) : Option (Snapshot D) → List FileName
  | none => [tmp]
  | some k => [tmp, dataFile k.description.snapshotId, metaFile k.description.snapshotId,
      metaTmp k.description.snapshotId]

def State.files (s : State D) (w : Who) : List FileName := filesOf (s.tmp w) (s.kept w)

structure Whole (dir : Dir D) (k : Snapshot D) : Prop where
  data : dir.read (dataFile k.description.snapshotId) = some (.data k.tables)
  description : dir.read (metaFile k.description.snapshotId) = some (.description k.description)

/-- What is there of a call's files; once it has returned, all of them unless they were superseded. -/
def StageOk (dir : Dir D) (tmp : FileName) (superseded : Prop) : Stage D → Prop
  | .start | .create => dir.inode tmp = none
  | .fill handle => dir.inode tmp = some handle
  | .move k => dir.read tmp = some (.data k.tables)
  | .describe k => dir.read (dataFile k.description.snapshotId) = some (.data k.tables)
  | .write k handle => dir.read (dataFile k.description.snapshotId) = some (.data k.tables) ∧
      dir.inode (metaTmp k.description.snapshotId) = some handle
  | .publish k => dir.read (dataFile k.description.snapshotId) = some (.data k.tables) ∧
      dir.read (metaTmp k.description.snapshotId) = some (.description k.description)
  | .list k | .clean k _ | .look k | .looking k _ _ _ | .openData k _ => Whole dir k
  | .returned k _ => (Whole dir k ∨ superseded) ∧
      ∀ c, dir.read (metaFile k.description.snapshotId) = some c → c = .description k.description
  | .discard _ _ | .discardCheck _ _ | .discardData _ _ | .discardTmp _ _ | .failed _ => False

variable {dir dir' : Dir D} {tmp : FileName} {superseded superseded' : Prop} {st : Stage D} {s s' : State D}

theorem StageOk.frame (h : StageOk dir tmp superseded st)
    (hsame : ∀ n ∈ filesOf tmp st.snap, Same dir dir' n) (hsuper : superseded → superseded') :
    StageOk dir' tmp superseded' st := by
  have hwhole : ∀ {k : Snapshot D}, Whole dir k →
      (∀ n ∈ filesOf tmp (some k), Same dir dir' n) → Whole dir' k := by
    intro k hk hsame
    exact ⟨(hsame _ (by simp)).read.trans hk.data, (hsame _ (by simp)).read.trans hk.description⟩
  cases st with
  | start | create | fill handle => exact (hsame tmp (by simp)).inode.trans h
  | move k => exact (hsame tmp (by simp)).read.trans h
  | describe k => exact (hsame _ (by simp)).read.trans h
  | write k handle =>
    exact ⟨(hsame _ (by simp)).read.trans h.1, (hsame _ (by simp)).inode.trans h.2⟩
  | publish k =>
    exact ⟨(hsame _ (by simp)).read.trans h.1, (hsame _ (by simp)).read.trans h.2⟩
  | list k | clean k left | look k | looking k left best found | openData k best => exact hwhole h hsame
  | returned k current =>
    obtain ⟨hk, hmeta⟩ := h
    refine ⟨?_, fun c hc => hmeta c ((hsame _ (by simp)).read.symm.trans hc)⟩
    rcases hk with hk | hk
    · exact .inl (hwhole hk hsame)
    · exact .inr (hsuper hk)
  | discard k e | discardCheck k e | discardData k e | discardTmp k e | failed e => exact h

variable (id id' : String)

theorem dataFile_ne_metaFile : dataFile id ≠ metaFile id' :=
  fun h => absurd (congrArg (fun n => (ofLex n).2) h) (show "data" ≠ "meta" by decide)

theorem dataFile_ne_metaTmp : dataFile id ≠ metaTmp id' :=
  fun h => absurd (congrArg (fun n => (ofLex n).2) h) (show "data" ≠ "tmp" by decide)

theorem metaFile_ne_metaTmp : metaFile id ≠ metaTmp id' :=
  fun h => absurd (congrArg (fun n => (ofLex n).2) h) (show "meta" ≠ "tmp" by decide)

theorem metaTmp_inj {id id' : String} (h : metaTmp id = metaTmp id') : id = id' := by
  have hstem : id ++ ".meta" = id' ++ ".meta" := congrArg (fun n => (ofLex n).1) h
  have hlist : id.toList ++ ".meta".toList = id'.toList ++ ".meta".toList := by
    rw [← String.toList_append, ← String.toList_append, hstem]
  exact String.toList_inj.1 (append_cancel_right hlist)

theorem tmp_ne {tmp : FileName} (h : (ofLex tmp).2 = "snap") (id : String) :
    tmp ≠ dataFile id ∧ tmp ≠ metaFile id ∧ tmp ≠ metaTmp id := by
  refine ⟨?_, ?_, ?_⟩
  · rintro rfl
    exact absurd (show "data" = "snap" from h) (by decide)
  · rintro rfl
    exact absurd (show "meta" = "snap" from h) (by decide)
  · rintro rfl
    exact absurd (show "tmp" = "snap" from h) (by decide)

def Stage.looks : Stage D → Bool
  | .look _ | .looking _ _ _ _ | .openData _ _ => true
  | _ => false

/-- It goes on to a stage of which the same holds, and changes no name but its own. -/
structure Moved (s : State D) (w : Who) (st : Stage D) (dir : Dir D) : Prop where
  ok : ∀ superseded, StageOk dir (s.tmp w) superseded st
  same : ∀ n ∉ filesOf (s.tmp w) st.snap, Same s.dir dir n
  keeps : ∀ id, s.dir.inode (dataFile id) ≠ none → dir.inode (dataFile id) ≠ none
  looks : st.looks = true → (s.stage w).looks = true

/-- A call that finds its files goes on. -/
theorem go_moved (hext : (ofLex (s.tmp w)).2 = "snap") (hok : StageOk s.dir (s.tmp w) superseded (s.stage w))
    (hopen : ∀ k best, s.stage w = .openData k best → ∃ p, best = some p ∧ s.dir.inode p.1 ≠ none)
    (h : s.go w = some r) : Moved s w r.1 r.2.1 := by
  unfold State.go at h
  generalize hst : s.stage w = st at h hok
  cases st with
  | start | list k =>
    cases h
    exact ⟨fun _ => hok, fun _ _ => ⟨rfl, rfl⟩, fun _ => id, nofun⟩
  | create =>
    have hnone : s.dir.inode (s.tmp w) = none := hok
    have hnew : s.dir.createNew (s.tmp w) .empty = some (s.dir.add (s.tmp w) .empty) := by
      rw [createNew, hnone]
      rfl
    dsimp only at h
    rw [hnew] at h
    cases h
    have hsame : ∀ n, n ≠ s.tmp w → Same s.dir (s.dir.add (s.tmp w) .empty).1 n := fun n hn => same_add hn
    refine ⟨fun _ => inode_add_self, fun n hn => hsame n fun heq => hn ?_,
      fun id => (hsame _ (tmp_ne hext id).1.symm).keep, nofun⟩
    rw [heq]
    exact mem_singleton_self _
  | fill handle =>
    have hhandle : s.dir.inode (s.tmp w) = some handle := hok
    cases h
    refine ⟨fun _ => read_write_self hhandle, fun n hn => same_write fun heq => hn ?_, fun _ => id, nofun⟩
    rw [s.dir.injective n (s.tmp w) handle heq hhandle]
    exact mem_cons_self
  | move k =>
    obtain ⟨dir', hrename, hread, hothers⟩ := rename_spec hok
    dsimp only at h
    rw [hrename] at h
    cases h
    refine ⟨fun _ => hread, fun n hn => hothers n (fun heq => hn ?_) fun heq => hn ?_, fun id hid => ?_,
      nofun⟩
    · simp [heq]
    · simp [heq]
    · by_cases heq : dataFile id = dataFile k.description.snapshotId
      · rw [heq]
        exact inode_of_read hread
      · exact (hothers _ (tmp_ne hext id).1.symm heq).keep hid
  | describe k =>
    cases h
    have hsame : ∀ n, n ≠ metaTmp k.description.snapshotId →
        Same s.dir (s.dir.create (metaTmp k.description.snapshotId) .empty).1 n := fun n hn => same_create hn
    refine ⟨fun _ => ⟨?_, inode_create_self⟩, fun n hn => hsame n fun heq => hn ?_,
      fun id => (hsame _ (dataFile_ne_metaTmp _ _)).keep, nofun⟩
    · exact (hsame _ (dataFile_ne_metaTmp _ _)).read.trans hok
    · simp [heq]
  | write k handle =>
    obtain ⟨hdata, hhandle⟩ := hok
    cases h
    refine ⟨fun _ => ⟨?_, read_write_self hhandle⟩, fun n hn => same_write fun heq => hn ?_, fun _ => id,
      nofun⟩
    · refine (same_write fun heq => ?_).read.trans hdata
      exact dataFile_ne_metaTmp _ _ (s.dir.injective _ _ handle heq hhandle)
    · rw [s.dir.injective n _ handle heq hhandle]
      simp
  | publish k =>
    obtain ⟨hdata, hmeta⟩ := hok
    obtain ⟨dir', hrename, hread, hothers⟩ := rename_spec hmeta
    dsimp only at h
    rw [hrename] at h
    cases h
    have hkeep : ∀ id, Same s.dir dir' (dataFile id) := fun id =>
      hothers _ (dataFile_ne_metaTmp _ _) (dataFile_ne_metaFile _ _)
    refine ⟨fun _ => ⟨(hkeep _).read.trans hdata, hread⟩,
      fun n hn => hothers n (fun heq => hn ?_) fun heq => hn ?_, fun id => (hkeep id).keep, nofun⟩
    · simp [heq]
    · simp [heq]
  | look k =>
    cases h
    exact ⟨fun _ => hok, fun _ _ => ⟨rfl, rfl⟩, fun _ => id, fun _ => by rw [hst]; rfl⟩
  | looking k left best found =>
    cases found with
    | none => cases h
    | some p =>
      cases h
      exact ⟨fun _ => hok, fun _ _ => ⟨rfl, rfl⟩, fun _ => id, fun _ => by rw [hst]; rfl⟩
  | openData k best =>
    obtain ⟨p, rfl, hp⟩ := hopen k best hst
    have hwhole : Whole s.dir k := hok
    dsimp only at h
    rw [if_pos (isSome_iff_ne_none.2 hp)] at h
    cases h
    refine ⟨fun _ => ⟨.inl hwhole, fun c hc => ?_⟩, fun _ _ => ⟨rfl, rfl⟩, fun _ => id, nofun⟩
    rw [hwhole.description] at hc
    exact (some.inj hc).symm
  | clean k left | returned k current =>
    cases h
  | discard k e | discardCheck k e | discardData k e | discardTmp k e | failed e =>
    exact hok.elim

theorem go_snap (h : s.go w = some r) : r.1.snap = (s.stage w).snap ∨ (∃ e, r.1 = .failed e) ∨
      (∃ handle, s.stage w = .fill handle ∧ r.1.snap = some (s.taken w)) := by
  unfold State.go at h
  generalize s.stage w = st at h ⊢
  cases st with
  | fill handle =>
    cases h
    exact .inr (.inr ⟨_, rfl, rfl⟩)
  | create | move k | publish k | discardCheck k e =>
    dsimp only at h
    split at h <;> cases h <;> first | exact .inl rfl | exact .inr (.inl ⟨_, rfl⟩)
  | looking k left best found =>
    cases found with
    | none => cases h
    | some p =>
      cases h
      exact .inl rfl
  | openData k best =>
    cases best with
    | none =>
      cases h
      exact .inr (.inl ⟨_, rfl⟩)
    | some p =>
      dsimp only at h
      split at h <;> cases h
      · exact .inl rfl
      · exact .inr (.inl ⟨_, rfl⟩)
  | discardTmp k e =>
    cases h
    exact .inr (.inl ⟨_, rfl⟩)
  | clean k left | failed e | returned k current =>
    cases h
  | _ =>
    cases h
    exact .inl rfl

/-! ## Both calls -/

/-- The other call's snapshot is further on. -/
def Superseded (s : State D) (w : Who) : Prop :=
  ∃ k k', s.kept w = some k ∧ s.kept w.other = some k' ∧
    rank k.description.lastLogId < rank k'.description.lastLogId

def Cleaned (s : State D) : Stage D → Prop
  | .clean _ left => ∀ n, s.dir.inode n ≠ none → n ∈ s.files .build ∨ n ∈ s.files .install ∨ n ∈ left
  | .look _ | .looking _ _ _ _ | .openData _ _ | .returned _ _ =>
    ∀ n, s.dir.inode n ≠ none → n ∈ s.files .build ∨ n ∈ s.files .install
  | _ => True

def Known (s : State D) (k : Snapshot D) (p : FileName × SnapshotMeta) : Prop :=
  p.1 = dataFile k.description.snapshotId ∨ p.1 = dataFile s.received.description.snapshotId

def Looked (s : State D) : Stage D → Prop
  | .looking k left best found =>
    (metaFile k.description.snapshotId ∈ left ∨
      found = some (dataFile k.description.snapshotId, k.description) ∨ best ≠ none) ∧
    (∀ p, best = some p → Known s k p ∧ s.dir.inode p.1 ≠ none) ∧ ∀ p, found = some p → Known s k p
  | .openData k best => ∃ p, best = some p ∧ Known s k p ∧ s.dir.inode p.1 ≠ none
  | _ => True

structure Inv (s : State D) : Prop where
  ext : ∀ w, (ofLex (s.tmp w)).2 = "snap"
  tmps : s.tmp .build ≠ s.tmp .install
  own : ∀ k, (s.stage .install).snap = some k → k = s.received
  ids : ∀ k, (s.stage .build).snap = some k → k.description.snapshotId ≠ s.received.description.snapshotId
  ok : ∀ w, StageOk s.dir (s.tmp w) (Superseded s w) (s.stage w)
  plain : (s.stage .install).looks = false
  cleaned : Cleaned s (s.stage .build)
  looked : Looked s (s.stage .build)

theorem not_mem_filesOf : n ∉ filesOf tmp (some k) ↔ n ≠ tmp ∧
    n ≠ dataFile k.description.snapshotId ∧ n ≠ metaFile k.description.snapshotId ∧
    n ≠ metaTmp k.description.snapshotId := by
  simp

theorem filesOf_disjoint {tmp tmp' : FileName} {k? : Option (Snapshot D)} {k' : Snapshot D}
    (hext : (ofLex tmp).2 = "snap") (hext' : (ofLex tmp').2 = "snap") (htmps : tmp ≠ tmp')
    (hids : ∀ k, k? = some k → k.description.snapshotId ≠ k'.description.snapshotId)
    (hn : n ∈ filesOf tmp k?) : n ∉ filesOf tmp' (some k') := by
  have htmp : tmp ∉ filesOf tmp' (some k') :=
    not_mem_filesOf.2 ⟨htmps, tmp_ne hext k'.description.snapshotId⟩
  cases k? with
  | none =>
    rw [mem_singleton.1 hn]
    exact htmp
  | some k =>
    have hid := hids k rfl
    obtain ⟨hdata, hmeta, hmetaTmp⟩ := tmp_ne hext' k.description.snapshotId
    simp only [filesOf, mem_cons, not_mem_nil, or_false] at hn
    rcases hn with rfl | rfl | rfl | rfl
    · exact htmp
    · exact not_mem_filesOf.2 ⟨hdata.symm, fun heq => hid (congrArg (fun n => (ofLex n).1) heq),
        dataFile_ne_metaFile _ _, dataFile_ne_metaTmp _ _⟩
    · exact not_mem_filesOf.2 ⟨hmeta.symm, (dataFile_ne_metaFile _ _).symm,
        fun heq => hid (congrArg (fun n => (ofLex n).1) heq), metaFile_ne_metaTmp _ _⟩
    · exact not_mem_filesOf.2 ⟨hmetaTmp.symm, (dataFile_ne_metaTmp _ _).symm,
        (metaFile_ne_metaTmp _ _).symm, fun heq => hid (metaTmp_inj heq)⟩

theorem metaFile_of_mem {tmp : FileName} (hext : (ofLex tmp).2 = "snap")
    (hn : n ∈ filesOf tmp (some k)) (h : (ofLex n).2 = "meta") : n = metaFile k.description.snapshotId := by
  simp only [filesOf, mem_cons, not_mem_nil, or_false] at hn
  rcases hn with rfl | rfl | rfl | rfl
  · exact absurd (hext.symm.trans h) (by decide)
  · exact absurd (show "data" = "meta" from h) (by decide)
  · rfl
  · exact absurd (show "tmp" = "meta" from h) (by decide)

theorem Inv.disjoint (hi : Inv s) (hn : n ∈ s.files .build) : n ∉ s.files .install :=
  filesOf_disjoint (hi.ext .build) (hi.ext .install) hi.tmps hi.ids hn

def MayRead (s : State D) : Stage D → Prop
  | .fill _ => snapshotId s.machine.lastApplied ≠ s.received.description.snapshotId
  | _ => True

def Outdone (k : Snapshot D) : Stage D → Prop
  | .returned k' _ => rank k'.description.lastLogId < rank k.description.lastLogId
  | _ => False

def MayMeet (s : State D) (w : Who) (n : FileName) : Stage D → Prop
  | .clean k _ => n ∈ s.files w.other → Outdone k (s.stage w.other)
  | _ => True

def Careful (s : State D) : Event D → Prop
  | .go .build => MayRead s (s.stage .build)
  | .visit w n => MayMeet s w n (s.stage w)
  | .go .install | .finish _ | .apply _ => True

instance (s : State D) (st : Stage D) : Decidable (MayRead s st) := by
  cases st <;> dsimp only [MayRead] <;> infer_instance

instance (k : Snapshot D) (st : Stage D) : Decidable (Outdone k st) := by
  cases st <;> dsimp only [Outdone] <;> infer_instance

instance (s : State D) (w : Who) (n : FileName) (st : Stage D) : Decidable (MayMeet s w n st) := by
  cases st <;> dsimp only [MayMeet] <;> infer_instance

instance (s : State D) (e : Event D) : Decidable (Careful s e) :=
  match e with
  | .go .build => inferInstanceAs (Decidable (MayRead s (s.stage .build)))
  | .visit w n => inferInstanceAs (Decidable (MayMeet s w n (s.stage w)))
  | .go .install => .isTrue trivial
  | .finish _ => .isTrue trivial
  | .apply _ => .isTrue trivial

theorem Outdone.returned (h : Outdone k st) : ∃ k' current, st = .returned k' current ∧
    rank k'.description.lastLogId < rank k.description.lastLogId := by
  cases st with
  | returned k' current => exact ⟨k', current, rfl, h⟩
  | _ => exact h.elim

theorem at_stage_self : (s.at w st dir m).stage w = st := by
  rw [State.at]
  exact Function.update_self w st s.stage

theorem at_stage_of_ne {w' : Who} (h : w' ≠ w) : (s.at w st dir m).stage w' = s.stage w' := by
  rw [State.at]
  exact Function.update_of_ne h st s.stage

theorem files_of_snap (hown : ∀ k, st.snap = some k → k = s.received)
    (hn : n ∈ filesOf (s.tmp .install) st.snap) : n ∈ s.files .install := by
  cases hk : st.snap with
  | none =>
    rw [hk] at hn
    rw [mem_singleton.1 hn]
    exact mem_cons_self
  | some k =>
    rw [hk, hown k hk] at hn
    exact hn

theorem Inv.install_at (hi : Inv s) (hown : ∀ k, st.snap = some k → k = s.received)
    (hplain : st.looks = false) (hbuildOk : StageOk dir (s.tmp .build) (Superseded s .build) (s.stage .build))
    (hinstallOk : StageOk dir (s.tmp .install) (Superseded s .install) st)
    (hold : ∀ n, dir.inode n ≠ none → n ∈ s.files .install ∨ s.dir.inode n ≠ none)
    (hknown : ∀ k p, (s.stage .build).looks = true → (s.stage .build).snap = some k → Known s k p →
      s.dir.inode p.1 ≠ none → dir.inode p.1 ≠ none) : Inv (s.at .install st dir m) := by
  have hbuild : (s.at .install st dir m).stage .build = s.stage .build :=
    at_stage_of_ne (by decide)
  have hinstall : (s.at .install st dir m).stage .install = st := at_stage_self
  have hkept : (s.at .install st dir m).kept = s.kept := by
    funext w
    cases w with
    | build => exact congrArg Stage.snap hbuild
    | install => rfl
  have hfiles : (s.at .install st dir m).files = s.files := by
    funext w
    exact congrArg (filesOf (s.tmp w)) (congrFun hkept w)
  have hsuper : ∀ w, Superseded (s.at .install st dir m) w = Superseded s w := by
    intro w
    rw [Superseded, hkept]
    rfl
  refine ⟨hi.ext, hi.tmps, fun k hk => ?_, fun k hk => ?_, fun w => ?_, ?_, ?_, ?_⟩
  · exact hown k (hinstall ▸ hk)
  · exact hi.ids k (hbuild ▸ hk)
  · rw [hsuper]
    cases w with
    | build =>
      rw [hbuild]
      exact hbuildOk
    | install =>
      rw [hinstall]
      exact hinstallOk
  · rw [hinstall]
    exact hplain
  · rw [hbuild]
    have hcleaned := hi.cleaned
    revert hcleaned
    cases s.stage .build with
    | clean k left =>
      intro hcleaned n hn
      rw [hfiles]
      rcases hold n hn with hmem | hn
      · exact .inr (.inl hmem)
      · exact hcleaned n hn
    | look k | looking k left best found | openData k best | returned k current =>
      intro hcleaned n hn
      rw [hfiles]
      exact (hold n hn).elim .inr (hcleaned n)
    | _ => exact fun _ => trivial
  · rw [hbuild]
    have hlooked := hi.looked
    revert hlooked hknown
    cases s.stage .build with
    | looking k left best found =>
      rintro hknown ⟨hown, hbest, hfound⟩
      exact ⟨hown, fun p hp => ⟨(hbest p hp).1, hknown k p rfl rfl (hbest p hp).1 (hbest p hp).2⟩, hfound⟩
    | openData k best =>
      rintro hknown ⟨p, hp, hpk, hinode⟩
      exact ⟨p, hp, hpk, hknown k p rfl rfl hpk hinode⟩
    | _ => exact fun _ _ => trivial

theorem data_mem_files (hk : (s.stage .build).snap = some k) :
    dataFile k.description.snapshotId ∈ s.files .build := by
  rw [State.files, State.kept, hk]
  simp

theorem Inv.install_go (hi : Inv s) (h : s.go .install = some r) : Inv (s.at .install r.1 r.2.1 r.2.2) := by
  have hopen : ∀ k best, s.stage .install = .openData k best →
      ∃ p, best = some p ∧ s.dir.inode p.1 ≠ none := by
    intro k best hst
    have hplain := hi.plain
    rw [hst] at hplain
    cases hplain
  have hmoved := go_moved (hi.ext .install) (hi.ok .install) hopen h
  have hown : ∀ k, r.1.snap = some k → k = s.received := by
    intro k hk
    rcases go_snap h with hsame | ⟨e, he⟩ | ⟨handle, -, hnew⟩
    · exact hi.own k (hsame ▸ hk)
    · rw [he] at hk
      cases hk
    · rw [hnew] at hk
      exact (some.inj hk).symm
  have hsame : ∀ n ∉ s.files .install, Same s.dir r.2.1 n :=
    fun n hn => hmoved.same n fun hmem => hn (files_of_snap hown hmem)
  refine hi.install_at hown ?_ ((hi.ok .build).frame (fun n hn => hsame n (hi.disjoint hn)) id)
    (hmoved.ok _) (fun n hn => ?_) fun k p _ hk hp hinode => ?_
  · cases hlooks : r.1.looks with
    | false => rfl
    | true => exact (hi.plain.symm.trans (hmoved.looks hlooks)).symm
  · by_cases hmem : n ∈ s.files .install
    · exact .inl hmem
    · rw [← (hsame n hmem).inode]
      exact .inr hn
  · rcases hp with hp | hp
    · rw [hp] at hinode ⊢
      exact (hsame _ (hi.disjoint (data_mem_files hk))).keep hinode
    · rw [hp] at hinode ⊢
      exact hmoved.keeps _ hinode

theorem StageOk.remove {left : List FileName}
    {superseded' : Prop} (hok : StageOk s.dir (s.tmp w.other) superseded (s.stage w.other))
    (hst : s.stage w = .clean k left) (hcareful : Careful s (.visit w n))
    (hfiles : ∀ m ∈ filesOf (s.tmp w.other) (s.stage w.other).snap, m ∈ s.files w.other)
    (hsuper : superseded → superseded') (hfurther : ∀ k' current, s.stage w.other = .returned k' current →
      rank k'.description.lastLogId < rank k.description.lastLogId → superseded') :
    StageOk (s.dir.remove n) (s.tmp w.other) superseded' (s.stage w.other) := by
  by_cases hmem : n ∈ s.files w.other
  · have hmet : MayMeet s w n (s.stage w) := hcareful
    rw [hst] at hmet
    obtain ⟨k', current, hother, hlt⟩ := (hmet hmem).returned
    have hdone := hfurther k' current hother hlt
    rw [hother] at hok ⊢
    refine ⟨.inr hdone, fun c hc => hok.2 c ?_⟩
    by_cases hn : metaFile k'.description.snapshotId = n
    · rw [hn, Directory.read, inode_remove_self] at hc
      cases hc
    · rw [← (same_remove hn).read]
      exact hc
  · refine hok.frame (fun m hm => same_remove ?_) hsuper
    rintro rfl
    exact hmem (hfiles m hm)

theorem Inv.install_clean {left : List FileName} (hi : Inv s)
    (hst : s.stage .install = .clean k left) (hcareful : Careful s (.visit .install n))
    (hn : n ≠ dataFile k.description.snapshotId ∧ n ≠ metaFile k.description.snapshotId) :
    Inv (s.at .install (.clean k (left.filter (· ≠ n))) (s.dir.remove n) s.machine) := by
  have hk : k = s.received := hi.own k (by rw [hst]; rfl)
  have hwhole : Whole s.dir k := by
    have hok := hi.ok .install
    rw [hst] at hok
    exact hok
  refine hi.install_at (fun k' hk' => ?_) rfl ?_ ?_ (fun n' hn' => ?_) fun k' p hlooks hk' hp hinode => ?_
  · cases hk'
    exact hk
  · refine StageOk.remove (w := .install) (hi.ok .build) hst hcareful (fun m hm => hm) id fun k' current hst' hlt => ?_
    exact ⟨k', s.received, congrArg Stage.snap hst', rfl, hk ▸ hlt⟩
  · exact ⟨(same_remove hn.1.symm).read.trans hwhole.data,
      (same_remove hn.2.symm).read.trans hwhole.description⟩
  · by_cases heq : n' = n
    · rw [heq, inode_remove_self] at hn'
      exact absurd rfl hn'
    · rw [← (same_remove heq).inode]
      exact .inr hn'
  · -- The build has not returned, so the clean-up meets none of its files.
    have hmet : n ∉ s.files .build := by
      intro hmem
      have hmet : MayMeet s .install n (s.stage .install) := hcareful
      rw [hst] at hmet
      obtain ⟨k'', current, hother, -⟩ := (hmet hmem).returned
      rw [show s.stage .build = .returned k'' current from hother] at hlooks
      cases hlooks
    rcases hp with hp | hp
    · rw [hp] at hinode ⊢
      refine (same_remove fun heq => hmet ?_).keep hinode
      rw [← heq]
      exact data_mem_files hk'
    · rw [hp] at hinode ⊢
      exact (same_remove (hk ▸ hn.1.symm)).keep hinode

/-! ### The build goes on -/

theorem Inv.build_at (hi : Inv s)
    (hids : ∀ k, st.snap = some k → k.description.snapshotId ≠ s.received.description.snapshotId)
    (hbuildOk : StageOk dir (s.tmp .build) False st)
    (hinstallOk : StageOk dir (s.tmp .install) (Superseded (s.at .build st dir m) .install) (s.stage .install))
    (hcleaned : Cleaned (s.at .build st dir m) st) (hlooked : Looked (s.at .build st dir m) st) :
    Inv (s.at .build st dir m) := by
  have hbuild : (s.at .build st dir m).stage .build = st := at_stage_self
  have hinstall : (s.at .build st dir m).stage .install = s.stage .install :=
    at_stage_of_ne (by decide)
  refine ⟨hi.ext, hi.tmps, fun k hk => hi.own k (hinstall ▸ hk), fun k hk => hids k (hbuild ▸ hk),
    fun w => ?_, ?_, ?_, ?_⟩
  · cases w with
    | build =>
      rw [hbuild]
      exact hbuildOk.frame (fun n _ => ⟨rfl, rfl⟩) False.elim
    | install =>
      rw [hinstall]
      exact hinstallOk
  · rw [hinstall]
    exact hi.plain
  · rw [hbuild]
    exact hcleaned
  · rw [hbuild]
    exact hlooked

theorem kept_build_at : (s.at .build st dir m).kept .build = st.snap := by
  show ((s.at .build st dir m).stage .build).snap = st.snap
  rw [at_stage_self]

theorem Superseded.build_at (h : Superseded s .install)
    (hsnap : ∀ k, (s.stage .build).snap = some k → st.snap = some k) :
    Superseded (s.at .build st dir m) .install := by
  obtain ⟨k, k', hk, hk', hlt⟩ := h
  exact ⟨k, k', hk, kept_build_at.trans (hsnap k' hk'), hlt⟩

theorem build_files : (s.at .build st dir m).files .build = filesOf (s.tmp .build) st.snap ∧
      (s.at .build st dir m).files .install = s.files .install := by
  refine ⟨?_, rfl⟩
  rw [State.files, kept_build_at]
  rfl

theorem Inv.build_same (hi : Inv s) (hsnap : st.snap = (s.stage .build).snap)
    (hbuildOk : StageOk s.dir (s.tmp .build) False st)
    (hcleaned : Cleaned (s.at .build st s.dir m) st) (hlooked : Looked (s.at .build st s.dir m) st) :
    Inv (s.at .build st s.dir m) := by
  refine hi.build_at (fun k hk => hi.ids k (hsnap ▸ hk)) hbuildOk ?_ hcleaned hlooked
  exact (hi.ok .install).frame (fun n _ => ⟨rfl, rfl⟩) fun h => h.build_at fun k hk => hsnap.trans hk

def Stage.early : Stage D → Bool
  | .list _ | .clean _ _ | .look _ | .looking _ _ _ _ | .openData _ _ | .returned _ _ => false
  | _ => true

theorem go_early (hearly : (s.stage w).early = true)
    (h : s.go w = some r) : Cleaned s' r.1 ∧ Looked s' r.1 := by
  unfold State.go at h
  generalize s.stage w = st at h hearly
  cases st with
  | start | fill handle | describe k | write k handle | discard k e | discardData k e
  | discardTmp k e =>
    cases h
    exact ⟨trivial, trivial⟩
  | create | move k | publish k | discardCheck k e =>
    dsimp only at h
    split at h <;> cases h <;> exact ⟨trivial, trivial⟩
  | failed e =>
    cases h
  | list k | clean k left | look k | looking k left best found | openData k best
  | returned k current =>
    cases hearly

theorem Inv.left_of_same (hsnap : st.snap = (s.stage .build).snap)
    (h : ∀ n, s.dir.inode n ≠ none → n ∈ s.files .build ∨ n ∈ s.files .install) :
    ∀ n, (s.at .build st s.dir m).dir.inode n ≠ none →
      n ∈ (s.at .build st s.dir m).files .build ∨ n ∈ (s.at .build st s.dir m).files .install := by
  intro n hn
  rw [build_files.1, build_files.2, hsnap]
  exact h n hn

theorem Inv.go_late (hi : Inv s) (hearly : (s.stage .build).early = false) (h : s.go .build = some r) :
    Cleaned (s.at .build r.1 r.2.1 r.2.2) r.1 ∧ Looked (s.at .build r.1 r.2.1 r.2.2) r.1 := by
  have hok := hi.ok .build
  have hcleaned := hi.cleaned
  have hlooked := hi.looked
  unfold State.go at h
  cases hst : s.stage .build with
  | list k =>
    rw [hst] at h
    cases h
    exact ⟨fun n hn => .inr (.inr (mem_list.2 hn)), trivial⟩
  | look k =>
    rw [hst] at h hok hcleaned
    cases h
    have hwhole : Whole s.dir k := hok
    refine ⟨Inv.left_of_same (by rw [hst]; rfl) hcleaned, ?_⟩
    refine ⟨.inl (mem_list.2 (inode_of_read hwhole.description)), fun p hp => ?_, fun p hp => ?_⟩
    · cases hp
    · cases hp
  | looking k left best found =>
    rw [hst] at h hok hcleaned hlooked
    have hwhole : Whole s.dir k := hok
    obtain ⟨hown, hbest, hfound⟩ := hlooked
    cases found with
    | none => cases h
    | some p =>
      cases h
      refine ⟨Inv.left_of_same (by rw [hst]; rfl) hcleaned, ?_, fun q hq => ?_, nofun⟩
      · rcases hown with hleft | hp | hbest
        · exact .inl hleft
        · cases hp
          obtain ⟨q, hq, -⟩ := pick_takes (p := (dataFile k.description.snapshotId, k.description)) best
            (inode_of_read hwhole.data)
          exact .inr (.inr (by rw [hq]; exact some_ne_none q))
        · obtain ⟨q, hq⟩ := ne_none_iff_exists'.1 hbest
          obtain ⟨q', hq', -⟩ := pick_le s.dir q p
          exact .inr (.inr (by rw [hq, hq']; exact some_ne_none q'))
      · rcases pick_cases hq with ⟨rfl, hinode⟩ | hq
        · exact ⟨hfound _ rfl, hinode⟩
        · exact hbest q hq
  | openData k best =>
    rw [hst] at h hcleaned hlooked
    obtain ⟨p, rfl, -, hinode⟩ := hlooked
    dsimp only at h
    rw [if_pos (isSome_iff_ne_none.2 hinode)] at h
    cases h
    exact ⟨Inv.left_of_same (by rw [hst]; rfl) hcleaned, trivial⟩
  | clean k left | returned k current =>
    rw [hst] at h
    cases h
  | _ =>
    rw [hst] at hearly
    cases hearly

theorem Inv.build_go (hi : Inv s) (hcareful : Careful s (.go .build))
    (h : s.go .build = some r) : Inv (s.at .build r.1 r.2.1 r.2.2) := by
  have hopen : ∀ k best, s.stage .build = .openData k best → ∃ p, best = some p ∧ s.dir.inode p.1 ≠ none := by
    intro k best hst
    have hlooked := hi.looked
    rw [hst] at hlooked
    obtain ⟨p, hp, -, hinode⟩ := hlooked
    exact ⟨p, hp, hinode⟩
  have hmoved := go_moved (hi.ext .build) (hi.ok .build) hopen h
  have hsnap : ∀ k, (s.stage .build).snap = some k → r.1.snap = some k := by
    intro k hk
    rcases go_snap h with hsame | ⟨e, he⟩ | ⟨handle, hst, -⟩
    · rw [hsame]
      exact hk
    · have hfail := hmoved.ok False
      rw [he] at hfail
      exact hfail.elim
    · rw [hst] at hk
      cases hk
  have hids : ∀ k, r.1.snap = some k → k.description.snapshotId ≠ s.received.description.snapshotId := by
    intro k hk
    rcases go_snap h with hsame | ⟨e, he⟩ | ⟨handle, hst, hnew⟩
    · exact hi.ids k (hsame ▸ hk)
    · rw [he] at hk
      cases hk
    · rw [hnew] at hk
      cases hk
      have hread : MayRead s (s.stage .build) := hcareful
      rw [hst] at hread
      exact hread
  have hinstallOk : StageOk r.2.1 (s.tmp .install) (Superseded (s.at .build r.1 r.2.1 r.2.2) .install)
      (s.stage .install) := by
    refine (hi.ok .install).frame (fun n hn => hmoved.same n fun hmem => ?_) fun hs => hs.build_at hsnap
    exact filesOf_disjoint (hi.ext .build) (hi.ext .install) hi.tmps hids hmem (files_of_snap hi.own hn)
  have hfound : Cleaned (s.at .build r.1 r.2.1 r.2.2) r.1 ∧ Looked (s.at .build r.1 r.2.1 r.2.2) r.1 := by
    cases hearly : (s.stage .build).early with
    | true => exact go_early hearly h
    | false => exact hi.go_late hearly h
  exact hi.build_at hids (hmoved.ok False) hinstallOk hfound.1 hfound.2

theorem Inv.build_visit {r : Stage D × Dir D} (hi : Inv s)
    (hcareful : Careful s (.visit .build n)) (h : s.visit .build n = some r) :
    Inv (s.at .build r.1 r.2 s.machine) := by
  have hok := hi.ok .build
  have hcleaned := hi.cleaned
  have hlooked := hi.looked
  unfold State.visit at h
  split at h
  · rename_i k left hst
    rw [hst] at hok hcleaned
    have hwhole : Whole s.dir k := hok
    have hsnap : (s.stage .build).snap = some k := by rw [hst]; rfl
    cases h
    split
    · rename_i hours
      refine hi.build_same hsnap.symm hok (fun n' hn' => ?_) trivial
      rw [build_files.1, build_files.2]
      rcases hcleaned n' hn' with hmem | hmem | hmem
      · refine .inl ?_
        rw [State.files, State.kept, hsnap] at hmem
        exact hmem
      · exact .inr (.inl hmem)
      · by_cases heq : n' = n
        · refine .inl ?_
          rw [heq]
          rcases hours with rfl | rfl
          · simp
          · simp
        · exact .inr (.inr (mem_filter.2 ⟨hmem, by simpa using heq⟩))
    · rename_i hours
      push Not at hours
      refine hi.build_at (fun k' hk' => ?_) ?_ ?_ (fun n' hn' => ?_) trivial
      · exact hi.ids k' (hsnap.trans hk')
      · exact ⟨(same_remove hours.1.symm).read.trans hwhole.data,
          (same_remove hours.2.symm).read.trans hwhole.description⟩
      · refine StageOk.remove (w := .build) (hi.ok .install) hst hcareful (fun m => files_of_snap hi.own)
          (fun hs => ?_) fun k' current hst' hlt => ?_
        · exact hs.build_at fun k' hk' => hsnap.symm.trans hk'
        · have hk' : k' = s.received := hi.own k' (congrArg Stage.snap hst')
          refine ⟨s.received, k, rfl, ?_, hk' ▸ hlt⟩
          exact kept_build_at
      · rw [build_files.1, build_files.2]
        have hne : n' ≠ n := by
          rintro rfl
          exact hn' inode_remove_self
        have hinode : s.dir.inode n' ≠ none := by
          rw [← (same_remove hne).inode]
          exact hn'
        rcases hcleaned n' hinode with hmem | hmem | hmem
        · refine .inl ?_
          rw [State.files, State.kept, hsnap] at hmem
          exact hmem
        · exact .inr (.inl hmem)
        · exact .inr (.inr (mem_filter.2 ⟨hmem, by simpa using hne⟩))
  · rename_i k left best hst
    rw [hst] at hok hcleaned hlooked
    have hwhole : Whole s.dir k := hok
    have hsnap : (s.stage .build).snap = some k := by rw [hst]; rfl
    obtain ⟨hown, hbest, -⟩ := hlooked
    cases h
    refine hi.build_same hsnap.symm hok (Inv.left_of_same hsnap.symm hcleaned) ?_
    refine ⟨?_, hbest, fun p hp => ?_⟩
    · rcases hown with hleft | hp | hbest
      · by_cases heq : metaFile k.description.snapshotId = n
        · rw [← heq]
          exact .inr (.inl (described_metaFile hwhole.description))
        · exact .inl (mem_filter.2 ⟨hleft, by simpa using heq⟩)
      · cases hp
      · exact .inr (.inr hbest)
    · -- Nothing but the two snapshots is left.
      obtain ⟨hext, hread, hp⟩ := described_some hp
      have hmeta : n = metaFile k.description.snapshotId ∨
          n = metaFile s.received.description.snapshotId := by
        rcases hcleaned n (inode_of_read hread) with hmem | hmem
        · rw [State.files, State.kept, hsnap] at hmem
          exact .inl (metaFile_of_mem (hi.ext .build) hmem hext)
        · exact .inr (metaFile_of_mem (hi.ext .install) hmem hext)
      rcases hmeta with rfl | rfl
      · exact .inl hp
      · exact .inr hp
  · cases h

theorem Inv.finish (hi : Inv s) (h : s.finish w = some st) : Inv (s.at w st s.dir s.machine) := by
  have hok := hi.ok w
  unfold State.finish at h
  split at h
  · rename_i k left hst
    rw [hst] at hok
    have hwhole : Whole s.dir k := hok
    split at h
    · rename_i hgone
      cases h
      cases w with
      | build =>
        have hcleaned := hi.cleaned
        rw [hst] at hcleaned
        have hsnap : (s.stage .build).snap = some k := by rw [hst]; rfl
        refine hi.build_same hsnap.symm hwhole (Inv.left_of_same hsnap.symm fun n hn => ?_) trivial
        rcases hcleaned n hn with hmem | hmem | hmem
        · exact .inl hmem
        · exact .inr hmem
        · exact absurd (hgone n hmem) hn
      | install =>
        have hk : k = s.received := hi.own k (by rw [hst]; rfl)
        refine hi.install_at (fun k' hk' => ?_) rfl (hi.ok .build) ⟨.inl hwhole, fun c hc => ?_⟩
          (fun n hn => .inr hn) fun k' p _ _ _ hinode => hinode
        · cases hk'
          exact hk
        · rw [hwhole.description] at hc
          exact (some.inj hc).symm
    · cases h
  · rename_i k left best hst
    rw [hst] at hok
    have hwhole : Whole s.dir k := hok
    split at h
    · rename_i hgone
      cases h
      cases w with
      | build =>
        have hcleaned := hi.cleaned
        have hlooked := hi.looked
        rw [hst] at hcleaned hlooked
        have hsnap : (s.stage .build).snap = some k := by rw [hst]; rfl
        obtain ⟨hown, hbest, -⟩ := hlooked
        refine hi.build_same hsnap.symm hwhole (Inv.left_of_same hsnap.symm hcleaned) ?_
        rcases hown with hleft | hp | hsome
        · exact absurd (hgone _ hleft) (inode_of_read hwhole.description)
        · cases hp
        · obtain ⟨p, hp⟩ := ne_none_iff_exists'.1 hsome
          exact ⟨p, hp, hbest p hp⟩
      | install =>
        have hplain := hi.plain
        rw [hst] at hplain
        cases hplain
    · cases h
  · cases h

/-- A clean-up that meets none of the other call's files keeps both calls going. -/
theorem Inv.step {e : Event D} (hi : Inv s) (hcareful : Careful s e)
    (h : Snapshots.step s e = some s') : Inv s' := by
  cases e with
  | go w =>
    obtain ⟨r, hr, rfl⟩ := map_eq_some_iff.1 h
    cases w with
    | build => exact hi.build_go hcareful hr
    | install => exact hi.install_go hr
  | visit w n =>
    obtain ⟨r, hr, rfl⟩ := map_eq_some_iff.1 h
    cases w with
    | build => exact hi.build_visit hcareful hr
    | install =>
      unfold State.visit at hr
      split at hr
      · rename_i k left hst
        cases hr
        split
        · have hok := hi.ok .install
          rw [hst] at hok
          refine hi.install_at (fun k' hk' => ?_) rfl (hi.ok .build) hok (fun n hn => .inr hn)
            fun k' p _ _ _ hinode => hinode
          cases hk'
          exact hi.own k (by rw [hst]; rfl)
        · rename_i hours
          push Not at hours
          exact hi.install_clean hst hcareful hours
      · rename_i hst
        have hplain := hi.plain
        rw [hst] at hplain
        cases hplain
      · cases hr
  | finish w =>
    obtain ⟨st, hst, rfl⟩ := map_eq_some_iff.1 h
    exact hi.finish hst
  | apply m =>
    cases h
    exact ⟨hi.ext, hi.tmps, hi.own, hi.ids, hi.ok, hi.plain, hi.cleaned, hi.looked⟩

structure Started (s : State D) : Prop where
  stage : ∀ w, s.stage w = .start
  ext : ∀ w, (ofLex (s.tmp w)).2 = "snap"
  tmps : s.tmp .build ≠ s.tmp .install
  absent : ∀ w, s.dir.inode (s.tmp w) = none

theorem Started.inv (h : Started s) : Inv s := by
  refine ⟨h.ext, h.tmps, fun k hk => ?_, fun k hk => ?_, fun w => ?_, ?_, ?_, ?_⟩
  · rw [h.stage] at hk
    cases hk
  · rw [h.stage] at hk
    cases hk
  · rw [h.stage]
    exact h.absent w
  · rw [h.stage]
    rfl
  · rw [h.stage]
    trivial
  · rw [h.stage]
    trivial

theorem Inv.current (hi : Inv s) {k' : Snapshot D} {c c' : Option SnapshotMeta}
    (hbuild : s.stage .build = .returned k c) (hinstall : s.stage .install = .returned k' c') :
    ∃ j, (j = k ∨ j = k') ∧ rank k.description.lastLogId ≤ rank j.description.lastLogId ∧
      rank k'.description.lastLogId ≤ rank j.description.lastLogId ∧ Whole s.dir j ∧
      currentSnapshotFiles s.dir = some (dataFile j.description.snapshotId, j.description) := by
  have hk' : k' = s.received := hi.own k' (by rw [hinstall]; rfl)
  have hsnap : (s.stage .build).snap = some k := by rw [hbuild]; rfl
  have hokBuild := hi.ok .build
  have hokInstall := hi.ok .install
  have hcleaned := hi.cleaned
  rw [hbuild] at hokBuild hcleaned
  rw [hinstall] at hokInstall
  obtain ⟨hwhole, hmeta⟩ := hokBuild
  obtain ⟨hwhole', hmeta'⟩ := hokInstall
  have hless : Superseded s .build → rank k.description.lastLogId < rank k'.description.lastLogId := by
    rintro ⟨j, j', hj, hj', hlt⟩
    cases hsnap.symm.trans hj
    cases hj'
    rw [hk']
    exact hlt
  have hless' : Superseded s .install → rank k'.description.lastLogId < rank k.description.lastLogId := by
    rintro ⟨j, j', hj, hj', hlt⟩
    cases hsnap.symm.trans hj'
    cases hj
    rw [hk']
    exact hlt
  obtain ⟨hfrom, hbest⟩ := currentSnapshotFiles_spec s.dir
  -- What is current is one of the two.
  have htwo : ∀ q, currentSnapshotFiles s.dir = some q →
      q = (dataFile k.description.snapshotId, k.description) ∨
      q = (dataFile k'.description.snapshotId, k'.description) := by
    intro q hq
    obtain ⟨n, hn, -⟩ := hfrom q hq
    obtain ⟨hext, hread, hdata⟩ := described_some hn
    rcases hcleaned n (inode_of_read hread) with hmem | hmem
    · rw [State.files, State.kept, hsnap] at hmem
      have hn := metaFile_of_mem (hi.ext .build) hmem hext
      subst hn
      exact .inl (Prod.ext hdata (Content.description.inj (hmeta _ hread)))
    · have hn := metaFile_of_mem (hi.ext .install) hmem hext
      rw [← hk'] at hn
      subst hn
      exact .inr (Prod.ext hdata (Content.description.inj (hmeta' _ hread)))
  have hfurthest : ∀ j : Snapshot D, Whole s.dir j → ∃ q, currentSnapshotFiles s.dir = some q ∧
      rank j.description.lastLogId ≤ rank q.2.lastLogId := fun j hj =>
    hbest _ _ (described_metaFile hj.description) (inode_of_read hj.data)
  rcases lt_or_ge (rank k.description.lastLogId) (rank k'.description.lastLogId) with hlt | hge
  · have hj : Whole s.dir k' := hwhole'.resolve_right fun hs => lt_asymm hlt (hless' hs)
    obtain ⟨q, hq, hle⟩ := hfurthest k' hj
    rcases htwo q hq with rfl | rfl
    · exact absurd hle (not_le.2 hlt)
    · exact ⟨k', .inr rfl, le_of_lt hlt, le_rfl, hj, hq⟩
  · have hj : Whole s.dir k := hwhole.resolve_right fun hs => not_lt.2 hge (hless hs)
    obtain ⟨q, hq, hle⟩ := hfurthest k hj
    rcases htwo q hq with rfl | rfl
    · exact ⟨k, .inl rfl, le_rfl, hge, hj, hq⟩
    · exact ⟨k', .inr rfl, hle, le_rfl, hwhole'.resolve_right fun hs => not_lt.2 hle (hless' hs), hq⟩

/-- What a call still has ahead of it: its stages, and in a listing the names it has not met. -/
def Stage.ahead : Stage D → ℕ ×ₗ ℕ
  | .start => toLex (16, 0)
  | .create => toLex (15, 0)
  | .fill _ => toLex (14, 0)
  | .move _ => toLex (13, 0)
  | .describe _ => toLex (12, 0)
  | .write _ _ => toLex (11, 0)
  | .publish _ => toLex (10, 0)
  | .list _ => toLex (9, 0)
  | .clean _ left => toLex (8, left.length)
  | .look _ => toLex (7, 0)
  | .looking _ left _ found => toLex (6, 2 * left.length + found.isSome.toNat)
  | .openData _ _ => toLex (5, 0)
  | .discard _ _ => toLex (4, 0)
  | .discardCheck _ _ => toLex (3, 0)
  | .discardData _ _ => toLex (2, 0)
  | .discardTmp _ _ => toLex (1, 0)
  | .failed _ | .returned _ _ => toLex (0, 0)

/-- A step of a call that leaves it less to do. -/
def GoesOn (s : State D) (w : Who) : Prop :=
  ∃ e s', (e = .go w ∨ e = .finish w ∨ ∃ n, e = .visit w n) ∧ step s e = some s' ∧
    (s'.stage w).ahead < (s.stage w).ahead

theorem ahead_of_lt {a b : ℕ ×ₗ ℕ} (h : (ofLex a).1 < (ofLex b).1) : a < b := Prod.Lex.lt_iff.2 (.inl h)

theorem GoesOn.go {st : Stage D} {dir : Dir D} {m : Machine D} (h : s.go w = some (st, dir, m))
    (hless : st.ahead < (s.stage w).ahead) : GoesOn s w :=
  ⟨.go w, s.at w st dir m, .inl rfl, by rw [step, h]; rfl, by simpa [State.at] using hless⟩

theorem GoesOn.finish {st : Stage D} (h : s.finish w = some st) (hless : st.ahead < (s.stage w).ahead) :
    GoesOn s w :=
  ⟨.finish w, s.at w st s.dir s.machine, .inr (.inl rfl), by rw [step, h]; rfl, by simpa [State.at] using hless⟩

theorem GoesOn.visit {st : Stage D} {dir : Dir D} {n : FileName} (h : s.visit w n = some (st, dir))
    (hless : st.ahead < (s.stage w).ahead) : GoesOn s w :=
  ⟨.visit w n, s.at w st dir s.machine, .inr (.inr ⟨n, rfl⟩), by rw [step, h]; rfl,
    by simpa [State.at] using hless⟩

theorem length_met {left : List FileName} {n : FileName} (hn : n ∈ left) :
    (left.filter (· ≠ n)).length < left.length :=
  length_filter_lt_length_iff_exists.2 ⟨n, hn, by simp⟩

theorem can_go_on (hfailed : ∀ e, s.stage w ≠ .failed e) (hreturned : ∀ k c, s.stage w ≠ .returned k c) :
    GoesOn s w := by
  cases hst : s.stage w with
  | failed e => exact absurd hst (hfailed e)
  | returned k c => exact absurd hst (hreturned k c)
  | clean k left =>
    -- a name left that is still there is met, and with none the listing ends
    by_cases hleft : ∀ n ∈ left, s.dir.inode n = none
    · refine .finish (by rw [State.finish, hst]; exact if_pos hleft) (ahead_of_lt ?_)
      rw [hst]
      cases w <;> simp [Stage.ahead]
    · push Not at hleft
      obtain ⟨n, hn, -⟩ := hleft
      refine .visit (n := n) (by rw [State.visit, hst]) ?_
      rw [hst]
      exact Prod.Lex.lt_iff.2 (.inr ⟨rfl, length_met hn⟩)
  | looking k left best found =>
    cases found with
    | none =>
      by_cases hleft : ∀ n ∈ left, s.dir.inode n = none
      · refine .finish (by rw [State.finish, hst]; exact if_pos hleft) (ahead_of_lt ?_)
        rw [hst]
        simp [Stage.ahead]
      · push Not at hleft
        obtain ⟨n, hn, -⟩ := hleft
        refine .visit (n := n) (by rw [State.visit, hst]) ?_
        rw [hst]
        refine Prod.Lex.lt_iff.2 (.inr ⟨rfl, ?_⟩)
        have hmet := length_met hn
        have hone := Bool.toNat_le (described s.dir n).isSome
        simp only [Stage.ahead, ofLex_toLex, Option.isSome_none, Bool.toNat_false]
        omega
    | some p =>
      refine .go (by unfold State.go; rw [hst]) ?_
      rw [hst]
      exact Prod.Lex.lt_iff.2 (.inr ⟨rfl, by simp [Stage.ahead]⟩)
  | openData k best =>
    cases best with
    | none => exact .go (by unfold State.go; rw [hst]) (by rw [hst]; exact ahead_of_lt (by simp [Stage.ahead]))
    | some p =>
      by_cases hopens : (s.dir.inode p.1).isSome = true
      · refine .go (by unfold State.go; rw [hst]; exact if_pos hopens) ?_
        rw [hst]
        exact ahead_of_lt (by simp [Stage.ahead])
      · refine .go (by unfold State.go; rw [hst]; exact if_neg hopens) ?_
        rw [hst]
        exact ahead_of_lt (by simp [Stage.ahead])
  | create | move k | publish k | discardCheck k e =>
    have hgo : ∃ st dir m, s.go w = some (st, dir, m) ∧ st.ahead < (s.stage w).ahead := by
      unfold State.go
      rw [hst]
      dsimp only
      split <;> exact ⟨_, _, _, rfl, ahead_of_lt (by simp [Stage.ahead])⟩
    obtain ⟨st, dir, m, hgo, hless⟩ := hgo
    exact .go hgo hless
  | _ =>
    refine .go (by unfold State.go; rw [hst]) ?_
    rw [hst]
    exact ahead_of_lt (by simp [Stage.ahead])

/-- **Building and installing do not disturb each other**, where clean-ups meet none of the other call's files
and no snapshot is built at the position of the one received: no call fails, each has a step that leaves it less
to do until it has returned, and then the current snapshot is the one further on. -/
theorem snapshots_undisturbed {s₀ s : State D} {events : List (Event D)} (hstart : Started s₀)
    (hcareful : Steps.Along step Careful s₀ events) (hrun : Steps.run step s₀ events = some s) :
    (∀ w e, s.stage w ≠ .failed e) ∧ (∀ w, (∀ k c, s.stage w ≠ .returned k c) → GoesOn s w) ∧
    ∀ k k' c c', s.stage .build = .returned k c → s.stage .install = .returned k' c' →
      ∃ j, (j = k ∨ j = k') ∧ rank k.description.lastLogId ≤ rank j.description.lastLogId ∧
        rank k'.description.lastLogId ≤ rank j.description.lastLogId ∧ Whole s.dir j ∧
        currentSnapshotFiles s.dir = some (dataFile j.description.snapshotId, j.description) := by
  have hi : Inv s := Steps.run_invariant_along (I := Inv) (fun _ _ _ => Inv.step) events s₀ s hstart.inv
    hcareful hrun
  have hfailed : ∀ w e, s.stage w ≠ .failed e := by
    intro w e hst
    have hok := hi.ok w
    rw [hst] at hok
    exact hok
  exact ⟨hfailed, fun w hw => can_go_on (hfailed w) hw, fun k k' c c' => hi.current⟩

def startState : State Nat where
  machine := ⟨5, some ⟨1, 1, 5⟩, (none, [])⟩
  dir := Directory.empty
  received := ⟨⟨some ⟨1, 1, 9⟩, (none, []), "meta-snap-1-9"⟩, 9⟩
  stage := fun _ => .start
  tmp := fun w => match w with
    | .build => file "build-7-0" "snap"
    | .install => file "recv-7-1" "snap"

theorem startState_started : Started startState := by
  refine ⟨fun _ => rfl, fun w => ?_, by decide, fun w => ?_⟩
  · cases w <;> rfl
  · cases w <;> rfl

def deletedRun : List (Event Nat) :=
  replicate 7 (.go .build) ++ [.go .install, .go .install, .go .build, .visit .build (file "recv-7-1" "snap"),
      .go .install, .go .install, .go .install, .go .install, .go .install, .go .install]

/-- **The installation fails**: its temporary file is gone. -/
theorem copy_deleted_by_build : Started startState ∧
    ∃ s, Steps.run step startState deletedRun = some s ∧ s.stage .install = .failed .noFile := by
  refine ⟨startState_started, ?_⟩
  decide +kernel

def inTurnRun : List (Event Nat) :=
  replicate 8 (.go .install) ++
    [.visit .install (file "meta-snap-1-9" "data"), .visit .install (file "meta-snap-1-9" "meta"),
      .finish .install, .apply ⟨10, some ⟨1, 1, 10⟩, (none, [])⟩] ++
    replicate 8 (.go .build) ++
    [.visit .build (file "meta-snap-1-9" "data"), .visit .build (file "meta-snap-1-9" "meta"),
      .visit .build (file "meta-snap-1-10" "data"), .visit .build (file "meta-snap-1-10" "meta"),
      .finish .build, .go .build, .visit .build (file "meta-snap-1-10" "data"),
      .visit .build (file "meta-snap-1-10" "meta"), .go .build, .finish .build, .go .build]

theorem inTurnRun_undisturbed : ∃ s, Steps.run step startState inTurnRun = some s ∧
    (∀ w e, s.stage w ≠ .failed e) ∧
    ∃ m, currentSnapshotFiles s.dir = some (file "meta-snap-1-10" "data", m) ∧
      m.lastLogId = some ⟨1, 1, 10⟩ := by
  obtain ⟨s, hrun, hinstall, hbuild⟩ : ∃ s, Steps.run step startState inTurnRun = some s ∧
      s.stage .install = .returned startState.received none ∧
      s.stage .build = .returned ⟨⟨some ⟨1, 1, 10⟩, (none, []), "meta-snap-1-10"⟩, 10⟩
        (some ⟨some ⟨1, 1, 10⟩, (none, []), "meta-snap-1-10"⟩) := by
    decide +kernel
  have hcareful : Steps.Along step Careful startState inTurnRun := by decide +kernel
  obtain ⟨hfailed, -, hcurrent⟩ := snapshots_undisturbed startState_started hcareful hrun
  refine ⟨s, hrun, hfailed, ?_⟩
  obtain ⟨j, hj, hle, hle', -, hfiles⟩ := hcurrent _ _ _ _ hbuild hinstall
  rcases hj with rfl | rfl
  · exact ⟨_, hfiles, rfl⟩
  · exact absurd hle (by decide)

end IoLake.MetaStore.Snapshots
