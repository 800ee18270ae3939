import IoLake.Meta.BlockRuns

/-!
# Every stripe is given back

A stripe that was committed to a chunk is named by a record, was answered free, or is among what the deletion
under way has found free.  A deletion cut short after a batch forgets what the batch freed.
-/

namespace IoLake.Meta.BlockVolumes

open Proto SharedHold OwnedRecords List Option Steps
open StripeRefs (Status)

variable {s s' : State} {r : Running} {b : Build}

/-- Answered free. -/
def Returned (s : State) (x : Bytes) : Prop :=
  ∃ freeable, .ok (.released freeable) ∈ s.answers ∧ ∃ st ∈ freeable, st.objectId = x

/-- Found free by the deletion under way. -/
def Pending (s : State) (x : Bytes) : Prop :=
  ∃ r d, s.running = some r ∧ r.job = .delete d ∧ ∃ st ∈ r.phase.freeable, st.objectId = x

variable {rows : Rows} {x : Bytes}

theorem share_free {fromId : Bytes} {fromIsOwner : Bool} {toTable : String} {toId : Bytes} :
    ∀ {batch : List (Nat × BlockChunkRef)} {b b' : Build},
    each (shareOne rows fromId fromIsOwner toTable toId) b batch = .ok b' → b'.free = b.free := by
  intro batch
  induction batch with
  | nil =>
    intro b b' h
    cases h
    rfl
  | cons row batch ih =>
    intro b b' h
    rw [each] at h
    split at h
    · cases h
    · rename_i b₁ hb₁
      rw [ih h]
      unfold shareOne at hb₁
      split at hb₁
      · cases hb₁
        rfl
      · split at hb₁
        · cases hb₁
        · rename_i b₂ hb₂
          cases hb₁
          exact (share_same hb₂).2

theorem copy_free {c : Copy} {phase : Phase} (hb : build rows (.copy c) phase = .ok b) : b.free = [] := by
  cases phase with
  | first | release free => rw [build_first (by simp) (by simp) hb]
  | share todo => exact share_free hb
  | last free =>
    cases hb
    rfl

theorem Returned.answer (h : Returned s x) (a : Except Status Answer) : Returned (s.answer a) x := by
  obtain ⟨freeable, hmem, hst⟩ := h
  exact ⟨freeable, mem_append_left _ hmem, hst⟩

theorem Returned.goOn (h : Returned s x) : Returned (s.goOn r b) x := by
  unfold State.goOn
  split
  · exact h
  · split
    · exact Returned.answer (s := { s with copies := _ }) h _
    · exact Returned.answer (s := { s with deleted := _ }) h _
    · exact h.answer _

theorem goOn_table : (s.goOn r b).table = s.table ∧ (s.goOn r b).holds = s.holds := by
  unfold State.goOn
  split
  · exact ⟨rfl, rfl⟩
  · split
    · exact ⟨rfl, rfl⟩
    · exact ⟨rfl, rfl⟩
    · exact ⟨rfl, rfl⟩

theorem goOn_passes (hb : build rows r.job r.phase = .ok b) {st : StripeMeta}
    (hst : st ∈ b.free ∨ (st ∈ r.phase.freeable ∧ ∃ d, r.job = .delete d)) :
    Returned (s.goOn r b) st.objectId ∨ Pending (s.goOn r b) st.objectId := by
  obtain ⟨job, phase, attempt, source⟩ := r
  dsimp only at hb hst
  cases job with
  | createVolume v =>
    rw [build_createVolume hb] at hst
    rcases hst with hst | ⟨-, d, hd⟩
    · exact absurd hst not_mem_nil
    · cases hd
  | commitChunks volumeId updates =>
    rcases hst with hst | ⟨-, d, hd⟩
    · left
      exact ⟨b.free, mem_append_right _ (mem_singleton_self _), st, hst, rfl⟩
    · cases hd
  | copy c =>
    rcases hst with hst | ⟨-, d, hd⟩
    · rw [copy_free hb] at hst
      exact absurd hst not_mem_nil
    · cases hd
  | delete d =>
    cases phase with
    | first | share todo =>
      cases hb
      rcases hst with hst | ⟨hst, -⟩
      · exact absurd hst not_mem_nil
      · exact absurd hst not_mem_nil
    | release free =>
      right
      refine ⟨_, d, rfl, rfl, st, ?_, rfl⟩
      show st ∈ Phase.freeable (if b.writes = [] then .last free else .release (free ++ b.free))
      split
      · rename_i hempty
        rcases hst with hst | ⟨hst, -⟩
        · -- Nothing was let go.
          cases hb
          rw [releases_writes] at hempty
          have hnil : (chunksOf rows d.table d.id).take BATCH = [] :=
            map_eq_nil_iff.1 (append_eq_nil_iff.1 hempty).2
          rw [hnil] at hst
          exact absurd hst not_mem_nil
        · exact hst
      · rcases hst with hst | ⟨hst, -⟩
        · exact mem_append_right _ hst
        · exact mem_append_left _ hst
    | last free =>
      cases hb
      rcases hst with hst | ⟨hst, -⟩
      · exact absurd hst not_mem_nil
      · left
        exact ⟨free, mem_append_right _ (mem_singleton_self _), st, hst, rfl⟩

/-! ## Nothing committed is lost -/

def Covered (s : State) : Prop :=
  ∀ x table id, (x, table, id) ∈ s.holds → Named s.table x ∨ Returned s x ∨ Pending s x

/-- The write lets no chunk go. -/
def LetsNothingGo (rows : Rows) : Job → Phase → Prop
  | .commitChunks volumeId updates, _ =>
    ∀ u ∈ updates, chunkAt rows (key CHUNKS volumeId u.chunkId) = none
  | .delete d, .release _ => chunksOf rows d.table d.id = []
  | _, _ => True

instance (rows : Rows) (job : Job) (phase : Phase) : Decidable (LetsNothingGo rows job phase) :=
  match job, phase with
  | .commitChunks volumeId updates, _ =>
    inferInstanceAs (Decidable (∀ u ∈ updates, chunkAt rows (key CHUNKS volumeId u.chunkId) = none))
  | .delete d, .release _ => inferInstanceAs (Decidable (chunksOf rows d.table d.id = []))
  | .createVolume _, _ => .isTrue trivial
  | .copy _, _ => .isTrue trivial
  | .delete _, .first => .isTrue trivial
  | .delete _, .share _ => .isTrue trivial
  | .delete _, .last _ => .isTrue trivial

def NothingFound (s : State) : Prop :=
  match s.running with
  | some r => r.phase.freeable = []
  | none => True

def WaitsForNothing (s : State) : Prop :=
  match s.running with
  | some r => LetsNothingGo s.table r.job r.phase
  | none => True

instance (s : State) : Decidable (NothingFound s) := by
  unfold NothingFound
  split <;> infer_instance

instance (s : State) : Decidable (WaitsForNothing s) := by
  unfold WaitsForNothing
  split <;> infer_instance

/-- A call reads caches that are up to date, and is cut short only where that forgets nothing found free. -/
def Spared (s : State) : Event → Prop
  | .start _ _ _ => s.cache = s.table
  | .write true => s.cache = s.table
  | .write false => s.cache = s.table ∧ NothingFound s ∧ WaitsForNothing s
  | .cut => NothingFound s
  | .listen => True

instance (s : State) (e : Event) : Decidable (Spared s e) :=
  match e with
  | .start _ _ _ => inferInstanceAs (Decidable (s.cache = s.table))
  | .write true => inferInstanceAs (Decidable (s.cache = s.table))
  | .write false => inferInstanceAs (Decidable (s.cache = s.table ∧ NothingFound s ∧ WaitsForNothing s))
  | .cut => inferInstanceAs (Decidable (NothingFound s))
  | .listen => .isTrue trivial

theorem Spared.careful {e : Event} (h : Spared s e) : Careful s e := by
  cases e with
  | start c id now => exact h
  | write heard =>
    cases heard with
    | false => exact h.1
    | true => exact h
  | cut | listen => trivial

theorem free_of_letsNothingGo {job : Job} {phase : Phase}
    (hb : build rows job phase = .ok b) (h : LetsNothingGo rows job phase) : b.free = [] := by
  cases job with
  | createVolume v => rw [build_createVolume hb]
  | commitChunks volumeId updates => exact commit_free h hb
  | copy c => exact copy_free hb
  | delete d =>
    cases phase with
    | first | share todo | last free =>
      cases hb
      rfl
    | release free =>
      cases hb
      have hnil : chunksOf rows d.table d.id = [] := h
      rw [hnil]
      rfl

theorem named_or_free {job : Job} (hk : Kept s) (hw : Written s.table s.used job b)
    (hx : Named s.table x ∨ ∃ table id, (x, table, id) ∈ heldBy b.rows) :
    Named (applyWrites s.table b.rows) x ∨ ∃ st ∈ b.free, st.objectId = x := by
  rw [Named, chunkAt_rows]
  rcases hx with hx | ⟨table, id, hx⟩
  · obtain ⟨used', -, hchanges⟩ := hw.changes
    exact kept_of_changes hk.blocks hchanges hx
  · left
    obtain ⟨⟨k, row⟩, hmem, hrow⟩ := mem_filterMap.1 hx
    dsimp only at hrow
    split at hrow
    · rename_i c
      obtain ⟨st, hst, heq⟩ := map_eq_some_iff.1 hrow
      have hwrite : (k, some (.chunk c)) ∈ b.writes := by
        rcases mem_append.1 hmem with hmem | hmem
        · exact hmem
        · obtain ⟨e, -, he⟩ := mem_map.1 hmem
          have hrefs := (Prod.mk.inj he).2
          cases he2 : e.2 with
          | none | some refs =>
            rw [he2] at hrefs
            cases hrefs
      exact ⟨k, c.owner, (recs_some (hw.named k c hwrite) hst).trans (by rw [(Prod.mk.inj heq).1])⟩
    · cases hrow

theorem Covered.write {heard : Bool} (hi : Inv s) (hcovered : Covered s) (hspared : Spared s (.write heard))
    (hr : s.running = some r) (h : writeStep s heard r = some s') : Covered s' := by
  have hcareful : s.cache = s.table := hspared.careful
  rcases writeStep_cases hcareful h with ⟨e, he, rfl⟩ | ⟨b, hb, hfresh, hcases⟩
  · intro x table id hx
    rcases hcovered x table id hx with hnamed | hreturned | ⟨r', d, hr', hd, -⟩
    · exact .inl hnamed
    · exact .inr (.inl (hreturned.answer _))
    · rw [hr] at hr'
      cases hr'
      rw [hd] at he
      -- A deletion's writes are never refused.
      cases hp : r.phase with
      | first | share todo | release free | last free => rw [hp] at he; cases he
  · have hw := ((hi.running r hr).written hi.kept hfresh hb).1
    rcases hcases with rfl | ⟨rfl, rfl⟩
    · intro x table id hx
      obtain ⟨htable, hholds⟩ := goOn_table (s := s.wrote r.job b) (r := r) (b := b)
      rw [hholds] at hx
      rw [htable]
      have hfound : (∃ st ∈ b.free, st.objectId = x) →
          Returned ((s.wrote r.job b).goOn r b) x ∨ Pending ((s.wrote r.job b).goOn r b) x := by
        rintro ⟨st, hst, rfl⟩
        exact goOn_passes hb (.inl hst)
      rcases mem_append.1 hx with hold | hnew
      · rcases hcovered x table id hold with hnamed | hreturned | ⟨r', d, hr', hd, st, hst, rfl⟩
        · rcases named_or_free hi.kept hw (.inl hnamed) with hnamed | hfree
          · exact .inl hnamed
          · exact .inr (hfound hfree)
        · exact .inr (.inl (Returned.goOn hreturned))
        · rw [hr] at hr'
          cases hr'
          exact .inr (goOn_passes hb (.inr ⟨hst, d, hd⟩))
      · rcases named_or_free hi.kept hw (.inr ⟨table, id, hnew⟩) with hnamed | hfree
        · exact .inl hnamed
        · exact .inr (hfound hfree)
    · obtain ⟨-, hnothing, hwaits⟩ := hspared
      rw [NothingFound, hr] at hnothing
      rw [WaitsForNothing, hr] at hwaits
      have hfree := free_of_letsNothingGo hb hwaits
      intro x table id hx
      rcases mem_append.1 hx with hold | hnew
      · rcases hcovered x table id hold with hnamed | hreturned | ⟨r', d, hr', hd, st, hst, rfl⟩
        · rcases named_or_free hi.kept hw (.inl hnamed) with hnamed | ⟨st, hst, -⟩
          · exact .inl hnamed
          · rw [hfree] at hst
            exact absurd hst not_mem_nil
        · exact .inr (.inl hreturned)
        · rw [hr] at hr'
          cases hr'
          rw [hnothing] at hst
          exact absurd hst not_mem_nil
      · rcases named_or_free hi.kept hw (.inr ⟨table, id, hnew⟩) with hnamed | ⟨st, hst, -⟩
        · exact .inl hnamed
        · rw [hfree] at hst
          exact absurd hst not_mem_nil

theorem startStep_same {c : Call} {id : Bytes} {now : Nat} (h : startStep s c id now = some s') :
    s'.table = s.table ∧ s'.holds = s.holds ∧ s.running = none ∧ ∀ x, Returned s x → Returned s' x := by
  unfold startStep at h
  split at h
  · cases h
  · rename_i hgo
    push Not at hgo
    have hnone : s.running = none := not_isSome_iff_eq_none.1 (by simp [hgo.1])
    have hsame : (if c.creates then { s with used := id :: s.used } else s).table = s.table ∧
        (if c.creates then { s with used := id :: s.used } else s).holds = s.holds ∧
        (if c.creates then { s with used := id :: s.used } else s).answers = s.answers := by
      split
      · exact ⟨rfl, rfl, rfl⟩
      · exact ⟨rfl, rfl, rfl⟩
    generalize (if c.creates then { s with used := id :: s.used } else s) = s₁ at h hsame
    obtain ⟨htable, hholds, hanswers⟩ := hsame
    have hreturned : ∀ x, Returned s x → Returned s₁ x := by
      intro x hx
      rw [Returned, hanswers]
      exact hx
    dsimp only at h
    split at h
    · cases h
      exact ⟨htable, hholds, hnone, fun x hx => (hreturned x hx).answer _⟩
    · split at h <;> cases h <;> exact ⟨htable, hholds, hnone, hreturned⟩

/-- Every spared step keeps what was found free for an answer. -/
theorem Covered.step {e : Event} (hi : Inv s) (hcovered : Covered s) (hspared : Spared s e)
    (h : BlockVolumes.step s e = some s') : Covered s' := by
  cases e with
  | start c id now =>
    obtain ⟨htable, hholds, hnone, hreturned⟩ := startStep_same h
    intro x table id' hx
    rw [hholds] at hx
    rw [htable]
    rcases hcovered x table id' hx with hnamed | hold | ⟨r, d, hr, -⟩
    · exact .inl hnamed
    · exact .inr (.inl (hreturned x hold))
    · rw [hnone] at hr
      cases hr
  | write heard =>
    obtain ⟨r, hr, hw⟩ := bind_eq_some_iff.1 h
    exact hcovered.write hi hspared hr hw
  | cut =>
    have hnothing : NothingFound s := hspared
    simp only [BlockVolumes.step] at h
    split at h
    · cases h
      intro x table id hx
      rcases hcovered x table id hx with hnamed | hold | ⟨r, d, hr, -, st, hst, -⟩
      · exact .inl hnamed
      · exact .inr (.inl hold)
      · rw [NothingFound, hr] at hnothing
        dsimp only at hnothing
        rw [hnothing] at hst
        exact absurd hst not_mem_nil
    · cases h
  | listen =>
    simp only [BlockVolumes.step] at h
    split at h
    · cases h
    · cases h
      exact hcovered

/-- Once everything that ever held a stripe is deleted, it was answered free. -/
theorem deleted_gives_back {events : List Event} {s : State}
    (hspared : Steps.Along step Spared State.empty events)
    (hrun : Steps.run step State.empty events = some s) {x : Bytes}
    (hheld : ∃ table id, (x, table, id) ∈ s.holds)
    (hdeleted : ∀ table id, (x, table, id) ∈ s.holds → (table, id) ∈ s.deleted) :
    ∃ freeable, .ok (.released freeable) ∈ s.answers ∧ ∃ st ∈ freeable, st.objectId = x := by
  have hboth : Inv s ∧ Covered s := by
    refine run_invariant_along (I := fun s => Inv s ∧ Covered s) ?_ events State.empty s ?_ hspared hrun
    · rintro s e s' ⟨hi, hcovered⟩ hspared hs'
      exact ⟨hi.step hspared.careful hs', hcovered.step hi hspared hs'⟩
    · exact ⟨Inv.empty, nofun⟩
  obtain ⟨hi, hcovered⟩ := hboth
  obtain ⟨table, id, hx⟩ := hheld
  rcases hcovered x table id hx with ⟨k, o, hrec⟩ | hreturned | ⟨r, d, hr, hd, st, hst, rfl⟩
  · have hgone := hi.kept.deleted _ (hdeleted _ _ (hi.kept.held k x o hrec))
    have hnone := hgone.chunks (chunkOf k)
    rw [recs, show chunkAt s.table k = none from hnone] at hrec
    cases hrec
  · exact hreturned
  · obtain ⟨-, -, hlive, hworking⟩ := hi.running r hr
    rw [hd] at hlive hworking
    have hdeleting : Deleting s d r.phase := hworking
    exact absurd (hdeleted _ _ (hdeleting.free st hst).2.2) hlive

def forgottenRun : List Event :=
  volumeWritten ++ [.start (.deleteVolume [1]) [] 2, .write true, .write true, .cut,
      .start (.deleteVolume [1]) [] 3, .write true, .write true]

/-- The volume has been deleted, and its stripe was never answered free. -/
theorem freed_and_forgotten : ∃ s, Steps.run step State.empty forgottenRun = some s ∧
    s.holds = [([7], CHUNKS, [1])] ∧ (CHUNKS, [1]) ∈ s.deleted ∧
    ∀ freeable, .ok (.released freeable) ∈ s.answers → freeable = [] := by
  obtain ⟨s, hrun, hholds, hdeleted, hanswers⟩ : ∃ s, run step State.empty forgottenRun = some s ∧
        s.holds = [([7], CHUNKS, [1])] ∧ (CHUNKS, [1]) ∈ s.deleted ∧
        s.answers = [.ok (.volume [1]), .ok (.released []), .ok (.released [])] := by
    decide +kernel
  refine ⟨s, hrun, hholds, hdeleted, fun freeable hmem => ?_⟩
  rw [hanswers] at hmem
  simpa using hmem

def givenBackRun : List Event :=
  volumeWritten ++ [.start (.createSnapshot [1] [115]) [2] 2, .write true, .write true, .write true,
      .start (.deleteVolume [1]) [] 3, .write true, .write true, .write true, .write true,
      .start (.deleteSnapshot [2]) [] 4, .write true, .cut,
      .start (.deleteSnapshot [2]) [] 5, .write true, .write true, .write true]

theorem givenBackRun_gives_back : ∃ s, Steps.run step State.empty givenBackRun = some s ∧
    ∃ freeable, .ok (.released freeable) ∈ s.answers ∧ ∃ st ∈ freeable, st.objectId = [7] := by
  obtain ⟨s, hrun, hholds, hdeleted⟩ : ∃ s, run step State.empty givenBackRun = some s ∧
      s.holds = [([7], CHUNKS, [1]), ([7], SNAP_CHUNKS, [2])] ∧
      s.deleted = [(SNAP_CHUNKS, [2]), (CHUNKS, [1])] := by
    decide +kernel
  have hspared : Steps.Along step Spared State.empty givenBackRun := by decide +kernel
  refine ⟨s, hrun, deleted_gives_back hspared hrun ⟨CHUNKS, [1], ?_⟩ fun table id hx => ?_⟩
  · rw [hholds]
    exact mem_cons_self
  · rw [hholds] at hx
    rw [hdeleted]
    simp only [mem_cons, Prod.mk.injEq, not_mem_nil, or_false] at hx ⊢
    tauto

end IoLake.Meta.BlockVolumes
