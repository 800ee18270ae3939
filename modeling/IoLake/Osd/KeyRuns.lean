import IoLake.Lib.LastWriter
import IoLake.Osd.KeyEntries

/-!
# What a copy holds after any requests for one key

A copy applies the requests for a key one at a time, in whatever order they reach it.
-/

namespace IoLake.Osd

open IoLake.Proto List KeyEntries

/-! ## What the handlers do -/

variable {c o : ObjectMeta} {s' : KeyEntries} {req : PutObjectMetaRequest}
  {resp : PutObjectMetaResponse} {uuid : Uuids} {id : Bytes}

theorem supersedes_iff {stored : Option ObjectMeta} :
    supersedes stored o = true ↔ o.stamp ≠ 0 ∧ ∃ c, stored = some c ∧ o.writeOrder < c.writeOrder := by
  cases stored <;> simp [supersedes]

variable {s : KeyEntries}

namespace KeyEntries

theorem deletedSince_iff {v : Bytes} : s.deletedSince v o = true ↔ o.stamp ≠ 0 ∧ o.stamp ≤ s.tombstone v := by
  simp [deletedSince]

theorem tombstone_congr (h : s'.tombstones = s.tombstones) (v : Bytes) : s'.tombstone v = s.tombstone v := by
  rw [tombstone, tombstone, h]

theorem tombstone_putTombstone (s : KeyEntries) (v k : Bytes) (d : Nat) (pg : Option PgId) :
    (s.putTombstone v d pg).tombstone k = if k = v then max (s.tombstone v) d else s.tombstone k := by
  unfold putTombstone
  split
  · rename_i hle
    split
    · rename_i hk
      rw [hk, max_eq_left hle]
    · rfl
  · rename_i hlt
    by_cases hk : k = v
    · rw [if_pos hk, hk, max_eq_right (by omega)]
      simp [tombstone]
    · rw [if_neg hk]
      simp [tombstone, OrdMap.get_insert, hk]

end KeyEntries

@[simp] theorem withPg_stamp (o : ObjectMeta) (pg : Option PgId) : (withPg o pg).stamp = o.stamp := by
  unfold withPg
  split
  · split <;> rfl
  · rfl

@[simp] theorem withPg_versionId (o : ObjectMeta) (pg : Option PgId) :
    (withPg o pg).versionId = o.versionId := by
  unfold withPg
  split
  · split <;> rfl
  · rfl

/-- **What a write of the current object can do**: find a newer write or delete and change nothing,
or be stored. -/
theorem putCurrent_ok (h : putCurrent s req o = .ok (s', resp)) :
    (resp.superseded = true ∧ s' = s ∧ req.keepNewerCurrent = false ∧
      (supersedes s.current o = true ∨ s.deletedSince [] o = true) ∧
      resp.heldStamp = max (s.current.elim 0 (·.stamp)) (s.tombstone [])) ∨
    (resp.superseded = false ∧ s' = { s with current := some o, versions := versionsWritten s req o } ∧
      (req.keepNewerCurrent = false → supersedes s.current o = false ∧ s.deletedSince [] o = false) ∧
      preconditionHolds s.current req.expectedObjectId req.requireExisting = true) := by
  unfold putCurrent at h
  split at h
  · rename_i hsup
    cases h
    simp only [Bool.and_eq_true, Bool.not_eq_true', Bool.or_eq_true] at hsup
    exact .inl ⟨rfl, rfl, hsup.1, hsup.2, rfl⟩
  · rename_i hsup
    split at h
    · cases h
    · rename_i hpre
      cases h
      exact .inr ⟨rfl, rfl, fun hk => by simpa [hk] using hsup, by simpa using hpre⟩

theorem putVersionEntry_ok (h : putVersionEntry s req o = .ok (s', resp)) : (resp.superseded = true ∧ s' = s ∧
      (supersedes (s.versions.get (versionEntryId o.versionId)) o = true ∨
        s.deletedSince (versionEntryId o.versionId) o = true) ∧
      resp.heldStamp = max ((s.versions.get (versionEntryId o.versionId)).elim 0 (·.stamp))
        (s.tombstone (versionEntryId o.versionId))) ∨ (resp.superseded = false ∧
      s' = { s with versions := s.versions.insert (versionEntryId o.versionId) o }) := by
  unfold putVersionEntry at h
  dsimp only at h
  split at h
  · rename_i hsup
    cases h
    exact .inl ⟨rfl, rfl, by simpa using hsup, rfl⟩
  · split at h
    · cases h
    · cases h
      exact .inr ⟨rfl, rfl⟩

theorem mergeReplication_ok (h : mergeReplication s req o = .ok (s', resp)) :
    resp.superseded = false ∧ s'.tombstones = s.tombstones := by
  unfold mergeReplication at h
  dsimp only at h
  split_ifs at h <;> cases h <;> exact ⟨rfl, rfl⟩

section
variable (h : putObjectMeta uuid s req = .ok (s', resp))
include h

theorem putObjectMeta_ok :
    ∃ o, req.object = some o ∧ (mergeReplication s req (withPg o req.pg) = .ok (s', resp) ∨
      putVersionEntry s req (withPg o req.pg) = .ok (s', resp) ∨
      putCurrent s req (withPg o req.pg) = .ok (s', resp)) := by
  unfold putObjectMeta at h
  split at h
  · cases h
  · rename_i o ho
    refine ⟨o, ho, ?_⟩
    dsimp only at h
    split_ifs at h
    · exact .inl h
    · exact .inr (.inl h)
    · exact .inr (.inr h)

theorem putObjectMeta_tombstones : s'.tombstones = s.tombstones := by
  obtain ⟨o, -, h | h | h⟩ := putObjectMeta_ok h
  · exact (mergeReplication_ok h).2
  · rcases putVersionEntry_ok h with ⟨-, rfl, -⟩ | ⟨-, rfl⟩ <;> rfl
  · rcases putCurrent_ok h with ⟨-, rfl, -⟩ | ⟨-, rfl, -⟩ <;> rfl

theorem putObjectMeta_superseded
    (hsup : resp.superseded = true) : ∃ o, req.object = some o ∧ o.stamp ≤ resp.heldStamp := by
  have hheld : ∀ {stored : Option ObjectMeta} {v : Bytes} {o : ObjectMeta},
      supersedes stored o = true ∨ s.deletedSince v o = true →
      o.stamp ≤ max (stored.elim 0 (·.stamp)) (s.tombstone v) := by
    intro stored v o hor
    rcases hor with hor | hor
    · obtain ⟨-, c, rfl, hlt⟩ := supersedes_iff.1 hor
      exact le_max_of_le_left (ObjectMeta.stamp_le_of_le hlt.le)
    · exact le_max_of_le_right (deletedSince_iff.1 hor).2
  obtain ⟨o, ho, h⟩ := putObjectMeta_ok h
  refine ⟨o, ho, ?_⟩
  rw [← withPg_stamp o req.pg]
  rcases h with h | h | h
  · exact absurd hsup (by simp [(mergeReplication_ok h).1])
  · rcases putVersionEntry_ok h with ⟨-, -, hor, heq⟩ | ⟨hn, -⟩
    · exact heq ▸ hheld hor
    · exact absurd hsup (by simp [hn])
  · rcases putCurrent_ok h with ⟨-, -, -, hor, heq⟩ | ⟨hn, -⟩
    · exact heq ▸ hheld hor
    · exact absurd hsup (by simp [hn])

end

theorem withdraw_tombstones (uuid : Uuids) (s : KeyEntries) (id : Bytes) :
    (withdraw uuid s id).1.tombstones = s.tombstones := by
  unfold withdraw
  dsimp only
  split <;> rfl

theorem withdraw_current (hc : s.current = some c) (hne : c.objectId ≠ id) :
    (withdraw uuid s id).1.current = some c := by
  have hf : s.current.filter (fun c => c.objectId == id) = none := by
    rw [hc, Option.filter_some, if_neg (by simpa using hne)]
  unfold withdraw
  dsimp only
  rw [hf]
  exact hc

theorem newestVersion_mem {l : List ObjectMeta} (h : newestVersion uuid l = some o) : o ∈ l := by
  cases l with
  | nil => cases h
  | cons first rest =>
    cases h
    -- the fold picks one of the two at each step
    induction rest generalizing first with
    | nil => exact mem_singleton_self first
    | cons v rest ih =>
      rw [foldl_cons]
      split
      · rcases mem_cons.1 (ih first) with heq | hmem
        · rw [heq]
          exact mem_cons_self
        · exact mem_cons_of_mem _ (mem_cons_of_mem _ hmem)
      · exact mem_cons_of_mem _ (ih v)

theorem withdraw_versions {v : Bytes} : (withdraw uuid s id).1.versions.get v = some o ↔
      s.versions.get v = some o ∧ o.objectId ≠ id := by
  have heq : (withdraw uuid s id).1.versions =
      s.versions.filterKeys (fun k => !(s.versions.get k).any (·.objectId == id)) := by
    unfold withdraw
    dsimp only
    split <;> rfl
  rw [heq, OrdMap.get_filterKeys]
  cases hv : s.versions.get v with
  | none => simp
  | some o' =>
    by_cases hid : o'.objectId = id
    · simp [hid]
      rintro rfl
      exact hid
    · simp [hid]
      rintro rfl
      exact hid

theorem withdraw_current_of (h : (withdraw uuid s id).1.current = some o) :
    s.current = some o ∨ ∃ v, s.versions.get v = some o := by
  cases hf : s.current.filter (fun c => c.objectId == id) with
  | some c =>
    have hnew : (withdraw uuid s id).1.current =
        newestVersion uuid ((withdraw uuid s id).1.versions.entries.map (·.2)) := by
      unfold withdraw
      dsimp only
      rw [hf]
    rw [hnew] at h
    obtain ⟨e, he, rfl⟩ := mem_map.1 (newestVersion_mem h)
    exact .inr ⟨e.1, (withdraw_versions.1 (OrdMap.mem_entries.1 he)).1⟩
  | none =>
    have hsame : (withdraw uuid s id).1.current = s.current := by
      unfold withdraw
      dsimp only
      rw [hf]
    exact .inl (hsame ▸ h)

/-- **A delete of a version or of the key**: it finds a newer write and changes nothing, or it leaves
its stamp as a tombstone and the entry is gone. -/
theorem deleteObjectMeta_cases (uuid : Uuids) (s : KeyEntries) {req : DeleteObjectMetaRequest}
    (hw : req.withdrawObjectId = []) (hst : req.stamp ≠ 0) :
    ((deleteObjectMeta uuid s req).2.superseded = true ∧ (deleteObjectMeta uuid s req).1 = s ∧
      ∃ o, s.target req.versionId = some o ∧ req.stamp < o.stamp ∧
        (deleteObjectMeta uuid s req).2.heldStamp = o.stamp) ∨
    ((deleteObjectMeta uuid s req).2.superseded = false ∧
      (∀ o, s.target req.versionId = some o → o.stamp ≤ req.stamp) ∧
      (∀ k, (deleteObjectMeta uuid s req).1.tombstone k =
        if k = req.versionId then max (s.tombstone req.versionId) req.stamp else s.tombstone k) ∧
      (req.versionId = [] → (deleteObjectMeta uuid s req).1.current = none)) := by
  unfold deleteObjectMeta
  rw [if_neg (by simp [hw])]
  dsimp only
  split
  · rename_i hsup
    obtain ⟨o, ho, hlt⟩ := (Option.any_eq_true _ _).1 hsup.2
    exact .inl ⟨rfl, rfl, o, ho, by simpa using hlt, by simp [ho]⟩
  · rename_i hsup
    refine .inr ?_
    have hle : ∀ o, s.target req.versionId = some o → o.stamp ≤ req.stamp := by
      intro o ho
      by_contra hlt
      exact hsup ⟨hst, (Option.any_eq_true _ _).2 ⟨o, ho, by simpa using hlt⟩⟩
    split
    · exact ⟨rfl, hle, fun k => tombstone_putTombstone s _ k _ _, fun _ => rfl⟩
    · rename_i hne
      exact ⟨rfl, hle, fun k => tombstone_putTombstone s _ k _ _, fun h => absurd h hne⟩

inductive Request where
  | put (req : PutObjectMetaRequest)
  | delete (req : DeleteObjectMetaRequest)

namespace KeyEntries

def apply (uuid : Uuids) (s : KeyEntries) : Request → KeyEntries
  | .put req =>
    match putObjectMeta uuid s req with
    | .ok (s', _) => s'
    | .error _ => s
  | .delete req => (deleteObjectMeta uuid s req).1

def run (uuid : Uuids) (s : KeyEntries) (rs : List Request) : KeyEntries := rs.foldl (apply uuid) s

section
variable (uuid : Uuids) (s : KeyEntries) (r : Request) (rs rs' : List Request)

@[simp] theorem run_cons :
    s.run uuid (r :: rs) = (s.apply uuid r).run uuid rs := rfl

theorem run_append :
    s.run uuid (rs ++ rs') = (s.run uuid rs).run uuid rs' := foldl_append

theorem tombstone_le_apply (v : Bytes) :
    s.tombstone v ≤ (s.apply uuid r).tombstone v := by
  cases r with
  | put req =>
    rw [apply]
    split
    · rename_i h
      exact (tombstone_congr (putObjectMeta_tombstones h) v).ge
    · exact le_rfl
  | delete req =>
    show s.tombstone v ≤ (deleteObjectMeta uuid s req).1.tombstone v
    by_cases hw : req.withdrawObjectId = []
    · by_cases hst : req.stamp = 0
      · unfold deleteObjectMeta
        rw [if_neg (by simp [hw]), if_neg (by simp [hst]), if_pos hst]
        split <;> exact le_rfl
      · rcases deleteObjectMeta_cases uuid s hw hst with ⟨-, h, -⟩ | ⟨-, -, h, -⟩
        · rw [h]
        · rw [h v]
          split
          · rename_i hv
            rw [hv]
            exact le_max_left _ _
          · exact le_rfl
    · unfold deleteObjectMeta
      rw [if_pos hw]
      exact (tombstone_congr (withdraw_tombstones uuid s _) v).ge

end

theorem tombstone_le_run (uuid : Uuids) (v : Bytes) : ∀ (rs : List Request) (s : KeyEntries),
    s.tombstone v ≤ (s.run uuid rs).tombstone v
  | [], _ => le_rfl
  | r :: rs, s => (tombstone_le_apply uuid s r v).trans (tombstone_le_run uuid v rs _)

end KeyEntries

/-! ## Last writer wins on an unversioned key -/

namespace Request

/-- A stamped write of an unversioned object with no precondition and not a replica's, or a stamped
delete of the key. -/
def Plain : Request → Prop
  | .put req => req.expectedObjectId = [] ∧ req.versionOnly = false ∧ req.keepNewerCurrent = false ∧
      req.replicationUpdate = false ∧ ∃ o, req.object = some o ∧ o.stamp ≠ 0 ∧ o.versionId = []
  | .delete req => req.withdrawObjectId = [] ∧ req.versionId = [] ∧ req.stamp ≠ 0

def written : Request → Option ObjectMeta
  | .put req => req.object.map (withPg · req.pg)
  | .delete _ => none

def deletedAt : Request → Option Nat
  | .put _ => none
  | .delete req => some req.stamp

end Request

def writes (rs : List Request) : Set ObjectMeta := { o | ∃ r ∈ rs, r.written = some o }

def deletes (rs : List Request) : Set Nat := { d | ∃ r ∈ rs, r.deletedAt = some d }

def takenDelete (uuid : Uuids) (s : KeyEntries) : Request → List Nat
  | .put _ => []
  | .delete req => if (deleteObjectMeta uuid s req).2.superseded then [] else [req.stamp]

def takenDeletes (uuid : Uuids) : KeyEntries → List Request → List Nat
  | _, [] => []
  | s, r :: rs => takenDelete uuid s r ++ takenDeletes uuid (s.apply uuid r) rs

def largest (ds : List Nat) : Nat := ds.foldr max 0

theorem largest_append (a b : List Nat) : largest (a ++ b) = max (largest a) (largest b) := by
  induction a with
  | nil => simp [largest]
  | cons d a ih =>
    show max d (largest (a ++ b)) = max (max d (largest a)) (largest b)
    rw [ih, max_assoc]

theorem largest_mem : ∀ {ds : List Nat}, largest ds ≠ 0 → largest ds ∈ ds
  | [], h => absurd rfl h
  | d :: ds, h => by
    show max d (largest ds) ∈ d :: ds
    rcases le_total d (largest ds) with hle | hle
    · rw [max_eq_right hle]
      refine mem_cons_of_mem _ (largest_mem ?_)
      intro h0
      exact h (by show max d (largest ds) = 0; omega)
    · rw [max_eq_left hle]
      exact mem_cons_self

/-- **The copy holds what writes `W` and deletes `D` leave**, and its tombstone is the largest of the
deletes it took. -/
structure Settled (s : KeyEntries) (W : Set ObjectMeta) (D : Set Nat) (taken : List Nat) : Prop where
  wins : LastWriter.Wins ObjectMeta.writeOrder ObjectMeta.stamp W D s.current
  tombstone_eq : s.tombstone [] = largest taken
  taken_sub : ∀ d ∈ taken, d ∈ D
  none_all : s.current = none → ∀ d ∈ D, d ≤ s.tombstone []

theorem stamp_mono (a b : ObjectMeta) (h : a.writeOrder ≤ b.writeOrder) : a.stamp ≤ b.stamp :=
  ObjectMeta.stamp_le_of_le h

namespace Settled

variable {s : KeyEntries} {W : Set ObjectMeta} {D : Set Nat} {taken : List Nat} (h : Settled s W D taken)
include h

theorem current_wins {current : Option ObjectMeta} (hc : s.current = current) :
    LastWriter.Wins ObjectMeta.writeOrder ObjectMeta.stamp W D current := hc ▸ h.wins

theorem tombstone_mem (h0 : s.tombstone [] ≠ 0) : s.tombstone [] ∈ D := by
  rw [h.tombstone_eq] at h0 ⊢
  exact h.taken_sub _ (largest_mem h0)

theorem tombstone_lt (hc : s.current = some c) (h0 : c.stamp ≠ 0) : s.tombstone [] < c.stamp := by
  by_cases hT : s.tombstone [] = 0
  · omega
  · exact (h.current_wins hc).2.2 _ (h.tombstone_mem hT)

theorem current_ne_zero (hW : ∀ o ∈ W, o.stamp ≠ 0) (hc : s.current = some c) : c.stamp ≠ 0 :=
  hW c (h.current_wins hc).1

theorem write (hW : ∀ o ∈ W, o.stamp ≠ 0) (ho : o.stamp ≠ 0) (hk : req.keepNewerCurrent = false)
    (hput : putCurrent s req o = .ok (s', resp)) : Settled s' (insert o W) D taken := by
  rcases putCurrent_ok hput with ⟨-, rfl, -, hsup, -⟩ | ⟨-, rfl, hnot, -⟩
  · -- the copy holds something newer, and keeps it
    refine ⟨?_, h.tombstone_eq, h.taken_sub, h.none_all⟩
    cases hc : s'.current with
    | some c =>
      rcases hsup with hsup | hdel
      · obtain ⟨-, c', hc', hlt⟩ := supersedes_iff.1 hsup
        rw [hc] at hc'
        cases hc'
        exact (h.current_wins hc).write_lower hlt
      · have hT := (deletedSince_iff.1 hdel).2
        have hlt := h.tombstone_lt hc (h.current_ne_zero hW hc)
        exact (h.current_wins hc).write_lower (ObjectMeta.lt_of_stamp_lt (by omega))
    | none =>
      rcases hsup with hsup | hdel
      · obtain ⟨-, c, hc', -⟩ := supersedes_iff.1 hsup
        rw [hc] at hc'
        cases hc'
      · have hT := deletedSince_iff.1 hdel
        exact (h.current_wins hc).write_deleted (h.tombstone_mem (by omega)) hT.2
  · -- the write is stored over something older, or under no newer delete
    obtain ⟨hsup, hdel⟩ := hnot hk
    refine ⟨?_, h.tombstone_eq, h.taken_sub, nofun⟩
    show LastWriter.Wins _ _ _ _ (some o)
    cases hc : s.current with
    | some c =>
      refine (h.current_wins hc).write_higher stamp_mono (not_lt.1 fun hlt => ?_)
      rw [supersedes_iff.2 ⟨ho, c, hc, hlt⟩] at hsup
      cases hsup
    | none =>
      refine (h.current_wins hc).write_first stamp_mono (fun d hd => ?_)
      have hle := h.none_all hc d hd
      by_contra hlt
      rw [deletedSince_iff.2 ⟨ho, by omega⟩] at hdel
      cases hdel

theorem delete {req : DeleteObjectMetaRequest} (hw : req.withdrawObjectId = [])
    (hv : req.versionId = []) (hst : req.stamp ≠ 0) :
    Settled (deleteObjectMeta uuid s req).1 W (insert req.stamp D)
      (taken ++ takenDelete uuid s (.delete req)) := by
  have htgt : s.target req.versionId = s.current := by rw [target, if_pos hv]
  rcases deleteObjectMeta_cases uuid s hw hst with
    ⟨hsup, hs, o, ho, hlt, -⟩ | ⟨hsup, hle, htomb, hcur⟩
  · -- the stored object is newer: nothing changes
    rw [hs, takenDelete, if_pos hsup, append_nil]
    rw [htgt] at ho
    exact ⟨by rw [ho]; exact (h.current_wins ho).delete_older hlt, h.tombstone_eq,
      fun d hd => Set.mem_insert_of_mem _ (h.taken_sub d hd), fun hn => by simp [ho] at hn⟩
  · -- the object goes, and the tombstone is raised
    have hT : (deleteObjectMeta uuid s req).1.tombstone [] = max (s.tombstone []) req.stamp := by
      rw [htomb, if_pos hv.symm, hv]
    rw [takenDelete, if_neg (by simp [hsup])]
    refine ⟨?_, ?_, ?_, fun _ d hd => ?_⟩
    · rw [hcur hv]
      cases hc : s.current with
      | some c => exact (h.current_wins hc).delete_newer stamp_mono (hle c (htgt.trans hc))
      | none => exact (h.current_wins hc).delete_none
    · rw [hT, largest_append, h.tombstone_eq]
      simp [largest]
    · exact forall_mem_append.2
        ⟨fun d hd => Set.mem_insert_of_mem _ (h.taken_sub d hd), by simp⟩
    · rw [hT]
      rcases Set.mem_insert_iff.1 hd with rfl | hd
      · exact le_max_right _ _
      · cases hc : s.current with
        | none => exact (h.none_all hc d hd).trans (le_max_left _ _)
        | some c =>
          have h1 := (h.current_wins hc).2.2 d hd
          have h2 := hle c (htgt.trans hc)
          exact le_max_of_le_right (by omega)

end Settled

theorem writes_cons (r : Request) (rs : List Request) :
    writes (r :: rs) = { o | r.written = some o } ∪ writes rs := by
  ext o
  simp [writes]

theorem deletes_cons (r : Request) (rs : List Request) :
    deletes (r :: rs) = { d | r.deletedAt = some d } ∪ deletes rs := by
  ext d
  simp [deletes]

theorem putObjectMeta_plain (uuid : Uuids) (s : KeyEntries) (h : (Request.put req).Plain) :
    ∃ o s' resp, (Request.put req).written = some o ∧ o.stamp ≠ 0 ∧
      putCurrent s req o = .ok (s', resp) ∧ s.apply uuid (.put req) = s' := by
  obtain ⟨hexp, hver, hkeep, hrep, o, ho, hst, -⟩ := h
  have hput : putObjectMeta uuid s req = putCurrent s req (withPg o req.pg) := by
    simp [putObjectMeta, ho, hrep, takesVersionPath, olderReplica, hver, hkeep]
  obtain ⟨⟨s', resp⟩, hok⟩ : ∃ p, putCurrent s req (withPg o req.pg) = .ok p := by
    unfold putCurrent
    split
    · exact ⟨_, rfl⟩
    · rw [if_neg (by simp [preconditionHolds, hexp])]
      exact ⟨_, rfl⟩
  refine ⟨withPg o req.pg, s', resp, by simp [Request.written, ho], by simpa using hst, hok, ?_⟩
  simp [apply, hput, hok]

theorem Settled.apply (uuid : Uuids) {W : Set ObjectMeta} {D : Set Nat}
    {taken : List Nat} {r : Request} (h : Settled s W D taken) (hW : ∀ o ∈ W, o.stamp ≠ 0) (hr : r.Plain) :
    Settled (s.apply uuid r) (W ∪ { o | r.written = some o }) (D ∪ { d | r.deletedAt = some d })
      (taken ++ takenDelete uuid s r) := by
  cases r with
  | put req =>
    obtain ⟨o, s', resp, hwr, hst, hok, happ⟩ := putObjectMeta_plain uuid s hr
    have hset : W ∪ { p | (Request.put req).written = some p } = insert o W := by
      ext p
      simp [hwr, eq_comm]
    have hdel : D ∪ { d | (Request.put req).deletedAt = some d } = D := by
      simp [Request.deletedAt]
    rw [happ, hset, hdel, takenDelete, append_nil]
    exact h.write hW hst hr.2.2.1 hok
  | delete req =>
    have hset : W ∪ { p | (Request.delete req).written = some p } = W := by
      simp [Request.written]
    have hdel : D ∪ { d | (Request.delete req).deletedAt = some d } = insert req.stamp D := by
      ext d
      simp [Request.deletedAt, eq_comm]
    rw [hset, hdel]
    exact h.delete hr.1 hr.2.1 hr.2.2

theorem Request.Plain.written_ne_zero {r : Request} (h : r.Plain)
    (ho : r.written = some o) : o.stamp ≠ 0 := by
  cases r with
  | put req =>
    obtain ⟨-, -, -, -, o', ho', hst, -⟩ := h
    simp only [written, ho', Option.map_some, Option.some.injEq] at ho
    rw [← ho, withPg_stamp]
    exact hst
  | delete req => cases ho

theorem Settled.run (uuid : Uuids) : ∀ (rs : List Request) (s : KeyEntries) (W : Set ObjectMeta)
    (D : Set Nat) (taken : List Nat), Settled s W D taken → (∀ o ∈ W, o.stamp ≠ 0) → (∀ r ∈ rs, r.Plain) →
    Settled (s.run uuid rs) (W ∪ writes rs) (D ∪ deletes rs) (taken ++ takenDeletes uuid s rs)
  | [], s, W, D, taken, h, _, _ => by
    simpa [writes, deletes, takenDeletes, KeyEntries.run] using h
  | r :: rs, s, W, D, taken, h, hW, hrs => by
    have hr := hrs r mem_cons_self
    have hW' : ∀ o ∈ W ∪ { o | r.written = some o }, o.stamp ≠ 0 := by
      intro o ho
      rcases ho with ho | ho
      · exact hW o ho
      · exact hr.written_ne_zero ho
    have := Settled.run uuid rs _ _ _ _ (h.apply uuid hW hr) hW'
      (fun q hq => hrs q (mem_cons_of_mem _ hq))
    rwa [Set.union_assoc, ← writes_cons, Set.union_assoc, ← deletes_cons, append_assoc] at this

theorem Settled.empty : Settled {} ∅ ∅ [] := ⟨LastWriter.Wins.empty, rfl, nofun, fun _ _ h => h.elim⟩

theorem settled_run (uuid : Uuids) (rs : List Request) (h : ∀ r ∈ rs, r.Plain) :
    Settled (run uuid {} rs) (writes rs) (deletes rs) (takenDeletes uuid {} rs) := by
  simpa using Settled.run uuid rs {} ∅ ∅ [] Settled.empty nofun h

/-- For stamped writes and deletes of an unversioned key the current object is **the last writer's, whatever
the order and repetition** of the requests.  The tombstone is the largest delete the copy took, and *which* it
takes does depend on the order. -/
theorem plain_requests_converge (uuid : Uuids) (rs : List Request) (h : ∀ r ∈ rs, r.Plain) :
    LastWriter.Wins ObjectMeta.writeOrder ObjectMeta.stamp (writes rs) (deletes rs)
      (KeyEntries.run uuid {} rs).current ∧
    (KeyEntries.run uuid {} rs).tombstone [] = largest (takenDeletes uuid {} rs) ∧
    ((KeyEntries.run uuid {} rs).current = none →
      ∀ d ∈ deletes rs, d ≤ (KeyEntries.run uuid {} rs).tombstone []) ∧
    ∀ rs' : List Request, (∀ r, r ∈ rs' ↔ r ∈ rs) →
      (∀ a ∈ writes rs, ∀ b ∈ writes rs, a.writeOrder = b.writeOrder → a = b) →
      (KeyEntries.run uuid {} rs').current = (KeyEntries.run uuid {} rs).current := by
  have hs := settled_run uuid rs h
  refine ⟨hs.wins, hs.tombstone_eq, hs.none_all, ?_⟩
  intro rs' hmem hinj
  have hs' := settled_run uuid rs' (fun r hr => h r ((hmem r).1 hr))
  have hW : writes rs' = writes rs := by simp [writes, hmem]
  have hD : deletes rs' = deletes rs := by simp [deletes, hmem]
  exact (hs'.wins.congr hW hD).unique hinj hs.wins

def noUuids : Uuids := ⟨fun _ => none, fun _ => none⟩

def putAt (id : Bytes) (stamp : Nat) : Request :=
  .put { object := some { objectId := id, stamp } }

def deleteAt (stamp : Nat) : Request := .delete { stamp }

theorem putAt_plain {stamp : Nat} (h : stamp ≠ 0) : (putAt id stamp).Plain :=
  ⟨rfl, rfl, rfl, rfl, _, rfl, h, rfl⟩

theorem deleteAt_plain {stamp : Nat} (h : stamp ≠ 0) : (deleteAt stamp).Plain := ⟨rfl, rfl, h⟩

theorem put_delete_plain : ∀ r ∈ [putAt [1] 5, deleteAt 3], r.Plain := by
  intro r hr
  rcases mem_cons.1 hr with rfl | hr
  · exact putAt_plain (by decide)
  · rw [mem_singleton.1 hr]
    exact deleteAt_plain (by decide)

theorem put_delete_converge : (∀ r ∈ [putAt [1] 5, deleteAt 3], r.Plain) ∧
      (KeyEntries.run noUuids {} [deleteAt 3, putAt [1] 5]).current =
        (KeyEntries.run noUuids {} [putAt [1] 5, deleteAt 3]).current :=
  ⟨put_delete_plain, (plain_requests_converge noUuids _ put_delete_plain).2.2.2 _
    (fun r => by simp [or_comm]) (by
      intro a ha b hb _
      simp only [writes, mem_cons, not_mem_nil, or_false, exists_eq_or_imp,
        exists_eq_left, putAt, deleteAt, Request.written, Option.map_some, Option.some.injEq,
        reduceCtorEq, Set.mem_ofPred_eq] at ha hb
      rw [← ha, ← hb])⟩

/-- **The tombstone depends on the order**: a delete that finds the newer object leaves none. -/
theorem tombstone_depends_on_order : (∀ r ∈ [putAt [1] 5, deleteAt 3], r.Plain) ∧
      (KeyEntries.run noUuids {} [putAt [1] 5, deleteAt 3]).tombstone [] = 0 ∧
      (KeyEntries.run noUuids {} [deleteAt 3, putAt [1] 5]).tombstone [] = 3 :=
  ⟨put_delete_plain, by decide, by decide⟩

/-! ## A deleted version and late writes of it -/

def KeyEntries.Present (s : KeyEntries) (v : Bytes) : Prop :=
  s.versions.get v ≠ none ∨ ∃ c, s.current = some c ∧ c.versionId = v

instance (s : KeyEntries) (v : Bytes) : Decidable (s.Present v) :=
  decidable_of_iff (s.versions.get v ≠ none ∨ s.current.any (fun c => c.versionId == v) = true) (by
    simp [KeyEntries.Present, Option.any_eq_true])

/-- The write only merges replication statuses; or it is of the version's entry alone, which asks that
tombstone; or the copy's current object or the tombstone of the *key* is newer; or its precondition fails. -/
def StoresNothing (uuid : Uuids) (s : KeyEntries) (req : PutObjectMetaRequest) (object : ObjectMeta) : Prop :=
  req.replicationUpdate = true ∨ takesVersionPath uuid s req object = true ∨
    (req.keepNewerCurrent = false ∧ (supersedes s.current object = true ∨ s.deletedSince [] object = true)) ∨
    preconditionHolds s.current req.expectedObjectId req.requireExisting = false

instance (uuid : Uuids) (s : KeyEntries) (req : PutObjectMetaRequest) (object : ObjectMeta) :
    Decidable (StoresNothing uuid s req object) :=
  inferInstanceAs (Decidable (_ ∨ _ ∨ (_ ∧ (_ ∨ _)) ∨ _))

theorem mergeReplication_absent (h : ¬ s.Present o.versionId) :
    mergeReplication s req o = .error (.notStoredHere req.bucket req.key o.versionId) := by
  have hver : s.versions.get o.versionId = none := by
    by_contra hne
    exact h (.inl hne)
  have hcur : s.current.filter (fun c => c.objectId == o.objectId && c.versionId == o.versionId)
      = none := by
    rw [Option.filter_eq_none_iff]
    intro c hc hholds
    simp only [Bool.and_eq_true, beq_iff_eq] at hholds
    exact h (.inr ⟨c, hc, hholds.2⟩)
  unfold mergeReplication
  dsimp only
  rw [hcur, hver]
  simp

theorem putVersionEntry_deleted (req : PutObjectMetaRequest)
    (h : s.deletedSince (versionEntryId o.versionId) o = true) :
    ∃ resp, putVersionEntry s req o = .ok (s, resp) := by
  unfold putVersionEntry
  dsimp only
  rw [if_pos (by simp [h])]
  exact ⟨_, rfl⟩

/-- **One late write** of a deleted version: the version stays gone exactly when the write stores nothing. -/
theorem absent_after_put_iff (uuid : Uuids)
    (ho : req.object = some o) (hv : o.versionId ≠ []) (hst : o.stamp ≠ 0)
    (hT : o.stamp ≤ s.tombstone o.versionId) (habs : ¬ s.Present o.versionId) :
    ¬ (s.apply uuid (.put req)).Present o.versionId ↔ StoresNothing uuid s req (withPg o req.pg) := by
  have hput : putObjectMeta uuid s req =
      if req.replicationUpdate then mergeReplication s req (withPg o req.pg)
      else if takesVersionPath uuid s req (withPg o req.pg) then
        putVersionEntry s req (withPg o req.pg)
      else putCurrent s req (withPg o req.pg) := by
    simp [putObjectMeta, ho]
  have habs' : ¬ s.Present (withPg o req.pg).versionId := by rwa [withPg_versionId]
  by_cases hrep : req.replicationUpdate = true
  · -- there is nothing to merge into
    rw [if_pos hrep, mergeReplication_absent habs'] at hput
    simp [apply, hput, habs, StoresNothing, hrep]
  rw [if_neg hrep] at hput
  by_cases hpath : takesVersionPath uuid s req (withPg o req.pg) = true
  · -- this path asks the version's own tombstone
    have hdel : s.deletedSince (versionEntryId (withPg o req.pg).versionId) (withPg o req.pg) = true := by
      rw [deletedSince_iff, withPg_stamp, withPg_versionId, versionEntryId, if_neg hv]
      exact ⟨hst, hT⟩
    obtain ⟨resp, hok⟩ := putVersionEntry_deleted req hdel
    rw [if_pos hpath, hok] at hput
    simp [apply, hput, habs, StoresNothing, hpath]
  rw [if_neg hpath] at hput
  cases hcur : putCurrent s req (withPg o req.pg) with
  | error e =>
    rw [hcur] at hput
    have hpre : preconditionHolds s.current req.expectedObjectId req.requireExisting = false := by
      unfold putCurrent at hcur
      split at hcur
      · cases hcur
      · split at hcur
        · rename_i hpre
          simpa using hpre
        · cases hcur
    simp [apply, hput, habs, StoresNothing, hpre]
  | ok p =>
    obtain ⟨s', resp⟩ := p
    rw [hcur] at hput
    have happ : s.apply uuid (.put req) = s' := by simp [apply, hput]
    rw [happ]
    rcases putCurrent_ok hcur with ⟨-, rfl, hk, hsup, -⟩ | ⟨-, rfl, hnot, hpre⟩
    · simp [habs, StoresNothing, hk, hsup]
    · -- stored: the object of version `v` is current
      refine ⟨fun hn => absurd (.inr ⟨_, rfl, withPg_versionId o req.pg⟩) hn, ?_⟩
      rintro (h | h | ⟨hk, h⟩ | h)
      · exact absurd h hrep
      · exact absurd h hpath
      · rw [(hnot hk).1, (hnot hk).2] at h
        rcases h with h | h <;> cases h
      · rw [hpre] at h
        cases h

/-- A version deleted on a copy comes back with a late write of it **exactly when** the write reaches the
current entry: that path asks the tombstone of the key, not the version's. -/
theorem late_put_revives_iff (uuid : Uuids) (rs rs' : List Request)
    (del : DeleteObjectMetaRequest) (req : PutObjectMetaRequest) (o : ObjectMeta)
    (hv : del.versionId ≠ []) (hw : del.withdrawObjectId = []) (hd : del.stamp ≠ 0)
    (htook : (deleteObjectMeta uuid (KeyEntries.run uuid {} rs) del).2.superseded = false)
    (ho : req.object = some o) (hov : o.versionId = del.versionId) (hst : o.stamp ≠ 0)
    (hle : o.stamp ≤ del.stamp) :
    let s := KeyEntries.run uuid {} (rs ++ .delete del :: rs')
    ¬ (¬ s.Present del.versionId ∧ (s.apply uuid (.put req)).Present del.versionId) ↔
      s.Present del.versionId ∨ StoresNothing uuid s req (withPg o req.pg) := by
  intro s
  have hT : del.stamp ≤ s.tombstone del.versionId := by
    show _ ≤ tombstone (run uuid {} (rs ++ .delete del :: rs')) _
    rw [run_append, run_cons]
    refine le_trans ?_ (tombstone_le_run uuid del.versionId rs' _)
    rcases deleteObjectMeta_cases uuid (run uuid {} rs) hw hd with
      ⟨hsup, -⟩ | ⟨-, -, htomb, -⟩
    · rw [htook] at hsup
      cases hsup
    · show _ ≤ tombstone (deleteObjectMeta uuid (run uuid {} rs) del).1 _
      rw [htomb, if_pos rfl]
      exact le_max_right _ _
  by_cases hp : s.Present del.versionId
  · simp [hp]
  · have := absent_after_put_iff uuid ho (hov ▸ hv) hst (by rw [hov]; omega) (hov ▸ hp)
    rw [hov] at this
    simp only [hp, not_false_eq_true, true_and, false_or]
    exact this

def putV1 : PutObjectMetaRequest :=
  { object := some { objectId := [1], versionId := [118, 49], stamp := 5 }, versioningEnabled := true }

def deleteV1 : DeleteObjectMetaRequest := { versionId := [118, 49], stamp := 6 }

/-- The same write late, of the version's entry alone: the version stays gone. -/
theorem late_version_only_put :
    let s := KeyEntries.run noUuids {} ([.put putV1] ++ .delete deleteV1 :: [])
    ¬ (¬ s.Present [118, 49] ∧
      (s.apply noUuids (.put { putV1 with versionOnly := true })).Present [118, 49]) :=
  (late_put_revives_iff noUuids [.put putV1] [] deleteV1 { putV1 with versionOnly := true } _
    (by decide) rfl (by decide) (by decide) rfl rfl (by decide) (by decide)).2
    (.inr (by decide))

/-- **The same write late brings the version back**, as its entry and as the current object. -/
theorem late_put_revives_version :
    (deleteObjectMeta noUuids (KeyEntries.run noUuids {} [.put putV1]) deleteV1).2.superseded = false ∧
      ¬ (KeyEntries.run noUuids {} [.put putV1, .delete deleteV1]).Present [118, 49] ∧
      (KeyEntries.run noUuids {} [.put putV1, .delete deleteV1, .put putV1]).Present [118, 49] ∧
      (KeyEntries.run noUuids {} [.put putV1, .delete deleteV1, .put putV1]).current =
        some { objectId := [1], versionId := [118, 49], stamp := 5 } := by
  refine ⟨by decide, by decide, by decide, by decide⟩

end IoLake.Osd
