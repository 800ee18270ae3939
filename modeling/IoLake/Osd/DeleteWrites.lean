import IoLake.Osd.KeyRuns

/-!
# The writes of a delete by version (`osd/src/service.rs`)

`delete_object_meta` makes up to three durable writes for a version; a write that fails, or a crash, ends the
handler between two of them.
-/

namespace IoLake.Osd

open IoLake.Proto List KeyEntries

variable {uuid : Uuids} {s s' : KeyEntries} {req : DeleteObjectMetaRequest}

def KeyEntries.isCurrent (s : KeyEntries) (versionId : Bytes) : Bool :=
  s.current.any (fun c => versionEntryId c.versionId == versionId)

def marked (s : KeyEntries) (req : DeleteObjectMetaRequest) : KeyEntries :=
  if req.stamp = 0 then s else s.putTombstone req.versionId req.stamp (deletePg s req)

/-- The states those writes leave, one after the other. -/
def deleteWrites (uuid : Uuids) (s : KeyEntries) (req : DeleteObjectMetaRequest) : List KeyEntries :=
  if req.stamp ≠ 0 ∧ (s.target req.versionId).any (fun o => decide (req.stamp < o.stamp)) then []
  else
    let removed := { marked s req with versions := (marked s req).versions.erase req.versionId }
    -- was it the current version? Then the newest one left becomes current
    if removed.isCurrent req.versionId then
      [marked s req, removed,
        { removed with current := newestVersion uuid (removed.versions.entries.map (·.2)) }]
    else [marked s req, removed]

/-- The last state is what the whole handler makes of the entries. -/
theorem deleteWrites_last (hw : req.withdrawObjectId = []) (hv : req.versionId ≠ []) :
    (s :: deleteWrites uuid s req).getLast (by simp) = (deleteObjectMeta uuid s req).1 := by
  unfold deleteWrites deleteObjectMeta promoted isCurrent
  simp only [hw, hv, ne_eq, not_true, if_false]
  split
  · rfl
  · show getLast _ _ = _
    split <;> rename_i hc <;> simp only [marked] at hc <;> simp [marked, hc]

def Unchanged (versionId : Bytes) (s s' : KeyEntries) : Prop :=
  s'.current = s.current ∧ s'.versions = s.versions ∧
    ∀ id ≠ versionId, s'.tombstones.get id = s.tombstones.get id

theorem unchanged_marked (s : KeyEntries) (req : DeleteObjectMetaRequest) :
    Unchanged req.versionId s (marked s req) := by
  unfold marked putTombstone
  split_ifs
  · exact ⟨rfl, rfl, fun _ _ => rfl⟩
  · exact ⟨rfl, rfl, fun _ _ => rfl⟩
  · exact ⟨rfl, rfl, fun id hid => by simp [OrdMap.get_insert, hid]⟩

theorem unchanged_refl (versionId : Bytes) (s : KeyEntries) : Unchanged versionId s s :=
  ⟨rfl, rfl, fun _ _ => rfl⟩

/-- The request's stamp is older than what the key has under the version's name: nothing is written. -/
def Superseded (s : KeyEntries) (req : DeleteObjectMetaRequest) : Prop :=
  req.stamp ≠ 0 ∧ (s.target req.versionId).any (fun o => decide (req.stamp < o.stamp)) = true

/-- The entries once the version's own is gone, before the current one is replaced. -/
def removed (s : KeyEntries) (req : DeleteObjectMetaRequest) : KeyEntries :=
  { marked s req with versions := (marked s req).versions.erase req.versionId }

theorem isCurrent_marked : (marked s req).isCurrent req.versionId = s.isCurrent req.versionId := by
  rw [isCurrent, isCurrent, (unchanged_marked s req).1]

theorem isCurrent_removed : (removed s req).isCurrent req.versionId = s.isCurrent req.versionId :=
  isCurrent_marked

theorem unchanged_removed (hnone : s.versions.get req.versionId = none) :
    Unchanged req.versionId s (removed s req) := by
  obtain ⟨hcurrent, hversions, htombs⟩ := unchanged_marked s req
  refine ⟨hcurrent, OrdMap.ext_get fun k => ?_, htombs⟩
  show ((marked s req).versions.erase req.versionId).get k = _
  rw [hversions, OrdMap.get_erase]
  split
  · rename_i hk
    rw [hk, hnone]
  · rfl

theorem deleteWrites_superseded (h : Superseded s req) : deleteWrites uuid s req = [] :=
  if_pos h

theorem deleteWrites_current (h : ¬ Superseded s req) (hc : s.isCurrent req.versionId = true) :
    ∃ s', deleteWrites uuid s req = [marked s req, removed s req, s'] :=
  ⟨_, (if_neg h).trans (if_pos (isCurrent_removed.trans hc))⟩

theorem deleteWrites_not_current (h : ¬ Superseded s req) (hc : s.isCurrent req.versionId = false) :
    deleteWrites uuid s req = [marked s req, removed s req] :=
  (if_neg h).trans (if_neg (Bool.eq_false_iff.1 (isCurrent_removed.trans hc)))

/-- What a copy may be left with: the entries as they were but for the version's tombstone, or as a complete
delete leaves them; and not the current entry without the version's. -/
def AllOrNothing (uuid : Uuids) (s : KeyEntries) (req : DeleteObjectMetaRequest) (s' : KeyEntries) : Prop :=
  (Unchanged req.versionId s s' ∨ s' = (deleteObjectMeta uuid s req).1) ∧
    (s.versions.get req.versionId ≠ none →
      ¬ (s'.versions.get req.versionId = none ∧ s'.isCurrent req.versionId = true))

theorem allOrNothing_of_unchanged (h : Unchanged req.versionId s s') : AllOrNothing uuid s req s' :=
  ⟨.inl h, fun hsome hgone => hsome (h.2.1 ▸ hgone.1)⟩

/-- **Deleting a version is all or nothing exactly where** it is not the current version, the request writes
nothing because a later one was taken, or the version has no entry of its own. -/
theorem delete_all_or_nothing_iff (uuid : Uuids) (s : KeyEntries) (req : DeleteObjectMetaRequest)
    (hw : req.withdrawObjectId = []) (hv : req.versionId ≠ []) :
    (∀ s' ∈ s :: deleteWrites uuid s req, AllOrNothing uuid s req s') ↔
      s.isCurrent req.versionId = false ∨ Superseded s req ∨ s.versions.get req.versionId = none := by
  have hlast := @deleteWrites_last uuid s req hw hv
  have hstart : AllOrNothing uuid s req s := allOrNothing_of_unchanged (unchanged_refl _ s)
  have hmarked : AllOrNothing uuid s req (marked s req) := allOrNothing_of_unchanged (unchanged_marked s req)
  by_cases hsup : Superseded s req
  · rw [deleteWrites_superseded hsup]
    simpa [hsup] using hstart
  cases hc : s.isCurrent req.versionId with
  | false =>
    rw [deleteWrites_not_current hsup hc] at hlast ⊢
    -- the version's entry goes in the last write, and it was not current
    have hremoved : AllOrNothing uuid s req (removed s req) :=
      ⟨.inr hlast, fun _ hgone => by simp [isCurrent_removed, hc] at hgone⟩
    simp [hstart, hmarked, hremoved]
  | true =>
    obtain ⟨s', hwrites⟩ := @deleteWrites_current uuid s req hsup hc
    rw [hwrites] at hlast ⊢
    refine ⟨fun h => .inr (.inr ?_), fun h => ?_⟩
    · by_contra hsome
      refine (h (removed s req) (by simp)).2 hsome ⟨?_, isCurrent_removed.trans hc⟩
      simp [removed]
    · have hnone : s.versions.get req.versionId = none := by simpa [hsup] using h
      have hremoved := @allOrNothing_of_unchanged uuid _ _ _ (unchanged_removed hnone)
      have hdone : AllOrNothing uuid s req s' := ⟨.inr hlast, fun hsome => absurd hnone hsome⟩
      simp [hstart, hmarked, hremoved, hdone]

def twoVersions : KeyEntries where
  current := some { objectId := [2], versionId := [98], stamp := 9 }
  versions := OrdMap.empty.extend
    [([97], { objectId := [1], versionId := [97] }), ([98], { objectId := [2], versionId := [98], stamp := 9 })]

/-- The older of the two deleted, with the tombstone of its delete; and the current one by a request stamped
before it. -/
theorem older_all_or_nothing :
    (∃ s' ∈ deleteWrites noUuids twoVersions { versionId := [97], stamp := 7 },
      s' ≠ twoVersions ∧ AllOrNothing noUuids twoVersions { versionId := [97], stamp := 7 } s') ∧
    ∀ s' ∈ twoVersions :: deleteWrites noUuids twoVersions { versionId := [98], stamp := 3 },
      AllOrNothing noUuids twoVersions { versionId := [98], stamp := 3 } s' :=
  ⟨⟨_, mem_cons_self, by decide, (delete_all_or_nothing_iff noUuids twoVersions
      { versionId := [97], stamp := 7 } rfl (by decide)).2 (.inl (by decide)) _
        (mem_cons_of_mem _ mem_cons_self)⟩,
    (delete_all_or_nothing_iff noUuids twoVersions { versionId := [98], stamp := 3 } rfl (by decide)).2
      (.inr (.inl ⟨by decide, by decide⟩))⟩

/-- A delete of the current version can leave it current with its entry gone. -/
theorem current_without_version :
    ∃ s' ∈ twoVersions :: deleteWrites noUuids twoVersions { versionId := [98], stamp := 11 },
      s'.versions.get [98] = none ∧ s'.isCurrent [98] = true ∧ ¬ Unchanged [98] twoVersions s' ∧
      s' ≠ (deleteObjectMeta noUuids twoVersions { versionId := [98], stamp := 11 }).1 := by
  refine ⟨_, mem_cons_of_mem _ (mem_cons_of_mem _ mem_cons_self), ?_⟩
  refine ⟨by decide, by decide, fun h => absurd h.2.1 (by decide), by decide⟩

end IoLake.Osd
