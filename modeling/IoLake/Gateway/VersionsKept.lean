import IoLake.Gateway.QuorumRead

/-!
# An acknowledged version and the copies that keep it

Writes of distinct versions of one key, each by a call of its own, with no deletes.  A copy that supersedes a
write stores nothing of it, and counts as applied all the same once the call is not stamped again.
-/

namespace IoLake.Gateway

open IoLake.Proto IoLake.Osd List Steps Finset PutCall

variable {n : Nat} {cfg : Config n} {w w' : World n} {e : Event n}

def holdsVersion (s : KeyEntries) (object : ObjectMeta) : Bool :=
  (s.versions.get object.versionId).any (fun o => o.objectId == object.objectId)

variable {s : KeyEntries}

theorem holdsVersion_iff {object : ObjectMeta} : holdsVersion s object = true ↔
      ∃ o, s.versions.get object.versionId = some o ∧ o.objectId = object.objectId := by
  simp [holdsVersion, Option.any_eq_true]

def freshVersion (w : World n) : Event n → Bool
  | .startPut write object _ => write.versioningEnabled && object.versionId != [] &&
      w.puts.all (fun p => p.object.versionId != object.versionId && p.object.objectId != object.objectId)
  | .startDelete _ _ _ => false
  | _ => true

def PutCall.lastRound (p : PutCall n) (round : Nat) : Bool :=
  !p.restamp || decide (OneKey.MAX_RESTAMPS ≤ round + 1)

/-- A delivery in a call's last round finds the version's entry there, or no newer current object. -/
def lastRoundFits (w : World n) : Event n → Bool
  | .deliver k _ =>
    match w.net[k]? with
    | some (.put c r i req) =>
      match w.puts[c]?, req.object with
      | some p, some o => !p.lastRound r || holdsVersion (w.copies i) o || req.versionOnly ||
          req.keepNewerCurrent || !supersedes (w.copies i).current o
      | _, _ => true
    | _ => true
  | _ => true

/-! ## What the copies hold belongs to the calls -/

structure Distinct (w : World n) : Prop where
  versioned : ∀ p ∈ w.puts, p.write.versioningEnabled = true ∧ p.object.versionId ≠ []
  version : ∀ (c c' : Nat) (p p' : PutCall n), w.puts[c]? = some p → w.puts[c']? = some p' →
    p.object.versionId = p'.object.versionId → c = c'
  object : ∀ (c c' : Nat) (p p' : PutCall n), w.puts[c]? = some p → w.puts[c']? = some p' →
    p.object.objectId = p'.object.objectId → c = c'

theorem start_versionId (write : MetaWrite) (object : ObjectMeta) (owner : Bytes) (clock : Clock) :
    (start write object owner clock : PutCall n).object.versionId = object.versionId := by
  unfold start
  dsimp only
  split <;> exact withPg_versionId _ _

variable {c : Nat}

theorem put_ids (hI : CallsInv w) (hf : freshVersion w e = true) (h : step cfg w e = some w')
    {p' : PutCall n} (hp' : w'.puts[c]? = some p') :
    (∃ p, w.puts[c]? = some p ∧ p'.object.versionId = p.object.versionId ∧
      p'.object.objectId = p.object.objectId ∧ p'.write = p.write) ∨
    (c = w.puts.length ∧ p'.write.versioningEnabled = true ∧ p'.object.versionId ≠ [] ∧
      ∀ p ∈ w.puts, p.object.versionId ≠ p'.object.versionId ∧ p.object.objectId ≠ p'.object.objectId) := by
  rcases put_back h hp' with ⟨p, hp, hmv⟩ | ⟨hc, write, object, clock, i, rfl, rfl⟩
  · have hl := hmv.later (hI.put_above c p hp)
    exact .inl ⟨p, hp, hl.versionId_eq, hl.objectId_eq, hl.write_eq⟩
  · refine .inr ⟨hc, ?_⟩
    simp only [freshVersion, Bool.and_eq_true, bne_iff_ne, all_eq_true] at hf
    rw [start_versionId, start_objectId]
    exact ⟨hf.1.1, hf.1.2, hf.2⟩

theorem Distinct.step (hD : Distinct w) (hI : CallsInv w) (hf : freshVersion w e = true)
    (h : step cfg w e = some w') : Distinct w' := by
  -- two calls that agree on an id are one: neither is fresh unless both are
  have key : ∀ (f : ObjectMeta → Bytes), (∀ (c c' : Nat) (p p' : PutCall n), w.puts[c]? = some p →
        w.puts[c']? = some p' → f p.object = f p'.object → c = c') →
      (∀ {c : Nat} {p' : PutCall n}, w'.puts[c]? = some p' →
        (∃ p, w.puts[c]? = some p ∧ f p'.object = f p.object) ∨
        (c = w.puts.length ∧ ∀ p ∈ w.puts, f p.object ≠ f p'.object)) →
      ∀ (c c' : Nat) (p p' : PutCall n), w'.puts[c]? = some p → w'.puts[c']? = some p' →
        f p.object = f p'.object → c = c' := by
    intro f hold hback c c' p p' hp hp' heq
    rcases hback hp with ⟨q, hq, hqf⟩ | ⟨hc, hfresh⟩
    · rcases hback hp' with ⟨q', hq', hqf'⟩ | ⟨hc', hfresh'⟩
      · exact hold c c' q q' hq hq' (by rw [← hqf, ← hqf', heq])
      · exact absurd (hqf.symm.trans heq) (hfresh' q (mem_of_getElem? hq))
    · rcases hback hp' with ⟨q', hq', hqf'⟩ | ⟨hc', -⟩
      · exact absurd (hqf'.symm.trans heq.symm) (hfresh q' (mem_of_getElem? hq'))
      · rw [hc, hc']
  refine ⟨fun p hp => ?_, key ObjectMeta.versionId hD.version fun hp' => ?_,
    key ObjectMeta.objectId hD.object fun hp' => ?_⟩
  · obtain ⟨c, hc⟩ := mem_iff_getElem?.1 hp
    rcases put_ids hI hf h hc with ⟨q, hq, hv, -, hwr⟩ | ⟨-, hve, hv, -⟩
    · rw [hv, hwr]
      exact hD.versioned q (mem_of_getElem? hq)
    · exact ⟨hve, hv⟩
  · rcases put_ids hI hf h hp' with ⟨q, hq, hv, -⟩ | ⟨hc, -, -, hfr⟩
    · exact .inl ⟨q, hq, hv⟩
    · exact .inr ⟨hc, fun p hp => (hfr p hp).1⟩
  · rcases put_ids hI hf h hp' with ⟨q, hq, -, hid, -⟩ | ⟨hc, -, -, hfr⟩
    · exact .inl ⟨q, hq, hid⟩
    · exact .inr ⟨hc, fun p hp => (hfr p hp).2⟩

def Written (w : World n) (v id : Bytes) : Prop :=
  ∃ (c : Nat) (p : PutCall n), w.puts[c]? = some p ∧ p.object.versionId = v ∧ p.object.objectId = id

theorem Written.step {v id : Bytes} (hW : Written w v id) (hI : CallsInv w)
    (h : step cfg w e = some w') : Written w' v id := by
  obtain ⟨c, p, hp, hv, hid⟩ := hW
  obtain ⟨p', hp', hl⟩ := hI.put_later h hp
  exact ⟨c, p', hp', hl.versionId_eq.trans hv, hl.objectId_eq.trans hid⟩

/-- Each entry is under its own version, the current object has a version, and there is no tombstone. -/
structure EntriesWritten (w : World n) (s : KeyEntries) : Prop where
  entry : ∀ v o, s.versions.get v = some o → o.versionId = v ∧ Written w v o.objectId
  current : ∀ o, s.current = some o → o.versionId ≠ [] ∧ Written w o.versionId o.objectId
  tombstone : s.tombstones = OrdMap.empty

theorem EntriesWritten.mono (h : EntriesWritten w s) (hI : CallsInv w)
    (hst : step cfg w e = some w') : EntriesWritten w' s :=
  ⟨fun v o ho => ⟨(h.entry v o ho).1, (h.entry v o ho).2.step hI hst⟩,
    fun o ho => ⟨(h.current o ho).1, (h.current o ho).2.step hI hst⟩, h.tombstone⟩

theorem EntriesWritten.deletedSince (h : EntriesWritten w s) (v : Bytes)
    (o : ObjectMeta) : s.deletedSince v o = false := by
  have h0 : s.tombstone v = 0 := by
    unfold KeyEntries.tombstone
    rw [h.tombstone]
    rfl
  rw [KeyEntries.deletedSince, h0]
  by_cases hz : o.stamp = 0 <;> simp [hz]

variable {req : PutObjectMetaRequest} {o : ObjectMeta}

theorem versionsWritten_versioned (hreq : req.versioningEnabled = true) (hv : o.versionId ≠ [])
    (hcur : ∀ c, s.current = some c → c.versionId ≠ []) :
    versionsWritten s req o = s.versions.insert o.versionId o := by
  have hnull : s.current.filter (fun c => c.versionId == []) = none := by
    rw [Option.filter_eq_none_iff]
    intro c hc
    simpa using hcur c hc
  unfold versionsWritten
  rw [hnull]
  simp [hreq, hv]

/-- **A versioned write on a copy with no tombstones**: it changes nothing, or its version's entry is written.
-/
theorem putObjectMeta_versioned {uuid : Uuids} {s s' : KeyEntries}
    {resp : PutObjectMetaResponse} (ho : req.object = some o)
    (hve : req.versioningEnabled = true) (hrep : req.replicationUpdate = false)
    (hv : o.versionId ≠ []) (hE : EntriesWritten w s) (h : putObjectMeta uuid s req = .ok (s', resp)) :
    (resp.superseded = true ∧ s' = s ∧ ((∃ prev, s.versions.get o.versionId = some prev) ∨
      (req.versionOnly = false ∧ req.keepNewerCurrent = false ∧ supersedes s.current o = true))) ∨
    (resp.superseded = false ∧ s'.versions = s.versions.insert o.versionId (withPg o req.pg) ∧
      (s'.current = s.current ∨ s'.current = some (withPg o req.pg)) ∧ s'.tombstones = s.tombstones) := by
  have hv' : (withPg o req.pg).versionId ≠ [] := by rwa [withPg_versionId]
  unfold putObjectMeta at h
  rw [ho] at h
  dsimp only at h
  rw [if_neg (by simp [hrep])] at h
  split at h
  · -- the version's entry alone
    have hentry : versionEntryId (withPg o req.pg).versionId = o.versionId := by
      rw [versionEntryId, if_neg hv', withPg_versionId]
    rcases putVersionEntry_ok h with ⟨hs, rfl, hor, -⟩ | ⟨hs, rfl⟩
    · refine .inl ⟨hs, rfl, .inl ?_⟩
      rw [hentry, hE.deletedSince] at hor
      obtain ⟨-, prev, hprev, -⟩ := supersedes_iff.1 (hor.resolve_right Bool.false_ne_true)
      exact ⟨prev, hprev⟩
    · rw [hentry]
      exact .inr ⟨hs, rfl, .inl rfl, rfl⟩
  · rename_i hpath
    have hvo : req.versionOnly = false := by
      simp only [takesVersionPath, Bool.not_eq_true, Bool.or_eq_false_iff] at hpath
      exact hpath.1
    rcases putCurrent_ok h with ⟨hs, rfl, hkeep, hor, -⟩ | ⟨hs, rfl, -⟩
    · rw [hE.deletedSince] at hor
      have hsup := hor.resolve_right Bool.false_ne_true
      rw [supersedes, withPg_stamp, writeOrder_withPg] at hsup
      exact .inl ⟨hs, rfl, .inr ⟨hvo, hkeep, hsup⟩⟩
    · refine .inr ⟨hs, ?_, .inr rfl, rfl⟩
      show versionsWritten s req (withPg o req.pg) = _
      rw [versionsWritten_versioned hve hv' (fun c hc => (hE.current c hc).1), withPg_versionId]

structure VersionsInv (w : World n) : Prop where
  calls : CallsInv w
  distinct : Distinct w
  no_delete : w.deletes = []
  entries : ∀ i, EntriesWritten w (w.copies i)
  stamped : ∀ p ∈ w.puts, p.restamp = true → 0 < p.object.stamp

theorem VersionsInv.put_msg (hV : VersionsInv w) {c r : Nat} {i : Fin n} (hm : .put c r i req ∈ w.net) :
    ∃ p o, w.puts[c]? = some p ∧ req.object = some o ∧ o.versionId = p.object.versionId ∧
      o.objectId = p.object.objectId ∧ req.versioningEnabled = true ∧
      req.replicationUpdate = false ∧ o.versionId ≠ [] := by
  obtain ⟨p, hp, -, -, st, -, rfl⟩ := hV.calls.put_msg c r i req hm
  obtain ⟨hve, hv⟩ := hV.distinct.versioned p (mem_of_getElem? hp)
  exact ⟨p, _, hp, rfl, rfl, rfl, hve, rfl, hv⟩

variable {p : PutCall n}

section
variable (hV : VersionsInv w)
include hV

theorem VersionsInv.entry_mine {i : Fin n} (hp : w.puts[c]? = some p)
    (ho : (w.copies i).versions.get p.object.versionId = some o) : o.objectId = p.object.objectId := by
  obtain ⟨-, c', p', hp', hv, hid⟩ := (hV.entries i).entry _ _ ho
  have hcc := hV.distinct.version c' c p' p hp' hp hv
  subst hcc
  rw [hp] at hp'
  cases hp'
  exact hid.symm

theorem VersionsInv.entries_apply {m : Msg n} (hm : m ∈ w.net) :
    EntriesWritten w (m.apply cfg (w.copies m.copy)) := by
  cases m with
  | put c r i req =>
    obtain ⟨p, o, hp, ho, hv, hid, hve, hrep, hne⟩ := hV.put_msg hm
    show EntriesWritten w (putEntries (w.copies i) (putObjectMeta cfg.uuid (w.copies i) req))
    cases hans : putObjectMeta cfg.uuid (w.copies i) req with
    | error err => exact hV.entries i
    | ok a =>
      obtain ⟨s', resp⟩ := a
      rcases putObjectMeta_versioned ho hve hrep hne (hV.entries i) hans with
        ⟨-, rfl, -⟩ | ⟨-, hvs, hcur, htomb⟩
      · exact hV.entries i
      · have hmine : Written w o.versionId o.objectId := ⟨c, p, hp, hv.symm, hid.symm⟩
        refine ⟨fun v x hx => ?_, fun x hx => ?_, htomb.trans (hV.entries i).tombstone⟩
        · change s'.versions.get v = some x at hx
          rw [hvs, OrdMap.get_insert] at hx
          split at hx
          · rename_i hvk
            cases hx
            rw [withPg_versionId, withPg_objectId, hvk]
            exact ⟨rfl, hmine⟩
          · exact (hV.entries i).entry v x hx
        · rcases hcur with hcur | hcur
          · exact (hV.entries i).current x (hcur ▸ hx)
          · cases hcur.symm.trans hx
            rw [withPg_versionId, withPg_objectId]
            exact ⟨hne, hmine⟩
  | delete c r i req =>
    obtain ⟨q, hq, -⟩ := hV.calls.delete_msg c r i req hm
    rw [hV.no_delete] at hq
    cases hq
  | withdraw c i id =>
    have hE := hV.entries i
    refine ⟨fun v x hx => hE.entry v x (withdraw_versions.1 hx).1, fun x hx => ?_,
      (withdraw_tombstones _ _ _).trans hE.tombstone⟩
    rcases withdraw_current_of hx with hx | ⟨v, hx⟩
    · exact hE.current x hx
    · -- a version made current again is one some call wrote
      obtain ⟨rfl, hW⟩ := hE.entry v x hx
      refine ⟨?_, hW⟩
      obtain ⟨c', p', hp', hv, -⟩ := hW
      rw [← hv]
      exact (hV.distinct.versioned p' (mem_of_getElem? hp')).2

theorem VersionsInv.holds_apply (hp : w.puts[c]? = some p) (hs : ¬ p.short) {m : Msg n} (hm : m ∈ w.net)
    (hh : holdsVersion (w.copies m.copy) p.object = true) :
    holdsVersion (m.apply cfg (w.copies m.copy)) p.object = true := by
  obtain ⟨x, hx, hxid⟩ := holdsVersion_iff.1 hh
  cases m with
  | put c' r i req =>
    obtain ⟨p', o, hp', ho, hv, hid, hve, hrep, hne⟩ := hV.put_msg hm
    show holdsVersion (putEntries (w.copies i) (putObjectMeta cfg.uuid (w.copies i) req)) _ = true
    cases hans : putObjectMeta cfg.uuid (w.copies i) req with
    | error err => exact hh
    | ok a =>
      obtain ⟨s', resp⟩ := a
      rcases putObjectMeta_versioned ho hve hrep hne (hV.entries i) hans with
        ⟨-, rfl, -⟩ | ⟨-, hvs, -⟩
      · exact hh
      · rw [holdsVersion_iff]
        show ∃ x, s'.versions.get _ = some x ∧ _
        rw [hvs, OrdMap.get_insert]
        split
        · -- another write of this version is of the same call
          rename_i hvk
          have hcc := hV.distinct.version c c' p p' hp hp' (hvk.trans hv)
          subst hcc
          rw [hp] at hp'
          cases hp'
          exact ⟨_, rfl, by rw [withPg_objectId, hid]⟩
        · exact ⟨x, hx, hxid⟩
  | delete c' r i req =>
    obtain ⟨q, hq, -⟩ := hV.calls.delete_msg c' r i req hm
    rw [hV.no_delete] at hq
    cases hq
  | withdraw c' i id =>
    obtain ⟨p', hp', hid, hs'⟩ := hV.calls.withdraw_msg c' i id hm
    refine holdsVersion_iff.2 ⟨x, withdraw_versions.2 ⟨hx, fun heq => ?_⟩, hxid⟩
    have hcc := hV.distinct.object c c' p p' hp hp' (by rw [← hxid, heq, hid])
    subst hcc
    rw [hp] at hp'
    cases hp'
    exact hs hs'

theorem VersionsInv.step (hf : freshVersion w e = true) (h : step cfg w e = some w') : VersionsInv w' where
  calls := hV.calls.step h
  distinct := hV.distinct.step hV.calls hf h
  no_delete := by
    refine no_delete_step hV.no_delete (fun _ _ _ he => ?_) h
    rw [he] at hf
    cases hf
  entries i := by
    refine EntriesWritten.mono ?_ hV.calls h
    rcases copy_after h i with heq | ⟨k, heard, m, -, hm, rfl, heq⟩
    · rw [heq]
      exact hV.entries i
    · rw [heq]
      exact hV.entries_apply (mem_of_getElem? hm)
  stamped p' hp' hr := by
    obtain ⟨c, hc⟩ := mem_iff_getElem?.1 hp'
    rcases put_back h hc with ⟨p, hp, hmv⟩ | ⟨-, write, object, clock, i, -, rfl⟩
    · have hl := hmv.later (hV.calls.put_above c p hp)
      have hr' : p.restamp = true := by rwa [restamp, hl.write_eq] at hr
      exact lt_of_lt_of_le (hV.stamped p (mem_of_getElem? hp) hr') hl.stamp_le
    · have hexp : write.expectedObjectId = [] := by
        simp only [restamp, start, Bool.and_eq_true, beq_iff_eq] at hr
        exact hr.1.1
      simp only [start, if_pos hexp]
      exact lt_of_le_of_lt (Nat.zero_le _) (clock.lt_nextAfter _)

theorem VersionsInv.holds_step
    (hp : w.puts[c]? = some p) (hs : ¬ p.short) (h : IoLake.Gateway.step cfg w e = some w')
    {i : Fin n} (hh : holdsVersion (w.copies i) p.object = true) :
    holdsVersion (w'.copies i) p.object = true := by
  rcases copy_after h i with heq | ⟨k, heard, m, -, hm, rfl, heq⟩
  · rwa [heq]
  · rw [heq]
    exact hV.holds_apply hp hs (mem_of_getElem? hm) hh

theorem VersionsInv.answered_holds {k c : Nat} {i : Fin n}
    {d : Displaced} {held : Nat} (hp : w.puts[c]? = some p) (hm : w.net[k]? = some (.put c p.round i req))
    (hfit : lastRoundFits w (.deliver k true) = true)
    (h : IoLake.Gateway.step cfg w (.deliver k true) = some w')
    (hans : putAnswer (putObjectMeta cfg.uuid (w.copies i) req) = .ok (d, held))
    (hd : d.superseded = false ∨ p.lastRound p.round = true) :
    holdsVersion (w'.copies i) p.object = true := by
  obtain ⟨q, o, hq, ho, hv, hid, hve, hrep, hne⟩ := hV.put_msg (mem_of_getElem? hm)
  rw [hp] at hq
  cases hq
  obtain ⟨s', resp, hok, hsup, -⟩ := putAnswer_ok hans
  have hcopy : w'.copies i = putEntries (w.copies i) (putObjectMeta cfg.uuid (w.copies i) req) :=
    deliver_copies hm h
  rw [hcopy, hok]
  show holdsVersion s' p.object = true
  rcases putObjectMeta_versioned ho hve hrep hne (hV.entries i) hok with
    ⟨hs, rfl, hor⟩ | ⟨-, hvs, -⟩
  · have hlast : p.lastRound p.round = true := by
      rcases hd with hd | hd
      · rw [hsup, hs] at hd
        cases hd
      · exact hd
    rcases hor with ⟨prev, hprev⟩ | ⟨hvo, hkeep, hnewer⟩
    · rw [hv] at hprev
      exact holdsVersion_iff.2 ⟨prev, hprev, hV.entry_mine hp hprev⟩
    · -- superseded in the last round: the entry was there
      have hold : holdsVersion (w.copies i) o = true := by
        simpa [lastRoundFits, hm, hp, ho, hlast, hvo, hkeep, hnewer] using hfit
      rwa [holdsVersion, hv, hid] at hold
  · refine holdsVersion_iff.2 ⟨withPg o req.pg, ?_, by rw [withPg_objectId, hid]⟩
    rw [hvs, ← hv, OrdMap.get_insert_self]

end

/-- What a running call was told of its version, and what an acknowledged one was. -/
structure ToldHeld (w : World n) : Prop where
  running : ∀ (c : Nat) (p : PutCall n), w.puts[c]? = some p → p.phase = .running →
    ∀ i d held, p.slots i = .ok (d, held) → (d.superseded = false ∨ p.lastRound p.round = true) →
      holdsVersion (w.copies i) p.object = true
  acked : ∀ (c : Nat) (p : PutCall n) (replies : Fin n → Displaced), w.puts[c]? = some p →
    p.phase = .acked replies → ∀ i ∈ p.heard, holdsVersion (w.copies i) p.object = true

theorem PutCall.taken_of_not_again (hst : p.restamp = true → 0 < p.object.stamp)
    (hab : p.SupersededAbove) (hag : p.again = false) {i : Fin n} {d : Displaced} {held : Nat}
    (hs : p.slots i = .ok (d, held)) : d.superseded = false ∨ p.lastRound p.round = true := by
  by_cases hsup : d.superseded = true
  · refine .inr ?_
    by_contra hlast
    simp only [lastRound, Bool.or_eq_true, Bool.not_eq_true', decide_eq_true_eq, not_or,
      Bool.not_eq_false, not_le] at hlast
    have hpos : 0 < p.held := by
      have hby : p.heldBy i = held := by simp [heldBy, hs, hsup]
      have hle : p.heldBy i ≤ p.held := le_sup (f := p.heldBy) (mem_univ i)
      have := hst hlast.1
      have := hab i d held hs hsup
      omega
    simp [again, hlast.1, hlast.2, hpos.ne'] at hag
  · exact .inl (by simpa using hsup)

theorem ToldHeld.step (hT : ToldHeld w) (hV : VersionsInv w) (hfit : lastRoundFits w e = true)
    (h : step cfg w e = some w') : ToldHeld w' where
  running c p' hp' hr i d held hs hd := by
    rcases put_back h hp' with ⟨p, hp, hmv⟩ | ⟨-, write, object, clock, j, -, rfl⟩
    · obtain ⟨hobj, hwr, hrunning, hslot⟩ := hmv.slot hs
      obtain ⟨hrun, hround⟩ := hrunning hr
      have hd' : d.superseded = false ∨ p.lastRound p.round = true := by
        rwa [lastRound, restamp, hwr, hround] at hd
      rw [hobj]
      rcases hslot with hold | ⟨k, req, rfl, hm, hans⟩
      · exact hV.holds_step hp (by simp [short, hrun]) h
          (hT.running c p hp hrun i d held hold hd')
      · exact hV.answered_holds hp hm hfit h hans hd'
    · cases hs
  acked c p' replies hp' hack i hi := by
    rcases put_back h hp' with ⟨p, hp, hmv⟩ | ⟨-, write, object, clock, j, -, rfl⟩
    · rcases hmv.newly_acked (hV.calls.ack c p hp) hack with rfl | ⟨clock, -, rfl, hag, hrun⟩
      · exact hV.holds_step hp (by simp [short, hack]) h (hT.acked c p' replies hp hack i hi)
      · -- acknowledged now: what its last answers said
        rw [endRound_done clock hag] at hi ⊢
        obtain ⟨d, held, hs⟩ := mem_heard.1 hi
        have htold := taken_of_not_again (hV.stamped p (mem_of_getElem? hp))
          (hV.calls.put_above c p hp) hag hs
        exact hV.holds_step hp (by simp [short, hrun]) h
          (hT.running c p hp hrun i d held hs htold)
    · cases hack

theorem VersionsInv.empty : VersionsInv ({} : World n) :=
  ⟨.empty, ⟨by simp, by simp, by simp⟩, rfl, fun _ => ⟨by simp, by simp, rfl⟩, by simp⟩

theorem ToldHeld.empty : ToldHeld ({} : World n) := ⟨by simp, by simp⟩

theorem acked_stays (hI : CallsInv w) (h : step cfg w e = some w') {x : PutCall n}
    (hx : w.puts[c]? = some x) {replies : Fin n → Displaced} (hack : x.phase = .acked replies) :
    w'.puts[c]? = some x := by
  obtain ⟨x', hx', hmv⟩ := put_fwd h hx
  rwa [hmv.acked_same (hI.ack c x hx) hack] at hx'

/-- **An acknowledged version is kept**, in runs of fresh versions in which each delivery of a last round
finds no newer current object or finds the entry there: its entry is on a write quorum of copies, and stays on
each. -/
theorem acked_version_kept (cfg : Config n) {es₁ es₂ : List (Event n)} {w₁ w₂ : World n}
    (hfresh : Steps.Along (step cfg) (fun w e => freshVersion w e = true) {} (es₁ ++ es₂))
    (hfit : Steps.Along (step cfg) (fun w e => lastRoundFits w e = true) {} (es₁ ++ es₂))
    (h₁ : run cfg es₁ = some w₁) (h₂ : Steps.run (step cfg) w₁ es₂ = some w₂) {c : Nat}
    {x : PutCall n} (hx : w₁.puts[c]? = some x) {replies : Fin n → Displaced}
    (hack : x.phase = .acked replies) :
    metaWriteQuorum n ≤ count (fun i => holdsVersion (w₁.copies i) x.object) ∧
      ∀ i, holdsVersion (w₁.copies i) x.object = true → holdsVersion (w₂.copies i) x.object = true := by
  obtain ⟨hP₁, hP₂⟩ := (hfresh.and hfit).append h₁
  obtain ⟨hV, hT⟩ : VersionsInv w₁ ∧ ToldHeld w₁ :=
    run_invariant_along (I := fun w => VersionsInv w ∧ ToldHeld w)
      (fun _ _ _ hI hP hs => ⟨hI.1.step hP.1 hs, hI.2.step hI.1 hP.2 hs⟩) es₁ _ _
      ⟨.empty, .empty⟩ hP₁ h₁
  refine ⟨?_, fun i hi => ?_⟩
  · calc metaWriteQuorum n ≤ x.heard.card := (hV.calls.ack c x hx replies hack).2.2
      _ ≤ count (fun i => holdsVersion (w₁.copies i) x.object) := by
        refine card_le_card fun i hi => ?_
        exact mem_filter.2 ⟨mem_univ i, hT.acked c x replies hx hack i hi⟩
  · have hshort : ¬ x.short := by simp [short, hack]
    exact (run_invariant_along (I := fun w => VersionsInv w ∧ w.puts[c]? = some x ∧
        holdsVersion (w.copies i) x.object = true)
      (fun _ _ _ hI hP hs => ⟨hI.1.step hP.1 hs, acked_stays hI.1.calls hs hI.2.1 hack,
        hI.1.holds_step hI.2.1 hshort hs hI.2.2⟩) es₂ _ _ ⟨hV, hx, hi⟩ hP₂ h₂).2.2

def versionOf (id : UInt8) : ObjectMeta := { objectId := [id], versionId := [id] }

/-- A newer version reaches the first copy before the write, which is stamped again. -/
def restampedOnce : List (Event 3) :=
  [.startPut { versioningEnabled := true } (versionOf 1) (clockAt 10),
    .startPut { versioningEnabled := true } (versionOf 2) (clockAt 20), .deliver 3 true] ++ lastUnheard 0 0 ++
  [.endPutRound 0 (clockAt 21)] ++ lastUnheard 2 0 ++ [.endPutRound 0 (clockAt 0)]

def anotherVersion : List (Event 3) :=
  [.startPut { versioningEnabled := true } (versionOf 3) (clockAt 30)] ++ lastUnheard 2 2 ++
  [.endPutRound 2 (clockAt 0)]

theorem restampedOnce_facts : ∃ w₁ w₂ x replies, run threeCopies restampedOnce = some w₁ ∧
    Steps.run (step threeCopies) w₁ anotherVersion = some w₂ ∧ w₁.puts[0]? = some x ∧ x.phase = .acked replies :=
  ⟨_, _, _, _, rfl, rfl, rfl, rfl⟩

theorem restamped_version_kept : ∃ w₁ w₂ x, run threeCopies restampedOnce = some w₁ ∧
    Steps.run (step threeCopies) w₁ anotherVersion = some w₂ ∧ w₁.puts[0]? = some x ∧
    metaWriteQuorum 3 ≤ count (fun i => holdsVersion (w₁.copies i) x.object) ∧
    ∀ i, holdsVersion (w₁.copies i) x.object = true → holdsVersion (w₂.copies i) x.object = true := by
  obtain ⟨w₁, w₂, x, replies, h₁, h₂, hx, hack⟩ := restampedOnce_facts
  exact ⟨w₁, w₂, x, h₁, h₂, hx, acked_version_kept threeCopies (by decide) (by decide) h₁ h₂ hx hack⟩

def overtaken (id : UInt8) (stamp : Nat) : List (Event 1) :=
  [.startPut { versioningEnabled := true } (versionOf id) (clockAt stamp), .deliver 1 true,
    .deliver 0 true, .endPutRound 0 (clockAt (stamp + 1))]

def overtakenEachRound : List (Event 1) :=
  .startPut { versioningEnabled := true } (versionOf 1) (clockAt 10) ::
    (overtaken 2 20 ++ overtaken 3 30 ++ overtaken 4 40 ++ overtaken 5 50 ++ overtaken 6 60)

/-- **An acknowledged version on no copy**: the copy superseded the write in all of its rounds, and counted as
applied. -/
theorem acked_version_nowhere : ∃ w x replies, run oneCopy overtakenEachRound = some w ∧
    Steps.Along (step oneCopy) (fun w e => freshVersion w e = true) {} overtakenEachRound ∧
    w.puts[0]? = some x ∧ x.phase = .acked replies ∧
    count (fun i => holdsVersion (w.copies i) x.object) = 0 ∧ 0 < metaWriteQuorum 1 :=
  ⟨_, _, _, rfl, by decide, rfl, rfl, by decide, by decide⟩

end IoLake.Gateway
