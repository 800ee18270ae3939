import IoLake.Gateway.QuorumRead

/-!
# What an overwrite hands back, and a write stamped again

An acknowledged overwrite frees the shards of the object it displaced as soon as every copy that answered
displaced the same one (`reclaimableAfterOverwrite`).  A copy it missed may hold a third write, newer still:
the displaced object's own writer, superseded there, then stamps its object again above both.
-/

namespace IoLake.Gateway

open IoLake.Proto IoLake.Osd List PutCall

variable {n : Nat} {cfg : Config n} {w w' : World n} {e : Event n}

/-! ## Handing back and reading -/

/-- The objects whose shards an acknowledged call frees at once; `keep` is what the written object refers to.
-/
def PutCall.freed (keep : PutCall n → List Bytes) (p : PutCall n) : List Bytes :=
  match p.phase with
  | .acked replies =>
    (reclaimableAfterOverwrite (ofFn replies) (keep p)).now.map (·.owner)
  | _ => []

variable {p : PutCall n} {c : Nat} {keep : PutCall n → List Bytes}

theorem PutCall.acked_of_freed {x : Bytes} (h : x ∈ p.freed keep) : ∃ replies, p.phase = .acked replies := by
  unfold freed at h
  split at h
  · rename_i replies hp
    exact ⟨replies, hp⟩
  · cases h

def handedBack (keep : PutCall n → List Bytes) (w : World n) (x : Bytes) : Bool :=
  w.puts.any (fun p => (p.freed keep).contains x)

theorem handedBack_iff {x : Bytes} :
    handedBack keep w x = true ↔ ∃ (c : Nat) (p : PutCall n), w.puts[c]? = some p ∧ x ∈ p.freed keep := by
  simp only [handedBack, any_eq_true, contains_eq_mem, decide_eq_true_eq]
  constructor
  · rintro ⟨p, hp, hx⟩
    obtain ⟨c, hc⟩ := mem_iff_getElem?.1 hp
    exact ⟨c, p, hc, hx⟩
  · rintro ⟨c, p, hc, hx⟩
    exact ⟨p, mem_of_getElem? hc, hx⟩

def NewestOnQuorum (w : World n) (x : Bytes) : Prop :=
  ∃ R : Finset (Fin n), metaReadQuorum n ≤ R.card ∧ ∃ i ∈ R, ∃ o, (w.copies i).current = some o ∧
    o.objectId = x ∧ ∀ j ∈ R, ∀ o', (w.copies j).current = some o' → o'.writeOrder ≤ o.writeOrder

/-- A plain write of an unversioned key: stamped anew, over whatever there is.  No deletes. -/
def Event.Overwrites : Event n → Prop
  | .startPut write object _ => write.expectedObjectId = [] ∧ write.versionOnly = false ∧
      write.keepNewerCurrent = false ∧ object.versionId = []
  | .startDelete _ _ _ => False
  | .startRead versionId _ _ => versionId = []
  | _ => True

theorem Event.Overwrites.unversioned (h : e.Overwrites) : e.Unversioned := by
  cases e <;> first | exact ⟨h.2.1, h.2.2.1, h.2.2.2, fun hne => absurd h.1 hne⟩ | exact h.elim | exact h

instance : ∀ e : Event n, Decidable e.Overwrites
  | .startPut _ _ _ => inferInstanceAs (Decidable (_ ∧ _ ∧ _ ∧ _))
  | .startDelete _ _ _ => .isFalse id
  | .startRead _ _ _ => inferInstanceAs (Decidable (_ = _))
  | .deliver _ _ | .refuse _ | .giveUpPut _ _ | .giveUpDelete _ _ | .endPutRound _ _
  | .endDeleteRound _ _ | .ask _ _ | .decide _ _ | .sendWithdraw _ _ | .readAnswer _ _ _
  | .readFail _ _ => .isTrue trivial

def PutCall.freesBelow (keep : PutCall n → List Bytes) (w : World n) (p p' : PutCall n) : Bool :=
  (p'.freed keep).all (fun x => w.puts.all (fun z =>
    z.object.objectId != x || decide (z.object.writeOrder < p.object.writeOrder)))

/-- The step stamps no object that was handed back, hands back only objects sent below the overwrite, and
takes no copy's current entry away. -/
def safe (keep : PutCall n → List Bytes) (w : World n) : Event n → Bool
  | .startPut _ object _ => !handedBack keep w object.objectId
  | .endPutRound c clock =>
    match w.puts[c]? with
    | some p => (!p.again || !handedBack keep w p.object.objectId) &&
        p.freesBelow keep w (p.endRound clock)
    | none => true
  | .deliver k _ =>
    match w.net[k]? with
    | some (.withdraw _ i id) => (w.copies i).current.all (fun o => o.objectId != id)
    | _ => true
  | _ => true

section Safe

variable {keep : PutCall n → List Bytes}

theorem safe_restamp {clock : Clock}
    (h : safe keep w (.endPutRound c clock) = true) (hp : w.puts[c]? = some p)
    (hag : p.again = true) : handedBack keep w p.object.objectId = false := by
  simp only [safe, hp, hag, Bool.not_true, Bool.false_or, Bool.and_eq_true, Bool.not_eq_true'] at h
  exact h.1

theorem safe_below {c' : Nat} {clock : Clock} {z : PutCall n}
    (h : safe keep w (.endPutRound c clock) = true) (hp : w.puts[c]? = some p)
    (hx : z.object.objectId ∈ (p.endRound clock).freed keep) (hz : w.puts[c']? = some z) :
    z.object.writeOrder < p.object.writeOrder := by
  simp only [safe, hp, Bool.and_eq_true, freesBelow, all_eq_true] at h
  simpa using h.2 _ hx z (mem_of_getElem? hz)

theorem safe_withdraw {k : Nat} {heard : Bool} {i : Fin n} {id : Bytes} {o : ObjectMeta}
    (h : safe keep w (.deliver k heard) = true) (hm : w.net[k]? = some (.withdraw c i id))
    (ho : (w.copies i).current = some o) : o.objectId ≠ id := by
  simpa [safe, hm, ho] using h

theorem keepsFrom_of_safe (h : safe keep w e = true) (ord : WriteOrder) : keepsFrom ord w e = true := by
  cases e with
  | deliver k heard =>
    unfold keepsFrom
    unfold safe at h
    dsimp only at h ⊢
    split
    · rename_i c i id hm
      rw [hm] at h
      simp only [withdrawsBelow, Option.all_eq_true] at h ⊢
      intro o ho
      rw [h o ho, Bool.true_or]
    · rfl
  | _ => rfl

end Safe

theorem PutCall.Later.writeOrder_le {p' : PutCall n} (h : p.Later p') :
    p.object.writeOrder ≤ p'.object.writeOrder := by
  rcases h.stamp_le.lt_or_eq with hlt | heq
  · exact (ObjectMeta.lt_of_stamp_lt hlt).le
  · have hobj : p'.object = p.object := by rw [h.object_eq, ← heq]
    rw [hobj]

def SentBelow (w : World n) : Prop :=
  ∀ i o, (w.copies i).current = some o → ∃ (c : Nat) (z : PutCall n), w.puts[c]? = some z ∧
    z.object.objectId = o.objectId ∧ o.writeOrder ≤ z.object.writeOrder

theorem requestAt_order {stamp : Nat} (hle : stamp ≤ p.object.stamp) :
    (withPg { p.object with stamp } p.write.pg).writeOrder ≤ p.object.writeOrder := by
  rw [writeOrder_withPg]
  rcases hle.lt_or_eq with hlt | heq
  · exact (ObjectMeta.lt_of_stamp_lt (a := { p.object with stamp }) hlt).le
  · rw [heq]

theorem SentBelow.step (hS : SentBelow w) (hI : CallsInv w) (hU : UnversionedInv w) (hnodel : w.deletes = [])
    (hs : safe keep w e = true) (h : step cfg w e = some w') : SentBelow w' := by
  -- what a call had sent it still has
  have later : ∀ {o : ObjectMeta}, (∃ (c : Nat) (z : PutCall n), w.puts[c]? = some z ∧
      z.object.objectId = o.objectId ∧ o.writeOrder ≤ z.object.writeOrder) →
      ∃ (c : Nat) (z : PutCall n), w'.puts[c]? = some z ∧
        z.object.objectId = o.objectId ∧ o.writeOrder ≤ z.object.writeOrder := by
    rintro o ⟨c, z, hz, hid, hle⟩
    obtain ⟨z', hz', hl⟩ := hI.put_later h hz
    exact ⟨c, z', hz', hl.objectId_eq.trans hid, hle.trans hl.writeOrder_le⟩
  intro i o ho
  rcases copy_after h i with heq | ⟨k, heard, m, he, hm, rfl, heq⟩
  · rw [heq] at ho
    exact later (hS i o ho)
  · rw [heq] at ho
    have hmem := mem_of_getElem? hm
    cases m with
    | put c r j req =>
      obtain ⟨p, hp, -, -, st, hst, rfl⟩ := hI.put_msg c r j req hmem
      have ho' : (putEntries (w.copies j)
          (putObjectMeta cfg.uuid (w.copies j) (p.requestAt st))).current = some o := ho
      cases hans : putObjectMeta cfg.uuid (w.copies j) (p.requestAt st) with
      | error err =>
        rw [hans] at ho'
        exact later (hS j o ho')
      | ok a =>
        obtain ⟨s', resp⟩ := a
        rw [hans] at ho'
        rw [putObjectMeta_ordered (hU.put_msg c r j _ hmem) rfl] at hans
        rcases putCurrent_ok hans with ⟨-, rfl, -⟩ | ⟨-, rfl, -⟩
        · exact later (hS j o ho')
        · cases ho'
          exact later ⟨c, p, hp, by rw [withPg_objectId], requestAt_order hst⟩
    | delete c r j req =>
      obtain ⟨q, hq, -⟩ := hI.delete_msg c r j req hmem
      rw [hnodel] at hq
      cases hq
    | withdraw c j id =>
      have ho' : (Osd.withdraw cfg.uuid (w.copies j) id).1.current = some o := ho
      cases hcur : (w.copies j).current with
      | none =>
        simp [Osd.withdraw, hcur] at ho'
      | some cur =>
        subst he
        rw [withdraw_current hcur (safe_withdraw hs hm hcur)] at ho'
        cases ho'
        exact later (hS j o hcur)

def BackBelow (keep : PutCall n → List Bytes) (w : World n) : Prop :=
  ∀ (c c' : Nat) (y z : PutCall n), w.puts[c]? = some y → w.puts[c']? = some z →
    z.object.objectId ∈ y.freed keep → z.object.writeOrder < y.object.writeOrder

theorem PutCall.Moves.object_same {p' : PutCall n} (h : Moves cfg w e c p p') :
    p'.object = p.object ∨ ∃ clock, e = .endPutRound c clock ∧ p.again = true := by
  cases h with
  | same | answered | failed | settled => exact .inl rfl
  | ended clock he hr hall =>
    by_cases hag : p.again = true
    · exact .inr ⟨clock, he, hag⟩
    · rw [endRound_done clock (by simpa using hag)]
      exact .inl rfl

theorem BackBelow.step (hB : BackBelow keep w) (hI : CallsInv w)
    (hs : safe keep w e = true) (h : step cfg w e = some w') : BackBelow keep w' := by
  intro c c' y' z' hy' hz' hback
  obtain ⟨replies, hph⟩ := acked_of_freed hback
  -- the call that hands the object back was there before
  rcases put_back h hy' with ⟨y, hy, hymv⟩ | ⟨-, write, object, clock, i, -, rfl⟩
  swap
  · cases hph
  -- it had handed it back already, or it is acknowledged now
  have hy_cases := hymv.newly_acked (hI.ack c y hy) hph
  rcases put_back h hz' with ⟨z, hz, hzmv⟩ | ⟨-, write, object, clock, i, he, rfl⟩
  · rw [(hzmv.later (hI.put_above c' z hz)).objectId_eq] at hback
    rcases hy_cases with rfl | ⟨clock, he, rfl, hag, -⟩
    · rcases hzmv.object_same with hobj | ⟨clock, he, hag⟩
      · rw [hobj]
        exact hB c c' y' z hy hz hback
      · -- an object handed back is not stamped again
        subst he
        have := handedBack_iff.2 ⟨c, y', hy, hback⟩
        rw [safe_restamp hs hz hag] at this
        cases this
    · subst he
      have hlt := safe_below hs hy hback hz
      rw [endRound_done clock hag]
      show z'.object.writeOrder < y.object.writeOrder
      rcases hzmv.object_same with hobj | ⟨clock', he', hag'⟩
      · rw [hobj]
        exact hlt
      · -- the call whose round ends is the overwrite itself, which is not sent again
        cases he'
        rw [hy] at hz
        cases hz
        rw [hag] at hag'
        cases hag'
  · subst he
    rw [start_objectId] at hback
    rcases hy_cases with rfl | ⟨clock', he', -⟩
    · have := handedBack_iff.2 ⟨c, y', hy, hback⟩
      simp only [safe, this, Bool.not_true, Bool.false_eq_true] at hs
    · cases he'

/-! ## Runs of overwrites -/

structure ReclaimInv (keep : PutCall n → List Bytes) (w : World n) : Prop where
  calls : CallsInv w
  unversioned : UnversionedInv w
  no_delete : w.deletes = []
  tombstones : TombstonesSent w
  heard : ∀ ord, HeardCover ord w
  sent : SentBelow w
  back : BackBelow keep w

theorem ReclaimInv.step (hR : ReclaimInv keep w)
    (hP : safe keep w e = true ∧ e.Overwrites) (h : step cfg w e = some w') : ReclaimInv keep w' where
  calls := hR.calls.step h
  unversioned := hR.unversioned.step hR.calls hP.2.unversioned h
  no_delete := no_delete_step hR.no_delete (fun _ _ _ he => by subst he; exact hP.2) h
  tombstones := hR.tombstones.step hR.calls hR.unversioned h
  heard ord := (hR.heard ord).step hR.calls hR.unversioned (keepsFrom_of_safe hP.1 ord) h
  sent := hR.sent.step hR.calls hR.unversioned hR.no_delete hP.1 h
  back := hR.back.step hR.calls hP.1 h

theorem ReclaimInv.empty (keep : PutCall n → List Bytes) : ReclaimInv keep ({} : World n) :=
  ⟨.empty, .empty, rfl, fun _ => .inl rfl, fun _ => by simp [HeardCover], by simp [SentBelow],
    by simp [BackBelow]⟩

/-- In runs of plain writes in which an object handed back was only ever sent below the overwrite, is not
stamped again, and no withdrawal takes a copy's entry: **no read quorum has the object as its newest.** -/
theorem handed_back_not_readable (cfg : Config n) (keep : PutCall n → List Bytes)
    {es : List (Event n)} {w : World n} (ho : ∀ e ∈ es, e.Overwrites) (h : run cfg es = some w)
    (hs : Steps.Along (step cfg) (fun w e => safe keep w e = true) {} es) {x : Bytes}
    (hx : handedBack keep w x = true) : ¬ NewestOnQuorum w x := by
  have hR : ReclaimInv keep w :=
    Steps.run_invariant_along (fun _ _ _ hR hP hst => hR.step hP hst) es _ _ (.empty keep)
      (hs.and (Steps.Along.of_forall ho)) h
  obtain ⟨c, y, hy, hfreed⟩ := handedBack_iff.1 hx
  obtain ⟨replies, hack⟩ := acked_of_freed hfreed
  rintro ⟨R, hcard, i, hi, o, hcur, hid, hmax⟩
  -- a copy of the read quorum that answered the overwrite holds it or something newer
  obtain ⟨j, hjS, hjR⟩ := quorums_meet (A := y.heard) (hR.calls.ack c y hy replies hack).2.2 hcard
  have hnewer : y.object.writeOrder ≤ o.writeOrder := by
    rcases hR.heard _ c y hy le_rfl j hjS with ⟨o', ho', hle⟩ | hT
    · exact hle.trans (hmax j hjR o' ho')
    · -- there are no deletes
      rcases hR.tombstones j with h0 | ⟨c', q, hq, -⟩
      · obtain ⟨-, -, -, p, hp, hst⟩ := hR.unversioned.put y (mem_of_getElem? hy)
        cases hp
        rw [h0, ObjectMeta.stamp_writeOrder] at hT
        omega
      · rw [hR.no_delete] at hq
        cases hq
  -- but every call sent the object below the overwrite
  obtain ⟨c', z, hz, hzid, hle⟩ := hR.sent i o hcur
  have hlt := hR.back c c' y z hy hz (by rw [hzid, hid]; exact hfreed)
  exact absurd (hnewer.trans hle) (not_le.2 hlt)

def keepReferenced (p : PutCall n) : List Bytes := referencedObjectIds p.object

def withShard (id : Bytes) : ObjectMeta :=
  { objectId := id, stripes := [{ ecK := 1, shards := [⟨0, [7]⟩], objectId := id }] }

def overwriteOnce : List (Event 3) :=
  [.startPut {} (withShard [1]) (clockAt 10)] ++ lastUnheard 0 0 ++ [.endPutRound 0 (clockAt 0),
    .startPut {} (withShard [2]) (clockAt 20)] ++ lastUnheard 0 1 ++ [.endPutRound 1 (clockAt 0)]

theorem overwriteOnce_facts : ∃ w, run threeCopies overwriteOnce = some w ∧
    handedBack keepReferenced w [1] = true :=
  ⟨_, rfl, by decide⟩

theorem overwritten_not_readable : ∃ w, run threeCopies overwriteOnce = some w ∧
    handedBack keepReferenced w [1] = true ∧ ¬ NewestOnQuorum w [1] := by
  obtain ⟨w, hw, hx⟩ := overwriteOnce_facts
  exact ⟨w, hw, hx, handed_back_not_readable threeCopies keepReferenced (by decide) hw (by decide) hx⟩

/-- A write at 10 reaches the first two copies; the third, with a write at 20, supersedes it.  A write at 15
displaces it on the first two, misses the third, and is acknowledged. -/
def overwriteMissing : List (Event 3) :=
  [.startPut {} (withShard [1]) (clockAt 10), .startPut {} (withShard [3]) (clockAt 20),
    .deliver 5 true, .deliver 0 true, .deliver 0 true, .deliver 0 true,
    .startPut {} (withShard [2]) (clockAt 15), .deliver 2 true, .deliver 2 true, .refuse 2,
    .endPutRound 2 (clockAt 0)]

def stampedAgain : List (Event 3) :=
  [.endPutRound 0 (clockAt 21), .deliver 2 true, .deliver 2 true, .deliver 2 true]

/-- The displaced object's writer stamps it again after its shards are freed. -/
theorem restamp_revives_reclaimed : (∀ e ∈ overwriteMissing ++ stampedAgain, e.Overwrites) ∧
    ∃ w₁ w₂, run threeCopies overwriteMissing = some w₁ ∧ handedBack keepReferenced w₁ [1] = true ∧
      Steps.run (step threeCopies) w₁ stampedAgain = some w₂ ∧ NewestOnQuorum w₂ [1] := by
  refine ⟨by decide, _, _, rfl, by decide, rfl, Finset.univ, by decide, 0, Finset.mem_univ _, _, rfl, rfl, ?_⟩
  intro j _ o' ho'
  fin_cases j <;> cases ho' <;> exact le_rfl

end IoLake.Gateway
