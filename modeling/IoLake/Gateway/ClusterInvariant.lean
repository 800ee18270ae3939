import IoLake.Gateway.ClusterSteps
import IoLake.Osd.KeyRuns

/-!
# What holds of the calls and their messages in every run

A call only moves on (`Later`): its round and stamp grow, and an acknowledged one stays as it is.  `CallsInv`
ties the messages under way to their calls, and each acknowledgement to a write quorum of answers.  It needs
no condition on the run; the invariants about the copies are built on it.
-/

namespace IoLake.Gateway

open IoLake.Proto IoLake.Osd Function List Finset PutCall

variable {n : Nat} {cfg : Config n} {w w' : World n} {e : Event n}

theorem le_sup_of_ne_zero {f : Fin n → Nat} {b : Nat} (h : ∀ i, f i ≠ 0 → b ≤ f i)
    (h0 : univ.sup f ≠ 0) : b ≤ univ.sup f := by
  obtain ⟨i, hi⟩ : ∃ i, f i ≠ 0 := by
    by_contra! hall
    exact h0 (Nat.le_zero.1 (Finset.sup_le fun i _ => (hall i).le))
  exact (h i hi).trans (le_sup (mem_univ i))

/-! ## A write over time -/

variable {c : Nat} {i : Fin n}

namespace PutCall

def requestAt (p : PutCall n) (stamp : Nat) : PutObjectMetaRequest :=
  ({ p with object := { p.object with stamp } } : PutCall n).request

structure Later (p p' : PutCall n) : Prop where
  write_eq : p'.write = p.write
  object_eq : p'.object = { p.object with stamp := p'.object.stamp }
  stamp_le : p.object.stamp ≤ p'.object.stamp
  round_le : p.round ≤ p'.round
  same_round : p'.round = p.round → p'.object = p.object
  short : p.short → p'.short

theorem Later.request_eq {p p' : PutCall n} (h : Later p p') (hr : p'.round = p.round) :
    p'.request = p.request := by
  simp only [request, h.write_eq, h.same_round hr]

variable {p p' : PutCall n} {c : Nat}

theorem Later.requestAt_eq (h : Later p p') (stamp : Nat) : p'.requestAt stamp = p.requestAt stamp := by
  simp only [requestAt, request, h.write_eq]
  rw [h.object_eq]

theorem Later.objectId_eq (h : Later p p') : p'.object.objectId = p.object.objectId := by
  rw [h.object_eq]

theorem Later.versionId_eq (h : Later p p') : p'.object.versionId = p.object.versionId := by
  rw [h.object_eq]

def SupersededAbove (p : PutCall n) : Prop :=
  ∀ i d held, p.slots i = .ok (d, held) → d.superseded = true → p.object.stamp ≤ held

theorem SupersededAbove.stamp_le_held {p : PutCall n} (h : p.SupersededAbove) (h0 : p.held ≠ 0) :
    p.object.stamp ≤ p.held := by
  refine le_sup_of_ne_zero (fun i hi => ?_) h0
  unfold heldBy at hi ⊢
  cases hs : p.slots i with
  | ok a =>
    rw [hs] at hi
    dsimp only at hi ⊢
    split_ifs at hi ⊢ with hsup
    · exact h i a.1 a.2 hs hsup
    · exact absurd rfl hi
  | waiting | failed r =>
    rw [hs] at hi
    exact absurd rfl hi

theorem endRound_again (clock : Clock) (h : p.again = true) : p.endRound clock = { p.counted with
      object := { p.object with stamp := clock.nextAfter p.held }
      slots := fun _ => .waiting } := by
  rw [endRound, if_pos h]

theorem endRound_done (clock : Clock) (h : p.again = false) :
    p.endRound clock = { p.counted with phase := p.counted.outcome } := by
  rw [endRound, if_neg (by simp [h])]

theorem outcome_ne_running (p : PutCall n) : p.outcome ≠ .running := by
  unfold outcome settleShortSmallWrite
  dsimp only
  split_ifs <;> nofun

theorem Moves.slot (h : Moves cfg w e c p p') {d : Displaced} {held : Nat} (hs : p'.slots i = .ok (d, held)) :
    p'.object = p.object ∧ p'.write = p.write ∧
      (p'.phase = .running → p.phase = .running ∧ p'.round = p.round) ∧
      (p.slots i = .ok (d, held) ∨ ∃ k req, e = .deliver k true ∧ w.net[k]? = some (.put c p.round i req) ∧
        putAnswer (putObjectMeta cfg.uuid (w.copies i) req) = .ok (d, held)) := by
  cases h with
  | same => exact ⟨rfl, rfl, fun hr => ⟨hr, rfl⟩, .inl hs⟩
  | settled phase _ hs' => exact ⟨rfl, rfl, by rintro rfl; exact hs'.elim, .inl hs⟩
  | answered k j req he hm hw =>
    refine ⟨rfl, rfl, fun hr => ⟨hr, rfl⟩, ?_⟩
    by_cases hij : i = j
    · subst hij
      simp only [update_self] at hs
      exact .inr ⟨k, req, he, hm, hs⟩
    · simp only [update_of_ne hij] at hs
      exact .inl hs
  | failed j refused hw =>
    by_cases hij : i = j
    · subst hij
      simp at hs
    · simp only [update_of_ne hij] at hs
      exact ⟨rfl, rfl, fun hr => ⟨hr, rfl⟩, .inl hs⟩
  | ended clock he hr hall =>
    by_cases hag : p.again = true
    · rw [endRound_again clock hag] at hs
      cases hs
    · rw [endRound_done clock (by simpa using hag)] at hs ⊢
      exact ⟨rfl, rfl, fun hr => absurd hr p.counted.outcome_ne_running, .inl hs⟩

theorem putAnswer_ok {a : Except Status (KeyEntries × PutObjectMetaResponse)} {d : Displaced}
    {held : Nat} (h : putAnswer a = .ok (d, held)) :
    ∃ s resp, a = .ok (s, resp) ∧ d.superseded = resp.superseded ∧ held = resp.heldStamp := by
  cases a with
  | error st => cases h
  | ok x =>
    obtain ⟨s, resp⟩ := x
    cases h
    exact ⟨s, resp, rfl, rfl, rfl⟩

theorem held_of_again (h : p.again = true) : p.held ≠ 0 := by
  simp only [again, Bool.and_eq_true, decide_eq_true_eq] at h
  exact h.1.2

theorem running_iff : p.running = true ↔ p.phase = .running := by
  unfold running
  split
  · rename_i hp
    simp [hp]
  · rename_i hp
    simpa using hp

theorem not_short_of_running (h : p.running = true) : ¬ p.short := by
  simp [short, running_iff.1 h]

theorem Moves.later {p p' : PutCall n} (h : Moves cfg w e c p p')
    (hsup : p.SupersededAbove) : Later p p' := by
  cases h with
  | same | answered k i req he hm hw | failed i refused hw => exact ⟨rfl, rfl, le_rfl, le_rfl, fun _ => rfl, id⟩
  | settled phase hs hs' => exact ⟨rfl, rfl, le_rfl, le_rfl, fun _ => rfl, fun _ => hs'⟩
  | ended clock he hr hall =>
    have hround : (p.endRound clock).round = p.round + 1 := by
      unfold endRound
      split <;> rfl
    refine ⟨?_, ?_, ?_, by omega, fun hc => by omega, fun hs => absurd hs (not_short_of_running hr)⟩
    · unfold endRound
      split <;> rfl
    · unfold endRound
      split <;> rfl
    · unfold endRound
      split
      · rename_i hag
        have hlt := clock.lt_nextAfter p.held
        exact (hsup.stamp_le_held (held_of_again hag)).trans hlt.le
      · exact le_rfl

/-- An acknowledged write: every copy answered or failed, a write quorum answered, and the replies
are read off the answers. -/
def AckInv (p : PutCall n) : Prop :=
  ∀ replies, p.phase = .acked replies → replies = p.reply ∧
    (∀ i, (p.slots i).isWaiting = false) ∧ metaWriteQuorum n ≤ p.applied

def heard (p : PutCall n) : Finset (Fin n) := univ.filter (fun i => (p.slots i).isOk = true)

theorem mem_heard : i ∈ p.heard ↔ ∃ d held, p.slots i = .ok (d, held) := by
  simp only [heard, Finset.mem_filter, Finset.mem_univ, true_and]
  cases hs : p.slots i with
  | ok a => exact ⟨fun _ => ⟨a.1, a.2, rfl⟩, fun _ => rfl⟩
  | waiting | failed r => exact ⟨nofun, fun ⟨_, _, h⟩ => nomatch h⟩

theorem applied_eq_of_none_failed (hall : ∀ i, (p.slots i).isWaiting = false)
    (hf : ¬ ∃ i, (p.slots i).isFailed = true) : p.applied = n := by
  have hok : ∀ i, (p.slots i).isOk = true := by
    intro i
    cases hs : p.slots i with
    | ok a => rfl
    | waiting =>
      have := hall i
      rw [hs] at this
      cases this
    | failed r => exact absurd ⟨i, by rw [hs]; rfl⟩ hf
  simp [applied, count, hok]

variable {replies : Fin n → Displaced}

theorem quorum_of_outcome (hn : 0 < n)
    (hall : ∀ i, (p.slots i).isWaiting = false) (h : p.outcome = .acked replies) :
    replies = p.reply ∧ metaWriteQuorum n ≤ p.applied := by
  unfold outcome at h
  split at h
  · split at h
    · cases h
    · split at h
      · unfold settleShortSmallWrite at h
        dsimp only at h
        split_ifs at h
      · cases h
  · rename_i hnot
    cases h
    refine ⟨rfl, ?_⟩
    by_cases hf : ∃ i, (p.slots i).isFailed = true
    · have : p.quorum ≤ p.applied := by
        by_contra hlt
        exact hnot ⟨hf, by omega⟩
      exact le_trans (le_max_left _ _) this
    · rw [applied_eq_of_none_failed hall hf]
      unfold metaWriteQuorum
      omega

theorem Moves.ack (h : Moves cfg w e c p p') (hn : 0 < n) (hp : p.AckInv) : p'.AckInv := by
  cases h with
  | same => exact hp
  | answered k i req he hm hw | failed i refused hw =>
    intro replies hr
    have := (hp replies hr).2.1 i
    rw [hw] at this
    cases this
  | settled phase hs hs' =>
    intro replies hr
    simp only at hr
    subst hr
    exact absurd hs' id
  | ended clock he hrun hall =>
    intro replies hr
    by_cases hag : p.again = true
    · -- still running
      rw [endRound_again clock hag] at hr
      have hphase : p.phase = .acked replies := hr
      simp [running, hphase] at hrun
    · have hag : p.again = false := by simpa using hag
      rw [endRound_done clock hag] at hr ⊢
      obtain ⟨hrep, hq⟩ := quorum_of_outcome (p := p.counted) hn hall hr
      exact ⟨hrep, hall, hq⟩

theorem Moves.acked_same (h : Moves cfg w e c p p')
    (hA : p.AckInv) (hp : p.phase = .acked replies) : p' = p := by
  have hall := (hA replies hp).2.1
  cases h with
  | same => rfl
  | answered k i req he hm hw | failed i refused hw =>
    rw [hall i] at hw
    cases hw
  | settled phase hs hs' => simp [short, hp] at hs
  | ended clock he hr hall => simp [running, hp] at hr

theorem Moves.newly_acked (h : Moves cfg w e c p p') (hA : p.AckInv) (hp' : p'.phase = .acked replies) :
    p' = p ∨ ∃ clock, e = .endPutRound c clock ∧
      p' = p.endRound clock ∧ p.again = false ∧ p.phase = .running := by
  have hsame : p.phase = .acked replies → p' = p := h.acked_same hA
  cases h with
  | same => exact .inl rfl
  | answered k i req he hm hw | failed i refused hw => exact .inl (hsame hp')
  | settled phase hs hs' =>
    simp only at hp'
    subst hp'
    exact absurd hs' id
  | ended clock he hr hall =>
    by_cases hag : p.again = true
    · rw [endRound_again clock hag] at hp'
      cases (running_iff.1 hr).symm.trans hp'
    · exact .inr ⟨clock, he, rfl, by simpa using hag, running_iff.1 hr⟩

end PutCall

namespace DeleteCall

structure Later (q q' : DeleteCall n) : Prop where
  versionId_eq : q'.versionId = q.versionId
  pg_eq : q'.pg = q.pg
  stamp_le : q.stamp ≤ q'.stamp
  round_le : q.round ≤ q'.round
  same_round : q'.round = q.round → q'.stamp = q.stamp

theorem Later.request_eq {q q' : DeleteCall n} (h : Later q q') (hr : q'.round = q.round) :
    q'.request = q.request := by
  simp only [request, h.versionId_eq, h.pg_eq, h.same_round hr]

def SupersededAbove (q : DeleteCall n) : Prop :=
  ∀ i resp, q.slots i = .ok resp → resp.superseded = true → q.stamp < resp.heldStamp

theorem SupersededAbove.stamp_le_held {q : DeleteCall n} (h : q.SupersededAbove) (h0 : q.held ≠ 0) :
    q.stamp ≤ q.held := by
  refine le_sup_of_ne_zero (fun i hi => ?_) h0
  unfold heldBy at hi ⊢
  cases hs : q.slots i with
  | ok resp =>
    rw [hs] at hi
    dsimp only at hi ⊢
    split_ifs at hi ⊢ with hsup
    · exact (h i resp hs hsup).le
    · exact absurd rfl hi
  | waiting | failed r =>
    rw [hs] at hi
    exact absurd rfl hi

theorem Moves.later {q q' : DeleteCall n} (h : Moves cfg w e c q q')
    (hsup : q.SupersededAbove) : Later q q' := by
  cases h with
  | same | answered k i req he hm hw | failed i refused hw => exact ⟨rfl, rfl, le_rfl, le_rfl, fun _ => rfl⟩
  | ended clock hr hall =>
    by_cases hag : q.again = true
    · have h0 : q.held ≠ 0 := by
        simp only [again, Bool.and_eq_true, decide_eq_true_eq] at hag
        exact hag.1
      rw [endRound, if_pos hag]
      exact ⟨rfl, rfl, (hsup.stamp_le_held h0).trans (clock.lt_nextAfter q.held).le, Nat.le_succ _,
        fun hc => absurd hc (Nat.succ_ne_self _)⟩
    · rw [endRound, if_neg hag]
      exact ⟨rfl, rfl, le_rfl, Nat.le_succ _, fun hc => absurd hc (Nat.succ_ne_self _)⟩

end DeleteCall

theorem withPg_objectId (o : ObjectMeta) (pg : Option PgId) : (withPg o pg).objectId = o.objectId := by
  unfold withPg
  split
  · split <;> rfl
  · rfl

theorem start_objectId (write : MetaWrite) (object : ObjectMeta) (owner : Bytes) (clock : Clock) :
    (start write object owner clock : PutCall n).object.objectId = object.objectId := by
  unfold start
  dsimp only
  split <;> exact withPg_objectId _ _

/-! ## The calls and their messages -/

/-- A request on its way is one its call sent, in its round or an earlier one; a copy that supersedes a call
names a stamp not below the call's; a withdrawal is of a call that fell short; an acknowledged call heard a
write quorum (`AckInv`). -/
structure CallsInv (w : World n) : Prop where
  some_copy : ∀ p ∈ w.puts, 0 < n
  put_msg : ∀ c r i req, .put c r i req ∈ w.net → ∃ p, w.puts[c]? = some p ∧ r ≤ p.round ∧
    (r = p.round → req = p.request) ∧ ∃ stamp ≤ p.object.stamp, req = p.requestAt stamp
  withdraw_msg : ∀ c i id, .withdraw c i id ∈ w.net →
    ∃ p, w.puts[c]? = some p ∧ id = p.object.objectId ∧ p.short
  delete_msg : ∀ c r i req, .delete c r i req ∈ w.net → ∃ q, w.deletes[c]? = some q ∧ r ≤ q.round ∧
    (r = q.round → req = q.request) ∧
    ∃ stamp, 0 < stamp ∧ stamp ≤ q.stamp ∧ req = { q.request with stamp }
  put_above : ∀ (c : Nat) (p : PutCall n), w.puts[c]? = some p → p.SupersededAbove
  delete_above : ∀ (c : Nat) (q : DeleteCall n), w.deletes[c]? = some q → 0 < q.stamp ∧ q.SupersededAbove
  ack : ∀ (c : Nat) (p : PutCall n), w.puts[c]? = some p → p.AckInv

namespace CallsInv

theorem empty : CallsInv ({} : World n) :=
  ⟨nofun, nofun, nofun, nofun, nofun, nofun, nofun⟩

section
variable (hI : CallsInv w)
include hI

section
variable (h : step cfg w e = some w')
include h

theorem put_later {p : PutCall n} (hp : w.puts[c]? = some p) : ∃ p', w'.puts[c]? = some p' ∧ p.Later p' := by
  obtain ⟨p', hp', hmv⟩ := put_fwd h hp
  exact ⟨p', hp', hmv.later (hI.put_above c p hp)⟩

theorem delete_later {q : DeleteCall n}
    (hq : w.deletes[c]? = some q) : ∃ q', w'.deletes[c]? = some q' ∧ q.Later q' := by
  obtain ⟨q', hq', hmv⟩ := delete_fwd h hq
  exact ⟨q', hq', hmv.later (hI.delete_above c q hq).2⟩

theorem step_put_msg {c r : Nat} {req : PutObjectMetaRequest} (hm : .put c r i req ∈ w'.net) :
    ∃ p, w'.puts[c]? = some p ∧ r ≤ p.round ∧ (r = p.round → req = p.request) ∧
      ∃ stamp ≤ p.object.stamp, req = p.requestAt stamp := by
  rcases step_net h hm with hm | hm
  · obtain ⟨p, hp, hr, hreq, st, hst, hat⟩ := hI.put_msg c r i req hm
    obtain ⟨p', hp', hl⟩ := hI.put_later h hp
    have hround := hl.round_le
    refine ⟨p', hp', by omega, fun hrr => ?_, st, hst.trans hl.stamp_le, ?_⟩
    · rw [hreq (by omega), hl.request_eq (by omega)]
    · rw [hat, hl.requestAt_eq]
  · cases hm with
    | put _ p _ hp => exact ⟨p, hp, le_rfl, fun _ => rfl, p.object.stamp, le_rfl, rfl⟩

theorem step_withdraw_msg {id : Bytes} (hm : .withdraw c i id ∈ w'.net) :
    ∃ p, w'.puts[c]? = some p ∧ id = p.object.objectId ∧ p.short := by
  rcases step_net h hm with hm | hm
  · obtain ⟨p, hp, hid, hs⟩ := hI.withdraw_msg c i id hm
    obtain ⟨p', hp', hl⟩ := hI.put_later h hp
    exact ⟨p', hp', hid.trans hl.objectId_eq.symm, hl.short hs⟩
  · cases hm with
    | withdraw _ p _ hp hs =>
      refine ⟨p, hp, rfl, ?_⟩
      unfold withdrawsFrom at hs
      split at hs
      · rename_i left hph
        simp [short, hph]
      · cases hs

theorem step_put_above {p' : PutCall n} (hp' : w'.puts[c]? = some p') : p'.SupersededAbove := by
  rcases put_back h hp' with ⟨p, hp, hmv⟩ | ⟨-, write, object, clock, i, -, rfl⟩
  · intro i d held hslot hsup
    obtain ⟨hobj, -, -, hold | ⟨k, req, -, hm, hans⟩⟩ := hmv.slot hslot
    · rw [hobj]
      exact hI.put_above c p hp i d held hold hsup
    · -- a copy of the round under way has just answered
      obtain ⟨q, hq, -, hreq, -⟩ := hI.put_msg c _ i req (mem_of_getElem? hm)
      rw [hp] at hq
      cases hq
      rw [hreq rfl] at hans
      obtain ⟨s, resp, hok, hs, hheld⟩ := putAnswer_ok hans
      obtain ⟨o, ho, hle⟩ := putObjectMeta_superseded hok (hs ▸ hsup)
      cases ho
      rw [hobj, hheld]
      exact hle
  · nofun

theorem step_delete_above
    {q' : DeleteCall n} (hq' : w'.deletes[c]? = some q') : 0 < q'.stamp ∧ q'.SupersededAbove := by
  rcases delete_back h hq' with ⟨q, hq, hmv⟩ | ⟨-, versionId, pg, clock, -, rfl⟩
  · obtain ⟨hpos, habove⟩ := hI.delete_above c q hq
    refine ⟨lt_of_lt_of_le hpos (hmv.later habove).stamp_le, ?_⟩
    cases hmv with
    | same => exact habove
    | answered k i req he hm hw =>
      intro j resp hslot hsup
      by_cases hj : j = i
      · subst hj
        obtain ⟨q₂, hq₂, -, hreq, -⟩ := hI.delete_msg c _ j req (mem_of_getElem? hm)
        rw [hq] at hq₂
        cases hq₂
        rw [hreq rfl] at hslot
        simp only [update_self, Slot.ok.injEq] at hslot
        subst hslot
        rcases @deleteObjectMeta_cases cfg.uuid (w.copies j) q.request rfl hpos.ne' with
          ⟨-, -, o, -, hlt, hheld⟩ | ⟨hn, -⟩
        · rw [hheld]
          exact hlt
        · rw [hsup] at hn
          cases hn
      · simp only [update_of_ne hj] at hslot
        exact habove j resp hslot hsup
    | failed i refused hw =>
      intro j resp hslot hsup
      by_cases hj : j = i
      · subst hj
        simp at hslot
      · simp only [update_of_ne hj] at hslot
        exact habove j resp hslot hsup
    | ended clock hr hall =>
      rw [DeleteCall.endRound]
      split
      · nofun
      · exact habove
  · exact ⟨clock.lt_nextAfter 0, nofun⟩

theorem step_delete_msg {c r : Nat} {req : DeleteObjectMetaRequest} (hm : .delete c r i req ∈ w'.net) :
    ∃ q, w'.deletes[c]? = some q ∧ r ≤ q.round ∧ (r = q.round → req = q.request) ∧
      ∃ stamp, 0 < stamp ∧ stamp ≤ q.stamp ∧ req = { q.request with stamp } := by
  rcases step_net h hm with hm | hm
  · obtain ⟨q, hq, hr, hreq, st, hpos, hst, hat⟩ := hI.delete_msg c r i req hm
    obtain ⟨q', hq', hl⟩ := hI.delete_later h hq
    have hround := hl.round_le
    refine ⟨q', hq', by omega, fun hrr => ?_, st, hpos, hst.trans hl.stamp_le, ?_⟩
    · rw [hreq (by omega), hl.request_eq (by omega)]
    · rw [hat]
      simp only [DeleteCall.request, hl.versionId_eq, hl.pg_eq]
  · cases hm with
    | delete _ q _ hq =>
      exact ⟨q, hq, le_rfl, fun _ => rfl, q.stamp, (hI.step_delete_above h hq).1, le_rfl, rfl⟩

theorem step : CallsInv w' where
  some_copy p hp := by
    obtain ⟨c, hc⟩ := mem_iff_getElem?.1 hp
    rcases put_back h hc with ⟨q, hq, -⟩ | ⟨-, _, _, _, i, -⟩
    · exact hI.some_copy q (mem_of_getElem? hq)
    · exact i.pos
  put_msg _ _ _ _ hm := hI.step_put_msg h hm
  withdraw_msg _ _ _ hm := hI.step_withdraw_msg h hm
  delete_msg _ _ _ _ hm := hI.step_delete_msg h hm
  put_above _ _ hp := hI.step_put_above h hp
  delete_above _ _ hq := hI.step_delete_above h hq
  ack c p' hp' := by
    rcases put_back h hp' with ⟨p, hp, hmv⟩ | ⟨-, write, object, clock, i, -, rfl⟩
    · exact hmv.ack (hI.some_copy p (mem_of_getElem? hp)) (hI.ack c p hp)
    · nofun

end

end

end CallsInv

theorem no_delete_step (hd : w.deletes = [])
    (he : ∀ versionId pg clock, e ≠ .startDelete versionId pg clock) (h : step cfg w e = some w') :
    w'.deletes = [] := by
  have hch := step_deletes h
  rw [hd] at hch
  generalize w'.deletes = l at hch
  cases hch with
  | same => rfl
  | place c f hf => exact modify_nil f c
  | one q hq =>
    obtain ⟨versionId, pg, clock, heq, -⟩ := hq
    exact absurd heq (he versionId pg clock)

end IoLake.Gateway
