import IoLake.Gateway.QuorumRead

/-!
# An acknowledged delete is not undone

A copy that takes a delete keeps its stamp as a tombstone, of the key or of one version, and tombstones only
grow whatever is put, deleted or withdrawn there.  Every read quorum meets one of the copies of a write quorum.
-/

namespace IoLake.Gateway

open IoLake.Proto IoLake.Osd List Steps KeyEntries Function

variable {n : Nat} {cfg : Config n} {w w' : World n} {e : Event n} {v : Bytes}

theorem tombstone_le_msg (s : KeyEntries) (m : Msg n) : s.tombstone v ≤ (m.apply cfg s).tombstone v := by
  cases m with
  | put c r i req =>
    show _ ≤ (putEntries s (putObjectMeta cfg.uuid s req)).tombstone v
    cases hans : putObjectMeta cfg.uuid s req with
    | error st => exact le_rfl
    | ok a => exact (tombstone_congr (putObjectMeta_tombstones hans) v).ge
  | delete c r i req => exact tombstone_le_apply cfg.uuid s (.delete req) v
  | withdraw c i id => exact (tombstone_congr (withdraw_tombstones cfg.uuid s id) v).ge

theorem tombstone_le_step (h : step cfg w e = some w') (i : Fin n) :
    (w.copies i).tombstone v ≤ (w'.copies i).tombstone v := by
  rcases copy_after h i with heq | ⟨k, heard, m, -, -, -, heq⟩
  · rw [heq]
  · rw [heq]
    exact tombstone_le_msg _ m

/-- A copy that took a delete's last round has its tombstone; a delete that has returned counted the answers
it has. -/
structure DeleteTaken (w : World n) (q : DeleteCall n) : Prop where
  tombstone : ∀ i resp, q.slots i = .ok resp → resp.superseded = false →
    q.stamp ≤ (w.copies i).tombstone q.versionId
  returned : ∀ m, q.returned = some m → m.quorum = metaWriteQuorum n ∧
    m.ok = count (fun i => (q.slots i).isOk) ∧ ∀ i, (q.slots i).isWaiting = false

theorem DeleteTaken.moves {c : Nat} {q q' : DeleteCall n} (hT : DeleteTaken w q) (hI : CallsInv w)
    (hq : w.deletes[c]? = some q) (h : step cfg w e = some w') (hmv : q.Moves cfg w e c q') :
    DeleteTaken w' q' := by
  have hold : ∀ i resp, q.slots i = .ok resp → resp.superseded = false →
      q.stamp ≤ (w'.copies i).tombstone q.versionId :=
    fun i resp hs hn => (hT.tombstone i resp hs hn).trans (tombstone_le_step h i)
  have hret : ∀ i m, (q.slots i).isWaiting = true → q.returned ≠ some m := by
    intro i m hw hm
    rw [(hT.returned m hm).2.2 i] at hw
    cases hw
  cases hmv with
  | same => exact ⟨hold, hT.returned⟩
  | answered k i req he hm hw =>
    refine ⟨fun j resp hslot hn => ?_, fun m hm' => absurd hm' (hret i m hw)⟩
    by_cases hj : j = i
    · subst hj he
      obtain ⟨q₂, hq₂, -, hreq, -⟩ := hI.delete_msg c _ j req (mem_of_getElem? hm)
      rw [hq] at hq₂
      cases hq₂
      have hcopy : w'.copies j = (deleteObjectMeta cfg.uuid (w.copies j) req).1 := deliver_copies hm h
      simp only [update_self, Slot.ok.injEq] at hslot
      subst hslot
      rw [hreq rfl] at hn hcopy
      rcases @deleteObjectMeta_cases cfg.uuid (w.copies j) q.request rfl
        (hI.delete_above c q hq).1.ne' with ⟨hsup, -⟩ | ⟨-, -, htomb, -⟩
      · rw [hsup] at hn
        cases hn
      · rw [hcopy]
        refine le_trans ?_ (htomb q.versionId).ge
        rw [if_pos (show q.versionId = q.request.versionId from rfl)]
        exact le_max_right _ _
    · simp only [update_of_ne hj] at hslot
      exact hold j resp hslot hn
  | failed i refused hw =>
    refine ⟨fun j resp hslot hn => ?_, fun m hm' => absurd hm' (hret i m hw)⟩
    by_cases hj : j = i
    · subst hj
      simp at hslot
    · simp only [update_of_ne hj] at hslot
      exact hold j resp hslot hn
  | ended clock hr hall =>
    rw [DeleteCall.endRound]
    split
    · exact ⟨by rintro _ _ ⟨⟩, fun m hm => by cases hr.symm.trans hm⟩
    · refine ⟨hold, fun m hm => ?_⟩
      cases hm
      exact ⟨rfl, rfl, hall⟩

def DeletesTaken (w : World n) : Prop :=
  CallsInv w ∧ ∀ (c : Nat) (q : DeleteCall n), w.deletes[c]? = some q → DeleteTaken w q

theorem DeletesTaken.step (hD : DeletesTaken w) (h : step cfg w e = some w') : DeletesTaken w' := by
  refine ⟨hD.1.step h, fun c q' hq' => ?_⟩
  rcases delete_back h hq' with ⟨q, hq, hmv⟩ | ⟨-, versionId, pg, clock, -, rfl⟩
  · exact (hD.2 c q hq).moves hD.1 hq h hmv
  · exact ⟨nofun, nofun⟩

/-- What holds once the copies `S` have a tombstone of `v` at `d`: they keep it, and every answer of theirs to
a read of `v` from number `m` on shows it. -/
structure AfterDelete (S : Finset (Fin n)) (v : Bytes) (d m : Nat) (w : World n) : Prop where
  copies : ∀ i ∈ S, d ≤ (w.copies i).tombstone v
  reads : ∀ (r : Nat) (rd : Read n), m ≤ r → w.reads[r]? = some rd → rd.versionId = v →
    (rd.arrivals.map (·.1)).Nodup ∧ ∀ i a, (i, some a) ∈ rd.arrivals → i ∈ S → d ≤ a.tombstone

theorem AfterDelete.step {S : Finset (Fin n)} {d m : Nat} (hA : AfterDelete S v d m w)
    (h : step cfg w e = some w') : AfterDelete S v d m w' := by
  refine ⟨fun i hi => (hA.copies i hi).trans (tombstone_le_step h i), fun r rd' hr hrd' hv => ?_⟩
  rcases (step_reads h).back (fun _ _ => .same) hrd' with ⟨rd, hrd, hmv⟩ | ⟨-, v', a, s, -, rfl⟩
  · obtain ⟨hnd, hans⟩ := hA.reads r rd hr hrd (by cases hmv <;> exact hv)
    cases hmv with
    | same => exact ⟨hnd, hans⟩
    | failed j hj =>
      refine ⟨Read.nodup_arrival hnd hj, fun i a ha hi => ?_⟩
      rcases mem_append.1 ha with ha | ha
      · exact hans i a ha hi
      · cases mem_singleton.1 ha
    | answered j small hj =>
      refine ⟨Read.nodup_arrival hnd hj, fun i a ha hi => ?_⟩
      rcases mem_append.1 ha with ha | ha
      · exact hans i a ha hi
      · cases mem_singleton.1 ha
        rw [show rd.versionId = v from hv]
        exact hA.copies j hi
  · exact ⟨nodup_nil, nofun⟩

theorem DeleteTaken.quorum {c : Nat} {q : DeleteCall n} (hT : DeleteTaken w q) (hI : CallsInv w)
    (hq : w.deletes[c]? = some q) (hack : q.acked = true) (hheld : q.held = 0) :
    ∃ S : Finset (Fin n), metaWriteQuorum n ≤ S.card ∧ ∀ i ∈ S, q.stamp ≤ (w.copies i).tombstone q.versionId := by
  obtain ⟨m, hm, hle⟩ := (Option.any_eq_true _ _).1 hack
  obtain ⟨hquorum, hok, -⟩ := hT.returned m hm
  refine ⟨Finset.univ.filter (fun i => (q.slots i).isOk = true), ?_, fun i hi => ?_⟩
  · rw [decide_eq_true_eq, hquorum, hok] at hle
    exact hle
  · have hi := (Finset.mem_filter.1 hi).2
    cases hs : q.slots i with
    | ok resp =>
      refine hT.tombstone i resp hs (Bool.eq_false_iff.2 fun hsup => ?_)
      -- a copy that supersedes the round names a stamp above it
      have hlt := (hI.delete_above c q hq).2 i resp hs hsup
      have hby : q.heldBy i ≤ q.held := Finset.le_sup (Finset.mem_univ i)
      rw [hheld, DeleteCall.heldBy, hs] at hby
      dsimp only at hby
      rw [if_pos hsup] at hby
      omega
    | waiting | failed r => simp [hs, Slot.isOk] at hi

/-- **An acknowledged delete is not undone.**  In every run of any calls: if a delete of the key or of a version
was acknowledged, and no copy superseded its last round, then an object that a read begun since returns is
stamped above the delete. -/
theorem acked_delete_stays (cfg : Config n) {es₁ es₂ : List (Event n)} {w₁ w₂ : World n}
    (h₁ : run cfg es₁ = some w₁) (h₂ : Steps.run (step cfg) w₁ es₂ = some w₂) {c : Nat} {q : DeleteCall n}
    (hq : w₁.deletes[c]? = some q) (hack : q.acked = true) (hheld : q.held = 0) {r : Nat} {rd : Read n}
    (hr : w₁.reads.length ≤ r) (hrd : w₂.reads[r]? = some rd) (hv : rd.versionId = q.versionId)
    {o : ObjectMeta} (hres : rd.result = .ok (some o)) : q.stamp < o.stamp := by
  obtain ⟨hI, hD⟩ : DeletesTaken w₁ :=
    run_invariant (fun _ _ _ hD hs => hD.step hs) es₁ _ _ ⟨.empty, nofun⟩ h₁
  obtain ⟨S, hS, htomb⟩ := (hD c q hq).quorum hI hq hack hheld
  have hA : AfterDelete S q.versionId q.stamp w₁.reads.length w₁ :=
    ⟨htomb, fun r rd hr hrd => absurd (List.getElem?_eq_some_iff.1 hrd).1 (by omega)⟩
  have hA₂ : AfterDelete S q.versionId q.stamp w₁.reads.length w₂ :=
    run_invariant (fun _ _ _ hA hs => hA.step hs) es₂ _ _ hA h₂
  obtain ⟨hnd, hans⟩ := hA₂.reads r rd hr hrd hv
  unfold Read.result at hres
  have hquorum : metaReadQuorum n ≤ ((rd.arrivals.map (·.2)).filter Option.isSome).length := by
    rcases readObjectMeta_result (n := n) rd.atQuorum rd.withSmallShard (rd.arrivals.map (·.2)) with
      ⟨herr, -⟩ | ⟨k, hk, -⟩
    · cases herr.symm.trans hres
    · exact hk.trans ((take_sublist k _).filter _).length_le
  -- a place in the order of writes at the delete's stamp that the object itself is below
  have hread := readObjectMeta_covers S (toLex (q.stamp, toLex (o.objectId, o.updateStamp + 1)))
    rd.atQuorum rd.withSmallShard hnd hS (hI.delete_above c q hq).1.ne'
    (fun i a ha hi => .inr (hans i a ha hi)) hquorum
  rw [hres] at hread
  have hle : toLex (q.stamp, toLex (o.objectId, o.updateStamp + 1)) ≤ o.writeOrder := hread
  rcases Prod.Lex.toLex_le_toLex.1 hle with hlt | ⟨-, hle⟩
  · exact hlt
  · rcases Prod.Lex.toLex_le_toLex.1 hle with hlt | ⟨-, hle⟩
    · exact absurd hlt (lt_irrefl _)
    · exact absurd hle (Nat.not_succ_le_self _)

def deleteThenPut : List (Event 3) × List (Event 3) :=
  ([.startDelete [] none (clockAt 10), .deliver 0 true, .deliver 0 true, .deliver 0 false,
      .giveUpDelete 0 (Fin.last 2), .endDeleteRound 0 (clockAt 0)],
    [.startPut {} { objectId := [1] } (clockAt 20)] ++ lastUnheard 0 0 ++ readOfTwo)

theorem put_since_delete_is_read : ∃ w₁ w₂ q rd o, run threeCopies deleteThenPut.1 = some w₁ ∧
    Steps.run (step threeCopies) w₁ deleteThenPut.2 = some w₂ ∧ w₁.deletes[0]? = some q ∧
    w₂.reads[0]? = some rd ∧ rd.result = .ok (some o) ∧ q.stamp < o.stamp :=
  have h₁ : run threeCopies deleteThenPut.1 = some _ := rfl
  have h₂ : Steps.run (step threeCopies) _ deleteThenPut.2 = some _ := rfl
  ⟨_, _, _, _, _, h₁, h₂, rfl, rfl, rfl, acked_delete_stays (c := 0) (r := 0) threeCopies h₁ h₂ rfl (by decide)
    (by decide) le_rfl rfl rfl rfl⟩

end IoLake.Gateway
