import IoLake.Gateway.ClusterInvariant

/-!
# An acknowledged write is not lost to quorum reads

Copies of one unversioned key, any number of gateways, messages delayed and lost at will.  A copy `Covers` a
place in the order of writes when it holds an object at or above it, or a delete at or above its stamp.  Every
`Ok` answer means the copy covers the write, and it goes on covering it under every request but a withdrawal
that takes the very entry away.
-/

namespace IoLake.Gateway

open IoLake.Proto IoLake.Osd List Steps KeyEntries PutCall

variable {n : Nat} {cfg : Config n} {w w' : World n} {e : Event n}

def Covers (s : KeyEntries) (ord : WriteOrder) : Prop :=
  (∃ c, s.current = some c ∧ ord ≤ c.writeOrder) ∨ ord.stamp ≤ s.tombstone []

def OrderedPut (req : PutObjectMetaRequest) : Prop :=
  req.versionOnly = false ∧ req.keepNewerCurrent = false ∧ req.replicationUpdate = false ∧
    ∃ o, req.object = some o ∧ o.stamp ≠ 0

@[simp] theorem writeOrder_withPg (o : ObjectMeta) (pg : Option PgId) :
    (withPg o pg).writeOrder = o.writeOrder := by
  unfold withPg
  split
  · split <;> rfl
  · rfl

variable {uuid : Uuids} {s : KeyEntries} {req : PutObjectMetaRequest} {o : ObjectMeta}
  {ord : WriteOrder} {i : Fin n} {l : List (Option Answer)} {acc : ReadAcc}

theorem putObjectMeta_ordered (h : OrderedPut req) (ho : req.object = some o) :
    putObjectMeta uuid s req = putCurrent s req (withPg o req.pg) := by
  obtain ⟨hver, hkeep, hrep, -⟩ := h
  simp [putObjectMeta, ho, hrep, takesVersionPath, olderReplica, hver, hkeep]

/-- A copy that answers a write covers it. -/
theorem covers_of_answer {s' : KeyEntries} {resp : PutObjectMetaResponse} (hreq : OrderedPut req)
    (ho : req.object = some o) (h : putObjectMeta uuid s req = .ok (s', resp)) : Covers s' o.writeOrder := by
  rw [putObjectMeta_ordered hreq ho] at h
  rcases putCurrent_ok h with ⟨-, rfl, -, hsup, -⟩ | ⟨-, rfl, -⟩
  · rcases hsup with hsup | hdel
    · obtain ⟨-, c, hc, hlt⟩ := supersedes_iff.1 hsup
      rw [writeOrder_withPg] at hlt
      exact .inl ⟨c, hc, hlt.le⟩
    · have hT := (deletedSince_iff.1 hdel).2
      rw [withPg_stamp] at hT
      exact .inr hT
  · exact .inl ⟨_, rfl, (writeOrder_withPg o req.pg).ge⟩

theorem Covers.put (h : Covers s ord) (hreq : OrderedPut req) :
    Covers (putEntries s (putObjectMeta uuid s req)) ord := by
  obtain ⟨o, ho, hst⟩ := hreq.2.2.2
  cases hans : putObjectMeta uuid s req with
  | error st => exact h
  | ok a =>
    obtain ⟨s', resp⟩ := a
    rw [putObjectMeta_ordered hreq ho] at hans
    show Covers s' ord
    rcases putCurrent_ok hans with ⟨-, rfl, -⟩ | ⟨-, rfl, hnot, -⟩
    · exact h
    · rcases h with ⟨c, hc, hle⟩ | hT
      · -- the object stored over `c` is not below it
        refine .inl ⟨_, rfl, hle.trans (not_lt.1 fun hlt => ?_)⟩
        have := supersedes_iff.2 ⟨by rwa [withPg_stamp], c, hc, hlt⟩
        rw [(hnot hreq.2.1).1] at this
        cases this
      · exact .inr hT

theorem Covers.delete {req : DeleteObjectMetaRequest} (h : Covers s ord) (hw : req.withdrawObjectId = [])
    (hv : req.versionId = []) (hst : req.stamp ≠ 0) : Covers (deleteObjectMeta uuid s req).1 ord := by
  rcases deleteObjectMeta_cases uuid s hw hst with ⟨-, hs, -⟩ | ⟨-, hle, htomb, -⟩
  · rw [hs]
    exact h
  · have hT : (deleteObjectMeta uuid s req).1.tombstone [] = max (s.tombstone []) req.stamp := by
      rw [htomb, if_pos hv.symm, hv]
    refine .inr ?_
    rw [hT]
    rcases h with ⟨c, hc, hord⟩ | h
    · have hc' : s.target req.versionId = some c := by rw [target, if_pos hv, hc]
      exact le_max_of_le_right ((WriteOrder.stamp_le hord).trans (hle c hc'))
    · exact le_max_of_le_left h

theorem Covers.withdraw {id : Bytes} (h : Covers s ord)
    (hk : ∀ o, s.current = some o → o.objectId = id → o.writeOrder < ord) :
    Covers (Osd.withdraw uuid s id).1 ord := by
  rcases h with ⟨c, hc, hle⟩ | h
  · have hne : c.objectId ≠ id := fun heq => absurd hle (not_le.2 (hk c hc heq))
    exact .inl ⟨c, withdraw_current hc hne, hle⟩
  · refine .inr ?_
    rw [tombstone_congr (withdraw_tombstones uuid s id)]
    exact h

/-- A write with no version, not a replica's, an update carrying the stamp of the object it read; a delete or
a read of the key itself. -/
def Event.Unversioned : Event n → Prop
  | .startPut write object _ => write.versionOnly = false ∧ write.keepNewerCurrent = false ∧
      object.versionId = [] ∧ (write.expectedObjectId ≠ [] → object.stamp ≠ 0)
  | .startDelete versionId _ _ => versionId = []
  | .startRead versionId _ _ => versionId = []
  | _ => True

instance : ∀ e : Event n, Decidable e.Unversioned
  | .startPut _ _ _ => inferInstanceAs (Decidable (_ ∧ _ ∧ _ ∧ (_ → _)))
  | .startDelete _ _ _ => inferInstanceAs (Decidable (_ = _))
  | .startRead _ _ _ => inferInstanceAs (Decidable (_ = _))
  | .deliver _ _ | .refuse _ | .giveUpPut _ _ | .giveUpDelete _ _ | .endPutRound _ _
  | .endDeleteRound _ _ | .ask _ _ | .decide _ _ | .sendWithdraw _ _ | .readAnswer _ _ _
  | .readFail _ _ => .isTrue trivial

structure UnversionedInv (w : World n) : Prop where
  put : ∀ p ∈ w.puts, OrderedPut p.request
  put_msg : ∀ c r i req, .put c r i req ∈ w.net → OrderedPut req
  delete : ∀ q ∈ w.deletes, q.versionId = []
  read : ∀ rd ∈ w.reads, rd.versionId = []

namespace UnversionedInv

theorem empty : UnversionedInv ({} : World n) := ⟨nofun, nofun, nofun, nofun⟩

theorem start_ordered {write : MetaWrite} {object : ObjectMeta} {clock : Clock}
    (h : (Event.startPut write object clock : Event n).Unversioned) (owner : Bytes) :
    OrderedPut (start write object owner clock : PutCall n).request := by
  obtain ⟨hver, hkeep, -, hst⟩ := h
  refine ⟨hver, hkeep, rfl, _, rfl, ?_⟩
  unfold start
  dsimp only
  split
  · exact (Nat.zero_lt_of_lt (clock.lt_nextAfter _)).ne'
  · rename_i hexp
    simpa using hst hexp

theorem later_ordered {p p' : PutCall n} (h : p.Later p') (hp : OrderedPut p.request) :
    OrderedPut p'.request := by
  obtain ⟨hver, hkeep, hrep, o, ho, hst⟩ := hp
  cases ho
  refine ⟨?_, ?_, rfl, _, rfl, ?_⟩
  · show p'.write.versionOnly = false
    rw [h.write_eq]
    exact hver
  · show p'.write.keepNewerCurrent = false
    rw [h.write_eq]
    exact hkeep
  · have := h.stamp_le
    omega

theorem step_put (hU : UnversionedInv w) (hI : CallsInv w) (he : e.Unversioned)
    (h : step cfg w e = some w') : ∀ p ∈ w'.puts, OrderedPut p.request := by
  intro p' hp'
  obtain ⟨c, hc⟩ := mem_iff_getElem?.1 hp'
  rcases put_back h hc with ⟨p, hp, hmv⟩ | ⟨-, write, object, clock, i, rfl, rfl⟩
  · exact later_ordered (hmv.later (hI.put_above c p hp)) (hU.put p (mem_of_getElem? hp))
  · exact start_ordered he _

theorem step (hU : UnversionedInv w) (hI : CallsInv w) (he : e.Unversioned)
    (h : step cfg w e = some w') : UnversionedInv w' where
  put := hU.step_put hI he h
  put_msg c r i req hm := by
    rcases step_net h hm with hm | hm
    · exact hU.put_msg c r i req hm
    · cases hm with
      | put _ p _ hp => exact hU.step_put hI he h p (mem_of_getElem? hp)
  delete q' hq' := by
    obtain ⟨c, hc⟩ := mem_iff_getElem?.1 hq'
    rcases delete_back h hc with ⟨q, hq, hmv⟩ | ⟨-, versionId, pg, clock, rfl, rfl⟩
    · rw [(hmv.later (hI.delete_above c q hq).2).versionId_eq]
      exact hU.delete q (mem_of_getElem? hq)
    · exact he
  read rd' hrd' := by
    obtain ⟨r, hr⟩ := mem_iff_getElem?.1 hrd'
    rcases (step_reads h).back (fun _ _ => .same) hr with ⟨rd, hrd, hmv⟩ | ⟨-, v, a, s, rfl, rfl⟩
    · have := hU.read rd (mem_of_getElem? hrd)
      cases hmv <;> exact this
    · exact he

end UnversionedInv

def withdrawsBelow (ord : WriteOrder) (s : KeyEntries) (id : Bytes) : Bool :=
  s.current.all (fun o => o.objectId != id || decide (o.writeOrder < ord))

def keepsFrom (ord : WriteOrder) (w : World n) : Event n → Bool
  | .deliver k _ =>
    match w.net[k]? with
    | some (.withdraw _ i id) => withdrawsBelow ord (w.copies i) id
    | _ => true
  | _ => true

theorem keepsFrom_withdraw {k c : Nat} {heard : Bool} {id : Bytes}
    (h : keepsFrom ord w (.deliver k heard) = true) (hm : w.net[k]? = some (.withdraw c i id))
    (ho : (w.copies i).current = some o) (hid : o.objectId = id) : o.writeOrder < ord := by
  simp only [keepsFrom, hm, withdrawsBelow, ho, Option.all_some, hid, bne_self_eq_false,
    Bool.false_or, decide_eq_true_eq] at h
  exact h

/-- A copy goes on covering what it covers. -/
theorem Covers.step (hI : CallsInv w) (hU : UnversionedInv w) {ord' : WriteOrder}
    (hk : keepsFrom ord w e = true) (hle : ord ≤ ord') (h : step cfg w e = some w')
    (hc : Covers (w.copies i) ord') : Covers (w'.copies i) ord' := by
  rcases copy_after h i with heq | ⟨k, heard, m, he, hm, rfl, heq⟩
  · rw [heq]
    exact hc
  · rw [heq]
    have hmem := mem_of_getElem? hm
    cases m with
    | put c r j req => exact hc.put (hU.put_msg c r j req hmem)
    | delete c r j req =>
      obtain ⟨q, hq, -, -, st, hpos, -, rfl⟩ := hI.delete_msg c r j req hmem
      exact hc.delete rfl (hU.delete q (mem_of_getElem? hq)) hpos.ne'
    | withdraw c j id =>
      subst he
      exact hc.withdraw (fun o ho hid => (keepsFrom_withdraw hk hm ho hid).trans_le hle)

theorem deliver_copies {k : Nat} {heard : Bool} {m : Msg n} (hm : w.net[k]? = some m)
    (h : IoLake.Gateway.step cfg w (.deliver k heard) = some w') :
    w'.copies m.copy = m.apply cfg (w.copies m.copy) := by
  simp only [IoLake.Gateway.step, hm] at h
  cases h
  rw [deliverMsg_copies, Function.update_self]

def HeardCover (ord : WriteOrder) (w : World n) : Prop :=
  ∀ (c : Nat) (p : PutCall n), w.puts[c]? = some p → ord ≤ p.object.writeOrder →
    ∀ i ∈ p.heard, Covers (w.copies i) p.object.writeOrder

theorem HeardCover.step (hH : HeardCover ord w) (hI : CallsInv w)
    (hU : UnversionedInv w) (hk : keepsFrom ord w e = true) (h : step cfg w e = some w') :
    HeardCover ord w' := by
  intro c p' hp' hord i hi
  obtain ⟨d, held, hslot⟩ := mem_heard.1 hi
  rcases put_back h hp' with ⟨p, hp, hmv⟩ | ⟨-, write, object, clock, j, -, rfl⟩
  · obtain ⟨hobj, -, -, hold | ⟨k, req, rfl, hm, hans⟩⟩ := hmv.slot hslot
    · rw [hobj] at hord ⊢
      exact (hH c p hp hord i (mem_heard.2 ⟨d, held, hold⟩)).step hI hU hk hord h
    · -- the copy has just answered this round's request
      have hmem := mem_of_getElem? hm
      obtain ⟨q, hq, -, hreq, -⟩ := hI.put_msg c _ i req hmem
      rw [hp] at hq
      cases hq
      obtain ⟨s, resp, hok, -⟩ := putAnswer_ok hans
      have hcop : w'.copies i = putEntries (w.copies i) (putObjectMeta cfg.uuid (w.copies i) req) :=
        deliver_copies hm h
      rw [hcop, hok, hobj]
      exact covers_of_answer (hU.put_msg c _ i req hmem) (by rw [hreq rfl]; rfl) hok
  · cases hslot

/-! ## What a read makes of its answers -/

structure ReadAcc.Of (l : List (Option Answer)) (acc : ReadAcc) : Prop where
  answered : acc.answered = (l.filter Option.isSome).length
  deleted_le : ∀ a, some a ∈ l → a.tombstone ≤ acc.deletedAt
  deleted_mem : acc.deletedAt ≠ 0 → ∃ a, some a ∈ l ∧ a.tombstone = acc.deletedAt
  newest_ge : ∀ a o, some a ∈ l → a.found = some o → ∃ b, acc.newest = some b ∧ o.writeOrder ≤ b.writeOrder
  newest_mem : ∀ b, acc.newest = some b → ∃ a, some a ∈ l ∧ a.found = some b

namespace ReadAcc.Of

theorem empty : ReadAcc.Of [] {} := ⟨rfl, nofun, fun h => absurd rfl h, nofun, nofun⟩

theorem newest_take (acc : ReadAcc) (a : Answer) :
    (∀ b, acc.newest = some b → ∃ b', (acc.take (some a)).newest = some b' ∧ b.writeOrder ≤ b'.writeOrder) ∧
    (∀ o, a.found = some o → ∃ b', (acc.take (some a)).newest = some b' ∧ o.writeOrder ≤ b'.writeOrder) ∧
    (∀ b', (acc.take (some a)).newest = some b' → acc.newest = some b' ∨ a.found = some b') := by
  simp only [take]
  cases hf : a.found with
  | none => exact ⟨fun b hb => ⟨b, hb, le_rfl⟩, nofun, fun b' hb' => .inl hb'⟩
  | some o =>
    cases hn : acc.newest with
    | none =>
      refine ⟨nofun, fun o' ho' => ?_, fun b' hb' => .inr hb'⟩
      cases ho'
      exact ⟨o, rfl, le_rfl⟩
    | some best =>
      dsimp only
      split
      · rename_i hlt
        refine ⟨fun b hb => ?_, fun o' ho' => ?_, fun b' hb' => .inr hb'⟩
        · cases hb
          exact ⟨o, rfl, hlt.le⟩
        · cases ho'
          exact ⟨o, rfl, le_rfl⟩
      · rename_i hle
        refine ⟨fun b hb => ?_, fun o' ho' => ?_, fun b' hb' => .inl hb'⟩
        · cases hb
          exact ⟨best, rfl, le_rfl⟩
        · cases ho'
          exact ⟨best, rfl, not_lt.1 hle⟩

theorem take (h : ReadAcc.Of l acc) (x : Option Answer) : ReadAcc.Of (l ++ [x]) (acc.take x) := by
  cases x with
  | none =>
    have hmem : ∀ a : Answer, some a ∈ l ++ [none] ↔ some a ∈ l := by simp
    refine ⟨?_, fun a ha => h.deleted_le a ((hmem a).1 ha), fun h0 => ?_,
      fun a o ha => h.newest_ge a o ((hmem a).1 ha), fun b hb => ?_⟩
    · simp [ReadAcc.take, h.answered]
    · obtain ⟨a, ha, heq⟩ := h.deleted_mem h0
      exact ⟨a, (hmem a).2 ha, heq⟩
    · obtain ⟨a, ha, heq⟩ := h.newest_mem b hb
      exact ⟨a, (hmem a).2 ha, heq⟩
  | some a =>
    obtain ⟨hkeep, hnew, hfrom⟩ := newest_take acc a
    have hmem : ∀ b : Answer, some b ∈ l ++ [some a] ↔ some b ∈ l ∨ b = a := by simp
    refine ⟨?_, fun b hb => ?_, fun h0 => ?_, fun b o hb ho => ?_, fun b hb => ?_⟩
    · simp [ReadAcc.take, h.answered]
    · show b.tombstone ≤ max acc.deletedAt a.tombstone
      rcases (hmem b).1 hb with hb | rfl
      · exact le_max_of_le_left (h.deleted_le b hb)
      · exact le_max_right _ _
    · show ∃ b, some b ∈ l ++ [some a] ∧ b.tombstone = max acc.deletedAt a.tombstone
      rcases le_total acc.deletedAt a.tombstone with hle | hle
      · exact ⟨a, (hmem a).2 (.inr rfl), (max_eq_right hle).symm⟩
      · have h0' : max acc.deletedAt a.tombstone ≠ 0 := h0
        rw [max_eq_left hle] at h0' ⊢
        obtain ⟨b, hb, heq⟩ := h.deleted_mem h0'
        exact ⟨b, (hmem b).2 (.inl hb), heq⟩
    · rcases (hmem b).1 hb with hb | rfl
      · obtain ⟨c, hc, hle⟩ := h.newest_ge b o hb ho
        obtain ⟨b', hb', hle'⟩ := hkeep c hc
        exact ⟨b', hb', hle.trans hle'⟩
      · exact hnew o ho
    · rcases hfrom b hb with hb | hb
      · obtain ⟨c, hc, heq⟩ := h.newest_mem b hb
        exact ⟨c, (hmem c).2 (.inl hc), heq⟩
      · exact ⟨a, (hmem a).2 (.inr rfl), hb⟩

end ReadAcc.Of

theorem readLoop_of (quorum : Nat) (atQuorum withSmallShard : Bool) :
    ∀ (rest l : List (Option Answer)) (acc : ReadAcc), ReadAcc.Of l acc →
      ∃ k, ReadAcc.Of (l ++ rest.take k) (readLoop quorum atQuorum withSmallShard acc rest) ∧
        (rest.length ≤ k ∨ quorum ≤ (readLoop quorum atQuorum withSmallShard acc rest).answered)
  | [], l, acc, h => ⟨0, by simpa [readLoop] using h, .inl le_rfl⟩
  | a :: rest, l, acc, h => by
    rw [readLoop]
    split
    · rename_i hstop
      simp only [Bool.and_eq_true, decide_eq_true_eq] at hstop
      exact ⟨1, by simpa using h.take a, .inr hstop.1.1.2⟩
    · obtain ⟨k, hof, hk⟩ := readLoop_of quorum atQuorum withSmallShard rest (l ++ [a]) _ (h.take a)
      refine ⟨k + 1, by simpa using hof, ?_⟩
      rcases hk with hk | hk
      · exact .inl (by simpa using hk)
      · exact .inr hk

/-- The object a read found newest in some answers, which none of them saw deleted since. -/
structure ReadNewest (l : List (Option Answer)) (r : ObjectMeta) : Prop where
  found : ∃ a, some a ∈ l ∧ a.found = some r
  newest : ∀ a o, some a ∈ l → a.found = some o → o.writeOrder ≤ r.writeOrder
  live : ∀ a, some a ∈ l → a.tombstone = 0 ∨ a.tombstone < r.stamp

/-- Some answer saw every object there is deleted. -/
def NothingLive (l : List (Option Answer)) : Prop :=
  ∀ a o, some a ∈ l → a.found = some o → ∃ b, some b ∈ l ∧ o.stamp ≤ b.tombstone

theorem ReadAcc.Of.readNewest (h : ReadAcc.Of l acc)
    (hlive : acc.live = true) : ∃ r, acc.newest = some r ∧ ReadNewest l r := by
  obtain ⟨r, hr, hdel⟩ := (Option.any_eq_true _ _).1 hlive
  simp only [decide_eq_true_eq] at hdel
  refine ⟨r, hr, h.newest_mem r hr, fun a o ha ho => ?_, fun a ha => ?_⟩
  · obtain ⟨b, hb, hle⟩ := h.newest_ge a o ha ho
    rw [hr] at hb
    cases hb
    exact hle
  · have := h.deleted_le a ha
    omega

theorem ReadAcc.Of.nothingLive (h : ReadAcc.Of l acc) (hlive : ¬ acc.live = true) : NothingLive l := by
  intro a o ha ho
  obtain ⟨b, hb, hle⟩ := h.newest_ge a o ha ho
  have hst := WriteOrder.stamp_le hle
  rw [ObjectMeta.stamp_writeOrder, ObjectMeta.stamp_writeOrder] at hst
  have hdel : ¬ (acc.deletedAt = 0 ∨ acc.deletedAt < b.stamp) := by
    intro hor
    exact hlive ((Option.any_eq_true _ _).2 ⟨b, hb, by simpa using hor⟩)
  obtain ⟨c, hc, heq⟩ := h.deleted_mem (by omega)
  exact ⟨c, hc, by omega⟩

inductive ReadResult (l : List (Option Answer)) : Except ReadError (Option ObjectMeta) → Prop where
  | found (r : ObjectMeta) (h : ReadNewest l r) : ReadResult l (.ok (some r))
  | tooOld (r : ObjectMeta) (h : ReadNewest l r) (hlevel : FORMAT_LEVEL < r.requiredLevel) :
      ReadResult l (.error (.tooOld r.requiredLevel))
  | nothing (h : NothingLive l) : ReadResult l (.ok none)

theorem readObjectMeta_result (atQuorum withSmallShard : Bool) (answers : List (Option Answer)) :
    (readObjectMeta n atQuorum withSmallShard answers = .error .noQuorum ∧
      (answers.filter Option.isSome).length < metaReadQuorum n) ∨
    ∃ k, metaReadQuorum n ≤ ((answers.take k).filter Option.isSome).length ∧
      ReadResult (answers.take k) (readObjectMeta n atQuorum withSmallShard answers) := by
  obtain ⟨k, hof, hk⟩ := readLoop_of (metaReadQuorum n) atQuorum withSmallShard answers [] {}
    ReadAcc.Of.empty
  rw [nil_append] at hof
  unfold readObjectMeta
  dsimp only
  generalize readLoop (metaReadQuorum n) atQuorum withSmallShard {} answers = acc at hof hk
  by_cases hq : acc.answered < metaReadQuorum n
  · rw [if_pos hq]
    refine .inl ⟨rfl, ?_⟩
    rcases hk with hk | hk
    · rwa [hof.answered, take_of_length_le hk] at hq
    · omega
  · rw [if_neg hq]
    refine .inr ⟨k, by rw [← hof.answered]; omega, ?_⟩
    by_cases hlive : acc.live = true
    · obtain ⟨r, hr, hnewest⟩ := hof.readNewest hlive
      rw [if_pos hlive, hr]
      dsimp only
      split
      · rename_i hlevel
        exact .tooOld r hnewest hlevel
      · exact .found r hnewest
    · rw [if_neg hlive]
      exact .nothing (hof.nothingLive hlive)

/-- A copy's answer shows that it covers `ord`. -/
def Answer.Covers (a : Answer) (ord : WriteOrder) : Prop :=
  (∃ o, a.found = some o ∧ ord ≤ o.writeOrder) ∨ ord.stamp ≤ a.tombstone

theorem ReadNewest.covers {r : ObjectMeta} (h : ReadNewest l r)
    {a : Answer} (ha : some a ∈ l) (hpos : ord.stamp ≠ 0) (hc : a.Covers ord) : ord ≤ r.writeOrder := by
  rcases hc with ⟨o, ho, hle⟩ | hT
  · exact hle.trans (h.newest a o ha ho)
  · have := h.live a ha
    exact (WriteOrder.lt_of_stamp_lt (by rw [ObjectMeta.stamp_writeOrder]; omega)).le

theorem NothingLive.covers (h : NothingLive l) {a : Answer} (ha : some a ∈ l) (hc : a.Covers ord) :
    ∃ b, some b ∈ l ∧ ord.stamp ≤ b.tombstone := by
  rcases hc with ⟨o, ho, hle⟩ | hT
  · obtain ⟨b, hb, hst⟩ := h a o ha ho
    exact ⟨b, hb, (WriteOrder.stamp_le hle).trans hst⟩
  · exact ⟨a, ha, hT⟩

/-- **A read that hears a quorum, where a write quorum covers `ord`**, returns an object at or above `ord` (or
refuses one of a format it cannot read), or finds the key deleted at or above its stamp. -/
theorem readObjectMeta_covers (S : Finset (Fin n)) (ord : WriteOrder)
    {l : List (Fin n × Option Answer)} (atQuorum withSmallShard : Bool)
    (hnd : (l.map (·.1)).Nodup) (hS : metaWriteQuorum n ≤ S.card) (hpos : ord.stamp ≠ 0)
    (hcov : ∀ i a, (i, some a) ∈ l → i ∈ S → a.Covers ord)
    (hq : metaReadQuorum n ≤ ((l.map (·.2)).filter Option.isSome).length) :
    match readObjectMeta n atQuorum withSmallShard (l.map (·.2)) with
    | .ok (some o) => ord ≤ o.writeOrder
    | .ok none => ∃ i a, (i, some a) ∈ l ∧ ord.stamp ≤ a.tombstone
    | .error (.tooOld level) => FORMAT_LEVEL < level ∧
        ∃ i a o, (i, some a) ∈ l ∧ a.found = some o ∧ ord ≤ o.writeOrder ∧ o.requiredLevel = level
    | .error .noQuorum => False := by
  rcases readObjectMeta_result (n := n) atQuorum withSmallShard (l.map (·.2)) with
    ⟨-, hlt⟩ | ⟨k, hans, hresult⟩
  · omega
  rw [← map_take] at hans hresult
  -- an answer heard from a copy of the write quorum
  obtain ⟨i, a, hmem, hiS⟩ : ∃ i a, (i, some a) ∈ l.take k ∧ i ∈ S := by
    have hcard : metaReadQuorum n ≤ (((l.take k).filter (fun x => x.2.isSome)).map (·.1)).toFinset.card := by
      rw [toFinset_card_of_nodup, length_map]
      · rw [filter_map, length_map] at hans
        exact hans
      · exact ((hnd.sublist ((take_sublist k l).map _))).sublist (filter_sublist.map _)
    obtain ⟨i, hiS, hi⟩ := quorums_meet hS hcard
    rw [mem_toFinset, mem_map] at hi
    obtain ⟨⟨j, x⟩, hx, rfl⟩ := hi
    obtain ⟨hx, hsome⟩ := mem_filter.1 hx
    obtain ⟨a, rfl⟩ := Option.isSome_iff_exists.1 hsome
    exact ⟨j, a, hx, hiS⟩
  have hsnd : ∀ b, some b ∈ (l.take k).map (·.2) → ∃ j, (j, some b) ∈ l := by
    intro b hb
    obtain ⟨⟨j, x⟩, hx, rfl⟩ := mem_map.1 hb
    exact ⟨j, mem_of_mem_take hx⟩
  have ha : some a ∈ (l.take k).map (·.2) := mem_map.2 ⟨_, hmem, rfl⟩
  have hc := hcov i a (mem_of_mem_take hmem) hiS
  generalize readObjectMeta n atQuorum withSmallShard (l.map (·.2)) = result at hresult
  cases hresult with
  | found r hr => exact hr.covers ha hpos hc
  | tooOld r hr hlevel =>
    obtain ⟨b, hb, hbr⟩ := hr.found
    obtain ⟨j, hj⟩ := hsnd b hb
    exact ⟨hlevel, j, b, r, hj, hbr, hr.covers ha hpos hc, rfl⟩
  | nothing hnone =>
    obtain ⟨b, hb, hle⟩ := hnone.covers ha hc
    obtain ⟨j, hj⟩ := hsnd b hb
    exact ⟨j, b, hj, hle⟩

/-! ## Runs -/

def Deleted (w : World n) (stamp : Nat) : Prop :=
  stamp = 0 ∨ ∃ (c : Nat) (q : DeleteCall n), w.deletes[c]? = some q ∧ stamp ≤ q.stamp

theorem Deleted.step {stamp : Nat} (hD : Deleted w stamp) (hI : CallsInv w)
    (h : step cfg w e = some w') : Deleted w' stamp := by
  rcases hD with h0 | ⟨c, q, hq, hle⟩
  · exact .inl h0
  · obtain ⟨q', hq', hl⟩ := hI.delete_later h hq
    exact .inr ⟨c, q', hq', hle.trans hl.stamp_le⟩

def TombstonesSent (w : World n) : Prop := ∀ i, Deleted w ((w.copies i).tombstone [])

theorem TombstonesSent.step (hT : TombstonesSent w) (hI : CallsInv w) (hU : UnversionedInv w)
    (h : step cfg w e = some w') : TombstonesSent w' := by
  intro i
  have hold := (hT i).step hI h
  rcases copy_after h i with heq | ⟨k, heard, m, he, hm, rfl, heq⟩
  · rw [heq]
    exact hold
  · rw [heq]
    have hmem := mem_of_getElem? hm
    cases m with
    | put c r j req =>
      show Deleted w' ((putEntries (w.copies j) (putObjectMeta cfg.uuid (w.copies j) req)).tombstone [])
      cases hans : putObjectMeta cfg.uuid (w.copies j) req with
      | error st => exact hold
      | ok a =>
        rw [show putEntries (w.copies j) (.ok a) = a.1 from rfl,
          tombstone_congr (putObjectMeta_tombstones hans)]
        exact hold
    | withdraw c j id =>
      show Deleted w' ((Osd.withdraw cfg.uuid (w.copies j) id).1.tombstone [])
      rw [tombstone_congr (withdraw_tombstones cfg.uuid _ _)]
      exact hold
    | delete c r j req =>
      obtain ⟨q, hq, -, -, st, hpos, hst, rfl⟩ := hI.delete_msg c r j req hmem
      have hv : q.versionId = [] := hU.delete q (mem_of_getElem? hq)
      show Deleted w' ((deleteObjectMeta cfg.uuid (w.copies j) { q.request with stamp := st }).1.tombstone [])
      rcases @deleteObjectMeta_cases cfg.uuid (w.copies j) { q.request with stamp := st } rfl hpos.ne'
        with ⟨-, hs, -⟩ | ⟨-, -, htomb, -⟩
      · rw [hs]
        exact hold
      · rw [htomb]
        show Deleted w' (if [] = q.versionId then max ((w.copies j).tombstone q.versionId) st
          else (w.copies j).tombstone [])
        rw [if_pos hv.symm, hv]
        rcases le_total ((w.copies j).tombstone []) st with hle | hle
        · rw [max_eq_right hle]
          exact Deleted.step (.inr ⟨c, q, hq, hst⟩) hI h
        · rw [max_eq_left hle]
          exact hold

structure BeforeAck (ord : WriteOrder) (w : World n) : Prop where
  calls : CallsInv w
  unversioned : UnversionedInv w
  tombstones : TombstonesSent w
  heard : HeardCover ord w

theorem BeforeAck.step (hB : BeforeAck ord w)
    (hP : keepsFrom ord w e = true ∧ e.Unversioned) (h : step cfg w e = some w') : BeforeAck ord w' :=
  ⟨hB.calls.step h, hB.unversioned.step hB.calls hP.2 h, hB.tombstones.step hB.calls hB.unversioned h,
    hB.heard.step hB.calls hB.unversioned hP.1 h⟩

theorem BeforeAck.empty (ord : WriteOrder) : BeforeAck ord ({} : World n) :=
  ⟨.empty, .empty, fun _ => .inl rfl, nofun⟩

/-- What holds once copies `S` cover `ord`: they go on doing so, and every answer to a read from number `m` on
shows it. -/
structure AfterAck (S : Finset (Fin n)) (ord : WriteOrder) (m : Nat) (w : World n) : Prop where
  calls : CallsInv w
  unversioned : UnversionedInv w
  tombstones : TombstonesSent w
  covers : ∀ i ∈ S, Covers (w.copies i) ord
  reads : ∀ (r : Nat) (rd : Read n), m ≤ r → w.reads[r]? = some rd →
    (rd.arrivals.map (·.1)).Nodup ∧ ∀ i a, (i, some a) ∈ rd.arrivals →
      (i ∈ S → a.Covers ord) ∧ Deleted w a.tombstone

theorem Read.nodup_arrival {rd : Read n} {x : Option Answer}
    (h : (rd.arrivals.map (·.1)).Nodup) (ha : rd.awaits i = true) :
    ((rd.arrivals ++ [(i, x)]).map (·.1)).Nodup := by
  rw [map_append]
  refine List.Nodup.append h (nodup_singleton _) ?_
  intro j hj hj'
  simp only [map_cons, map_nil, mem_singleton] at hj'
  subst hj'
  simp only [Read.awaits, Bool.not_eq_true', contains_eq_mem, decide_eq_false_iff_not] at ha
  exact ha hj

theorem AfterAck.step {S : Finset (Fin n)} {m : Nat} (hA : AfterAck S ord m w)
    (hP : keepsFrom ord w e = true ∧ e.Unversioned) (h : step cfg w e = some w') : AfterAck S ord m w' := by
  refine ⟨hA.calls.step h, hA.unversioned.step hA.calls hP.2 h, hA.tombstones.step hA.calls hA.unversioned h,
    fun i hi => (hA.covers i hi).step hA.calls hA.unversioned hP.1 le_rfl h, ?_⟩
  intro r rd' hr hrd'
  rcases (step_reads h).back (fun _ _ => .same) hrd' with ⟨rd, hrd, hmv⟩ | ⟨-, v, a, s, -, rfl⟩
  · obtain ⟨hnd, hans⟩ := hA.reads r rd hr hrd
    have hold : ∀ i a, (i, some a) ∈ rd.arrivals → (i ∈ S → a.Covers ord) ∧ Deleted w' a.tombstone :=
      fun i a ha => ⟨(hans i a ha).1, (hans i a ha).2.step hA.calls h⟩
    cases hmv with
    | same => exact ⟨hnd, hold⟩
    | failed j hj =>
      refine ⟨Read.nodup_arrival hnd hj, fun i a ha => ?_⟩
      rcases mem_append.1 ha with ha | ha
      · exact hold i a ha
      · cases mem_singleton.1 ha
    | answered j small hj =>
      refine ⟨Read.nodup_arrival hnd hj, fun i a ha => ?_⟩
      rcases mem_append.1 ha with ha | ha
      · exact hold i a ha
      · have hv := hA.unversioned.read rd (mem_of_getElem? hrd)
        cases mem_singleton.1 ha
        rw [hv]
        exact ⟨fun hS => hA.covers j hS, (hA.tombstones j).step hA.calls h⟩
  · exact ⟨nodup_nil, nofun⟩

/-- **An acknowledged write is not lost to quorum reads**, while no withdrawal takes an entry at or above it
away: a read begun since that hears a quorum returns an object at or above it, or refuses such an object as of
a format it cannot read.  It returns nothing only if a delete was sent stamped at or above the write, not
begun after the acknowledgement and acknowledged itself. -/
theorem acked_put_is_read (cfg : Config n) {es₁ es₂ : List (Event n)} {w₁ w₂ : World n}
    (hu : ∀ e ∈ es₁ ++ es₂, e.Unversioned) (h₁ : run cfg es₁ = some w₁)
    (h₂ : Steps.run (step cfg) w₁ es₂ = some w₂) {c : Nat} {x : PutCall n}
    (hx : w₁.puts[c]? = some x) {replies : Fin n → Displaced} (hack : x.phase = .acked replies)
    (hkeep : Steps.Along (step cfg) (fun w e => keepsFrom x.object.writeOrder w e = true) {} (es₁ ++ es₂))
    (hdel : ∀ (c : Nat) (q : DeleteCall n), w₁.deletes.length ≤ c → w₂.deletes[c]? = some q → q.acked = false)
    {r : Nat} {rd : Read n} (hr : w₁.reads.length ≤ r) (hrd : w₂.reads[r]? = some rd)
    (hq : metaReadQuorum n ≤ ((rd.arrivals.map (·.2)).filter Option.isSome).length) :
    match rd.result with
    | .ok (some o) => x.object.writeOrder ≤ o.writeOrder
    | .ok none => ∃ (c : Nat) (q : DeleteCall n), w₂.deletes[c]? = some q ∧
        x.object.stamp ≤ q.stamp ∧ (c < w₁.deletes.length ∨ q.acked = false)
    | .error (.tooOld level) => FORMAT_LEVEL < level ∧ ∃ i a o, (i, some a) ∈ rd.arrivals ∧
        a.found = some o ∧ x.object.writeOrder ≤ o.writeOrder ∧ o.requiredLevel = level
    | .error .noQuorum => False := by
  have hP := hkeep.and (Steps.Along.of_forall hu)
  obtain ⟨hP₁, hP₂⟩ := hP.append h₁
  have hB : BeforeAck x.object.writeOrder w₁ :=
    run_invariant_along (fun _ _ _ hB hP hs => hB.step hP hs) es₁ _ _ (.empty _) hP₁ h₁
  have hA : AfterAck x.heard x.object.writeOrder w₁.reads.length w₁ :=
    ⟨hB.calls, hB.unversioned, hB.tombstones, hB.heard c x hx le_rfl,
      fun r rd hr hrd => absurd (List.getElem?_eq_some_iff.1 hrd).1 (by omega)⟩
  have hA₂ : AfterAck x.heard x.object.writeOrder w₁.reads.length w₂ :=
    run_invariant_along (fun _ _ _ hA hP hs => hA.step hP hs) es₂ _ _ hA hP₂ h₂
  obtain ⟨hnd, hans⟩ := hA₂.reads r rd hr hrd
  have hpos : x.object.stamp ≠ 0 := by
    obtain ⟨-, -, -, o, ho, hst⟩ := hB.unversioned.put x (mem_of_getElem? hx)
    cases ho
    exact hst
  have hread := readObjectMeta_covers x.heard x.object.writeOrder rd.atQuorum rd.withSmallShard hnd
    (hB.calls.ack c x hx replies hack).2.2 hpos (fun i a ha => (hans i a ha).1) hq
  unfold Read.result
  split at hread
  · exact hread
  · obtain ⟨i, a, ha, hle⟩ := hread
    rcases (hans i a ha).2 with h0 | ⟨c', q, hq', hst⟩
    · exact absurd (Nat.le_zero.1 (h0 ▸ hle)) hpos
    · refine ⟨c', q, hq', hle.trans hst, ?_⟩
      by_cases hc : c' < w₁.deletes.length
      · exact .inl hc
      · exact .inr (hdel c' q (by omega) hq')
  · exact hread
  · exact hread

def oneCopy : Config 1 := ⟨noUuids, fun _ => []⟩

def clockAt (stamp : Nat) : Clock := ⟨stamp - 1, 0⟩

def putAcked : List (Event 1) :=
  [.startPut {} { objectId := [1] } (clockAt 10), .deliver 0 true, .endPutRound 0 (clockAt 0)]

def threeCopies : Config 3 := ⟨noUuids, fun _ => []⟩

/-- The messages under way from `k` on reach the three copies; the answer of the last is lost. -/
def lastUnheard (k call : Nat) : List (Event 3) :=
  [.deliver k true, .deliver k true, .deliver k false, .giveUpPut call (Fin.last 2)]

def putOnThree : List (Event 3) :=
  [.startPut {} { objectId := [1] } (clockAt 10)] ++ lastUnheard 0 0 ++ [.endPutRound 0 (clockAt 0)]

/-- A read that hears the last copy and the one before it. -/
def readOfTwo : List (Event 3) :=
  [.startRead [] true false, .readAnswer 0 (Fin.last 2) none, .readAnswer 0 (Fin.last 1).castSucc none]

def deleteUnheard : List (Event 1) :=
  [.startDelete [] none (clockAt 20), .deliver 0 false, .giveUpDelete 0 0, .endDeleteRound 0 (clockAt 0),
    .startRead [] true false, .readAnswer 0 0 none]

theorem putOnThree_facts : ∃ w₁ w₂ x replies rd, run threeCopies putOnThree = some w₁ ∧
    Steps.run (step threeCopies) w₁ readOfTwo = some w₂ ∧ w₁.puts[0]? = some x ∧
    x.phase = .acked replies ∧ w₂.deletes = [] ∧ w₁.reads.length ≤ 0 ∧ w₂.reads[0]? = some rd ∧
    metaReadQuorum 3 ≤ ((rd.arrivals.map (·.2)).filter Option.isSome).length ∧
    Steps.Along (step threeCopies) (fun w e => keepsFrom x.object.writeOrder w e = true) {}
      (putOnThree ++ readOfTwo) ∧ rd.result = .ok (some x.object) :=
  ⟨_, _, _, _, _, rfl, rfl, rfl, rfl, rfl, le_rfl, rfl, by decide, by decide, rfl⟩

theorem acked_put_is_read_once : ∃ w₁ w₂ x rd o, run threeCopies putOnThree = some w₁ ∧
    w₁.puts[0]? = some x ∧ Steps.run (step threeCopies) w₁ readOfTwo = some w₂ ∧
    w₂.reads[0]? = some rd ∧ rd.result = .ok (some o) ∧ x.object.writeOrder ≤ o.writeOrder := by
  obtain ⟨w₁, w₂, x, replies, rd, h₁, h₂, hx, hack, hdel, hr, hrd, hq, hkeep, hres⟩ :=
    putOnThree_facts
  have := acked_put_is_read threeCopies (by decide) h₁ h₂ hx hack hkeep
    (fun c q _ hq => by rw [hdel] at hq; cases hq) hr hrd hq
  rw [hres] at this
  exact ⟨w₁, w₂, x, rd, x.object, h₁, hx, h₂, hrd, hres, this⟩

/-- **A delete refused short of its quorum hides an acknowledged write**: the copy applied it, its answer was
lost. -/
theorem refused_delete_hides_put : ∃ w₁ w₂ x replies q rd, run oneCopy putAcked = some w₁ ∧
    Steps.run (step oneCopy) w₁ deleteUnheard = some w₂ ∧ w₁.puts[0]? = some x ∧
    x.phase = .acked replies ∧ w₂.puts.length = 1 ∧ w₂.deletes = [q] ∧ q.acked = false ∧
    w₁.reads.length ≤ 0 ∧ w₂.reads[0]? = some rd ∧
    metaReadQuorum 1 ≤ ((rd.arrivals.map (·.2)).filter Option.isSome).length ∧ rd.result = .ok none :=
  ⟨_, _, _, _, _, _, rfl, rfl, rfl, rfl, rfl, rfl, by decide, le_rfl, rfl, by decide, rfl⟩

end IoLake.Gateway
