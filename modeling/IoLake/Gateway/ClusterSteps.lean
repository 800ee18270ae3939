import IoLake.Gateway.Cluster

/-!
# What one event can do

Each part of the world is read off `step` once, so that an invariant about one part has a handful of cases.
-/

namespace IoLake.Gateway

open IoLake.Proto IoLake.Osd Steps List Function PutCall

variable {n : Nat} {cfg : Config n} {w w' : World n} {e : Event n}

def Msg.copy : Msg n → Fin n
  | .put _ _ i _ => i
  | .delete _ _ i _ => i
  | .withdraw _ i _ => i

def Msg.apply (cfg : Config n) (s : KeyEntries) : Msg n → KeyEntries
  | .put _ _ _ req => putEntries s (putObjectMeta cfg.uuid s req)
  | .delete _ _ _ req => (deleteObjectMeta cfg.uuid s req).1
  | .withdraw _ _ objectId => (Osd.withdraw cfg.uuid s objectId).1

theorem deliverMsg_copies (w : World n) (heard : Bool) (m : Msg n) : (w.deliverMsg cfg heard m).copies =
      update w.copies m.copy (m.apply cfg (w.copies m.copy)) := by
  cases m <;> rfl

theorem refuseMsg_copies (w : World n) (m : Msg n) : (w.refuseMsg m).copies = w.copies := by
  cases m <;> rfl

def PutCall.short (p : PutCall n) : Prop :=
  match p.phase with
  | .running | .acked _ => False
  | _ => True

inductive PutCall.Moves (cfg : Config n) (w : World n) (e : Event n) (c : Nat) (p : PutCall n) :
    PutCall n → Prop where
  | same : Moves cfg w e c p p
  /-- A copy applied the request of the round under way, and its answer is heard. -/
  | answered (k : Nat) (i : Fin n) (req : PutObjectMetaRequest) (he : e = .deliver k true)
      (hm : w.net[k]? = some (.put c p.round i req)) (hw : (p.slots i).isWaiting = true) :
      Moves cfg w e c p
        { p with slots := update p.slots i (putAnswer (putObjectMeta cfg.uuid (w.copies i) req)) }
  | failed (i : Fin n) (refused : Bool) (hw : (p.slots i).isWaiting = true) :
      Moves cfg w e c p { p with slots := update p.slots i (.failed refused) }
  | ended (clock : Clock) (he : e = .endPutRound c clock) (hr : p.running = true)
      (hall : ∀ i, (p.slots i).isWaiting = false) : Moves cfg w e c p (p.endRound clock)
  | settled (phase : Phase n) (hs : p.short) (hs' : ({ p with phase } : PutCall n).short) :
      Moves cfg w e c p { p with phase }

variable {c round : Nat} {p p' : PutCall n} {i : Fin n} {q : DeleteCall n} {m : Msg n}

theorem PutCall.hear_moves {k : Nat}
    {req : PutObjectMetaRequest} (hm : w.net[k]? = some (.put c round i req)) :
    PutCall.Moves cfg w (.deliver k true) c p
      (p.hear round i (putAnswer (putObjectMeta cfg.uuid (w.copies i) req))) := by
  unfold hear
  split
  · rename_i h
    obtain ⟨rfl, hw⟩ := h
    exact .answered k i req rfl hm hw
  · exact .same

theorem PutCall.fail_moves {refused : Bool} :
    PutCall.Moves cfg w e c p (p.hear round i (.failed refused)) := by
  unfold hear
  split
  · rename_i h
    exact .failed i refused h.2
  · exact .same

theorem PutCall.withdrawn_moves : PutCall.Moves cfg w e c p (p.withdrawn i) := by
  unfold withdrawn
  split
  · rename_i left hp
    exact .settled _ (by simp [short, hp]) trivial
  · exact .same

theorem PutCall.asked_moves {s : KeyEntries} (h : p.asked i s = some p') : PutCall.Moves cfg w e c p p' := by
  unfold asked at h
  split at h
  · rename_i holds unsure suspects hp
    dsimp only at h
    split at h
    · cases h
      exact .settled _ (by simp [short, hp]) trivial
    · cases h
  · cases h

theorem PutCall.decided_moves {deadline : Bool}
    (h : p.decided deadline = some p') : PutCall.Moves cfg w e c p p' := by
  unfold decided at h
  split at h
  · rename_i holds unsure suspects hp
    split at h
    · cases h
      exact .settled _ (by simp [short, hp]) trivial
    · split at h
      · cases h
        exact .settled _ (by simp [short, hp]) trivial
      · cases h
  · cases h

def PutCall.Begins (cfg : Config n) (e : Event n) (p : PutCall n) : Prop :=
  ∃ write object clock i, e = .startPut write object clock ∧ p = start write object (cfg.node i) clock

inductive DeleteCall.Moves (cfg : Config n) (w : World n) (e : Event n) (c : Nat) (q : DeleteCall n) :
    DeleteCall n → Prop where
  | same : Moves cfg w e c q q
  | answered (k : Nat) (i : Fin n) (req : DeleteObjectMetaRequest) (he : e = .deliver k true)
      (hm : w.net[k]? = some (.delete c q.round i req)) (hw : (q.slots i).isWaiting = true) :
      Moves cfg w e c q { q with
        slots := update q.slots i (.ok (deleteObjectMeta cfg.uuid (w.copies i) req).2) }
  | failed (i : Fin n) (refused : Bool) (hw : (q.slots i).isWaiting = true) :
      Moves cfg w e c q { q with slots := update q.slots i (.failed refused) }
  | ended (clock : Clock) (hr : q.returned = none) (hall : ∀ i, (q.slots i).isWaiting = false) :
      Moves cfg w e c q (q.endRound clock)

theorem DeleteCall.hear_moves {k : Nat}
    {req : DeleteObjectMetaRequest} (hm : w.net[k]? = some (.delete c round i req)) :
    DeleteCall.Moves cfg w (.deliver k true) c q
      (q.hear round i (.ok (deleteObjectMeta cfg.uuid (w.copies i) req).2)) := by
  unfold DeleteCall.hear
  split
  · rename_i h
    obtain ⟨rfl, hw⟩ := h
    exact .answered k i req rfl hm hw
  · exact .same

theorem DeleteCall.fail_moves {refused : Bool} : DeleteCall.Moves cfg w e c q (q.hear round i (.failed refused)) := by
  unfold DeleteCall.hear
  split
  · rename_i h
    exact .failed i refused h.2
  · exact .same

def DeleteCall.Begins (e : Event n) (q : DeleteCall n) : Prop :=
  ∃ versionId pg clock, e = .startDelete versionId pg clock ∧ q = DeleteCall.start versionId pg clock

/-- What an event can make of a read: one copy's answer, as the copy is then, or its failure. -/
inductive Read.Moves (w : World n) (rd : Read n) : Read n → Prop where
  | same : Moves w rd rd
  | answered (i : Fin n) (small : Option SmallShard) (ha : rd.awaits i = true) :
      Moves w rd { rd with arrivals := rd.arrivals ++ [(i, some
        ⟨(w.copies i).target rd.versionId, (w.copies i).tombstone rd.versionId, small⟩)] }
  | failed (i : Fin n) (ha : rd.awaits i = true) :
      Moves w rd { rd with arrivals := rd.arrivals ++ [(i, none)] }

def Read.Begins (e : Event n) (rd : Read n) : Prop :=
  ∃ versionId atQuorum withSmallShard, e = .startRead versionId atQuorum withSmallShard ∧
    rd = { versionId, atQuorum, withSmallShard }

inductive Change (cfg : Config n) (w : World n) (e : Event n) : World n → Prop where
  | putBegins (p : PutCall n) (hp : PutCall.Begins cfg e p) :
      Change cfg w e { w with puts := w.puts ++ [p], net := w.sendPut w.puts.length p }
  | deleteBegins (q : DeleteCall n) (hq : DeleteCall.Begins e q) :
      Change cfg w e { w with deletes := w.deletes ++ [q], net := w.sendDelete w.deletes.length q }
  | readBegins (rd : Read n) (hrd : Read.Begins e rd) : Change cfg w e { w with reads := w.reads ++ [rd] }
  | delivered (k : Nat) (heard : Bool) (m : Msg n) (he : e = .deliver k heard) (hm : w.net[k]? = some m) :
      Change cfg w e ({ w with net := w.net.eraseIdx k }.deliverMsg cfg heard m)
  | refused (k : Nat) (m : Msg n) : Change cfg w e ({ w with net := w.net.eraseIdx k }.refuseMsg m)
  | put (c : Nat) (p p' : PutCall n) (hp : w.puts[c]? = some p) (hmoves : PutCall.Moves cfg w e c p p') :
      Change cfg w e { w with puts := w.puts.set c p' }
  | putRound (c : Nat) (p : PutCall n) (clock : Clock) (hp : w.puts[c]? = some p)
      (hmoves : PutCall.Moves cfg w e c p (p.endRound clock)) :
      Change cfg w e { w with
        puts := w.puts.set c (p.endRound clock)
        net := if p.again then w.sendPut c (p.endRound clock) else w.net }
  | delete (c : Nat) (q q' : DeleteCall n) (hq : w.deletes[c]? = some q)
      (hmoves : DeleteCall.Moves cfg w e c q q') : Change cfg w e { w with deletes := w.deletes.set c q' }
  | deleteRound (c : Nat) (q : DeleteCall n) (clock : Clock) (hq : w.deletes[c]? = some q)
      (hmoves : DeleteCall.Moves cfg w e c q (q.endRound clock)) :
      Change cfg w e { w with
        deletes := w.deletes.set c (q.endRound clock)
        net := if q.again then w.sendDelete c (q.endRound clock) else w.net }
  | withdraw (c : Nat) (p : PutCall n) (i : Fin n) (hp : w.puts[c]? = some p)
      (hs : p.withdrawsFrom i = true) :
      Change cfg w e { w with net := w.net ++ [.withdraw c i p.object.objectId] }
  | read (r : Nat) (rd rd' : Read n) (hrd : w.reads[r]? = some rd) (hmoves : Read.Moves w rd rd') :
      Change cfg w e { w with reads := w.reads.set r rd' }

section
variable (h : step cfg w e = some w')
include h

/-- Each event, read off the step once. -/
theorem step_change : Change cfg w e w' := by
  cases e with
  | startPut write object clock =>
    simp only [step] at h
    split at h
    · cases h
      exact .putBegins _ ⟨write, object, clock, _, rfl, rfl⟩
    · cases h
  | startDelete versionId pg clock =>
    cases h
    exact .deleteBegins _ ⟨versionId, pg, clock, rfl, rfl⟩
  | startRead versionId atQuorum withSmallShard =>
    simp only [step] at h
    split at h
    · cases h
      exact .readBegins _ ⟨versionId, atQuorum, withSmallShard, rfl, rfl⟩
    · cases h
  | deliver k heard =>
    simp only [step] at h
    split at h
    · rename_i m hm
      cases h
      exact .delivered k heard m rfl hm
    · cases h
  | refuse k =>
    simp only [step] at h
    split at h
    · cases h
      exact .refused k _
    · cases h
  | giveUpPut c i =>
    simp only [step] at h
    split at h
    · rename_i p hp
      cases h
      exact .put c p _ hp fail_moves
    · cases h
  | giveUpDelete c i =>
    simp only [step] at h
    split at h
    · rename_i q hq
      cases h
      exact .delete c q _ hq DeleteCall.fail_moves
    · cases h
  | endPutRound c clock =>
    simp only [step] at h
    split at h
    · rename_i p hp
      split at h
      · rename_i hend
        cases h
        exact .putRound c p clock hp (.ended clock rfl hend.1 hend.2)
      · cases h
    · cases h
  | endDeleteRound c clock =>
    simp only [step] at h
    split at h
    · rename_i q hq
      split at h
      · rename_i hend
        cases h
        exact .deleteRound c q clock hq (.ended clock (by simpa using hend.1) hend.2)
      · cases h
    · cases h
  | ask c i =>
    simp only [step] at h
    split at h
    · rename_i p hp
      obtain ⟨p', hp', rfl⟩ := Option.map_eq_some_iff.1 h
      exact .put c p p' hp (asked_moves hp')
    · cases h
  | decide c deadline =>
    simp only [step] at h
    split at h
    · rename_i p hp
      obtain ⟨p', hp', rfl⟩ := Option.map_eq_some_iff.1 h
      exact .put c p p' hp (decided_moves hp')
    · cases h
  | sendWithdraw c i =>
    simp only [step] at h
    split at h
    · rename_i p hp
      split at h
      · rename_i hs
        cases h
        exact .withdraw c p i hp hs
      · cases h
    · cases h
  | readAnswer r i small =>
    simp only [step] at h
    split at h
    · rename_i rd hrd
      split at h
      · rename_i ha
        cases h
        exact .read r rd _ hrd (.answered i small ha)
      · cases h
    · cases h
  | readFail r i =>
    simp only [step] at h
    split at h
    · rename_i rd hrd
      split at h
      · rename_i ha
        cases h
        exact .read r rd _ hrd (.failed i ha)
      · cases h
    · cases h

theorem copy_after (i : Fin n) :
    w'.copies i = w.copies i ∨ ∃ k heard m, e = .deliver k heard ∧ w.net[k]? = some m ∧
      m.copy = i ∧ w'.copies i = m.apply cfg (w.copies i) := by
  cases step_change h with
  | delivered k heard m he hm =>
    rw [deliverMsg_copies]
    by_cases hi : i = m.copy
    · subst hi
      exact .inr ⟨k, heard, m, he, hm, rfl, update_self _ _ _⟩
    · exact .inl (update_of_ne hi _ _)
  | refused k m => exact .inl (congrFun (refuseMsg_copies _ _) i)
  | _ => exact .inl rfl

/-- What can become of a write under way (`PutCall.Moves`), and how one begins. -/
theorem step_puts : Changed (PutCall.Moves cfg w e) (PutCall.Begins cfg e) w.puts w'.puts := by
  cases step_change h with
  | putBegins p hp => exact .one p hp
  | put c p p' hp hmoves | putRound c p clock hp hmoves => exact .set hp hmoves
  | delivered k heard m he hm =>
    subst he
    cases m with
    | delete call round i req => exact .same
    | put call round i req =>
      cases heard with
      | false => exact .same
      | true => exact .place call _ (fun p _ => hear_moves hm)
    | withdraw call i objectId =>
      cases heard with
      | false => exact .same
      | true => exact .place call _ (fun p _ => withdrawn_moves)
  | refused k m =>
    cases m with
    | put call round i req => exact .place call _ (fun p _ => fail_moves)
    | _ => exact .same
  | _ => exact .same

theorem put_back (hp' : w'.puts[c]? = some p') : (∃ p, w.puts[c]? = some p ∧ PutCall.Moves cfg w e c p p') ∨
      (c = w.puts.length ∧ PutCall.Begins cfg e p') :=
  (step_puts h).back (fun _ _ => .same) hp'

theorem put_fwd (hp : w.puts[c]? = some p) : ∃ p', w'.puts[c]? = some p' ∧ PutCall.Moves cfg w e c p p' :=
  (step_puts h).fwd (fun _ _ => .same) hp

theorem step_deletes : Changed (DeleteCall.Moves cfg w e) (DeleteCall.Begins e) w.deletes w'.deletes := by
  cases step_change h with
  | deleteBegins q hq => exact .one q hq
  | delete c q q' hq hmoves | deleteRound c q clock hq hmoves => exact .set hq hmoves
  | delivered k heard m he hm =>
    subst he
    cases m with
    | delete call round i req =>
      cases heard with
      | false => exact .same
      | true => exact .place call _ (fun q _ => DeleteCall.hear_moves hm)
    | _ => exact .same
  | refused k m =>
    cases m with
    | delete call round i req => exact .place call _ (fun q _ => DeleteCall.fail_moves)
    | _ => exact .same
  | _ => exact .same

theorem delete_back {q' : DeleteCall n} (hq' : w'.deletes[c]? = some q') :
    (∃ q, w.deletes[c]? = some q ∧ DeleteCall.Moves cfg w e c q q') ∨
      (c = w.deletes.length ∧ DeleteCall.Begins e q') :=
  (step_deletes h).back (fun _ _ => .same) hq'

theorem delete_fwd
    (hq : w.deletes[c]? = some q) : ∃ q', w'.deletes[c]? = some q' ∧ DeleteCall.Moves cfg w e c q q' :=
  (step_deletes h).fwd (fun _ _ => .same) hq

end

/-- A message some event sends: of a call's new round, or to take a short write back. -/
inductive Sent (w w' : World n) : Msg n → Prop where
  | put (c : Nat) (p : PutCall n) (i : Fin n) (hp : w'.puts[c]? = some p) :
      Sent w w' (.put c p.round i p.request)
  | delete (c : Nat) (q : DeleteCall n) (i : Fin n) (hq : w'.deletes[c]? = some q) :
      Sent w w' (.delete c q.round i q.request)
  | withdraw (c : Nat) (p : PutCall n) (i : Fin n) (hp : w'.puts[c]? = some p)
      (hs : p.withdrawsFrom i = true) : Sent w w' (.withdraw c i p.object.objectId)

theorem deliverMsg_net (w : World n) (heard : Bool) (m : Msg n) : (w.deliverMsg cfg heard m).net = w.net := by
  cases m <;> rfl

theorem refuseMsg_net (w : World n) (m : Msg n) : (w.refuseMsg m).net = w.net := by
  cases m <;> rfl

theorem Sent.of_sendPut (hp : w'.puts[c]? = some p) (hm : m ∈ w.sendPut c p) : m ∈ w.net ∨ Sent w w' m := by
  rcases mem_append.1 hm with hm | hm
  · exact .inl hm
  · obtain ⟨i, -, rfl⟩ := mem_map.1 hm
    exact .inr (.put c p i hp)

theorem Sent.of_sendDelete (hq : w'.deletes[c]? = some q)
    (hm : m ∈ w.sendDelete c q) : m ∈ w.net ∨ Sent w w' m := by
  rcases mem_append.1 hm with hm | hm
  · exact .inl hm
  · obtain ⟨i, -, rfl⟩ := mem_map.1 hm
    exact .inr (.delete c q i hq)

theorem step_net (h : step cfg w e = some w') (hm : m ∈ w'.net) : m ∈ w.net ∨ Sent w w' m := by
  cases step_change h with
  | putBegins p hp => exact Sent.of_sendPut (by simp) hm
  | deleteBegins q hq => exact Sent.of_sendDelete (by simp) hm
  | delivered k heard m' he hm' =>
    rw [deliverMsg_net] at hm
    exact .inl (mem_of_mem_eraseIdx hm)
  | refused k m' =>
    rw [refuseMsg_net] at hm
    exact .inl (mem_of_mem_eraseIdx hm)
  | putRound c p clock hp =>
    dsimp only at hm
    split at hm
    · exact Sent.of_sendPut (by simp [(List.getElem?_eq_some_iff.1 hp).1]) hm
    · exact .inl hm
  | deleteRound c q clock hq =>
    dsimp only at hm
    split at hm
    · exact Sent.of_sendDelete (by simp [(List.getElem?_eq_some_iff.1 hq).1]) hm
    · exact .inl hm
  | withdraw c p i hp hs =>
    rcases mem_append.1 hm with hm | hm
    · exact .inl hm
    · rw [mem_singleton.1 hm]
      exact .inr (.withdraw c p i hp hs)
  | _ => exact .inl hm

theorem step_reads (h : step cfg w e = some w') :
    Changed (fun _ => Read.Moves w) (Read.Begins e) w.reads w'.reads := by
  cases step_change h with
  | readBegins rd hrd => exact .one rd hrd
  | read r rd rd' hrd hmoves => exact .set hrd hmoves
  | delivered k heard m | refused k m => cases m <;> exact .same
  | _ => exact .same

end IoLake.Gateway
