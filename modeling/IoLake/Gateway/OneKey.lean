import IoLake.Lib.Steps

/-!
# Requests on one key

The copies of one key's object, and requests that read it and then write it: an update writes the whole record
back over the object it read, a delete removes whatever is there, a write puts a new object.  Reading,
deciding, reaching each copy and ending are separate steps of any number of requests; every copy answers.

`B` is what the record says besides its id and stamps, `K` what a request wants, and `plan` what it does about
the record it read.
-/

namespace IoLake.Gateway.OneKey

open List Function

variable {B K : Type} {n : Nat}

structure Rec (B : Type) where
  id : Nat
  stamp : Nat
  update : Nat := 0
  body : B
deriving DecidableEq, Repr

/-- The order of writes: the stamp, then the object, then the update of it. -/
def Rec.before (a b : Rec B) : Bool :=
  decide (a.stamp < b.stamp ∨ a.stamp = b.stamp ∧ (a.id < b.id ∨ a.id = b.id ∧ a.update < b.update))

structure Copy (B : Type) where
  current : Option (Rec B) := none
  tombstone : Nat := 0
deriving DecidableEq, Repr

inductive Msg (B : Type)
  | put (r : Rec B) (expected : Option Nat)
  | delete (stamp : Nat)
deriving DecidableEq, Repr

inductive Answer (B : Type)
  | took (displaced : Option (Rec B))
  | superseded (held : Nat)
  | refused
deriving DecidableEq, Repr

def Copy.held (c : Copy B) : Nat := max (c.current.elim 0 Rec.stamp) c.tombstone

/-- `put_object_meta` and `delete_object_meta` on the current object of an unversioned key. -/
def Copy.handle (c : Copy B) : Msg B → Copy B × Answer B
  | .put r expected =>
    if c.current.any r.before || decide (r.stamp ≤ c.tombstone) then (c, .superseded c.held)
    else if expected.any fun e => decide (c.current.map Rec.id ≠ some e) then (c, .refused)
    else ({ c with current := some r }, .took c.current)
  | .delete stamp =>
    if c.current.any fun r => decide (stamp < r.stamp) then (c, .superseded (c.current.elim 0 Rec.stamp))
    else ({ current := none, tombstone := max c.tombstone stamp }, .took c.current)

inductive Plan (B : Type)
  | nothing
  | put (id : Nat) (body : B)
  | update (r : Rec B) (body : B)
  | delete

/-- The message of a plan, stamped by the clock.  An update keeps the object's id and stamp. -/
def Plan.msg (clock : Nat) : Plan B → Option (Msg B)
  | .nothing => none
  | .put id body => some (.put ⟨id, clock, 0, body⟩ none)
  | .update r body => some (.put ⟨r.id, r.stamp, clock, body⟩ (some r.id))
  | .delete => some (.delete clock)

/-- What a request wants and since when, the copies it has heard, what it decided on, and the answers of this
round; `ended` says whether it was acknowledged. -/
structure Job (K B : Type) (n : Nat) where
  kind : K
  since : Nat
  heard : List (Copy B) := []
  decided : Option (Option (Rec B) × Nat × Msg B) := none
  round : Nat := 0
  answers : Fin n → Option (Answer B) := fun _ => none
  ended : Option Bool := none

structure World (K B : Type) (n : Nat) where
  copies : Fin n → Copy B := fun _ => {}
  jobs : List (Job K B n) := []
  now : Nat := 0

scoped instance threeCopies : NeZero 3 := ⟨by decide⟩

inductive Event (K : Type) (n : Nat)
  | start (kind : K)
  | hear (job : Nat) (copy : Fin n)
  | decide (job : Nat) (clock : Nat)
  | deliver (job : Nat) (copy : Fin n)
  | endRound (job : Nat) (clock : Nat)
  | tick (now : Nat)
deriving DecidableEq

def newer (best : Option (Rec B)) (c : Copy B) : Option (Rec B) :=
  match best, c.current with
  | some b, some r => some (if b.before r then r else b)
  | none, r => r
  | b, none => b

def newest (heard : List (Copy B)) : Option (Rec B) :=
  (heard.foldl newer none).filter fun r => heard.all fun c => decide (c.tombstone < r.stamp)

theorem foldl_newer_mem : ∀ (heard : List (Copy B)) (best : Option (Rec B)) (r : Rec B),
    heard.foldl newer best = some r → best = some r ∨ ∃ c ∈ heard, c.current = some r
  | [], _, _, h => .inl h
  | c :: heard, best, r, h => by
    rcases foldl_newer_mem heard _ r h with hc | ⟨c', hc', hr⟩
    · unfold newer at hc
      split at hc
      · rename_i b r' hcur
        split at hc
        · exact .inr ⟨c, mem_cons_self, hcur.trans hc⟩
        · exact .inl hc
      · exact .inr ⟨c, mem_cons_self, hc⟩
      · exact .inl hc
    · exact .inr ⟨c', mem_cons_of_mem c hc', hr⟩

variable {r : Rec B} {msg : Msg B} {j : Nat} {job job' : Job K B n} {c : Copy B}

theorem newest_mem {heard : List (Copy B)} (h : newest heard = some r) : ∃ c ∈ heard, c.current = some r := by
  rcases foldl_newer_mem heard none r (Option.filter_eq_some_iff.1 h).1 with hnone | hmem
  · cases hnone
  · exact hmem

theorem foldl_newer_isSome : ∀ (heard : List (Copy B)) (best : Option (Rec B)),
    best.isSome = true → (heard.foldl newer best).isSome = true
  | [], _, h => h
  | c :: heard, best, h => by
    refine foldl_newer_isSome heard _ ?_
    obtain ⟨b, rfl⟩ := Option.isSome_iff_exists.1 h
    cases hc : c.current <;> simp [newer, hc]

theorem newest_of_all {P : Rec B → Prop} {stamp : Nat} : ∀ {heard : List (Copy B)}, heard ≠ [] →
    (∀ c ∈ heard, c.tombstone < stamp ∧ ∃ r, c.current = some r ∧ r.stamp = stamp ∧ P r) →
    ∃ r, newest heard = some r ∧ P r
  | [], hne, _ => (hne rfl).elim
  | c :: heard, _, h => by
    obtain ⟨-, r₀, hr₀, -, -⟩ := h c mem_cons_self
    have hsome : ((c :: heard).foldl newer none).isSome = true :=
      foldl_newer_isSome heard _ (by simp [newer, hr₀])
    obtain ⟨r, hr⟩ := Option.isSome_iff_exists.1 hsome
    obtain hnone | ⟨c', hc', hcur⟩ := foldl_newer_mem _ _ r hr
    · cases hnone
    · obtain ⟨-, r', hr', hstamp, hP⟩ := h c' hc'
      rw [hcur] at hr'
      cases hr'
      refine ⟨r, Option.filter_eq_some_iff.2 ⟨hr, ?_⟩, hP⟩
      rw [all_eq_true]
      intro c₁ hc₁
      rw [hstamp]
      exact decide_eq_true (h c₁ hc₁).1

def MAX_RESTAMPS : Nat := 5

def heldOf (answers : Fin n → Option (Answer B)) : List Nat :=
  (finRange n).filterMap fun i => match answers i with
    | some (.superseded held) => some held
    | _ => none

/-- The message of the next round: a delete or a plain write is stamped again above what superseded it. -/
def again (clock : Nat) : Msg B → Option (Msg B)
  | .put r none => some (.put { r with stamp := clock } none)
  | .put _ (some _) => none
  | .delete _ => some (.delete clock)

def acked (answers : Fin n → Option (Answer B)) : Bool :=
  let refused := (finRange n).filter fun i => match answers i with
    | some .refused => true
    | _ => false
  refused.isEmpty || n / 2 + 1 ≤ n - refused.length

section Step

variable (plan : K → Nat → Nat → Option (Rec B) → Plan B)

/-- A request that has heard a quorum of the copies decides what to do about the newest record, or is
refused. -/
def Job.decide (now clock : Nat) (job : Job K B n) : Job K B n :=
  match (plan job.kind job.since now (newest job.heard)).msg clock with
  | some msg => { job with decided := some (newest job.heard, now, msg) }
  | none => { job with ended := some false }

def Job.endRound (clock : Nat) (read : Option (Rec B)) (time : Nat) (msg : Msg B) (job : Job K B n) :
    Job K B n :=
  match if (heldOf job.answers).isEmpty || MAX_RESTAMPS ≤ job.round + 1 then none else again clock msg with
  | some next =>
    { job with decided := some (read, time, next), round := job.round + 1, answers := fun _ => none }
  | none => { job with ended := some (acked job.answers) }

/-- The copies and the requests. -/
def step (w : World K B n) : Event K n → Option (World K B n)
  | .start kind => some { w with jobs := w.jobs ++ [{ kind := kind, since := w.now }] }
  | .hear j i =>
    match w.jobs[j]? with
    | none => none
    | some job =>
      if job.decided.isSome || job.ended.isSome then none
      else some { w with jobs := w.jobs.set j { job with heard := job.heard ++ [w.copies i] } }
  | .decide j clock =>
    match w.jobs[j]? with
    | none => none
    | some job =>
      if job.decided.isSome || job.ended.isSome || job.heard.length < n - n / 2 then none
      else some { w with jobs := w.jobs.set j (job.decide plan w.now clock) }
  | .deliver j i =>
    match w.jobs[j]? with
    | none => none
    | some job =>
      match job.decided with
      | none => none
      | some (_, _, msg) =>
        if (job.answers i).isSome || job.ended.isSome then none
        else
          let (copy, answer) := (w.copies i).handle msg
          let job := { job with answers := update job.answers i (some answer) }
          some { w with copies := update w.copies i copy, jobs := w.jobs.set j job }
  | .endRound j clock =>
    match w.jobs[j]? with
    | none => none
    | some job =>
      match job.decided with
      | none => none
      | some (read, time, msg) =>
        if job.ended.isSome || !(finRange n).all (fun i => (job.answers i).isSome) ||
          !(heldOf job.answers).all (· < clock) then none
        else some { w with jobs := w.jobs.set j (job.endRound clock read time msg) }
  | .tick now => if w.now ≤ now then some { w with now := now } else none

end Step

/-! ## Every request follows its plan -/

def Plan.Sends (msg : Msg B) : Plan B → Prop
  | .nothing => False
  | .put id body => ∃ stamp, msg = .put ⟨id, stamp, 0, body⟩ none
  | .update r body => ∃ update, msg = .put ⟨r.id, r.stamp, update, body⟩ (some r.id)
  | .delete => ∃ stamp, msg = .delete stamp

theorem Plan.sends_msg {plan : Plan B} {clock : Nat} (h : plan.msg clock = some msg) : plan.Sends msg := by
  cases plan with
  | nothing => cases h
  | _ =>
    cases h
    exact ⟨_, rfl⟩

theorem Plan.Sends.again {plan : Plan B} {clock : Nat} {next : Msg B} (h : plan.Sends msg)
    (hnext : OneKey.again clock msg = some next) : plan.Sends next := by
  cases plan with
  | nothing => exact h.elim
  | put id body | delete =>
    obtain ⟨stamp, rfl⟩ := h
    cases hnext
    exact ⟨clock, rfl⟩
  | update r body =>
    obtain ⟨update, rfl⟩ := h
    cases hnext

section Runs

variable {plan : K → Nat → Nat → Option (Rec B) → Plan B} {w w' : World K B n} {e : Event K n}

/-- What the `j`th request does on its own: it hears a copy, decides, is stamped again, or ends. -/
inductive Turn (plan : K → Nat → Nat → Option (Rec B) → Plan B) (w : World K B n) (j : Nat) (job : Job K B n) :
    Event K n → Job K B n → Prop
  | hear (i : Fin n) (hopen : job.decided = none) :
      Turn plan w j job (.hear j i) { job with heard := job.heard ++ [w.copies i] }
  | decide (clock : Nat) (msg : Msg B) (hopen : job.decided = none)
      (hmsg : (plan job.kind job.since w.now (newest job.heard)).msg clock = some msg) :
      Turn plan w j job (.decide j clock) { job with decided := some (newest job.heard, w.now, msg) }
  | again (clock time : Nat) (read : Option (Rec B)) (msg next : Msg B)
      (hdecided : job.decided = some (read, time, msg)) (hnext : OneKey.again clock msg = some next)
      (hclock : ∃ held ∈ heldOf job.answers, held < clock) : Turn plan w j job (.endRound j clock)
        { job with decided := some (read, time, next), round := job.round + 1, answers := fun _ => none }
  | finish (clock : Nat) (hall : ∀ i, (job.answers i).isSome = true) :
      Turn plan w j job (.endRound j clock) { job with ended := some (acked job.answers) }
  | refuse (clock : Nat) : Turn plan w j job (.decide j clock) { job with ended := some false }

inductive Change (plan : K → Nat → Nat → Option (Rec B) → Plan B) (w : World K B n) :
    Event K n → World K B n → Prop
  | start (kind : K) : Change plan w (.start kind) { w with jobs := w.jobs ++ [{ kind := kind, since := w.now }] }
  | turn {e : Event K n} (j : Nat) (job job' : Job K B n) (hjob : w.jobs[j]? = some job)
      (hopen : job.ended = none) (hturn : Turn plan w j job e job') : Change plan w e { w with jobs := w.jobs.set j job' }
  | deliver (j : Nat) (i : Fin n) (job : Job K B n) (read : Option (Rec B)) (time : Nat) (msg : Msg B)
      (hjob : w.jobs[j]? = some job) (hdecided : job.decided = some (read, time, msg))
      (hopen : job.ended = none) : Change plan w (.deliver j i) { w with
        copies := update w.copies i ((w.copies i).handle msg).1
        jobs := w.jobs.set j
          { job with answers := update job.answers i (some ((w.copies i).handle msg).2) } }
  | tick (now : Nat) (hnow : w.now ≤ now) : Change plan w (.tick now) { w with now := now }

theorem step_change (h : step plan w e = some w') : Change plan w e w' := by
  cases e with
  | start kind =>
    cases h
    exact .start kind
  | tick now =>
    simp only [step, Option.ite_none_right_eq_some, Option.some.injEq] at h
    obtain ⟨hnow, rfl⟩ := h
    exact .tick now hnow
  | hear j i =>
    simp only [step] at h
    split at h
    · cases h
    · rename_i job hjob
      split at h <;> cases h
      rename_i hopen
      simp only [Bool.or_eq_true, not_or, Bool.not_eq_true, Option.isSome_eq_false_iff,
        Option.isNone_iff_eq_none] at hopen
      exact .turn j job _ hjob hopen.2 (.hear i hopen.1)
  | decide j clock =>
    simp only [step] at h
    split at h
    · cases h
    · rename_i job hjob
      split at h <;> cases h
      rename_i hopen
      simp only [Bool.or_eq_true, not_or, Bool.not_eq_true, Option.isSome_eq_false_iff,
        Option.isNone_iff_eq_none] at hopen
      refine .turn j job _ hjob hopen.1.2 ?_
      unfold Job.decide
      split
      · rename_i msg hmsg
        exact .decide clock msg hopen.1.1 hmsg
      · exact .refuse clock
  | deliver j i =>
    simp only [step] at h
    split at h
    · cases h
    · rename_i job hjob
      split at h
      · cases h
      · rename_i read time msg hdecided
        split at h <;> cases h
        rename_i hopen
        refine .deliver j i job read time msg hjob hdecided ?_
        simp only [Bool.or_eq_true, not_or, Bool.not_eq_true, Option.isSome_eq_false_iff,
          Option.isNone_iff_eq_none] at hopen
        exact hopen.2
  | endRound j clock =>
    simp only [step] at h
    split at h
    · cases h
    · rename_i job hjob
      split at h
      · cases h
      · rename_i read time msg hdecided
        split at h <;> cases h
        rename_i hguard
        simp only [Bool.or_eq_true, not_or, Bool.not_eq_true, Bool.not_eq_false, Option.isSome_eq_false_iff,
          Option.isNone_iff_eq_none, Bool.not_eq_true'] at hguard
        refine .turn j job _ hjob hguard.1.1 ?_
        unfold Job.endRound
        split
        · rename_i next hnext
          split at hnext
          · cases hnext
          · rename_i hheld
            simp only [Bool.or_eq_true, List.isEmpty_iff, not_or] at hheld
            obtain ⟨held, hmem⟩ := List.exists_mem_of_ne_nil _ hheld.1
            exact .again clock time read msg next hdecided hnext
              ⟨held, hmem, of_decide_eq_true (all_eq_true.1 hguard.2 held hmem)⟩
        · exact .finish clock fun i => all_eq_true.1 hguard.1.2 i (mem_finRange i)

theorem Change.now_le (h : Change plan w e w') : w.now ≤ w'.now := by
  cases h with
  | tick now hnow => exact hnow
  | _ => exact le_refl _

theorem Turn.kind (h : Turn plan w j job e job') : job'.kind = job.kind := by
  cases h <;> rfl

/-- What a step does to the `j`th request: nothing, its own turn, or a copy answers it. -/
inductive Moved (plan : K → Nat → Nat → Option (Rec B) → Plan B) (w w' : World K B n) (e : Event K n) (j : Nat)
    (job : Job K B n) : Job K B n → Prop
  | same : Moved plan w w' e j job job
  | turn (job' : Job K B n) (hopen : job.ended = none) (hturn : Turn plan w j job e job') : Moved plan w w' e j job job'
  | answered (i : Fin n) (read : Option (Rec B)) (time : Nat) (msg : Msg B) (he : e = .deliver j i)
      (hdecided : job.decided = some (read, time, msg)) (hopen : job.ended = none)
      (hcopy : w'.copies i = ((w.copies i).handle msg).1) : Moved plan w w' e j job
        { job with answers := update job.answers i (some ((w.copies i).handle msg).2) }

theorem Moved.kind (h : Moved plan w w' e j job job') : job'.kind = job.kind := by
  cases h with
  | turn _ hopen hturn => exact hturn.kind
  | _ => rfl

theorem Change.jobs (h : Change plan w e w') : Steps.Changed (Moved plan w w' e)
    (fun job => ∃ kind, e = .start kind ∧ job = { kind := kind, since := w.now }) w.jobs w'.jobs := by
  cases h with
  | start kind => exact .one _ ⟨kind, rfl, rfl⟩
  | tick now hnow => exact .same
  | turn j job job' hjob hopen hturn => exact .set hjob (.turn job' hopen hturn)
  | deliver j i job read time msg hjob hdecided hopen =>
    exact .set hjob (.answered i read time msg rfl hdecided hopen (update_self ..))

theorem Change.back (h : Change plan w e w') (hjob : job' ∈ w'.jobs) :
    (∃ j job, w.jobs[j]? = some job ∧ w'.jobs[j]? = some job' ∧ Moved plan w w' e j job job') ∨
      ∃ kind, e = .start kind ∧ job' = { kind := kind, since := w.now } := by
  obtain ⟨j, hj⟩ := mem_iff_getElem?.1 hjob
  rcases h.jobs.back (fun _ _ => .same) hj with ⟨job, hjob, hmoved⟩ | ⟨-, hnew⟩
  · exact .inl ⟨j, job, hjob, hj, hmoved⟩
  · exact .inr hnew

theorem Change.copy (h : Change plan w e w') (i : Fin n) :
    (w'.copies i = w.copies i ∧ ∀ j, e ≠ .deliver j i) ∨
    ∃ j job read time msg, e = .deliver j i ∧ w.jobs[j]? = some job ∧ job.decided = some (read, time, msg) ∧
      job.ended = none ∧ w'.copies i = ((w.copies i).handle msg).1 := by
  cases h with
  | deliver j i' job read time msg hjob hdecided hopen =>
    by_cases hi : i = i'
    · subst hi
      exact .inr ⟨j, job, read, time, msg, rfl, hjob, hdecided, hopen, update_self ..⟩
    · refine .inl ⟨update_of_ne hi .., fun j' heq => hi ?_⟩
      cases heq
      rfl
  | turn j job job' hjob hopen hturn =>
    refine .inl ⟨rfl, fun j' heq => ?_⟩
    subst heq
    cases hturn
  | _ => exact .inl ⟨rfl, nofun⟩

/-! ## The newest write wins -/

def Msg.stamp : Msg B → Nat
  | .put r _ => r.stamp
  | .delete stamp => stamp

def Msg.record : Msg B → Option (Rec B)
  | .put r _ => some r
  | .delete _ => none

def Job.stamp (job : Job K B n) : Nat := job.decided.elim 0 fun d => d.2.2.stamp

/-- The stamp of what a copy is at: of its record, or else of the newest delete. -/
def Copy.top (c : Copy B) : Nat := c.current.elim c.tombstone Rec.stamp

def Copy.Live (c : Copy B) : Prop := ∀ r, c.current = some r → c.tombstone < r.stamp

/-- At a copy the newer of a write and what is there stays. -/
theorem handle_wins (hlive : c.Live) (hplain : ∀ r e, msg ≠ .put r (some e)) :
    (c.handle msg).1 = c ∧ msg.stamp ≤ c.top ∨
    c.top ≤ msg.stamp ∧ (c.handle msg).1.top = msg.stamp ∧ (c.handle msg).1.current = msg.record := by
  obtain ⟨current, tombstone⟩ := c
  cases msg with
  | put r expected =>
    cases expected with
    | some e => exact absurd rfl (hplain r e)
    | none =>
      simp only [Copy.handle, Option.any_none, Bool.false_eq_true, if_false, Bool.or_eq_true, decide_eq_true_eq]
      split
      · rename_i hnew
        refine .inl ⟨rfl, ?_⟩
        cases current with
        | none => simpa [Msg.stamp, Copy.top] using hnew
        | some r' =>
          have := hlive r' rfl
          simp only [Option.any_some, Rec.before, decide_eq_true_eq] at hnew
          simp only [Msg.stamp, Copy.top, Option.elim_some] at this ⊢
          omega
      · rename_i hnew
        refine .inr ⟨?_, rfl, rfl⟩
        cases current with
        | none =>
          simp only [Option.any_none] at hnew
          simp only [Msg.stamp, Copy.top, Option.elim_none]
          omega
        | some r' =>
          simp only [Option.any_some, Rec.before, decide_eq_true_eq] at hnew
          simp only [Msg.stamp, Copy.top, Option.elim_some]
          omega
  | delete stamp =>
    simp only [Copy.handle]
    cases current with
    | none =>
      by_cases hle : tombstone ≤ stamp
      · exact .inr ⟨hle, by simp [Copy.top, Msg.stamp, hle], rfl⟩
      · exact .inl ⟨by simp [Nat.le_of_not_le hle], Nat.le_of_not_le hle⟩
    | some r' =>
      have := hlive r' rfl
      simp only [Option.any_some, decide_eq_true_eq] at this ⊢
      split
      · rename_i hnew
        exact .inl ⟨rfl, Nat.le_of_lt hnew⟩
      · rename_i hnew
        refine .inr ⟨Nat.le_of_not_lt hnew, ?_, rfl⟩
        simp only [Copy.top, Msg.stamp, Option.elim_none]
        omega

theorem handle_held {held : Nat} (h : (c.handle msg).2 = .superseded held) : msg.stamp ≤ held := by
  cases msg with
  | put r expected =>
    simp only [Copy.handle] at h
    split at h
    · rename_i hnew
      cases h
      unfold Copy.held
      cases hc : c.current with
      | none => simpa [hc, Msg.stamp] using hnew
      | some r' =>
        simp only [hc, Option.any_some, Rec.before, Bool.or_eq_true, decide_eq_true_eq] at hnew
        simp only [Msg.stamp, Option.elim_some]
        omega
    · split at h <;> cases h
  | delete stamp =>
    simp only [Copy.handle] at h
    split at h
    · rename_i hnew
      cases h
      obtain ⟨r, hr, hlt⟩ := (Option.any_eq_true _ _).1 hnew
      rw [hr]
      exact Nat.le_of_lt (of_decide_eq_true hlt)
    · cases h

theorem Turn.stamp_le (h : Turn plan w j job e job')
    (hheld : ∀ i held, job.answers i = some (.superseded held) → job.stamp ≤ held) : job.stamp ≤ job'.stamp := by
  cases h with
  | decide clock msg hopen hmsg =>
    unfold Job.stamp
    rw [hopen]
    exact Nat.zero_le _
  | again clock time read msg next hdecided hnext hclock =>
    obtain ⟨held, hmem, hlt⟩ := hclock
    obtain ⟨i, -, hi⟩ := mem_filterMap.1 hmem
    have hanswer : job.answers i = some (.superseded held) := by
      split at hi
      · rename_i hanswer
        cases hi
        exact hanswer
      · cases hi
    have hle := hheld i held hanswer
    have hstamp : next.stamp = clock := by
      unfold OneKey.again at hnext
      split at hnext <;> cases hnext <;> rfl
    show job.stamp ≤ next.stamp
    omega
  | _ => exact le_refl _

structure Job.Sound (plan : K → Nat → Nat → Option (Rec B) → Plan B) (C : Copy B → Prop) (now : Nat)
    (job : Job K B n) : Prop where
  since : job.since ≤ now
  heard : ∀ c ∈ job.heard, C c
  decided : ∀ read time msg, job.decided = some (read, time, msg) →
    time ≤ now ∧ read = newest job.heard ∧ (plan job.kind job.since time read).Sends msg
  ended : job.ended = some true → ∀ i, (job.answers i).isSome = true

/-- Every copy is as `C` says, and every request heard such copies and acts by its plan. -/
structure Sound (plan : K → Nat → Nat → Option (Rec B) → Plan B) (C : Copy B → Prop)
    (w : World K B n) : Prop where
  copies : ∀ i, C (w.copies i)
  jobs : ∀ job ∈ w.jobs, job.Sound plan C w.now

variable {C : Copy B → Prop}

theorem Job.Sound.later {now now' : Nat} (h : job.Sound plan C now) (hle : now ≤ now') :
    job.Sound plan C now' where
  since := le_trans h.since hle
  heard := h.heard
  decided read time msg hd := ⟨le_trans (h.decided read time msg hd).1 hle, (h.decided read time msg hd).2⟩
  ended := h.ended

theorem Job.Sound.turn (h : job.Sound plan C w.now) (hC : ∀ i, C (w.copies i))
    (hopen : job.ended = none) (ht : Turn plan w j job e job') : job'.Sound plan C w.now := by
  cases ht with
  | hear i hundecided =>
    refine ⟨h.since, ?_, fun read time msg hd => ?_, h.ended⟩
    · intro c hc
      rcases mem_append.1 hc with hc | hc
      · exact h.heard c hc
      · rw [mem_singleton.1 hc]
        exact hC i
    · have hd : job.decided = some (read, time, msg) := hd
      rw [hundecided] at hd
      cases hd
  | decide clock msg hundecided hmsg =>
    refine ⟨h.since, h.heard, fun read time msg' hd => ?_, h.ended⟩
    cases hd
    exact ⟨le_refl _, rfl, Plan.sends_msg hmsg⟩
  | again clock time read msg next hdecided hnext hclock =>
    refine ⟨h.since, h.heard, fun read' time' msg' hd => ?_, fun he => ?_⟩
    · cases hd
      obtain ⟨htime, hread, hsends⟩ := h.decided _ _ _ hdecided
      exact ⟨htime, hread, hsends.again hnext⟩
    · have he : job.ended = some true := he
      rw [hopen] at he
      cases he
  | finish clock hall => exact ⟨h.since, h.heard, h.decided, fun _ => hall⟩
  | refuse clock => exact ⟨h.since, h.heard, h.decided, nofun⟩

theorem Sound.step (h : Sound plan C w) (hkeeps : ∀ kind since time heard msg c, (∀ c ∈ heard, C c) → C c →
      (plan kind since time (newest heard)).Sends msg → C (c.handle msg).1)
    (hs : OneKey.step plan w e = some w') : Sound plan C w' := by
  have hc := step_change hs
  refine ⟨fun i => ?_, fun job' hjob' => ?_⟩
  · rcases hc.copy i with ⟨heq, -⟩ | ⟨j, job, read, time, msg, -, hjob, hdecided, -, hcopy⟩
    · rw [heq]
      exact h.copies i
    · have hsound := h.jobs job (mem_of_getElem? hjob)
      obtain ⟨-, rfl, hsends⟩ := hsound.decided _ _ _ hdecided
      rw [hcopy]
      exact hkeeps _ _ _ _ _ _ hsound.heard (h.copies i) hsends
  · rcases hc.back hjob' with ⟨j, job, hjob, -, hmoved⟩ | ⟨kind, rfl, rfl⟩
    · have hsound := h.jobs job (mem_of_getElem? hjob)
      refine Job.Sound.later ?_ hc.now_le
      cases hmoved with
      | same => exact hsound
      | turn _ hopen hturn => exact hsound.turn h.copies hopen hturn
      | answered i read time msg he hdecided hopen hcopy =>
        refine ⟨hsound.since, hsound.heard, hsound.decided, fun hended => ?_⟩
        have hended : job.ended = some true := hended
        rw [hopen] at hended
        cases hended
    · exact ⟨hc.now_le, nofun, nofun, nofun⟩

def Msg.newFor (c : Copy B) : Msg B → Bool
  | .put r _ => !(c.current.any r.before || decide (r.stamp ≤ c.tombstone))
  | .delete _ => true

/-- A message reaches a copy whose record is, to `look`, the one the request read, and which holds nothing
newer. -/
def AsRead {L : Type} [DecidableEq L] (look : Rec B → L) (w : World K B n) : Event K n → Prop
  | .deliver j i => (w.jobs[j]?.all fun job => job.decided.all fun d =>
      decide ((w.copies i).current.map look = d.1.map look) && d.2.2.newFor (w.copies i)) = true
  | _ => True

instance {L : Type} [DecidableEq L] (look : Rec B → L) (w : World K B n) (e : Event K n) :
    Decidable (AsRead look w e) := by
  cases e <;> unfold AsRead <;> infer_instance

theorem handle_update (hnew : (Msg.put r (some r.id)).newFor c = true)
    (hid : c.current.map Rec.id = some r.id) : (c.handle (.put r (some r.id))).1.current = some r := by
  unfold Msg.newFor at hnew
  simp only [Bool.not_eq_eq_eq_not, Bool.not_true] at hnew
  simp [Copy.handle, hnew, hid]

/-- A property of records that some requests set. -/
structure Guard (plan : K → Nat → Nat → Option (Rec B) → Plan B) {L : Type} (look : Rec B → L)
    (holds : Rec B → Prop) (sets : K → Prop) : Prop where
  seen : ∀ r r', look r = look r' → r.id = r'.id ∧ (holds r → holds r')
  sets : ∀ kind since time read msg, sets kind → (plan kind since time read).Sends msg →
    ∃ r u body, read = some r ∧ msg = .put ⟨r.id, r.stamp, u, body⟩ (some r.id) ∧ holds ⟨r.id, r.stamp, u, body⟩

def Keeps (plan : K → Nat → Nat → Option (Rec B) → Plan B) (holds : Rec B → Prop) (w : World K B n) : Prop :=
  ∀ job ∈ w.jobs, job.ended = none → ∀ time r msg, job.since ≤ w.now → time ≤ w.now → holds r →
    (plan job.kind job.since time (some r)).Sends msg →
    ∃ u body, msg = .put ⟨r.id, r.stamp, u, body⟩ (some r.id) ∧ holds ⟨r.id, r.stamp, u, body⟩

def Kept (holds : Rec B → Prop) (sets : K → Prop) (m : Nat) (w : World K B n) : Prop :=
  ∀ j job, w.jobs[j]? = some job → m ≤ j → sets job.kind → ∀ i, (job.answers i).isSome = true →
    ∃ r, (w.copies i).current = some r ∧ holds r

variable {L : Type} [DecidableEq L] {look : Rec B → L} {holds : Rec B → Prop} {sets : K → Prop} {m : Nat}

/-- What requests set stays set, where each reaches the record it read. -/
theorem Guard.step (g : Guard plan look holds sets) (hsound : Sound plan C w) (hkeeps : Keeps plan holds w)
    (hkept : Kept holds sets m w) (hok : AsRead look w e) (hs : OneKey.step plan w e = some w') :
    Kept holds sets m w' := by
  intro j₁ job₁ hjob₁ hm hset i hi
  have hc := step_change hs
  -- whether another request had set it at this copy, or this one does now
  have hcase : (∃ r, (w.copies i).current = some r ∧ holds r) ∨
      ∃ job, w.jobs[j₁]? = some job ∧ sets job.kind ∧ e = .deliver j₁ i := by
    rcases hc.jobs.back (fun _ _ => .same) hjob₁ with ⟨job, hjob, hmoved⟩ | ⟨-, kind, -, rfl⟩
    · rw [hmoved.kind] at hset
      cases hmoved with
      | same => exact .inl (hkept j₁ job₁ hjob hm hset i hi)
      | turn _ hopen hturn =>
        cases hturn with
        | again => cases hi
        | _ => exact .inl (hkept j₁ job hjob hm hset i hi)
      | answered i' read time msg he hdecided hopen hcopy =>
        by_cases hne : i = i'
        · exact .inr ⟨job, hjob, hset, hne ▸ he⟩
        · have hi : (update job.answers i' _ i).isSome = true := hi
          rw [update_of_ne hne] at hi
          exact .inl (hkept j₁ job hjob hm hset i hi)
    · cases hi
  rcases hc.copy i with ⟨heq, hnot⟩ | ⟨j, job, read, time, msg, rfl, hjob, hdecided, hopen, hcopy⟩
  · rw [heq]
    exact hcase.resolve_right fun ⟨_, _, _, he⟩ => hnot _ he
  · have hmem := mem_of_getElem? hjob
    obtain ⟨htime, hread, hsends⟩ := (hsound.jobs job hmem).decided _ _ _ hdecided
    simp only [AsRead, hjob, hdecided, Option.all_some, Bool.and_eq_true, decide_eq_true_eq] at hok
    -- the message is an update of the record read, so it takes the place of the copy's
    have hput : ∀ r u body, read = some r → msg = .put ⟨r.id, r.stamp, u, body⟩ (some r.id) →
        ((w.copies i).handle msg).1.current = some ⟨r.id, r.stamp, u, body⟩ := by
      rintro r u body rfl rfl
      obtain ⟨c, hc, hlook⟩ := Option.map_eq_some_iff.1 hok.1
      refine handle_update hok.2 ?_
      rw [hc]
      exact congrArg some (g.seen c r hlook).1
    rw [hcopy]
    rcases hcase with ⟨c, hc, hholds⟩ | ⟨job', hjob', hset, he⟩
    · rw [hc] at hok
      obtain ⟨r, hr, hlook⟩ := Option.map_eq_some_iff.1 hok.1.symm
      rw [hr] at hsends
      obtain ⟨u, body, hm, hholds'⟩ := hkeeps job hmem hopen time r msg (hsound.jobs job hmem).since
        htime ((g.seen c r hlook.symm).2 hholds) hsends
      exact ⟨_, hput r u body hr hm, hholds'⟩
    · cases he
      rw [hjob] at hjob'
      cases hjob'
      obtain ⟨r, u, body, hr, hm, hholds⟩ := g.sets _ _ _ _ _ hset hsends
      exact ⟨_, hput r u body hr hm, hholds⟩

end Runs

end IoLake.Gateway.OneKey
