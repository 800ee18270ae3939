import IoLake.Gateway.OneKey

/-!
# An acknowledged object lock stays

Retention, legal hold, tagging, packing switches and deletes without the bypass header on one object version.
Each reads the record, checks the lock there, and writes the whole record back over the same object, or
deletes it.  The copies check the object's id and the order of the writes, not what the request read.
-/

namespace IoLake.Gateway.Locks

open OneKey List Steps

inductive RetentionMode
  | unspecified
  | governance
  | compliance
deriving DecidableEq, Repr

structure ObjectRetention where
  mode : RetentionMode
  retainUntilDate : Nat
deriving DecidableEq, Repr

/-- What the requests read and write of an object's record; the rest is its tags and stripes. -/
structure Body where
  retention : Option ObjectRetention := none
  legalHold : Option Bool := none
  rest : Nat := 0
deriving DecidableEq, Repr

inductive Kind
  | retention (mode : RetentionMode) (retainUntil : Nat) (bypass : Bool)
  | legalHold (status : Bool)
  | rewrite (rest : Nat)
  | delete
deriving DecidableEq, Repr

def allowed (old : ObjectRetention) (mode : RetentionMode) (retainUntil : Nat) (bypass : Bool) : Bool :=
  let loosens := mode != old.mode || decide (retainUntil < old.retainUntilDate)
  match old.mode with
  | .compliance => !loosens
  | _ => !loosens || bypass

def putObjectRetention (mode : RetentionMode) (retainUntil : Nat) (bypass : Bool) (since : Nat) :
    Option (Rec Body) → Plan Body
  | none => .nothing
  | some r =>
    if retainUntil ≤ since then .nothing
    else if r.body.retention.any fun old => decide (since < old.retainUntilDate) &&
        decide (old.mode ≠ .unspecified) && !allowed old mode retainUntil bypass then .nothing
    else .update r { r.body with retention := some ⟨mode, retainUntil⟩ }

def lockRefusal (now : Nat) (b : Body) : Bool :=
  b.legalHold == some true ||
    b.retention.any fun r => decide (now < r.retainUntilDate) && decide (r.mode ≠ .unspecified)

def plan : Kind → Nat → Nat → Option (Rec Body) → Plan Body
  | .retention mode retainUntil bypass, since, _, read => putObjectRetention mode retainUntil bypass since read
  | .legalHold _, _, _, none => .nothing
  | .legalHold status, _, _, some r => .update r { r.body with legalHold := some status }
  | .rewrite _, _, _, none => .nothing
  | .rewrite rest, _, _, some r => .update r { r.body with rest := rest }
  | .delete, _, now, read => if read.any fun r => lockRefusal now r.body then .nothing else .delete

def look (r : Rec Body) : Nat × Option ObjectRetention × Option Bool := (r.id, r.body.retention, r.body.legalHold)

def Until (date : Nat) (r : Rec Body) : Prop := ∃ d, r.body.retention = some ⟨.compliance, d⟩ ∧ date ≤ d

def SetsUntil (date : Nat) (kind : Kind) : Prop := ∃ bypass, kind = .retention .compliance date bypass

def Held (r : Rec Body) : Prop := r.body.legalHold = some true

theorem until_guard (date : Nat) : Guard plan look (Until date) (SetsUntil date) where
  seen r r' hlook := by
    simp only [look, Prod.mk.injEq] at hlook
    exact ⟨hlook.1, fun ⟨d, hd, hle⟩ => ⟨d, hlook.2.1 ▸ hd, hle⟩⟩
  sets kind since time read msg hset hsends := by
    obtain ⟨bypass, rfl⟩ := hset
    cases read with
    | none => exact hsends.elim
    | some r =>
      simp only [plan, putObjectRetention] at hsends
      split at hsends
      · exact hsends.elim
      · split at hsends
        · exact hsends.elim
        · obtain ⟨u, rfl⟩ := hsends
          exact ⟨r, u, _, rfl, rfl, date, rfl, le_refl _⟩

theorem held_guard : Guard plan look Held (· = .legalHold true) where
  seen r r' hlook := by
    simp only [look, Prod.mk.injEq] at hlook
    exact ⟨hlook.1, fun h => hlook.2.2.symm.trans h⟩
  sets kind since time read msg hset hsends := by
    subst hset
    cases read with
    | none => exact hsends.elim
    | some r =>
      obtain ⟨u, rfl⟩ := hsends
      exact ⟨r, u, _, rfl, rfl, rfl⟩

theorem until_keeps {n : Nat} {w : World Kind Body n} {date : Nat} (hnow : w.now < date) :
    Keeps plan (Until date) w := by
  rintro job - - time r msg hsince htime ⟨d, hd, hle⟩ hsends
  cases hkind : job.kind with
  | retention mode retainUntil bypass =>
    simp only [hkind, plan, putObjectRetention, hd, Option.any_some] at hsends
    split at hsends
    · exact hsends.elim
    · split at hsends
      · exact hsends.elim
      · rename_i hallowed
        obtain ⟨u, rfl⟩ := hsends
        have hforce : job.since < d := by omega
        simp only [hforce, allowed, decide_true, Bool.true_and, ne_eq, reduceCtorEq, not_false_eq_true,
          Bool.not_not, Bool.or_eq_true, bne_iff_ne, decide_eq_true_eq, not_or, not_not] at hallowed
        refine ⟨u, _, rfl, retainUntil, ?_, by omega⟩
        rw [hallowed.1]
  | legalHold status | rewrite rest =>
    simp only [hkind, plan] at hsends
    obtain ⟨u, rfl⟩ := hsends
    exact ⟨u, _, rfl, d, hd, hle⟩
  | delete =>
    have hforce : time < d := by omega
    simp [hkind, plan, lockRefusal, hd, hforce, Plan.Sends] at hsends

theorem held_keeps {n : Nat} {w : World Kind Body n}
    (hoff : ∀ job ∈ w.jobs, job.ended = none → job.kind ≠ .legalHold false) : Keeps plan Held w := by
  intro job hjob hopen time r msg hsince htime hheld hsends
  have hheld : r.body.legalHold = some true := hheld
  cases hkind : job.kind with
  | retention mode retainUntil bypass =>
    simp only [hkind, plan, putObjectRetention] at hsends
    split at hsends
    · exact hsends.elim
    · split at hsends
      · exact hsends.elim
      · obtain ⟨u, rfl⟩ := hsends
        exact ⟨u, _, rfl, hheld⟩
  | legalHold status =>
    simp only [hkind, plan] at hsends
    obtain ⟨u, rfl⟩ := hsends
    cases status with
    | false => exact absurd hkind (hoff job hjob hopen)
    | true => exact ⟨u, _, rfl, rfl⟩
  | rewrite rest =>
    simp only [hkind, plan] at hsends
    obtain ⟨u, rfl⟩ := hsends
    exact ⟨u, _, rfl, hheld⟩
  | delete => simp [hkind, plan, lockRefusal, hheld, Plan.Sends] at hsends

/-- A copy holds the version or has it no more. -/
def OneVersion (id stamp : Nat) (c : Copy Body) : Prop :=
  ∀ r, c.current = some r → r.id = id ∧ r.stamp = stamp ∧ c.tombstone < stamp

theorem plan_update {kind : Kind} {since time : Nat} {read : Option (Rec Body)} {msg : Msg Body}
    (h : (plan kind since time read).Sends msg) :
    (∃ r u body, read = some r ∧ msg = .put ⟨r.id, r.stamp, u, body⟩ (some r.id)) ∨ ∃ stamp, msg = .delete stamp := by
  unfold plan putObjectRetention at h
  split at h
  · split at h
    · exact h.elim
    · split at h
      · exact h.elim
      · split at h
        · exact h.elim
        · obtain ⟨u, rfl⟩ := h
          exact .inl ⟨_, u, _, rfl, rfl⟩
  · exact h.elim
  · obtain ⟨u, rfl⟩ := h
    exact .inl ⟨_, u, _, rfl, rfl⟩
  · exact h.elim
  · obtain ⟨u, rfl⟩ := h
    exact .inl ⟨_, u, _, rfl, rfl⟩
  · split at h
    · exact h.elim
    · obtain ⟨stamp, rfl⟩ := h
      exact .inr ⟨stamp, rfl⟩

theorem handle_oneVersion {id stamp : Nat} (kind : Kind) (since time : Nat) (heard : List (Copy Body))
    (msg : Msg Body) (c : Copy Body) (hheard : ∀ c ∈ heard, OneVersion id stamp c) (hc : OneVersion id stamp c)
    (h : (plan kind since time (newest heard)).Sends msg) : OneVersion id stamp (c.handle msg).1 := by
  rcases plan_update h with ⟨r, u, body, hread, rfl⟩ | ⟨s, rfl⟩
  · obtain ⟨c', hc', hcur⟩ := newest_mem hread
    obtain ⟨hid, hstamp, -⟩ := hheard c' hc' r hcur
    simp only [Copy.handle]
    split
    · exact hc
    · rename_i hnew
      split
      · exact hc
      · intro r' hr'
        cases hr'
        simp only [Bool.or_eq_true, not_or, decide_eq_true_eq] at hnew
        exact ⟨hid, hstamp, hstamp ▸ not_le.1 hnew.2⟩
  · simp only [Copy.handle]
    split
    · exact hc
    · intro r hr
      cases hr

/-! ## Whole runs -/

/-- Whichever copies a read hears, it finds the version, with a record of which `P` holds. -/
def ReadAs {n : Nat} (P : Rec Body → Prop) (w : World Kind Body n) : Prop :=
  ∀ heard : List (Copy Body), heard ≠ [] → (∀ c ∈ heard, ∃ i, c = w.copies i) → ∃ r, newest heard = some r ∧ P r

theorem readAs_of_copies {n id stamp : Nat} {w : World Kind Body n} {P : Rec Body → Prop}
    (hone : ∀ i, OneVersion id stamp (w.copies i)) (h : ∀ i, ∃ r, (w.copies i).current = some r ∧ P r) :
    ReadAs P w := by
  intro heard hne hheard
  refine newest_of_all hne (fun c hc => ?_ : ∀ c ∈ heard, c.tombstone < stamp ∧ _)
  obtain ⟨i, rfl⟩ := hheard c hc
  obtain ⟨r, hr, hP⟩ := h i
  exact ⟨(hone i r hr).2.2, r, hr, (hone i r hr).2.1, hP⟩

section Runs

variable {n id stamp : Nat} {w w' : World Kind Body n} {e : Event Kind n}

theorem sound_step (h : Sound plan (OneVersion id stamp) w) (hs : step plan w e = some w') :
    Sound plan (OneVersion id stamp) w' :=
  h.step handle_oneVersion hs

theorem sound_run : ∀ (events : List (Event Kind n)) (w w' : World Kind Body n),
    Sound plan (OneVersion id stamp) w → run (step plan) w events = some w' →
    Sound plan (OneVersion id stamp) w' :=
  run_invariant fun _ _ _ h hs => sound_step h hs

theorem sound_start {w₀ : World Kind Body n} (hcopies : ∀ i, OneVersion id stamp (w₀.copies i))
    (hjobs : w₀.jobs = []) : Sound plan (OneVersion id stamp) w₀ := by
  refine ⟨hcopies, fun job hjob => ?_⟩
  rw [hjobs] at hjob
  cases hjob

theorem readAs_of_acked {P : Rec Body → Prop} {sets : Kind → Prop} {m j : Nat} {job : Job Kind Body n}
    (hsound : Sound plan (OneVersion id stamp) w) (hkept : Kept P sets m w) (hjob : w.jobs[j]? = some job)
    (hm : m ≤ j) (hset : sets job.kind) (hacked : job.ended = some true) : ReadAs P w :=
  readAs_of_copies hsound.copies fun i =>
    hkept j job hjob hm hset i ((hsound.jobs job (mem_of_getElem? hjob)).ended hacked i)

/-- Every request to turn the hold off has ended. -/
def NoOff (w : World Kind Body n) : Prop := ∀ job ∈ w.jobs, job.ended = none → job.kind ≠ .legalHold false

instance (w : World Kind Body n) : Decidable (NoOff w) := inferInstanceAs (Decidable (∀ job ∈ w.jobs, _))

theorem NoOff.step (h : NoOff w) (hnew : e ≠ .start (.legalHold false)) (hs : OneKey.step plan w e = some w') :
    NoOff w' := by
  intro job₁ hjob₁ hopen₁
  rcases (step_change hs).back hjob₁ with ⟨j, job, hjob, -, hmoved⟩ | ⟨kind, rfl, rfl⟩
  · have hold := h job (mem_of_getElem? hjob)
    rw [hmoved.kind]
    cases hmoved with
    | same => exact hold hopen₁
    | turn _ hopen hturn | answered i read time msg he hdecided hopen hcopy => exact hold hopen
  · rintro rfl
    exact hnew rfl

theorem until_run (date : Nat) (events : List (Event Kind n)) (w₀ w : World Kind Body n)
    (hsound : Sound plan (OneVersion id stamp) w₀) (hkept : Kept (Until date) (SetsUntil date) 0 w₀)
    (hok : Steps.Along (step plan) (AsRead look) w₀ events) (h : run (step plan) w₀ events = some w) :
    w.now < date → Kept (Until date) (SetsUntil date) 0 w := by
  refine (run_invariant_along (I := fun w => Sound plan (OneVersion id stamp) w ∧
    (w.now < date → Kept (Until date) (SetsUntil date) 0 w)) ?_ events w₀ w ⟨hsound, fun _ => hkept⟩ hok h).2
  rintro w e w' ⟨hsound, hkept⟩ hok hs
  refine ⟨sound_step hsound hs, fun hnow => ?_⟩
  have hbefore : w.now < date := lt_of_le_of_lt (step_change hs).now_le hnow
  exact (until_guard date).step hsound (until_keeps hbefore) (hkept hbefore) hok hs

theorem held_run {m : Nat} (events : List (Event Kind n)) (w₀ w : World Kind Body n)
    (hsound : Sound plan (OneVersion id stamp) w₀) (hoff : NoOff w₀) (hkept : Kept Held (· = .legalHold true) m w₀)
    (hnew : Event.start (.legalHold false) ∉ events)
    (hok : Steps.Along (step plan) (AsRead look) w₀ events) (h : run (step plan) w₀ events = some w) :
    Kept Held (· = .legalHold true) m w := by
  have hevents : ∀ e ∈ events, e ≠ .start (.legalHold false) := by
    rintro e he rfl
    exact hnew he
  refine (run_invariant_along (I := fun w => Sound plan (OneVersion id stamp) w ∧ NoOff w ∧
    Kept Held (· = .legalHold true) m w) ?_ events w₀ w ⟨hsound, hoff, hkept⟩
    (hok.and (.of_forall hevents)) h).2.2
  rintro w e w' ⟨hsound, hoff, hkept⟩ ⟨hok, hne⟩ hs
  exact ⟨sound_step hsound hs, hoff.step hne hs, held_guard.step hsound (held_keeps hoff) hkept hok hs⟩

end Runs

/-- **An acknowledged object lock stays**, where each message reaches, at each copy, the object and the lock
its request read, and nothing newer.  A COMPLIANCE retention is read until its date; a legal hold until a
request to turn it off. -/
theorem locks_stay {n id stamp : Nat} (w₀ : World Kind Body n) (events later : List (Event Kind n))
    (hcopies : ∀ i, OneVersion id stamp (w₀.copies i)) (hjobs : w₀.jobs = [])
    (hok : Steps.Along (step plan) (AsRead look) w₀ (events ++ later)) (w₁ w : World Kind Body n)
    (h₁ : Steps.run (step plan) w₀ events = some w₁) (h : Steps.run (step plan) w₁ later = some w) :
    (∀ (j : Nat) (job : Job Kind Body n) (date : Nat) (bypass : Bool), w.jobs[j]? = some job →
      job.kind = .retention .compliance date bypass → job.ended = some true → w.now < date →
      ReadAs (Until date) w) ∧ (NoOff w₁ → Event.start (.legalHold false) ∉ later →
      ∀ (j : Nat) (job : Job Kind Body n), w.jobs[j]? = some job → w₁.jobs.length ≤ j →
      job.kind = .legalHold true → job.ended = some true → ReadAs Held w) := by
  have hsound₀ := sound_start hcopies hjobs
  have hrun : run (step plan) w₀ (events ++ later) = some w := by
    rw [run_append, h₁]
    exact h
  have hsound₁ := sound_run events w₀ w₁ hsound₀ h₁
  have hsound := sound_run later w₁ w hsound₁ h
  refine ⟨fun j job date bypass hjob hkind hacked hnow => ?_, fun hoff hnew j job hjob hlater hkind hacked => ?_⟩
  · have hkept := until_run date (events ++ later) w₀ w hsound₀ (by
      intro j job hjob
      rw [hjobs] at hjob
      cases hjob) hok hrun hnow
    exact readAs_of_acked hsound hkept hjob (Nat.zero_le j) ⟨bypass, hkind⟩ hacked
  · have hkept := held_run later w₁ w hsound₁ hoff (m := w₁.jobs.length) (by
      intro j job hjob hj
      rw [getElem?_eq_none hj] at hjob
      cases hjob) hnew (hok.append h₁).2 h
    exact readAs_of_acked hsound hkept hjob hlater hkind hacked

def unlocked : World Kind Body 3 :=
  { copies := fun _ => { current := some { id := 1, stamp := 5, body := {} } } }

def request (j clock : Nat) : List (Event Kind 3) :=
  [.hear j 0, .hear j 1, .decide j clock, .deliver j 0, .deliver j 1, .deliver j 2, .endRound j clock]

def lateTags : List (Event Kind 3) :=
  [.start (.rewrite 7), .hear 0 0, .hear 0 1, .decide 0 12, .start (.retention .compliance 100 false)] ++
    request 1 11 ++ [.deliver 0 0, .deliver 0 1, .deliver 0 2, .endRound 0 13]

/-- A tagging request that undoes an acknowledged retention. -/
theorem retention_lost : ∃ w job, Steps.run (step plan) unlocked lateTags = some w ∧
    w.jobs[1]? = some job ∧ job.kind = .retention .compliance 100 false ∧ job.ended = some true ∧
    w.now < 100 ∧ ¬ ReadAs (Until 100) w := by
  obtain ⟨w, hw, ⟨job, hjob, hkind, hended⟩, hnow, hread⟩ : ∃ w, run (step plan) unlocked lateTags = some w ∧
        (∃ job, w.jobs[1]? = some job ∧ job.kind = .retention .compliance 100 false ∧ job.ended = some true) ∧
        w.now < 100 ∧ (newest [w.copies 0]).map (·.body.retention) = some none := by
    decide +kernel
  refine ⟨w, job, hw, hjob, hkind, hended, hnow, fun h => ?_⟩
  obtain ⟨r, hr, d, hd, -⟩ := h [w.copies 0] (cons_ne_nil _ _)
    (fun c hc => ⟨0, mem_singleton.1 hc⟩)
  rw [hr, Option.map_some, hd] at hread
  cases hread

/-- A retention; then a legal hold, tags by a request that read both, and a delete and a shorter retention
that are refused. -/
def locked : List (Event Kind 3) := .start (.retention .compliance 100 false) :: request 0 11

def inTurn : List (Event Kind 3) :=
  .tick 50 :: .start (.legalHold true) :: request 1 12 ++ .start (.rewrite 7) :: request 2 13 ++
    [.start .delete, .hear 3 0, .hear 3 2, .decide 3 14,
      .start (.retention .compliance 60 true), .hear 4 1, .hear 4 2, .decide 4 15]

theorem inTurn_locks_stay : ∃ w₁ w, Steps.run (step plan) unlocked locked = some w₁ ∧
    Steps.run (step plan) w₁ inTurn = some w ∧ w.now < 100 ∧ ReadAs (Until 100) w ∧ ReadAs Held w := by
  have hok : Steps.Along (step plan) (AsRead look) unlocked (locked ++ inTurn) := by decide +kernel
  obtain ⟨w₁, hw₁, hoff, hlength, w, hw, ⟨job₀, hjob₀, hkind₀, hended₀⟩,
      ⟨job₁, hjob₁, hkind₁, hended₁⟩, hnow⟩ :
      ∃ w₁, run (step plan) unlocked locked = some w₁ ∧ NoOff w₁ ∧ w₁.jobs.length = 1 ∧
        ∃ w, run (step plan) w₁ inTurn = some w ∧
          (∃ job, w.jobs[0]? = some job ∧ job.kind = .retention .compliance 100 false ∧
            job.ended = some true) ∧
          (∃ job, w.jobs[1]? = some job ∧ job.kind = .legalHold true ∧ job.ended = some true) ∧
          w.now < 100 := by
    decide +kernel
  have hcopies : ∀ i, OneVersion 1 5 (unlocked.copies i) := by
    intro i r hr
    cases hr
    exact ⟨rfl, rfl, Nat.zero_lt_succ 4⟩
  have hstay := locks_stay unlocked locked inTurn hcopies rfl hok w₁ w hw₁ hw
  refine ⟨w₁, w, hw₁, hw, hnow, ?_, ?_⟩
  · exact hstay.1 0 job₀ 100 false hjob₀ hkind₀ hended₀ hnow
  · exact hstay.2 hoff (by decide) 1 job₁ hjob₁ (le_of_eq hlength) hkind₁ hended₁

end IoLake.Gateway.Locks
