import IoLake.Gateway.OneKey

/-!
# The listing and the objects

PUTs (a copy by reference commits as one) and DELETEs of one unversioned key.  A PUT sends its object to the
copies and its entry to meta's listing at the same time, a DELETE to one after the other.  The copies keep the
write with the highest stamp.  The listing takes whichever commit comes last; a request that meets a conflict
there reads the copies and lists what it reads (`sync_listing`).
-/

namespace IoLake.Gateway.ListingAgrees

open OneKey List Option Function

structure Object where
  size : Nat
  etag : List Char
deriving DecidableEq, Repr

inductive Kind
  | put (id : Nat) (object : Object)
  | delete
deriving DecidableEq, Repr

def plan : Kind → Nat → Nat → Option (Rec Object) → Plan Object
  | .put id object, _, _, _ => .put id object
  | .delete, _, _, _ => .delete

/-- `ObjectListingEntry`. -/
structure Entry where
  id : Nat
  size : Nat
  etag : List Char
deriving DecidableEq, Repr

def entryOf (r : Rec Object) : Entry := ⟨r.id, r.body.size, r.body.etag⟩

def Kind.want : Kind → Option Entry
  | .put id object => some ⟨id, object.size, object.etag⟩
  | .delete => none

/-- Where a request is with the listing: its own call, looked up and then committed; then, after a conflict,
`sync_listing`, up to three times. -/
inductive Phase
  | idle
  | call (before : Option Entry)
  | aborted
  | reading (attempt turn : Nat) (last : Option (Option (Rec Object))) (heard : List (Copy Object))
  | listing (attempt turn : Nat) (current : Option (Rec Object))
  | relisting (attempt turn : Nat) (current : Option (Rec Object)) (before : Option Entry)
  | done
  | leftToHeal
deriving DecidableEq, Repr

/-- The key, the listing's entry, where each request is with it, and the stamp of the write last listed. -/
structure State (n : Nat) where
  world : World Kind Object n
  entry : Option Entry
  phases : Nat → Phase := fun _ => .idle
  last : Nat

inductive Event (n : Nat)
  | key (e : OneKey.Event Kind n)
  | look (job : Nat)
  | commit (job : Nat)
  | sync (job : Nat)
  | hear (job : Nat) (copy : Fin n)
  | read (job : Nat)

section Step

variable {n : Nat}

def State.setPhase (s : State n) (j : Nat) (phase : Phase) : State n :=
  { s with phases := update s.phases j phase }

def State.list (s : State n) (j : Nat) (job : Job Kind Object n) : State n :=
  { s with entry := job.kind.want, phases := update s.phases j .done, last := job.stamp }

/-- An attempt is over when the copies say what they said before, or the third time. -/
def afterRead (attempt turn : Nat) (last : Option (Option (Rec Object))) (current : Option (Rec Object)) : Phase :=
  if turn = 3 ∨ (last.any fun l => decide (l.map Rec.id = current.map Rec.id)) = true then .done
  else .listing attempt turn current

def afterConflict (attempt : Nat) : Phase :=
  if attempt < 7 then .reading (attempt + 1) 0 none [] else .leftToHeal

/-- A call on the listing looks the entry up and then commits; there is nothing to take out of a listing
without one. -/
def step (s : State n) : Event n → Option (State n)
  | .key e => (OneKey.step plan s.world e).map fun world => { s with world := world }
  | .look j =>
    match s.world.jobs[j]? with
    | none => none
    | some job =>
      match s.phases j with
      | .idle =>
        if job.kind = .delete ∧ job.ended ≠ some true then none
        else
          some (if job.kind.want = none ∧ s.entry = none then s.list j job else s.setPhase j (.call s.entry))
      | .listing attempt turn current =>
        some (s.setPhase j (if current = none ∧ s.entry = none then .reading attempt (turn + 1) (some current) []
          else .relisting attempt turn current s.entry))
      | _ => none
  | .commit j =>
    match s.world.jobs[j]? with
    | none => none
    | some job =>
      match s.phases j with
      | .call before =>
        some (if s.entry = before then s.list j job else s.setPhase j .aborted)
      | .relisting attempt turn current before =>
        some (if s.entry = before then
            { s.setPhase j (.reading attempt (turn + 1) (some current) []) with entry := current.map entryOf }
          else s.setPhase j (afterConflict attempt))
      | _ => none
  | .sync j =>
    match s.world.jobs[j]? with
    | none => none
    | some job =>
      if s.phases j = .aborted ∧ job.ended = some true then some (s.setPhase j (.reading 0 0 none [])) else none
  | .hear j i =>
    match s.phases j with
    | .reading attempt turn last heard => some (s.setPhase j (.reading attempt turn last (heard ++ [s.world.copies i])))
    | _ => none
  | .read j =>
    match s.phases j with
    | .reading attempt turn last heard =>
      if heard.length < n - n / 2 then none else some (s.setPhase j (afterRead attempt turn last (newest heard)))
    | _ => none

def State.stamp (s : State n) (j : Nat) : Nat := s.world.jobs[j]?.elim 0 Job.stamp

/-- Listing commits come in the order of the writes' stamps, meet no conflict, and no write is stamped again
once it is listed. -/
def InOrder (s : State n) : Event n → Prop
  | .key (.endRound j _) => s.phases j = .done → (s.world.jobs[j]?.all fun job => (heldOf job.answers).isEmpty) = true
  | .look j => s.phases j = .idle → s.entry = none → (s.world.jobs[j]?.all fun job => job.kind.want.isNone) = true →
      s.last < s.stamp j
  | .commit j => s.phases j = .call s.entry ∧ s.last < s.stamp j
  | _ => True

instance (s : State n) (e : Event n) : Decidable (InOrder s e) := by
  unfold InOrder
  split <;> infer_instance

end Step

variable {j : Nat}

section Copies

variable {n : Nat} {c₀ : Copy Object} {w w' : World Kind Object n} {e : OneKey.Event Kind n}

def Origin (job : Job Kind Object n) (c : Copy Object) : Prop :=
  c.top ≤ job.stamp ∧ c.current.map entryOf = job.kind.want

/-- Every copy is as it was or at what a request wrote, and not behind a request it has answered. -/
structure Ordered (c₀ : Copy Object) (w : World Kind Object n) : Prop where
  origin : ∀ i, w.copies i = c₀ ∨ ∃ (j : Nat) (job : Job Kind Object n), w.jobs[j]? = some job ∧ Origin job (w.copies i)
  answered : ∀ job ∈ w.jobs, ∀ i, (job.answers i).isSome = true →
    job.decided.isSome = true ∧ job.stamp ≤ (w.copies i).top
  held : ∀ job ∈ w.jobs, ∀ i held, job.answers i = some (.superseded held) → job.stamp ≤ held

theorem handle_live (kind : Kind) (since time : Nat) (heard : List (Copy Object)) (msg : Msg Object)
    (c : Copy Object) (_ : ∀ c ∈ heard, c.Live) (hc : c.Live)
    (h : (plan kind since time (newest heard)).Sends msg) : (c.handle msg).1.Live := by
  cases kind with
  | put id object =>
    obtain ⟨stamp, rfl⟩ := h
    simp only [Copy.handle, any_none, Bool.false_eq_true, if_false]
    split
    · exact hc
    · rename_i hnew
      intro r hr
      cases hr
      simp only [Bool.or_eq_true, decide_eq_true_eq, not_or] at hnew
      exact not_le.1 hnew.2
  | delete =>
    obtain ⟨stamp, rfl⟩ := h
    simp only [Copy.handle]
    split
    · exact hc
    · intro r hr
      cases hr

theorem sends_plain {kind : Kind} {since time : Nat} {read : Option (Rec Object)} {msg : Msg Object}
    (h : (plan kind since time read).Sends msg) :
    (∀ r e, msg ≠ .put r (some e)) ∧ msg.record.map entryOf = kind.want := by
  cases kind <;> obtain ⟨stamp, rfl⟩ := h <;> exact ⟨nofun, rfl⟩

theorem job_later (h : Ordered c₀ w) (hc : Change plan w e w') {job : Job Kind Object n}
    (hjob : w.jobs[j]? = some job) :
    ∃ job', w'.jobs[j]? = some job' ∧ job'.kind = job.kind ∧ job.stamp ≤ job'.stamp := by
  obtain ⟨job', hjob', hmoved⟩ := hc.jobs.fwd (fun _ _ => .same) hjob
  refine ⟨job', hjob', hmoved.kind, ?_⟩
  cases hmoved with
  | turn _ hopen hturn => exact hturn.stamp_le (h.held job (mem_of_getElem? hjob))
  | _ => exact le_refl _

theorem Ordered.origin_later (h : Ordered c₀ w) (hc : Change plan w e w') {c : Copy Object}
    (ho : c = c₀ ∨ ∃ (j : Nat) (job : Job Kind Object n), w.jobs[j]? = some job ∧ Origin job c) :
    c = c₀ ∨ ∃ (j : Nat) (job : Job Kind Object n), w'.jobs[j]? = some job ∧ Origin job c := by
  refine ho.imp_right fun ⟨j, job, hjob, htop, hwant⟩ => ?_
  obtain ⟨job', hjob', hkind, hstamp⟩ := job_later h hc hjob
  exact ⟨j, job', hjob', le_trans htop hstamp, hkind ▸ hwant⟩

theorem Ordered.step (h : Ordered c₀ w) (hsound : Sound plan Copy.Live w)
    (hs : OneKey.step plan w e = some w') : Ordered c₀ w' := by
  have hc := step_change hs
  have hdecided : ∀ {j : Nat} {job : Job Kind Object n} {i : Fin n} {a : OneKey.Answer Object},
      w.jobs[j]? = some job →
      job.answers i = some a → job.decided ≠ none ∧ job.stamp ≤ (w.copies i).top := by
    intro j job i a hjob ha
    obtain ⟨hdec, hle⟩ := h.answered job (mem_of_getElem? hjob) i (isSome_iff_exists.2 ⟨a, ha⟩)
    exact ⟨isSome_iff_ne_none.1 hdec, hle⟩
  have hcopy : ∀ i, (w.copies i).top ≤ (w'.copies i).top ∧ (w'.copies i = c₀ ∨
      ∃ (j : Nat) (job : Job Kind Object n), w'.jobs[j]? = some job ∧ Origin job (w'.copies i)) := by
    intro i
    have horigin := h.origin_later hc (h.origin i)
    rcases hc.copy i with ⟨heq, -⟩ | ⟨j, job, read, time, msg, -, hjob, hdec, -, heq⟩
    · rw [heq]
      exact ⟨le_refl _, horigin⟩
    · obtain ⟨-, -, hsends⟩ := (hsound.jobs job (mem_of_getElem? hjob)).decided _ _ _ hdec
      obtain ⟨hplain, hrecord⟩ := sends_plain hsends
      obtain ⟨job', hjob', hkind, hstamp⟩ := job_later h hc hjob
      rw [Job.stamp, hdec, elim_some] at hstamp
      rw [heq]
      rcases handle_wins (hsound.copies i) hplain with ⟨hkeep, -⟩ | ⟨hle, htop, hcur⟩
      · rw [hkeep]
        exact ⟨le_refl _, horigin⟩
      · refine ⟨htop ▸ hle, .inr ⟨j, job', hjob', htop ▸ hstamp, ?_⟩⟩
        rw [hcur, hkind]
        exact hrecord
  -- an answer is of before the step, or of the message the copy has just taken
  have hanswer : ∀ job' ∈ w'.jobs, ∀ i a, job'.answers i = some a →
      (∃ (j : Nat) (job : Job Kind Object n), w.jobs[j]? = some job ∧ job.answers i = some a ∧
        job'.decided = job.decided) ∨
      ∃ read time msg, job'.decided = some (read, time, msg) ∧ msg.stamp ≤ (w'.copies i).top ∧
        a = ((w.copies i).handle msg).2 := by
    intro job' hjob' i a ha
    rcases hc.back hjob' with ⟨j, job, hjob, -, hmoved⟩ | ⟨kind, -, rfl⟩
    · cases hmoved with
      | same => exact .inl ⟨j, job', hjob, ha, rfl⟩
      | turn _ hopen hturn =>
        cases hturn with
        | decide clock msg hundecided hmsg => exact absurd hundecided (hdecided hjob ha).1
        | again => cases ha
        | _ => exact .inl ⟨j, job, hjob, ha, rfl⟩
      | answered i' read time msg he hdec hopen heq =>
        by_cases hi : i = i'
        · subst hi
          obtain ⟨-, -, hsends⟩ := (hsound.jobs job (mem_of_getElem? hjob)).decided _ _ _ hdec
          have ha : update job.answers i _ i = some a := ha
          rw [update_self, some.injEq] at ha
          refine .inr ⟨read, time, msg, hdec, ?_, ha.symm⟩
          rw [heq]
          rcases handle_wins (hsound.copies i) (sends_plain hsends).1 with ⟨hkeep, hle⟩ | ⟨-, htop, -⟩
          · rw [hkeep]
            exact hle
          · rw [htop]
        · exact .inl ⟨j, job, hjob, (update_of_ne hi ..).symm.trans ha, rfl⟩
    · cases ha
  refine ⟨fun i => (hcopy i).2, fun job' hjob' i hi => ?_, fun job' hjob' i held hi => ?_⟩
  · obtain ⟨a, ha⟩ := isSome_iff_exists.1 hi
    rcases hanswer job' hjob' i a ha with ⟨j, job, hjob, ha, hsame⟩ | ⟨read, time, msg, hdec, hle, -⟩
    · obtain ⟨hdec, hle⟩ := hdecided hjob ha
      rw [Job.stamp, hsame]
      exact ⟨isSome_iff_ne_none.2 hdec, le_trans hle (hcopy i).1⟩
    · rw [Job.stamp, hdec]
      exact ⟨rfl, hle⟩
  · rcases hanswer job' hjob' i _ hi with ⟨j, job, hjob, hi, hsame⟩ | ⟨read, time, msg, hdec, -, hheld⟩
    · rw [Job.stamp, hsame]
      exact h.held job (mem_of_getElem? hjob) i held hi
    · rw [Job.stamp, hdec]
      exact handle_held hheld.symm

end Copies

/-! ## The listing -/

section Listing

variable {n : Nat} {c₀ : Copy Object} {s s' : State n}

/-- The requests that are listed are at most the last one's stamp, each at its own; the entry is what the
last one asked for. -/
structure Inv (c₀ : Copy Object) (s : State n) : Prop where
  sound : Sound plan Copy.Live s.world
  ordered : Ordered c₀ s.world
  quiet : ∀ j, s.phases j = .idle ∨ (∃ before, s.phases j = .call before) ∨ s.phases j = .done
  start : c₀.top ≤ s.last
  settled : ∀ j, s.phases j = .done → ∃ job, s.world.jobs[j]? = some job ∧ c₀.top < job.stamp ∧ job.stamp ≤ s.last
  distinct : ∀ j k, s.phases j = .done → s.phases k = .done → s.stamp j = s.stamp k → j = k
  listed : (s.entry = c₀.current.map entryOf ∧ ∀ j, s.phases j ≠ .done) ∨
    ∃ q job, s.phases q = .done ∧ s.world.jobs[q]? = some job ∧ job.stamp = s.last ∧ s.entry = job.kind.want

theorem State.stamp_of {job : Job Kind Object n} (h : s.world.jobs[j]? = some job) :
    s.stamp j = job.stamp := by
  rw [State.stamp, h, elim_some]

section
variable (h : Inv c₀ s)
include h

theorem Inv.job_same {e : OneKey.Event Kind n} {world : World Kind Object n}
    (hok : InOrder s (.key e)) (hc : Change plan s.world e world) {job : Job Kind Object n}
    (hdone : s.phases j = .done) (hjob : s.world.jobs[j]? = some job) :
    ∃ job', world.jobs[j]? = some job' ∧ job'.kind = job.kind ∧ job'.stamp = job.stamp := by
  obtain ⟨job', hjob', hmoved⟩ := hc.jobs.fwd (fun _ _ => .same) hjob
  refine ⟨job', hjob', hmoved.kind, ?_⟩
  cases hmoved with
  | turn _ hopen hturn =>
    cases hturn with
    | decide clock msg hundecided hmsg =>
      obtain ⟨job', hjob', hpos, -⟩ := h.settled j hdone
      rw [hjob] at hjob'
      cases hjob'
      rw [Job.stamp, hundecided] at hpos
      exact absurd hpos (Nat.not_lt_zero _)
    | again clock time read msg next hdecided hnext hclock =>
      have hempty := hok hdone
      rw [hjob, all_some, List.isEmpty_iff] at hempty
      obtain ⟨held, hmem, -⟩ := hclock
      rw [hempty] at hmem
      cases hmem
    | _ => rfl
  | _ => rfl

theorem Inv.key {e : OneKey.Event Kind n} {world : World Kind Object n}
    (hok : InOrder s (.key e)) (hs : OneKey.step plan s.world e = some world) :
    Inv c₀ { s with world := world } := by
  have hc := step_change hs
  have hstamp : ∀ j, s.phases j = .done → State.stamp { s with world := world } j = s.stamp j := by
    intro j hdone
    obtain ⟨job, hjob, -⟩ := h.settled j hdone
    obtain ⟨job', hjob', -, hsame⟩ := h.job_same hok hc hdone hjob
    rw [s.stamp_of hjob, State.stamp_of hjob', hsame]
  refine ⟨h.sound.step handle_live hs, h.ordered.step h.sound hs, h.quiet, h.start, ?_, ?_, ?_⟩
  · intro j hdone
    obtain ⟨job, hjob, hpos, hle⟩ := h.settled j hdone
    obtain ⟨job', hjob', -, hsame⟩ := h.job_same hok hc hdone hjob
    exact ⟨job', hjob', hsame ▸ hpos, hsame ▸ hle⟩
  · intro j k hj hk heq
    rw [hstamp j hj, hstamp k hk] at heq
    exact h.distinct j k hj hk heq
  · refine h.listed.imp_right fun ⟨q, job, hdone, hjob, hlast, hentry⟩ => ?_
    obtain ⟨job', hjob', hkind, hsame⟩ := h.job_same hok hc hdone hjob
    exact ⟨q, job', hdone, hjob', hsame.trans hlast, hkind ▸ hentry⟩

theorem Inv.called (hnew : s.phases j ≠ .done) (before : Option Entry) :
    Inv c₀ (s.setPhase j (.call before)) := by
  have hdone : ∀ k, (s.setPhase j (.call before)).phases k = .done → s.phases k = .done := by
    intro k hk
    by_cases hkj : k = j
    · subst hkj
      rw [show (s.setPhase k (.call before)).phases k = _ from update_self ..] at hk
      cases hk
    · rwa [show (s.setPhase j (.call before)).phases k = _ from update_of_ne hkj ..] at hk
  refine ⟨h.sound, h.ordered, fun k => ?_, h.start, fun k hk => h.settled k (hdone k hk),
    fun k l hk hl => h.distinct k l (hdone k hk) (hdone l hl), ?_⟩
  · by_cases hkj : k = j
    · subst hkj
      exact .inr (.inl ⟨before, update_self ..⟩)
    · rw [show (s.setPhase j (.call before)).phases k = _ from update_of_ne hkj ..]
      exact h.quiet k
  · rcases h.listed with ⟨hentry, hnone⟩ | ⟨q, job, hq, hjob, hlast, hentry⟩
    · exact .inl ⟨hentry, fun k hk => hnone k (hdone k hk)⟩
    · have hqj : q ≠ j := fun hqj => hnew (hqj ▸ hq)
      exact .inr ⟨q, job, (update_of_ne hqj ..).trans hq, hjob, hlast, hentry⟩

theorem Inv.settle {job : Job Kind Object n} (hjob : s.world.jobs[j]? = some job)
    (hlast : s.last < s.stamp j) : Inv c₀ (s.list j job) := by
  rw [s.stamp_of hjob] at hlast
  have hdone : ∀ k, (s.list j job).phases k = .done → k = j ∨ s.phases k = .done := by
    intro k hk
    by_cases hkj : k = j
    · exact .inl hkj
    · exact .inr ((update_of_ne hkj ..).symm.trans hk)
  have hbelow : ∀ k, s.phases k = .done → s.stamp k < job.stamp := by
    intro k hk
    obtain ⟨job', hjob', -, hle⟩ := h.settled k hk
    rw [s.stamp_of hjob']
    exact lt_of_le_of_lt hle hlast
  refine ⟨h.sound, h.ordered, fun k => ?_, le_trans h.start hlast.le, fun k hk => ?_, fun k l hk hl hsame => ?_,
    .inr ⟨j, job, update_self .., hjob, rfl, rfl⟩⟩
  · by_cases hkj : k = j
    · subst hkj
      exact .inr (.inr (update_self ..))
    · rw [show (s.list j job).phases k = _ from update_of_ne hkj ..]
      exact h.quiet k
  · rcases hdone k hk with rfl | hk
    · exact ⟨job, hjob, lt_of_le_of_lt h.start hlast, le_refl _⟩
    · obtain ⟨job', hjob', hpos, hle⟩ := h.settled k hk
      exact ⟨job', hjob', hpos, le_trans hle hlast.le⟩
  · replace hsame : s.stamp k = s.stamp l := hsame
    rcases hdone k hk with rfl | hk' <;> rcases hdone l hl with rfl | hl'
    · rfl
    · rw [s.stamp_of hjob] at hsame
      exact absurd hsame (hbelow l hl').ne'
    · rw [s.stamp_of hjob] at hsame
      exact absurd hsame (hbelow k hk').ne
    · exact h.distinct k l hk' hl' hsame

theorem Inv.step {e : Event n} (hok : InOrder s e) (hs : ListingAgrees.step s e = some s') : Inv c₀ s' := by
  have hquiet : ∀ j phase, s.phases j = phase → (∀ b, phase ≠ .call b) → phase ≠ .idle → phase ≠ .done → False := by
    rintro j phase rfl hcall hidle hdone
    rcases h.quiet j with hq | ⟨b, hq⟩ | hq
    · exact hidle hq
    · exact hcall b hq
    · exact hdone hq
  cases e with
  | key e =>
    obtain ⟨world, hworld, rfl⟩ := map_eq_some_iff.1 hs
    exact h.key hok hworld
  | look j =>
    simp only [ListingAgrees.step] at hs
    split at hs
    · cases hs
    · rename_i job hjob
      split at hs
      · rename_i hidle
        split at hs
        · cases hs
        · split at hs <;> cases hs
          · rename_i hnone
            exact h.settle hjob (hok hidle hnone.2 (by rw [hjob, all_some, hnone.1]; rfl))
          · exact h.called (by rw [hidle]; exact nofun) s.entry
      · rename_i hphase
        exact (hquiet j _ hphase (nofun) (nofun) (nofun)).elim
      · cases hs
  | commit j =>
    simp only [ListingAgrees.step] at hs
    split at hs
    · cases hs
    · rename_i job hjob
      rw [hok.1] at hs
      simp only [if_true, some.injEq] at hs
      subst hs
      exact h.settle hjob hok.2
  | sync j =>
    simp only [ListingAgrees.step] at hs
    split at hs
    · cases hs
    · split at hs
      · rename_i haborted
        exact (hquiet j _ haborted.1 (nofun) (nofun) (nofun)).elim
      · cases hs
  | hear j i | read j =>
    simp only [ListingAgrees.step] at hs
    split at hs
    · rename_i hphase
      exact (hquiet j _ hphase (nofun) (nofun) (nofun)).elim
    · cases hs

end

def start (c₀ : Copy Object) : State n :=
  { world := { copies := fun _ => c₀ }, entry := c₀.current.map entryOf, last := c₀.top }

theorem inv_start (hlive : c₀.Live) : Inv c₀ (start c₀ : State n) where
  sound := ⟨fun _ => hlive, nofun⟩
  ordered := ⟨fun _ => .inl rfl, nofun, nofun⟩
  quiet _ := .inl rfl
  start := le_refl _
  settled _ hdone := (nomatch hdone)
  distinct _ _ hdone := (nomatch hdone)
  listed := .inl ⟨rfl, nofun⟩

end Listing

def Finished {n : Nat} (s : State n) : Prop :=
  ∀ j job, s.world.jobs[j]? = some job →
    job.ended = some true ∧ (s.phases j = .done ∨ s.phases j = .leftToHeal)

/-- **The listing agrees with the objects once every request is done**, where listing commits meet no conflict
and come in the order of the writes' stamps, and no write is stamped again once listed. -/
theorem listing_agrees {n : Nat} (c₀ : Copy Object) (hlive : c₀.Live) (events : List (Event n)) (s : State n)
    (hok : Steps.Along step InOrder (start c₀) events) (h : Steps.run step (start c₀) events = some s)
    (hfinished : Finished s) (i : Fin n) : s.entry = (s.world.copies i).current.map entryOf := by
  have hinv := Steps.run_invariant_along (I := Inv c₀) (fun _ _ _ hi hok hs => hi.step hok hs)
    events _ s (inv_start hlive) hok h
  have hdone : ∀ j job, s.world.jobs[j]? = some job → s.phases j = .done := by
    intro j job hjob
    rcases (hfinished j job hjob).2 with hdone | hleft
    · exact hdone
    · rcases hinv.quiet j with hq | ⟨b, hq⟩ | hq <;> rw [hleft] at hq <;> cases hq
  rcases hinv.listed with ⟨hentry, hnone⟩ | ⟨q, job, hq, hjob, hlast, hentry⟩
  · -- no request: the copies are as they were
    rcases hinv.ordered.origin i with hi | ⟨j, job, hjob, -⟩
    · rw [hi, hentry]
    · exact absurd (hdone j job hjob) (hnone j)
  · -- the copy has answered the last one listed, so it is at what that one wrote
    have hmem := mem_of_getElem? hjob
    have hanswered := (hinv.sound.jobs job hmem).ended (hfinished q job hjob).1 i
    have htop := (hinv.ordered.answered job hmem i hanswered).2
    rcases hinv.ordered.origin i with hi | ⟨j, job', hjob', hle, hwant⟩
    · obtain ⟨job', hjob', hpos, -⟩ := hinv.settled q hq
      rw [hjob] at hjob'
      cases hjob'
      rw [hi] at htop
      exact absurd htop (not_le.2 hpos)
    · have hj := hdone j job' hjob'
      obtain ⟨job₁, hjob₁, -, hle₁⟩ := hinv.settled j hj
      rw [hjob'] at hjob₁
      cases hjob₁
      have hsame : s.stamp j = s.stamp q := by
        rw [s.stamp_of hjob', s.stamp_of hjob]
        omega
      have := hinv.distinct j q hj hq hsame
      subst this
      rw [hjob] at hjob'
      cases hjob'
      rw [hentry, hwant]

/-! ## Two PUTs -/

def none₀ : Copy Object := {}

def putA : Kind := .put 1 ⟨10, ['a']⟩

def putB : Kind := .put 2 ⟨20, ['b']⟩

def sent (j clock : Nat) : List (Event 3) :=
  [.key (.hear j 0), .key (.hear j 1), .key (.decide j clock)]

def reached (j clock : Nat) : List (Event 3) :=
  [.key (.deliver j 0), .key (.deliver j 1), .key (.deliver j 2), .key (.endRound j clock)]

def list (j : Nat) : List (Event 3) := [.look j, .commit j]

def crossed : List (Event 3) :=
  [.key (.start putA), .key (.start putB)] ++ sent 0 10 ++ sent 1 20 ++ reached 0 11 ++ reached 1 21 ++
    list 1 ++ list 0

/-- Two PUTs after which the listing names one object and every copy holds the other. -/
theorem listing_differs : ∃ s, Steps.run step (start none₀) crossed = some s ∧
    (∀ job ∈ s.world.jobs, job.ended = some true) ∧ s.phases 0 = .done ∧ s.phases 1 = .done ∧
    (∀ i, ((s.world.copies i).current.map entryOf) = putB.want) ∧ s.entry = putA.want := by
  decide +kernel

def inStampOrder : List (Event 3) :=
  [.key (.start putA), .key (.start putB)] ++ sent 0 10 ++ sent 1 20 ++ list 0 ++ list 1 ++ reached 0 11 ++ reached 1 21 ++
    [.key (.start .delete)] ++ sent 2 30 ++ reached 2 31 ++ list 2

theorem inStampOrder_agrees : ∃ s, Steps.run step (start none₀) inStampOrder = some s ∧
    s.world.jobs.length = 3 ∧ s.entry = (s.world.copies 0).current.map entryOf := by
  have hok : Steps.Along step InOrder (start none₀) inStampOrder := by decide +kernel
  obtain ⟨s, hs, hlength, hended, hdone⟩ : ∃ s, Steps.run step (start none₀) inStampOrder = some s ∧
      s.world.jobs.length = 3 ∧ (∀ job ∈ s.world.jobs, job.ended = some true) ∧
      ∀ j : Fin 3, s.phases j = .done := by
    decide +kernel
  have hfinished : Finished s := by
    intro j job hjob
    have hlt := (List.getElem?_eq_some_iff.1 hjob).1
    exact ⟨hended job (mem_of_getElem? hjob), .inl (hdone ⟨j, hlength ▸ hlt⟩)⟩
  exact ⟨s, hs, hlength, listing_agrees none₀ (nofun) inStampOrder s hok hs hfinished 0⟩

end IoLake.Gateway.ListingAgrees
