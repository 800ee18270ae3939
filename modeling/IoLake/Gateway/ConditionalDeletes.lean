import IoLake.Gateway.OneKey

/-!
# Conditional deletes

A DELETE with a condition reads the object, checks the condition there, and then sends every copy a delete
that is stamped but says nothing of the object it was meant for.  A PUT in between is removed by it.

An object id names one upload, `objects id`; the dates' parser is a library's.
-/

namespace IoLake.Gateway.ConditionalDeletes

open OneKey List Option Function Steps

structure Object where
  etag : List Char
  modifiedAt : Nat
  size : Nat
deriving DecidableEq, Repr

/-- `DeleteCondition`: the headers, trimmed. -/
structure DeleteCondition where
  etag : Option (List Char) := none
  modified : Option (List Char) := none
  size : Option (List Char) := none
deriving DecidableEq, Repr

def trimQuotes (s : List Char) : List Char :=
  ((s.dropWhile (· == '"')).reverse.dropWhile (· == '"')).reverse

def parseU64 (s : List Char) : Option Nat :=
  let digits := match s with
    | '+' :: rest => rest
    | _ => s
  let value : Nat := digits.foldl (fun v c => v * 10 + (c.toNat - '0'.toNat)) 0
  if digits.isEmpty || !digits.all Char.isDigit || decide (2 ^ 64 ≤ value) then none else some value

def DeleteCondition.holds (parseDate : List Char → Option Nat) (c : DeleteCondition) (target : Object) : Bool :=
  let etagOk := c.etag.all fun e => e == ['*'] || trimQuotes e == trimQuotes target.etag
  let modifiedOk := c.modified.all fun m => parseDate m == some target.modifiedAt
  let sizeOk := c.size.all fun s => parseU64 s == some target.size
  etagOk && modifiedOk && sizeOk

inductive Kind
  | put (id : Nat)
  | delete (condition : DeleteCondition)
deriving DecidableEq, Repr

variable {parseDate : List Char → Option Nat} {objects : Nat → Object}

/-- A PUT writes its object over whatever is there; a delete goes on where there is no object, or one that
meets the condition. -/
def plan (parseDate : List Char → Option Nat) (objects : Nat → Object) :
    Kind → Nat → Nat → Option (Rec Object) → Plan Object
  | .put id, _, _, _ => .put id (objects id)
  | .delete condition, _, _, read =>
    if read.any fun r => !condition.holds parseDate r.body then .nothing else .delete

def Unchanged {n : Nat} (w : World Kind Object n) : Event Kind n → Prop
  | .deliver j i => (w.jobs[j]?.all fun job => match job.kind with
      | .put _ => true
      | .delete _ => job.decided.all fun d => (w.copies i).current.all fun c => d.1.any fun r => r.id == c.id) = true
  | _ => True

instance {n : Nat} (w : World Kind Object n) (e : Event Kind n) : Decidable (Unchanged w e) := by
  cases e <;> unfold Unchanged <;> infer_instance

/-- A copy holds what its object id names. -/
def Named (objects : Nat → Object) (c : Copy Object) : Prop := ∀ r, c.current = some r → r.body = objects r.id

theorem handle_named (kind : Kind) (since time : Nat) (heard : List (Copy Object)) (msg : Msg Object)
    (c : Copy Object) (_ : ∀ c ∈ heard, Named objects c) (hc : Named objects c)
    (h : (plan parseDate objects kind since time (newest heard)).Sends msg) : Named objects (c.handle msg).1 := by
  cases kind with
  | put id =>
    obtain ⟨stamp, rfl⟩ := h
    simp only [Copy.handle, any_none, Bool.false_eq_true, if_false]
    split
    · exact hc
    · intro r hr
      cases hr
      rfl
  | delete condition =>
    simp only [plan] at h
    split at h
    · exact h.elim
    · obtain ⟨stamp, rfl⟩ := h
      simp only [Copy.handle]
      split
      · exact hc
      · intro r hr
        cases hr

section Runs

variable {n : Nat} {w w' : World Kind Object n} {e : Event Kind n}

def Removed (parseDate : List Char → Option Nat) (w : World Kind Object n) : Prop :=
  ∀ job ∈ w.jobs, ∀ condition, job.kind = .delete condition → ∀ i x, job.answers i = some (.took (some x)) →
    condition.holds parseDate x.body = true

theorem removed_holds {job : Job Kind Object n} {read : Option (Rec Object)} {time : Nat} {msg : Msg Object}
    {condition : DeleteCondition} {c : Copy Object} {x : Rec Object}
    (hjob : job.Sound (plan parseDate objects) (Named objects) w.now) (hkind : job.kind = .delete condition)
    (hdecided : job.decided = some (read, time, msg)) (hc : Named objects c)
    (hsame : (c.current.all fun c => read.any fun r => r.id == c.id) = true)
    (htook : (c.handle msg).2 = .took (some x)) : condition.holds parseDate x.body = true := by
  obtain ⟨-, hread, hsends⟩ := hjob.decided _ _ _ hdecided
  rw [hkind] at hsends
  simp only [plan] at hsends
  split at hsends
  · exact hsends.elim
  rename_i hholds
  obtain ⟨stamp, rfl⟩ := hsends
  have hx : c.current = some x := by
    simp only [Copy.handle] at htook
    split at htook
    · cases htook
    · exact Answer.took.inj htook
  rw [hx] at hsame
  obtain ⟨r, hr, hid⟩ := (any_eq_true _ _).1 hsame
  obtain ⟨c', hc', hcur⟩ := newest_mem (hread.symm.trans hr)
  have hbody : x.body = r.body := by
    rw [hc x hx, hjob.heard c' hc' r hcur, beq_iff_eq.1 hid]
  rw [hr] at hholds
  simpa [hbody] using hholds

theorem Removed.step (hsound : Sound (plan parseDate objects) (Named objects) w) (h : Removed parseDate w)
    (hok : Unchanged w e) (hs : OneKey.step (plan parseDate objects) w e = some w') : Removed parseDate w' := by
  intro job₁ hjob₁ condition hkind i' x hx
  rcases (step_change hs).back hjob₁ with ⟨j, job, hjob, -, hmoved⟩ | ⟨kind, -, rfl⟩
  · have hmem := mem_of_getElem? hjob
    rw [hmoved.kind] at hkind
    cases hmoved with
    | same => exact h job₁ hmem condition hkind i' x hx
    | turn _ hopen hturn =>
      cases hturn with
      | again => cases hx
      | _ => exact h job hmem condition hkind i' x hx
    | answered i read time msg he hdecided hopen hcopy =>
      have hx : update job.answers i _ i' = some (.took (some x)) := hx
      by_cases hi : i' = i
      · subst hi he
        rw [update_self, some.injEq] at hx
        simp only [Unchanged, hjob, hdecided, all_some] at hok
        rw [hkind] at hok
        exact removed_holds (hsound.jobs job hmem) hkind hdecided (hsound.copies i') hok hx
      · rw [update_of_ne hi] at hx
        exact h job hmem condition hkind i' x hx
  · cases hx

end Runs

/-- **A conditional DELETE removes only what meets its condition**, where each removal reaches, at each copy,
the object whose condition was checked or no object. -/
theorem removes_conditioned {n : Nat} (parseDate : List Char → Option Nat) (objects : Nat → Object)
    (w₀ w : World Kind Object n) (events : List (Event Kind n)) (hcopies : ∀ i, Named objects (w₀.copies i))
    (hjobs : w₀.jobs = []) (hok : Steps.Along (step (plan parseDate objects)) Unchanged w₀ events)
    (h : Steps.run (step (plan parseDate objects)) w₀ events = some w) (job : Job Kind Object n)
    (hjob : job ∈ w.jobs) (condition : DeleteCondition) (hkind : job.kind = .delete condition) (i : Fin n)
    (x : Rec Object) (hx : job.answers i = some (.took (some x))) :
    condition.holds parseDate x.body = true := by
  have hnone : ∀ {P : Job Kind Object n → Prop}, ∀ job ∈ w₀.jobs, P job := by
    intro P job hjob
    rw [hjobs] at hjob
    cases hjob
  have hinv := run_invariant_along (I := fun w =>
    Sound (plan parseDate objects) (Named objects) w ∧ Removed parseDate w)
    (fun _ _ _ hi hok hs => ⟨hi.1.step handle_named hs, hi.2.step hi.1 hok hs⟩)
    events w₀ w ⟨⟨hcopies, hnone⟩, hnone⟩ hok h
  exact hinv.2 job hjob condition hkind i x hx

def uploads (id : Nat) : Object := { etag := if id = 1 then ['x'] else ['y'], modifiedAt := id, size := 10 }

def one : World Kind Object 3 :=
  { copies := fun _ => { current := some { id := 1, stamp := 5, body := uploads 1 } } }

def ifX : DeleteCondition := { etag := some ['"', 'x', '"'] }

def everywhere (j clock : Nat) : List (Event Kind 3) :=
  [.decide j clock, .deliver j 0, .deliver j 1, .deliver j 2, .endRound j clock]

def lateRemoval : List (Event Kind 3) :=
  [.start (.delete ifX), .hear 0 0, .hear 0 1, .start (.put 2), .hear 1 0, .hear 1 1] ++ everywhere 1 10 ++
    everywhere 0 20

/-- An acknowledged conditional DELETE that removed the object of a later PUT. -/
theorem removed_another : ∃ w job x, Steps.run (step (plan (fun _ => none) uploads)) one lateRemoval = some w ∧
    job ∈ w.jobs ∧ job.kind = .delete ifX ∧ job.ended = some true ∧
    (∀ i, job.answers i = some (.took (some x))) ∧ ifX.holds (fun _ => none) x.body = false := by
  obtain ⟨w, hw, job, hjob, hkind, hended, htook⟩ :
      ∃ w, run (step (plan (fun _ => none) uploads)) one lateRemoval = some w ∧
        ∃ job, w.jobs[0]? = some job ∧ job.kind = .delete ifX ∧ job.ended = some true ∧
          ∀ i, job.answers i = some (.took (some ⟨2, 10, 0, uploads 2⟩)) := by
    decide +kernel
  exact ⟨w, job, _, hw, mem_of_getElem? hjob, hkind, hended, htook, by decide⟩

def inTurn : List (Event Kind 3) :=
  [.start (.delete ifX), .hear 0 0, .hear 0 1, .start (.put 2), .hear 1 0, .hear 1 1] ++ everywhere 0 10 ++
    everywhere 1 20

theorem inTurn_conditioned : ∃ w job x, Steps.run (step (plan (fun _ => none) uploads)) one inTurn = some w ∧
    job ∈ w.jobs ∧ job.kind = .delete ifX ∧ job.answers 0 = some (.took (some x)) ∧
    ifX.holds (fun _ => none) x.body = true := by
  have hok : Steps.Along (step (plan (fun _ => none) uploads)) Unchanged one inTurn := by decide +kernel
  obtain ⟨w, hw, job, hjob, hkind, htook⟩ :
      ∃ w, run (step (plan (fun _ => none) uploads)) one inTurn = some w ∧
        ∃ job, w.jobs[0]? = some job ∧ job.kind = .delete ifX ∧
          job.answers 0 = some (.took (some ⟨1, 5, 0, uploads 1⟩)) := by
    decide +kernel
  have hcopies : ∀ i, Named uploads (one.copies i) := by
    intro i r hr
    cases hr
    rfl
  exact ⟨w, job, _, hw, mem_of_getElem? hjob, hkind, htook, removes_conditioned _ uploads one w inTurn
    hcopies rfl hok hw job (mem_of_getElem? hjob) ifX hkind 0 _ htook⟩

end IoLake.Gateway.ConditionalDeletes
