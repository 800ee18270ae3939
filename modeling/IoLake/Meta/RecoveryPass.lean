import IoLake.Meta.RecoverObject

/-!
# Recovery passes

`recover_pg` over a placement group whose members change under it.  A pass plans from the listings that
answer, works the objects with none to spare and then the rest in key order after the cursor an earlier pass
of the same epoch left, a chunk at a time.  Between any two of its steps clients write and delete, shards come
and go, and the acting set is changed.
-/

namespace IoLake.Meta.Recovery

open Proto Osd Gateway List Option

/-! ## The model -/

/-- Objects worked between two looks at the placement group. -/
def CHUNK : Nat := 64

def chunksOf {α : Type} (n : Nat) (l : List α) : List (List α) :=
  (range ((l.length + n - 1) / n)).map fun i => (l.drop (i * n)).take n

structure Pass where
  pg : PlacementGroup OsdId
  plan : Plan
  start : Bytes
  chunks : List (Bool × List Work)
  inChunk : Bool
  chunkFailed : Bool
  cursor : Bytes
  cursorMoves : Bool
  outcomes : List Outcome
  failed : Option (EntryName × String)
  unfound : List EntryName
  yielded : Bool

section
variable (pass : Pass) (usable : OsdId → Bool)

def Pass.queued : List Work := pass.chunks.flatMap Prod.snd

def startPass (pg : PlacementGroup OsdId) (plan : Plan) (cursor : Bytes) : Pass :=
  let urgent := plan.work.filter fun w => w.spare ≤ 0
  let rest := plan.work.filter fun w => 0 < w.spare ∧ (cursor = [] ∨ cursor < w.name.cursor)
  let ordered := rest.insertionSort fun a b =>
    toLex (a.name.bucket, a.name.split.1) ≤ toLex (b.name.bucket, b.name.split.1)
  { pg, plan, start := cursor
    chunks := (chunksOf CHUNK urgent).map (false, ·) ++ (chunksOf CHUNK ordered).map (true, ·)
    inChunk := false, chunkFailed := false, cursor, cursorMoves := true, outcomes := [],
    failed := none, unfound := [], yielded := false }

def superseded (env : ObjectEnv) (members : List (Option OsdId)) (w : Work) (copies : Copies) : Option Bool :=
  let listed : WriteOrder := toLex (w.newest.stamp, toLex (w.newest.objectId, w.newest.updateStamp))
  let slots := ((members.filterMap id).filter fun m => (env.states m).isNone).map fun m =>
    copies.slot m w.name
  if slots.any fun s => w.newest.stamp < s.tombstone ∨ s.object.any (fun o => listed < o.writeOrder)
  then some true
  else if slots.isEmpty then none
  else some (!slots.any fun s => s.object.any fun o => o.writeOrder = listed)

def Pass.note (w : Work) (superseded : Option Bool) (outcome : Outcome) : Pass :=
  let pass := { pass with outcomes := pass.outcomes ++ [outcome] }
  match outcome with
  | .done | .partly | .changed => pass
  | .unfound .. =>
    if superseded = some false then { pass with unfound := pass.unfound ++ [w.name] } else pass
  | .failed e => { pass with chunkFailed := true, failed := pass.failed.or (some (w.name, e)) }

/-- On to the next object; a chunk that ended moves the cursor past it, while none has failed. -/
def Pass.next (w : Work) (moves : Bool) (rest : List Work)
    (chunks : List (Bool × List Work)) : Pass :=
  if rest.isEmpty then
    let cursorMoves := pass.cursorMoves && !pass.chunkFailed
    { pass with
      chunks, inChunk := false, chunkFailed := false, cursorMoves
      cursor := if moves && cursorMoves then w.name.cursor else pass.cursor }
  else { pass with chunks := (moves, rest) :: chunks, inChunk := true }

def Pass.fillersUp : Bool :=
  (pass.pg.filling.filterMap fun f => pass.pg.acting[f.position]?).all usable

/-- What is unfound is lost: every member answered, and none filled from can be reached. -/
def Pass.lost : Bool :=
  !pass.unfound.isEmpty && pass.plan.members.all isSome &&
    pass.pg.filling.all (fun f => !usable f.from_) && !pass.pg.filling.isEmpty

def Pass.finishes : Bool :=
  !pass.yielded && pass.failed.isNone && (pass.unfound.isEmpty || pass.lost usable) &&
    !pass.pg.filling.isEmpty && pass.fillersUp usable

end

variable {pass pass' : Pass} {answer usable : OsdId → Bool} {pg : PlacementGroup OsdId}
  {plan : Plan} {cursor : Bytes} {w : Work} {s s' : Slot} {id : OsdId} {name : EntryName} {copies : Copies}

theorem yielded_of_finishes (h : pass.finishes usable = true) : pass.yielded = false := by
  rw [Pass.finishes] at h
  simp only [Bool.and_eq_true, Bool.not_eq_true'] at h
  exact h.1.1.1.1

structure Group where
  copies : Copies
  pg : PlacementGroup OsdId
  clock : Nat
  cursor : Bytes
  cursorEpoch : Nat
  pass : Option Pass
  acked : List (EntryName × ObjectMeta)

def writeAt (copies : Copies) (reach : List OsdId) (name : EntryName) (f : Slot → Slot) : Copies :=
  fun id => if id ∈ reach then (copies id).setSlot name (f ((copies id).slot name)) else copies id

def positionsOf (acting : List OsdId) (q : OsdId → Bool) : Finset Nat :=
  (Finset.range acting.length).filter fun p => (acting[p]?).any q

def withdrawStrays (reached : OsdId → Bool) : List (OsdId × EntryName × Bytes) → Copies → Copies
  | [], copies => copies
  | (id, name, objectId) :: strays, copies =>
    withdrawStrays reached strays
      (if reached id then writeAt copies [id] name (·.withdraw objectId) else copies)

def finishFilling (g : Group) (pass : Pass) (committed : Bool) (reached : OsdId → Bool) : Group :=
  if g.pg.epoch = pass.pg.epoch ∧ g.pg.filling = pass.pg.filling ∧ committed then
    { g with
      pg := { g.pg with filling := [] }
      copies := withdrawStrays reached pass.plan.strays g.copies }
  else g

inductive Event where
  | put (name : EntryName) (object : ObjectMeta) (reach : List OsdId)
  | delete (name : EntryName) (stamp : Nat) (reach : List OsdId)
  | store (id : OsdId) (shard : ShardId)
  | free (id : OsdId) (shard : ShardId)
  | change (c : Change OsdId)
  | plan (usable answer : OsdId → Bool)
  | work (env : ObjectEnv) (outcome : Outcome)
  | yield
  | stop
  | finish (usable : OsdId → Bool) (committed clean : Bool) (reached : OsdId → Bool)

def step (site : Site OsdId) (g : Group) : Event → Option Group
  | .put name object reach =>
    if object.stamp = 0 then none
    else some { g with
      copies := writeAt g.copies reach name (·.put object)
      acked :=
        if metaWriteQuorum g.pg.acting.length ≤ (positionsOf g.pg.acting (· ∈ reach)).card
        then (name, object) :: g.acked else g.acked }
  | .delete name stamp reach =>
    if stamp = 0 then none
    else some { g with copies := writeAt g.copies reach name (·.delete stamp) }
  | .store id shard => some { g with
      copies := g.copies.modify id fun c => { c with shards := shard :: c.shards } }
  | .free id shard => some { g with
      copies := g.copies.modify id fun c => { c with shards := c.shards.filter (· ≠ shard) } }
  | .change c => (Meta.step site g.pg c).map fun pg => { g with pg }
  | .plan usable answer =>
    if g.pass.isSome then none
    else
      match recoveryPlan g.copies g.pg usable answer with
      | .error _ => some g
      | .ok plan =>
        let cursor := if g.cursorEpoch = g.pg.epoch then g.cursor else []
        some { g with
          pass := some (startPass g.pg plan cursor), cursor, cursorEpoch := g.pg.epoch }
  | .work env outcome =>
    match g.pass with
    | none => none
    | some pass =>
      match pass.chunks with
      | (moves, w :: rest) :: chunks =>
        let r := recoverObject env pass.pg.acting pass.plan.members w g.copies g.clock
        if pass.yielded ∨ (pass.inChunk = false ∧ g.pg.epoch ≠ pass.pg.epoch) ∨ r.outcome ≠ outcome then none
        else
          let next := (pass.note w (superseded env pass.plan.members w r.copies) outcome).next
            w moves rest chunks
          some { g with
            copies := r.copies, clock := r.clock, pass := some next
            cursor := if rest.isEmpty then next.cursor else g.cursor
            cursorEpoch := if rest.isEmpty then pass.pg.epoch else g.cursorEpoch }
      | _ => none
  | .yield =>
    match g.pass with
    | none => none
    | some pass =>
      if pass.inChunk ∨ pass.chunks = [] ∨ pass.outcomes = [] then none
      else some { g with pass := some { pass with yielded := true } }
  | .stop => if g.pass.isNone then none else some { g with pass := none }
  | .finish usable committed clean reached =>
    match g.pass with
    | none => none
    | some pass =>
      if pass.chunks ≠ [] ∧ pass.yielded = false then none
      else
        let g := if pass.finishes usable then finishFilling g pass committed reached else g
        some { g with
          pass := none
          cursor := if !clean && (pass.failed.isSome || pass.yielded) then pass.cursor else []
          cursorEpoch := pass.pg.epoch }

section
variable {α : Type} {n : Nat}

theorem flatten_chunksOf (hn : 0 < n) (l : List α) : (chunksOf n l).flatten = l := by
  have htake : ∀ k, ((range k).map fun i => (l.drop (i * n)).take n).flatten = l.take (k * n) := by
    intro k
    induction k with
    | zero => simp
    | succ k ih => simp [range_succ, ih, Nat.succ_mul, take_add]
  have hle : l.length ≤ (l.length + n - 1) / n * n := by
    have := Nat.lt_div_mul_add hn (a := l.length + n - 1)
    omega
  rw [chunksOf, htake, take_of_length_le hle]

end

theorem flatMap_chunks (flag : Bool) (l : List Work) :
    ((chunksOf CHUNK l).map (flag, ·)).flatMap Prod.snd = l := by
  rw [flatMap_map]
  exact flatMap_id.trans (flatten_chunksOf (by decide) l)

theorem mem_queued : w ∈ (startPass pg plan cursor).queued ↔
      w ∈ plan.work ∧ (0 < w.spare → cursor = [] ∨ cursor < w.name.cursor) := by
  rw [Pass.queued, startPass]
  dsimp only
  rw [flatMap_append, mem_append, flatMap_chunks, flatMap_chunks, mem_insertionSort,
    mem_filter, mem_filter, ← and_or_left]
  simp only [decide_eq_true_eq]
  refine and_congr_right fun _ => ⟨?_, fun h => ?_⟩
  · rintro (h | h) hspare
    · exact absurd h (not_le.2 hspare)
    · exact h.2
  · exact (le_or_gt w.spare 0).imp_right fun hspare => ⟨hspare, h hspare⟩

/-- A pass that starts from the beginning has all of its plan's work to do. -/
theorem mem_queued_startPass : w ∈ (startPass pg plan []).queued ↔ w ∈ plan.work := by
  simp [mem_queued]

theorem mem_work_of_queued (h : w ∈ (startPass pg plan cursor).queued) : w ∈ plan.work :=
  (mem_queued.1 h).1

/-! ## What a step does -/

theorem slot_writeAt (copies : Copies) (reach : List OsdId) (name : EntryName) (f : Slot → Slot)
    (id : OsdId) (name' : EntryName) : (writeAt copies reach name f).slot id name' =
      if id ∈ reach ∧ name' = name then f (copies.slot id name') else copies.slot id name' := by
  rw [Copies.slot, writeAt]
  by_cases hid : id ∈ reach
  · rw [if_pos hid, GroupCopy.slot_setSlot]
    by_cases hname : name' = name
    · subst hname
      rw [if_pos rfl, if_pos ⟨hid, rfl⟩]
      rfl
    · rw [if_neg hname, if_neg fun h0 => hname h0.2]
      rfl
  · rw [if_neg hid, if_neg fun h0 => hid h0.1]
    rfl

structure Withdrawn (s s' : Slot) : Prop where
  object : s'.object = none ∨ s'.object = s.object
  tombstone : s'.tombstone = s.tombstone

theorem withdrawn_withdraw (s : Slot) (objectId : Bytes) : Withdrawn s (s.withdraw objectId) := by
  rw [Slot.withdraw]
  split
  · exact ⟨.inl rfl, rfl⟩
  · exact ⟨.inr rfl, rfl⟩

theorem Withdrawn.trans {s'' : Slot} (h : Withdrawn s s') (h' : Withdrawn s' s'') : Withdrawn s s'' := by
  refine ⟨h'.object.elim .inl fun h0 => ?_, h'.tombstone.trans h.tombstone⟩
  rw [h0]
  exact h.object

theorem slot_withdrawStrays (reached : OsdId → Bool) (id : OsdId) (name : EntryName) :
    ∀ (strays : List (OsdId × EntryName × Bytes)) (copies : Copies),
      Withdrawn (copies.slot id name) ((withdrawStrays reached strays copies).slot id name) ∧
        (id ∉ strays.map Prod.fst →
          (withdrawStrays reached strays copies).slot id name = copies.slot id name) := by
  intro strays
  induction strays with
  | nil => exact fun copies => ⟨⟨.inr rfl, rfl⟩, fun _ => rfl⟩
  | cons stray strays ih =>
    intro copies
    obtain ⟨x, xname, objectId⟩ := stray
    obtain ⟨hrest, hother⟩ := ih (if reached x then writeAt copies [x] xname (·.withdraw objectId)
      else copies)
    rw [withdrawStrays]
    refine ⟨Withdrawn.trans ?_ hrest, fun hid => ?_⟩
    · split
      · rw [slot_writeAt]
        split
        · exact withdrawn_withdraw _ _
        · exact ⟨.inr rfl, rfl⟩
      · exact ⟨.inr rfl, rfl⟩
    · rw [map_cons, mem_cons, not_or] at hid
      rw [hother hid.2]
      split
      · rw [slot_writeAt, if_neg fun h0 => hid.1 (mem_singleton.1 h0.1)]
      · rfl

inductive SlotStep (g : Group) (id : OsdId) (name : EntryName) (s : Slot) : Event → Slot → Prop where
  | same (e : Event) : SlotStep g id name s e s
  | put (o : ObjectMeta) (reach : List OsdId) (ho : o.stamp ≠ 0) :
      SlotStep g id name s (.put name o reach) (s.put o)
  | delete (stamp : Nat) (reach : List OsdId) (hstamp : stamp ≠ 0) :
      SlotStep g id name s (.delete name stamp reach) (s.delete stamp)
  | work (env : ObjectEnv) (outcome : Outcome) (pass : Pass) (w : Work) (s' : Slot)
      (hpass : g.pass = some pass) (hw : w ∈ pass.queued) (hname : w.name = name)
      (hmove : SlotMove g.copies w s s') : SlotStep g id name s (.work env outcome) s'
  | withdraw (usable : OsdId → Bool) (committed clean : Bool) (reached : OsdId → Bool) (pass : Pass)
      (s' : Slot) (hpass : g.pass = some pass) (hid : id ∈ pass.plan.strays.map Prod.fst)
      (h : Withdrawn s s') : SlotStep g id name s (.finish usable committed clean reached) s'

variable {site : Site OsdId} {g g' : Group} {e : Event}

structure Worked (g : Group) (env : ObjectEnv) (outcome : Outcome) (g' : Group) (pass next : Pass)
    (w : Work) : Prop where
  before : g.pass = some pass
  after : g'.pass = some next
  queued : pass.queued = w :: next.queued
  came : (recoverObject env pass.pg.acting pass.plan.members w g.copies g.clock).outcome = outcome
  copies : g'.copies = (recoverObject env pass.pg.acting pass.plan.members w g.copies g.clock).copies
  outcomes : next.outcomes = pass.outcomes ++ [outcome]
  plan : next.plan = pass.plan
  pg : next.pg = pass.pg
  start : next.start = pass.start
  yielded : next.yielded = pass.yielded
  group : g'.pg = g.pg ∧ g'.acked = g.acked

theorem note_same (pass : Pass) (w : Work) (sup : Option Bool) (outcome : Outcome) :
    (pass.note w sup outcome).plan = pass.plan ∧ (pass.note w sup outcome).pg = pass.pg ∧
      (pass.note w sup outcome).start = pass.start ∧ (pass.note w sup outcome).yielded = pass.yielded ∧
      (pass.note w sup outcome).outcomes = pass.outcomes ++ [outcome] := by
  cases outcome with
  | unfound stripeId good needed =>
    rw [Pass.note]
    split <;> exact ⟨rfl, rfl, rfl, rfl, rfl⟩
  | done | partly | changed | failed why => exact ⟨rfl, rfl, rfl, rfl, rfl⟩

theorem next_same (pass : Pass) (w : Work) (moves : Bool) (rest : List Work)
    (chunks : List (Bool × List Work)) : (pass.next w moves rest chunks).plan = pass.plan ∧
      (pass.next w moves rest chunks).pg = pass.pg ∧ (pass.next w moves rest chunks).start = pass.start ∧
      (pass.next w moves rest chunks).yielded = pass.yielded ∧
      (pass.next w moves rest chunks).outcomes = pass.outcomes ∧
      (pass.next w moves rest chunks).queued = rest ++ chunks.flatMap Prod.snd := by
  rw [Pass.next, Pass.queued]
  split
  · rename_i hrest
    rw [isEmpty_iff.1 hrest]
    exact ⟨rfl, rfl, rfl, rfl, rfl, rfl⟩
  · exact ⟨rfl, rfl, rfl, rfl, rfl, rfl⟩

theorem step_work {env : ObjectEnv} {outcome : Outcome} (h : step site g (.work env outcome) = some g') :
    ∃ pass next w, Worked g env outcome g' pass next w := by
  rw [step] at h
  split at h
  · cases h
  rename_i pass hpass
  split at h
  · rename_i moves w rest chunks hchunks
    dsimp only at h
    split at h
    · cases h
    rename_i hnot
    rw [not_or, not_or, not_not] at hnot
    cases h
    obtain ⟨hplan, hpg, hstart, hyielded, houtcomes⟩ := note_same pass w (superseded env
      pass.plan.members w (recoverObject env pass.pg.acting pass.plan.members w g.copies
        g.clock).copies) outcome
    obtain ⟨hplan', hpg', hstart', hyielded', houtcomes', hqueued⟩ := next_same (pass.note w
      (superseded env pass.plan.members w (recoverObject env pass.pg.acting pass.plan.members w
        g.copies g.clock).copies) outcome) w moves rest chunks
    refine ⟨pass, _, w, hpass, rfl, ?_, hnot.2.2, rfl, houtcomes'.trans houtcomes,
      hplan'.trans hplan, hpg'.trans hpg, hstart'.trans hstart, hyielded'.trans hyielded, rfl, rfl⟩
    rw [hqueued, Pass.queued, hchunks, flatMap_cons, cons_append]
  · cases h

theorem step_plan (h : step site g (.plan usable answer) = some g') :
    g.pass = none ∧ g'.copies = g.copies ∧ g'.pg = g.pg ∧ g'.acked = g.acked ∧
      (g'.pass = none ∨ ∃ plan cursor, recoveryPlan g.copies g.pg usable answer = .ok plan ∧
        g'.pass = some (startPass g.pg plan cursor)) := by
  rw [step] at h
  split at h
  · cases h
  rename_i hpass
  rw [Bool.not_eq_true, isSome_eq_false_iff, isNone_iff_eq_none] at hpass
  split at h
  · cases h
    exact ⟨hpass, rfl, rfl, rfl, .inl hpass⟩
  · rename_i plan hplan
    cases h
    exact ⟨hpass, rfl, rfl, rfl, .inr ⟨plan, _, hplan, rfl⟩⟩

theorem step_finish {committed clean : Bool} {reached : OsdId → Bool}
    (h : step site g (.finish usable committed clean reached) = some g') :
    g'.pass = none ∧ g'.acked = g.acked ∧ ∃ pass, g.pass = some pass ∧
      (pass.yielded = false → pass.queued = []) ∧ ((g'.copies = g.copies ∧ g'.pg = g.pg) ∨
        (pass.finishes usable = true ∧ g.pg.epoch = pass.pg.epoch ∧
          g.pg.filling = pass.pg.filling ∧ g'.pg = { g.pg with filling := [] } ∧
          g'.copies = withdrawStrays reached pass.plan.strays g.copies)) := by
  rw [step] at h
  split at h
  · cases h
  rename_i pass hpass
  split at h
  · cases h
  rename_i hend
  cases h
  refine ⟨rfl, ?_, pass, hpass, fun hy => ?_, ?_⟩
  · dsimp only
    split
    · rw [finishFilling]
      split <;> rfl
    · rfl
  · have hnil : pass.chunks = [] := by
      by_contra hne
      exact hend ⟨hne, hy⟩
    rw [Pass.queued, hnil, flatMap_nil]
  · dsimp only
    split
    · rename_i hfin
      rw [finishFilling]
      split
      · rename_i hsame
        exact .inr ⟨hfin, hsame.1, hsame.2.1, rfl, rfl⟩
      · exact .inl ⟨rfl, rfl⟩
    · exact .inl ⟨rfl, rfl⟩

theorem step_other (h : step site g e = some g') (hplan : ∀ usable answer, e ≠ .plan usable answer)
    (hwork : ∀ env outcome, e ≠ .work env outcome) : g'.pass = none ∨ g'.pass = g.pass ∨
      ∃ pass, g.pass = some pass ∧ g'.pass = some { pass with yielded := true } := by
  cases e with
  | plan usable answer => exact absurd rfl (hplan usable answer)
  | work env outcome => exact absurd rfl (hwork env outcome)
  | put name o reach | delete name stamp reach =>
    rw [step] at h
    split at h <;> cases h
    exact .inr (.inl rfl)
  | store id shard | free id shard =>
    cases h
    exact .inr (.inl rfl)
  | change c =>
    rw [step] at h
    obtain ⟨pg, -, rfl⟩ := map_eq_some_iff.1 h
    exact .inr (.inl rfl)
  | yield =>
    rw [step] at h
    split at h
    · cases h
    rename_i pass hpass
    split at h <;> cases h
    exact .inr (.inr ⟨pass, hpass, rfl⟩)
  | stop =>
    rw [step] at h
    split at h <;> cases h
    exact .inl rfl
  | finish usable committed clean reached => exact .inl (step_finish h).1

/-- What a step makes of a slot. -/
theorem slot_step (h : step site g e = some g') (id : OsdId) (name : EntryName) :
    SlotStep g id name (g.copies.slot id name) e (g'.copies.slot id name) := by
  cases e with
  | put name' o reach =>
    rw [step] at h
    split at h
    · cases h
    · rename_i hstamp
      cases h
      dsimp only
      rw [slot_writeAt]
      split
      · rename_i h0
        cases h0.2
        exact .put o reach hstamp
      · exact .same _
  | delete name' stamp reach =>
    rw [step] at h
    split at h
    · cases h
    · rename_i hstamp
      cases h
      dsimp only
      rw [slot_writeAt]
      split
      · rename_i h0
        cases h0.2
        exact .delete stamp reach hstamp
      · exact .same _
  | store x shard =>
    cases h
    dsimp only
    rw [slot_modify_of (fun c => { c with shards := shard :: c.shards }) fun _ => rfl]
    exact .same _
  | free x shard =>
    cases h
    dsimp only
    rw [slot_modify_of (fun c => { c with shards := c.shards.filter (· ≠ shard) }) fun _ => rfl]
    exact .same _
  | change c =>
    rw [step] at h
    obtain ⟨pg, -, rfl⟩ := map_eq_some_iff.1 h
    exact .same _
  | plan usable answer =>
    rw [(step_plan h).2.1]
    exact .same _
  | work env outcome =>
    obtain ⟨pass, next, w, hw⟩ := step_work h
    have hmem : w ∈ pass.queued := hw.queued ▸ mem_cons_self
    rw [hw.copies]
    by_cases hname : name = w.name
    · subst hname
      exact .work env outcome pass w _ hw.before hmem rfl (recoverObject_slot _ _ _ _ _ _ id)
    · rw [recoverObject_other _ _ _ _ _ _ id hname]
      exact .same _
  | yield =>
    rw [step] at h
    split at h
    · cases h
    · split at h <;> cases h
      exact .same _
  | stop =>
    rw [step] at h
    split at h <;> cases h
    exact .same _
  | finish usable committed clean reached =>
    obtain ⟨-, -, pass, hpass, -, ⟨hcopies, -⟩ | ⟨-, -, -, -, hcopies⟩⟩ := step_finish h
    · rw [hcopies]
      exact .same _
    · obtain ⟨hwithdrawn, hother⟩ := slot_withdrawStrays reached id name pass.plan.strays g.copies
      rw [hcopies]
      by_cases hid : id ∈ pass.plan.strays.map Prod.fst
      · exact .withdraw usable committed clean reached pass _ hpass hid hwithdrawn
      · rw [hother hid]
        exact .same _

theorem object_step {o : ObjectMeta} (h : SlotStep g id name s e s') (ho : s'.object = some o) :
    s.object = some o ∨ (∃ reach, e = .put name o reach) ∨
      ∃ env outcome w, e = .work env outcome ∧ Moved g.copies w o := by
  have hdelete : ∀ stamp, (s.delete stamp).object = some o → s.object = some o := by
    intro stamp h0
    rw [Slot.delete] at h0
    split at h0
    · exact h0
    · cases h0
  cases h with
  | same => exact .inl ho
  | put new reach _ =>
    rcases Slot.object_put ho with ho | rfl
    · exact .inl ho
    · exact .inr (.inl ⟨reach, rfl⟩)
  | delete stamp reach _ => exact .inl (hdelete stamp ho)
  | work env outcome pass w _ hpass hw hname hmove =>
    cases hmove with
    | same => exact .inl ho
    | put new ht hmoved =>
      rcases Slot.object_put ho with ho | rfl
      · exact .inl ho
      · exact .inr (.inr ⟨env, outcome, w, rfl, hmoved⟩)
    | delete ht => exact .inl (hdelete _ ho)
  | withdraw _ _ _ _ pass _ _ _ hwithdrawn =>
    rcases hwithdrawn.object with h0 | h0
    · rw [h0] at ho
      cases ho
    · exact .inl (h0 ▸ ho)

theorem shards_writeAt (copies : Copies) (reach : List OsdId) (name : EntryName) (f : Slot → Slot)
    (id : OsdId) : (writeAt copies reach name f id).shards = (copies id).shards := by
  rw [writeAt]
  split <;> rfl

theorem shards_withdrawStrays (reached : OsdId → Bool) (id : OsdId) :
    ∀ (strays : List (OsdId × EntryName × Bytes)) (copies : Copies),
      (withdrawStrays reached strays copies id).shards = (copies id).shards := by
  intro strays
  induction strays with
  | nil => exact fun copies => rfl
  | cons stray strays ih =>
    intro copies
    rw [withdrawStrays, ih]
    split
    · exact shards_writeAt _ _ _ _ _
    · rfl

theorem shard_step {shard : ShardId} (h : step site g e = some g')
    (hshard : shard ∈ (g.copies id).shards) (hfree : ∀ x, e ≠ .free x shard)
    (hwork : ∀ env, e ≠ .work env .changed) : shard ∈ (g'.copies id).shards := by
  cases e with
  | put name o reach | delete name stamp reach =>
    rw [step] at h
    split at h <;> cases h
    dsimp only
    rwa [shards_writeAt]
  | store x new =>
    cases h
    exact (Copies.Shards.store g.copies x new).held id hshard
  | free x old =>
    cases h
    have hne : shard ≠ old := fun h0 => hfree x (h0 ▸ rfl)
    by_cases hx : id = x
    · subst hx
      dsimp only
      rw [modify_self]
      exact mem_filter.2 ⟨hshard, decide_eq_true hne⟩
    · dsimp only
      rwa [modify_other _ hx]
  | change c =>
    rw [step] at h
    obtain ⟨pg, -, rfl⟩ := map_eq_some_iff.1 h
    exact hshard
  | plan usable answer => rwa [(step_plan h).2.1]
  | work env outcome =>
    obtain ⟨pass, next, w, hw⟩ := step_work h
    rw [hw.copies]
    refine recoverObject_shards _ _ _ _ _ _ ?_ id hshard
    rw [hw.came]
    exact fun h0 => hwork env (h0 ▸ rfl)
  | yield =>
    rw [step] at h
    split at h
    · cases h
    · split at h <;> cases h
      exact hshard
  | stop =>
    rw [step] at h
    split at h <;> cases h
    exact hshard
  | finish usable committed clean reached =>
    obtain ⟨-, -, pass, -, -, ⟨hcopies, -⟩ | ⟨-, -, -, -, hcopies⟩⟩ := step_finish h
    · rwa [hcopies]
    · rwa [hcopies, shards_withdrawStrays]

/-! ## Passes -/

/-- What a pass always is: its members are acting ones, and what it has to do is of its listings. -/
structure Pass.Sound (pass : Pass) : Prop where
  member : ∀ (p : Nat) (id : OsdId), pass.plan.members[p]? = some (some id) → pass.pg.acting[p]? = some id
  newest : ∀ w ∈ pass.queued, ∃ n, newestAt pass.plan.listed w.name = some n ∧ w.newest = n.entry
  behind : ∀ w ∈ pass.queued, ∀ p ∈ w.behind, (pass.plan.members[p]?.join).isSome
  stamp : ∀ name n, newestAt pass.plan.listed name = some n → n.entry.stamp ≠ 0

theorem sound_startPass (h : recoveryPlan copies pg usable answer = .ok plan) (cursor : Bytes) :
    (startPass pg plan cursor).Sound := by
  constructor
  · exact fun p id hp => acting_of_member h hp
  · intro w hw
    obtain ⟨n, hn, hwork⟩ := newest_of_mem_work h (mem_work_of_queued hw)
    exact ⟨n, hn, newest_of_workOf hwork⟩
  · intro w hw p hp
    obtain ⟨n, hn, hwork⟩ := newest_of_mem_work h (mem_work_of_queued hw)
    obtain ⟨l, hl, -⟩ := (mem_behind hwork).1 hp
    rw [getElem?_map] at hl
    obtain ⟨m, hm, hmap⟩ := map_eq_some_iff.1 hl
    obtain ⟨id, rfl, -⟩ := map_eq_some_iff.1 hmap
    rw [show (startPass pg plan cursor).plan.members[p]? = some (some id) from hm]
    rfl
  · exact fun name n hn => newest_stamp_ne_zero h hn

section
variable (h : step site g e = some g')
include h

/-- **What a step makes of a pass**: nothing, or one object less to work. -/
theorem pass_step (hp : g.pass = some pass) (hp' : g'.pass = some pass') :
    ((pass' = pass ∨ pass' = { pass with yielded := true }) ∧ ∀ env outcome, e ≠ .work env outcome) ∨
      ∃ env outcome w, e = .work env outcome ∧ Worked g env outcome g' pass pass' w := by
  by_cases hwork : ∃ env outcome, e = .work env outcome
  · obtain ⟨env, outcome, rfl⟩ := hwork
    obtain ⟨pass₀, next, w, hw⟩ := step_work h
    cases hp.symm.trans hw.before
    cases hp'.symm.trans hw.after
    exact .inr ⟨env, outcome, w, rfl, hw⟩
  · rw [not_exists] at hwork
    have hwork : ∀ env outcome, e ≠ .work env outcome := fun env outcome h0 => hwork env ⟨outcome, h0⟩
    have hplan : ∀ usable answer, e ≠ .plan usable answer := by
      rintro usable answer rfl
      rw [(step_plan h).1] at hp
      cases hp
    refine .inl ⟨?_, hwork⟩
    rcases step_other h hplan hwork with hnone | hsame | ⟨pass₀, hp₀, hyield⟩
    · rw [hnone] at hp'
      cases hp'
    · rw [hsame, hp] at hp'
      exact .inl (some.inj hp').symm
    · cases hp.symm.trans hp₀
      rw [hyield] at hp'
      exact .inr (some.inj hp').symm

theorem pass_plan (hp : g.pass = some pass)
    (hp' : g'.pass = some pass') : pass'.plan = pass.plan ∧ pass'.pg = pass.pg := by
  rcases pass_step h hp hp' with ⟨rfl | rfl, -⟩ | ⟨env, outcome, w, rfl, hw⟩
  · exact ⟨rfl, rfl⟩
  · exact ⟨rfl, rfl⟩
  · exact ⟨hw.plan, hw.pg⟩

theorem pass_planned (hp : g.pass = none)
    (hp' : g'.pass = some pass') : ∃ usable answer plan cursor, e = .plan usable answer ∧
      recoveryPlan g.copies g.pg usable answer = .ok plan ∧ g'.copies = g.copies ∧ g'.pg = g.pg ∧
      pass' = startPass g.pg plan cursor := by
  by_cases hplan : ∃ usable answer, e = .plan usable answer
  · obtain ⟨usable, answer, rfl⟩ := hplan
    obtain ⟨-, hcopies, hpg, -, hnone | ⟨plan, cursor, hplan, hstart⟩⟩ := step_plan h
    · rw [hnone] at hp'
      cases hp'
    · rw [hstart] at hp'
      exact ⟨usable, answer, plan, cursor, rfl, hplan, hcopies, hpg, (some.inj hp').symm⟩
  · have hwork : ∀ env outcome, e ≠ .work env outcome := by
      rintro env outcome rfl
      obtain ⟨pass, next, w, hw⟩ := step_work h
      rw [hw.before] at hp
      cases hp
    have hplan : ∀ usable answer, e ≠ .plan usable answer :=
      fun usable answer h0 => hplan ⟨usable, answer, h0⟩
    rcases step_other h hplan hwork with hnone | hsame | ⟨pass, hpass, -⟩
    · rw [hnone] at hp'
      cases hp'
    · rw [hsame, hp] at hp'
      cases hp'
    · rw [hp] at hpass
      cases hpass

end

theorem Pass.Sound.step (hs : pass.Sound) (h : step site g e = some g')
    (hp : g.pass = some pass) (hp' : g'.pass = some pass') : pass'.Sound := by
  rcases pass_step h hp hp' with ⟨rfl | rfl, -⟩ | ⟨env, outcome, w, rfl, hw⟩
  · exact hs
  · exact ⟨hs.member, hs.newest, hs.behind, hs.stamp⟩
  · have hmem : ∀ x ∈ pass'.queued, x ∈ pass.queued := fun x hx => hw.queued ▸ mem_cons_of_mem _ hx
    constructor
    · rw [hw.plan, hw.pg]
      exact hs.member
    · rw [hw.plan]
      exact fun x hx => hs.newest x (hmem x hx)
    · rw [hw.plan]
      exact fun x hx => hs.behind x (hmem x hx)
    · rw [hw.plan]
      exact hs.stamp

/-- A pass that started from the beginning, gave way to none, and settled every object it worked. -/
structure Pass.Clean (pass : Pass) : Prop where
  start : pass.start = []
  yielded : pass.yielded = false
  outcomes : ∀ o ∈ pass.outcomes, o.settled = true

def Pass.Due (pass : Pass) (name : EntryName) (n : ListedEntry) (p : Nat) : Prop :=
  ∃ w ∈ pass.queued, w.name = name ∧ w.newest = n ∧ p ∈ w.behind

/-- Every member that answered has what it takes of a name, unless the pass still brings it. -/
def Pass.Reaches (pass : Pass) (copies : Copies) (name : EntryName) (n : ListedEntry)
    (Q : Slot → Prop) : Prop :=
  pass.Clean → ∀ p id, pass.plan.members[p]? = some (some id) → pass.Due name n p ∨ Q (copies.slot id name)

theorem reaches_startPass {n : Newest} {Q : Slot → Prop} (h : recoveryPlan copies pg usable answer = .ok plan)
    (hn : newestAt plan.listed name = some n)
    (hQ : ∀ id, standing n.entry ((listing id (copies id)).get name) ≠ .behind → Q (copies.slot id name)) :
    (startPass pg plan cursor).Reaches copies name n.entry Q := by
  intro hclean p id hp
  have hcursor : cursor = [] := hclean.start
  subst hcursor
  by_cases hstand : standing n.entry ((listing id (copies id)).get name) = .behind
  · -- It is behind, so there is work for it.
    cases hwork : workOf (plan.members.map fun m => m.map fun id => listing id (copies id)) name n with
    | none => exact absurd hstand (standing_of_workOf_none hwork (listing_of_member hp)).1
    | some w =>
      obtain ⟨hmem, hname⟩ := (mem_work h hn w).2 hwork
      refine .inl ⟨w, mem_queued_startPass.2 hmem, hname, newest_of_workOf hwork, ?_⟩
      exact (mem_behind hwork).2 ⟨_, listing_of_member hp, hstand⟩
  · exact .inr (hQ id hstand)

theorem Pass.Clean.of_worked {env : ObjectEnv} {outcome : Outcome}
    (hw : Worked g env outcome g' pass pass' w) (h : pass'.Clean) : pass.Clean ∧ outcome.settled = true := by
  have hall := h.outcomes
  rw [hw.outcomes] at hall
  refine ⟨⟨hw.start ▸ h.start, hw.yielded ▸ h.yielded, fun o ho => ?_⟩, ?_⟩
  · exact hall o (mem_append_left _ ho)
  · exact hall outcome (mem_append_right _ mem_cons_self)

theorem Pass.Reaches.step {n : ListedEntry} {Q : Slot → Prop}
    (hr : pass.Reaches g.copies name n Q) (h : step site g e = some g') (hp : g.pass = some pass)
    (hp' : g'.pass = some pass') (hkeep : ∀ id, Q (g.copies.slot id name) → Q (g'.copies.slot id name))
    (hdone : ∀ env outcome w, Worked g env outcome g' pass pass' w → w.name = name →
      w.newest = n → outcome.settled = true → ∀ p ∈ w.behind, ∀ id,
      pass.plan.members[p]? = some (some id) → Q (g'.copies.slot id name)) :
    pass'.Reaches g'.copies name n Q := by
  intro hclean p id hmember
  rcases pass_step h hp hp' with ⟨rfl | rfl, -⟩ | ⟨env, outcome, w, rfl, hw⟩
  · exact (hr hclean p id hmember).imp_right (hkeep id)
  · cases hclean.yielded
  · obtain ⟨hclean', hsettled⟩ := hclean.of_worked hw
    rw [hw.plan] at hmember
    rcases hr hclean' p id hmember with ⟨x, hx, hname, hnewest, hbehind⟩ | hQ
    · rw [hw.queued] at hx
      rcases mem_cons.1 hx with rfl | hx
      · exact .inr (hdone env outcome x hw hname hnewest hsettled p hbehind id hmember)
      · exact .inl ⟨x, hx, hname, hnewest, hbehind⟩
    · exact .inr (hkeep id hQ)

/-- Recovery never takes a slot back. -/
theorem rank_le_move (h : SlotMove copies w s s') (hw : w.newest.stamp ≠ 0) : s.rank ≤ s'.rank := by
  cases h with
  | same => exact le_rfl
  | put o ht ho => exact Slot.rank_le_put
  | delete ht => exact Slot.rank_le_delete hw

theorem rank_le_step (h : step site g e = some g') (hp : g.pass = some pass)
    (hs : pass.Sound) (hend : g'.pass ≠ none) (id : OsdId) (name : EntryName) :
    (g.copies.slot id name).rank ≤ (g'.copies.slot id name).rank := by
  have hslot := slot_step h id name
  generalize g.copies.slot id name = s at hslot
  generalize g'.copies.slot id name = s' at hslot
  cases hslot with
  | same => exact le_rfl
  | put o reach ho => exact Slot.rank_le_put
  | delete stamp reach hstamp => exact Slot.rank_le_delete hstamp
  | work env outcome pass' w _ hpass hw hname hmove =>
    cases hp.symm.trans hpass
    obtain ⟨n, hn, hnewest⟩ := hs.newest w hw
    exact rank_le_move hmove (hnewest ▸ hs.stamp w.name n hn)
  | withdraw usable committed clean reached pass' _ hpass hid hwithdrawn =>
    exact absurd (step_finish h).1 hend

theorem order_le_of_standing {n : ListedEntry} (ht : n.tombstone = false)
    (h : standing n ((listing id (copies id)).get name) ≠ .behind) :
    (n.order : WithBot EntryOrder) ≤ (copies.slot id name).rank := by
  rw [get_listing] at h
  rw [Copies.slot, ← Slot.listed_order id (copies id).shards]
  unfold standing at h
  rw [ht, if_neg Bool.false_ne_true] at h
  split at h
  · rename_i e he
    split_ifs at h with heq hshort
    · rw [he, ← heq]
      exact le_rfl
    · rw [he, ← heq]
      exact le_rfl
    · exact absurd rfl h
  · exact absurd rfl h

theorem reaches_order {n : Newest}
    (hn : newestAt pass.plan.listed name = some n) (ht : n.entry.tombstone = false) (hs : pass.Sound)
    (hr : pass.Reaches g.copies name n.entry fun s => (n.entry.order : WithBot EntryOrder) ≤ s.rank)
    (h : step site g e = some g') (hp : g.pass = some pass) (hp' : g'.pass = some pass') :
    pass'.Reaches g'.copies name n.entry fun s => (n.entry.order : WithBot EntryOrder) ≤ s.rank := by
  have hend : g'.pass ≠ none := by
    rw [hp']
    exact some_ne_none _
  refine hr.step h hp hp' (fun id hle => hle.trans (rank_le_step h hp hs hend id name)) ?_
  intro env outcome w hw hname hnewest hsettled p hbehind id hid
  subst hname
  rw [hw.copies, ← hnewest]
  refine recoverObject_done (hnewest ▸ ht) (hw.came ▸ hsettled) hbehind ?_ hid
  exact (List.getElem?_eq_some_iff.1 (hs.member p id hid)).1

end IoLake.Meta.Recovery
