import IoLake.Lib.SharedHold
import IoLake.MetaStore.Command
import IoLake.Proto.ObjectMeta

/-!
# The registry of shared stripes

A stripe that several objects use has an entry in the registry, which lists its referrers; one without an
entry is held by the object that wrote it.  The calls of `share_stripes`, `release_stripes` and `seal_pack`
are interleaved between their steps: the map of the registry is read and the changes computed; it is read
again for the values the compare-and-set expects; the compare-and-set is applied; and the map is updated.
-/

namespace IoLake.Meta.StripeRefs

open ByteFormat Proto MetaStore SharedHold List CompareAndSet

structure PackRecord where
  stripe : Option StripeMeta
  sealed : Bool := false
  version : Nat := 1
deriving DecidableEq, Repr

inductive Row where
  | refs (referrers : List Bytes)
  | pack (record : PackRecord)
deriving DecidableEq, Repr

abbrev Tables := OrdMap (String ×ₗ Bytes) Row

abbrev RowOp := CompareAndSet.Op (String ×ₗ Bytes) Row

def refsRow (id : Bytes) : String ×ₗ Bytes := toLex ("stripe_refs", id)

def packRow (id : Bytes) : String ×ₗ Bytes := toLex ("packs", id)

def refsOf (rows : Tables) (id : Bytes) : Option (List Bytes) :=
  match rows.get (refsRow id) with
  | some (.refs r) => some r
  | _ => none

def packRecord (rows : Tables) (id : Bytes) : Option PackRecord :=
  match rows.get (packRow id) with
  | some (.pack r) => some r
  | _ => none

inductive Code where
  | invalidArgument
  | notFound
  | alreadyExists
  | failedPrecondition
  | aborted
  | internal
deriving DecidableEq, Repr

structure Status where
  code : Code
  message : String
deriving DecidableEq, Repr

/-- Stripe ids one release command takes: each is two writes at most. -/
def RELEASE_BATCH : Nat := MAX_OPS / 2

def CAS_ATTEMPTS : Nat := 64

inductive Call where
  | share (owner sharer : Bytes) (stripeIds : List Bytes)
  | release (referrer : Bytes) (stripeIds : List Bytes)
  | sealPack (packId : Bytes) (referrers : List Bytes) (stripe : Option StripeMeta)
deriving DecidableEq, Repr

inductive Answer where
  | shared
  /-- The stripes nobody references any more, and the packs whose last object let go. -/
  | released (freeable : List Bytes) (freedPacks : List (Bytes × StripeMeta))
  | sealed
  | refused (status : Status)
deriving DecidableEq, Repr

structure Found where
  id : Bytes
  refs : Option (List Bytes)
  pack : Option PackRecord
deriving DecidableEq, Repr

/-! ## What a call changes -/

structure Change where
  id : Bytes
  found : Option (List Bytes)
  new : Option (List Bytes)
deriving DecidableEq, Repr

structure PackChange where
  id : Bytes
  found : PackRecord
  new : Option PackRecord
deriving DecidableEq, Repr

def shareOne (owner sharer : Bytes) (f : Found) : Except Status (Option (List Bytes)) :=
  match f.refs with
  | some r =>
    if owner ∉ r then
      .error ⟨.failedPrecondition,
        "stripe " ++ hexEncode16 f.id ++ " is no longer referenced by the copy's source"⟩
    else .ok (if sharer ∈ r then none else some (r ++ [sharer]))
  | none =>
    if f.pack.isSome then
      -- A pack is registered while anything is in it.
      .error ⟨.failedPrecondition,
        "pack " ++ hexEncode16 f.id ++ " is no longer referenced by the copy's source"⟩
    else .ok (if sharer = owner then none else some [owner, sharer])

def shareChanges (owner sharer : Bytes) : List Found → Except Status (List Change)
  | [] => .ok []
  | f :: fs =>
    match shareOne owner sharer f with
    | .error e => .error e
    | .ok new =>
      match shareChanges owner sharer fs with
      | .error e => .error e
      | .ok rest => .ok ((new.map fun r => ⟨f.id, f.refs, some r⟩).toList ++ rest)

section
variable (referrer : Bytes) (found : List Found)

def releaseChanges : List Change :=
  found.filterMap fun f =>
    match f.refs with
    | some r => if referrer ∈ r then some ⟨f.id, f.refs, left referrer r⟩ else none
    | none => none

def Found.last (f : Found) : Bool :=
  f.refs.any fun r => referrer ∈ r && (left referrer r).isNone

def releasePacks : List PackChange :=
  found.filterMap fun f =>
    match f.pack with
    | some record => if f.last referrer then some ⟨f.id, record, none⟩ else none
    | none => none

def freeable : List Bytes :=
  (found.filter fun f => f.pack.isNone && (f.refs.isNone || f.last referrer)).map Found.id

def freedPacks : List (Bytes × StripeMeta) :=
  (releasePacks referrer found).filterMap fun p => p.found.stripe.map (p.id, ·)

end

def sealRecord (stripe : Option StripeMeta) (f : Found) : Except Status (PackRecord × PackRecord) :=
  match f.pack with
  | none => .error ⟨.failedPrecondition, "pack is not recorded"⟩
  | some record =>
    if record.sealed then .error ⟨.failedPrecondition, "pack is already sealed"⟩
    else if stripe.any fun st => st.shards = [] then
      .error ⟨.invalidArgument, "a sealed pack needs its shard locations"⟩
    else if f.refs.isSome then .error ⟨.failedPrecondition, "pack id is already registered"⟩
    else .ok (record, { record with sealed := true, stripe := stripe.or record.stripe })

structure Plan where
  changes : List Change
  packs : List PackChange := []

def plan : Call → List Found → Except Status Plan
  | .share owner sharer _, found =>
    match shareChanges owner sharer found with
    | .error e => .error e
    | .ok changes => .ok ⟨changes, []⟩
  | .release referrer _, found => .ok ⟨releaseChanges referrer found, releasePacks referrer found⟩
  | .sealPack _ referrers stripe, found =>
    match found with
    | [] => .ok ⟨[], []⟩
    | f :: _ =>
      match sealRecord stripe f with
      | .error e => .error e
      | .ok (old, new) => .ok ⟨[⟨f.id, none, some referrers⟩], [⟨f.id, old, some new⟩]⟩

def Plan.ops (p : Plan) (expected : Change → Option (List Bytes)) : List RowOp :=
  p.changes.map (fun c => ⟨refsRow c.id, (expected c).map Row.refs, c.new.map Row.refs⟩) ++
    p.packs.map fun c => ⟨packRow c.id, some (.pack c.found), c.new.map Row.pack⟩

/-! ## Calls under way -/

inductive Stage where
  | reading
  | computed (found : List Found)
  | ready (found : List Found) (ops : List RowOp)
  | committed (found : List Found)
  | answered (a : Answer)
deriving DecidableEq

structure Running where
  call : Call
  todo : List (List Bytes)
  attempt : Nat := 0
  stage : Stage := .reading
  freeable : List Bytes := []
  freedPacks : List (Bytes × StripeMeta) := []
deriving DecidableEq

def Stage.looked : Stage → Option (List Found)
  | .reading | .answered _ => none
  | .computed found | .ready found _ | .committed found => some found

def Stage.ops : Stage → List RowOp
  | .ready _ ops => ops
  | _ => []

def Running.found (r : Running) : List Found := r.stage.looked.getD []

def Call.start (c : Call) : Running :=
  match c with
  | .share owner sharer ids =>
    if owner = [] ∨ sharer = [] then
      ⟨c, [ids], 0, .answered (.refused ⟨.invalidArgument, "owner and sharer are required"⟩), [], []⟩
    else if MAX_OPS < ids.length then
      ⟨c, [ids], 0, .answered (.refused ⟨.failedPrecondition, toString ids.length ++
        " stripes to share at once; at most " ++ toString MAX_OPS⟩), [], []⟩
    else ⟨c, [ids], 0, .reading, [], []⟩
  | .release _ ids =>
    match ids.toChunks RELEASE_BATCH with
    | [] => ⟨c, [], 0, .answered (.released [] []), [], []⟩
    | todo => ⟨c, todo, 0, .reading, [], []⟩
  | .sealPack packId referrers _ =>
    if referrers = [] then
      ⟨c, [[packId]], 0, .answered (.refused ⟨.invalidArgument, "a pack holds at least one object"⟩), [], []⟩
    else ⟨c, [[packId]], 0, .reading, [], []⟩

/-- Only a stripe whose id is a UUIDv7 made after `before` milliseconds may be freed. -/
def mayFree (id : Bytes) (before : Nat) : Bool :=
  id.length = 16 && (id.getD 6 0).toNat / 16 = 7 && before ≤ fromBE (id.take 6)

/-- A release's answer less the stripes a restore holds. -/
def holdRestoredFrees (restored : Option Nat) (free : List Bytes) (packs : List (Bytes × StripeMeta)) :
    List Bytes × List (Bytes × StripeMeta) :=
  match restored with
  | none => (free, packs)
  | some before =>
    (free.filter fun id => mayFree id before, packs.filter fun p => mayFree p.2.objectId before)

def Running.settle (r : Running) (restored : Option Nat) (found : List Found) : Running :=
  match r.call with
  | .share _ _ _ => { r with stage := .answered .shared }
  | .sealPack _ _ _ => { r with stage := .answered .sealed }
  | .release referrer _ =>
    let kept := holdRestoredFrees restored (StripeRefs.freeable referrer found)
      (StripeRefs.freedPacks referrer found)
    match r.todo.tail with
    | [] => { r with stage := .answered (.released (r.freeable ++ kept.1) (r.freedPacks ++ kept.2)) }
    | rest =>
      { r with
        todo := rest
        attempt := 0
        stage := .reading
        freeable := r.freeable ++ kept.1
        freedPacks := r.freedPacks ++ kept.2 }

def Running.conflict (r : Running) : Running :=
  match r.call with
  | .sealPack _ _ _ =>
    { r with stage := .answered (.refused ⟨.aborted, "pack changed while sealing; retry"⟩) }
  | _ =>
    if r.attempt + 1 < CAS_ATTEMPTS then { r with attempt := r.attempt + 1, stage := .reading }
    else
      { r with
        stage := .answered (.refused ⟨.aborted, "stripe references kept changing; retry"⟩) }

/-- The sharer takes the stripes; the referrer lets them go, and some are free; the objects of a pack take it.
-/
def effects : Call → List Found → List (Entry Bytes Bytes)
  | .share _ sharer _, found => found.map fun f => .take f.id sharer
  | .release referrer _, found =>
    found.map (fun f => .drop f.id referrer) ++
      (StripeRefs.freeable referrer found ++ (releasePacks referrer found).map PackChange.id).map
        fun id => .free id
  | .sealPack _ referrers _, found =>
    match found with
    | [] => []
    | f :: _ => referrers.map fun o => .take f.id o

structure State where
  rows : Tables
  map : OrdMap Bytes (List Bytes)
  calls : List Running := []
  log : List (Entry Bytes Bytes) := []

def look (s : State) (ids : List Bytes) : List Found :=
  ids.map fun id => ⟨id, s.map.get id, packRecord s.rows id⟩

def State.set (s : State) (i : Nat) (r : Running) : State := { s with calls := s.calls.set i r }

inductive Event where
  | write (id object : Bytes)
  | intendPack (id : Bytes) (stripe : StripeMeta)
  | abortPack (id : Bytes)
  | movePackShard (id : Bytes) (stripe : StripeMeta)
  | call (c : Call)
  /-- The map is read and the changes computed; `restored` is the time before which a restore holds the frees.
  -/
  | read (i : Nat) (restored : Option Nat)
  | expect (i : Nat)
  | commit (i : Nat)
  | mirror (i : Nat) (restored : Option Nat)
deriving DecidableEq, Repr

section
variable (s : State) (i : Nat) (restored : Option Nat) (r : Running)

def State.fresh (id : Bytes) : Bool :=
  decide (s.rows.get (refsRow id) = none ∧ s.rows.get (packRow id) = none ∧
    (∀ e ∈ s.log, e.resource ≠ id) ∧ ∀ r ∈ s.calls, ∀ f ∈ r.found, f.id ≠ id)

def readCall : Option State :=
  match r.stage, r.todo with
  | .reading, batch :: _ =>
    let found := look s batch
    match plan r.call found with
    | .error st => some (s.set i { r with stage := .answered (.refused st) })
    | .ok p =>
      if p.changes = [] then
        some ({ s with log := s.log ++ effects r.call found }.set i (r.settle restored found))
      else
        match r.call with
        | .sealPack _ _ _ => some (s.set i { r with stage := .ready found (p.ops Change.found) })
        | _ => some (s.set i { r with stage := .computed found })
  | _, _ => none

def expectCall : Option State :=
  match r.stage with
  | .computed found =>
    match plan r.call found with
    | .ok p => some (s.set i { r with stage := .ready found (p.ops fun c => s.map.get c.id) })
    | .error _ => none
  | _ => none

def commitCall : Option State :=
  match r.stage with
  | .ready found ops =>
    match apply s.rows ops with
    | some rows =>
      some ({ s with rows := rows, log := s.log ++ effects r.call found }.set i
        { r with stage := .committed found })
    | none => some (s.set i r.conflict)
  | _ => none

def mirrorCall : Option State :=
  match r.stage with
  | .committed found =>
    match plan r.call found with
    | .ok p =>
      some ({ s with map := p.changes.foldl (fun m (c : Change) => set m c.id c.new) s.map }.set i
        (r.settle restored found))
    | .error _ => none
  | _ => none

def step : Event → Option State
  | .write id object =>
    if s.fresh id then some { s with log := s.log ++ [.take id object] } else none
  | .intendPack id stripe =>
    if id.length = 16 ∧ s.fresh id then
      some { s with rows := s.rows.insert (packRow id) (.pack ⟨some stripe, false, 1⟩) }
    else none
  | .abortPack id =>
    match packRecord s.rows id with
    | some record => if record.sealed then none else some { s with rows := s.rows.erase (packRow id) }
    | none => none
  | .movePackShard id stripe =>
    (packRecord s.rows id).map fun record =>
      { s with rows := s.rows.insert (packRow id)
                (.pack { record with stripe := some stripe, version := record.version + 1 }) }
  | .call c => some { s with calls := s.calls ++ [c.start] }
  | .read i restored => s.calls[i]?.bind (readCall s i restored)
  | .expect i => s.calls[i]?.bind (expectCall s i)
  | .commit i => s.calls[i]?.bind (commitCall s i)
  | .mirror i restored => s.calls[i]?.bind (mirrorCall s i restored)

end

def Running.sharing (r : Running) (sharer id : Bytes) : Bool :=
  match r.call with
  | .share _ o _ => o = sharer && r.found.any fun f => f.id = id
  | _ => false

/-- What a call asks of the registry when it takes effect.  A share of a stripe it found without an entry: its
owner still holds it; with the sharer listed: it is listed still.  A release of a stripe it found without an
entry, and no pack: nobody but the referrer holds it, and no share of it for the referrer is under way. -/
def TakesCare (s : State) (found : List Found) : Call → Prop
  | .share owner sharer _ => ∀ f ∈ found,
      (f.refs = none → owner ∈ holders s.log f.id) ∧
      (sharer ∈ f.refs.getD [] → sharer ∈ (refsOf s.rows f.id).getD [])
  | .release referrer _ => ∀ f ∈ found,
      (f.refs = none → f.pack = none → refsOf s.rows f.id = none ∧ ∀ o ∈ holders s.log f.id, o = referrer) ∧
      ∀ r ∈ s.calls, r.sharing referrer f.id = false
  | .sealPack _ _ _ => True

instance (s : State) (found : List Found) : ∀ c, Decidable (TakesCare s found c)
  | .share _ _ _ => inferInstanceAs (Decidable (∀ f ∈ found, _))
  | .release _ _ => inferInstanceAs (Decidable (∀ f ∈ found, _))
  | .sealPack _ _ _ => .isTrue trivial

/-- A careful step: the second reading of the map finds the entries as the first did, and a call that
takes effect takes care. -/
def Careful (s : State) : Event → Prop
  | .read i _ => ∀ r ∈ s.calls[i]?, ∀ batch ∈ r.todo.head?,
      ∀ p ∈ (plan r.call (look s batch)).toOption, p.changes = [] → TakesCare s (look s batch) r.call
  | .expect i => ∀ r ∈ s.calls[i]?, ∀ f ∈ r.found, s.map.get f.id = f.refs
  | .commit i => ∀ r ∈ s.calls[i]?, (apply s.rows r.stage.ops).isSome →
      TakesCare s r.found r.call
  | _ => True

instance (s : State) : ∀ e, Decidable (Careful s e)
  | .read _ _ => inferInstanceAs (Decidable (∀ r ∈ _, _))
  | .expect _ => inferInstanceAs (Decidable (∀ r ∈ _, _))
  | .commit _ => inferInstanceAs (Decidable (∀ r ∈ _, _))
  | .write _ _ | .intendPack _ _ | .abortPack _ | .movePackShard _ _ | .call _ | .mirror _ _ =>
    .isTrue trivial

/-! ## The tables after a command -/

variable {id : Bytes} {f : Found} {old : PackRecord}

theorem refsRow_inj {id' : Bytes} (h : refsRow id = refsRow id') : id = id' :=
  congrArg (fun k : String ×ₗ Bytes => (ofLex k).2) h

theorem packRow_inj {id' : Bytes} (h : packRow id = packRow id') : id = id' :=
  congrArg (fun k : String ×ₗ Bytes => (ofLex k).2) h

theorem refsRow_ne (id id' : Bytes) : refsRow id ≠ packRow id' := by
  intro h
  have htable := congrArg (fun k : String ×ₗ Bytes => (ofLex k).1) h
  exact absurd (show "stripe_refs" = "packs" from htable) (by decide)

theorem refsOf_eq {rows : Tables} {refs : Option (List Bytes)}
    (h : rows.get (refsRow id) = refs.map Row.refs) : refsOf rows id = refs := by
  rw [refsOf, h]
  cases refs with
  | none | some r => rfl

theorem packRecord_eq {rows : Tables} {record : Option PackRecord}
    (h : rows.get (packRow id) = record.map Row.pack) : packRecord rows id = record := by
  rw [packRecord, h]
  cases record with
  | none | some r => rfl

section Written

variable {rows : Tables} {p : Plan}

def Expected (rows : Tables) (p : Plan) : Prop :=
  ∀ op ∈ p.ops Change.found, rows.get op.key = op.expected

def written (rows : Tables) (p : Plan) : Tables := write rows (p.ops Change.found)

section
variable (h : Expected rows p)
include h

theorem Expected.found {c : Change} (hc : c ∈ p.changes) : refsOf rows c.id = c.found :=
  refsOf_eq (h _ (mem_append_left _ (mem_map_of_mem hc)))

theorem Expected.pack {c : PackChange} (hc : c ∈ p.packs) : packRecord rows c.id = some c.found :=
  packRecord_eq (h _ (mem_append_right _ (mem_map_of_mem hc)))

theorem refsOf_written (id : Bytes) :
    (∃ c ∈ p.changes, c.id = id ∧ refsOf rows id = c.found ∧ refsOf (written rows p) id = c.new) ∨
    ((∀ c ∈ p.changes, c.id ≠ id) ∧ refsOf (written rows p) id = refsOf rows id) := by
  by_cases hk : refsRow id ∈ (p.ops Change.found).map CompareAndSet.Op.key
  · obtain ⟨op, hop, hkey, hget⟩ := get_write_of_key (m := rows) hk
    rcases mem_append.1 hop with hop | hop
    · obtain ⟨c, hc, rfl⟩ := mem_map.1 hop
      have hid : c.id = id := refsRow_inj hkey
      subst hid
      exact .inl ⟨c, hc, rfl, h.found hc, refsOf_eq hget⟩
    · obtain ⟨c, -, rfl⟩ := mem_map.1 hop
      exact absurd hkey.symm (refsRow_ne id c.id)
  · refine .inr ⟨fun c hc hid => hk ?_, ?_⟩
    · subst hid
      exact mem_map.2 ⟨_, mem_append_left _ (mem_map_of_mem hc), rfl⟩
    · rw [refsOf, refsOf, written, get_write_of_notMem hk]

theorem packRecord_written (id : Bytes) : (∃ c ∈ p.packs, c.id = id ∧ packRecord rows id = some c.found ∧
      packRecord (written rows p) id = c.new) ∨
    ((∀ c ∈ p.packs, c.id ≠ id) ∧ packRecord (written rows p) id = packRecord rows id) := by
  by_cases hk : packRow id ∈ (p.ops Change.found).map CompareAndSet.Op.key
  · obtain ⟨op, hop, hkey, hget⟩ := get_write_of_key (m := rows) hk
    rcases mem_append.1 hop with hop | hop
    · obtain ⟨c, -, rfl⟩ := mem_map.1 hop
      exact absurd hkey (refsRow_ne c.id id)
    · obtain ⟨c, hc, rfl⟩ := mem_map.1 hop
      have hid : c.id = id := packRow_inj hkey
      subst hid
      exact .inl ⟨c, hc, rfl, h.pack hc, packRecord_eq hget⟩
  · refine .inr ⟨fun c hc hid => hk ?_, ?_⟩
    · subst hid
      exact mem_map.2 ⟨_, mem_append_right _ (mem_map_of_mem hc), rfl⟩
    · rw [packRecord, packRecord, written, get_write_of_notMem hk]

theorem packRecord_written_none (hnone : packRecord rows id = none) :
    packRecord (written rows p) id = none := by
  rcases packRecord_written h id with ⟨c, -, -, hfound, -⟩ | ⟨-, hsame⟩
  · rw [hnone] at hfound
    cases hfound
  · rw [hsame, hnone]

end

end Written

theorem shareOne_ok {owner sharer : Bytes} {new : Option (List Bytes)}
    (h : shareOne owner sharer f = .ok new) :
    (∃ r, f.refs = some r ∧ new = if sharer ∈ r then none else some (r ++ [sharer])) ∨
    (f.refs = none ∧ f.pack = none ∧ new = if sharer = owner then none else some [owner, sharer]) := by
  unfold shareOne at h
  split at h
  · rename_i r hr
    split at h
    · cases h
    · exact .inl ⟨r, hr, (Except.ok.inj h).symm⟩
  · rename_i hr
    split at h
    · cases h
    · rename_i hpack
      exact .inr ⟨hr, Option.not_isSome_iff_eq_none.1 hpack, (Except.ok.inj h).symm⟩

theorem shareChanges_ok {owner sharer : Bytes} : ∀ {found : List Found} {changes : List Change},
    shareChanges owner sharer found = .ok changes → (∀ f ∈ found, ∃ new, shareOne owner sharer f = .ok new ∧
      ∀ r, new = some r → ⟨f.id, f.refs, some r⟩ ∈ changes) ∧
    ∀ c ∈ changes, ∃ f ∈ found, ∃ r, shareOne owner sharer f = .ok (some r) ∧ c = ⟨f.id, f.refs, some r⟩ := by
  intro found
  induction found with
  | nil =>
    intro changes h
    cases h
    exact ⟨nofun, nofun⟩
  | cons f fs ih =>
    intro changes h
    unfold shareChanges at h
    split at h
    · cases h
    · rename_i new hnew
      split at h
      · cases h
      · rename_i rest hrest
        cases h
        obtain ⟨hfound, hchanges⟩ := ih hrest
        refine ⟨fun g hg => ?_, fun c hc => ?_⟩
        · rcases mem_cons.1 hg with rfl | hg
          · refine ⟨new, hnew, fun r hr => mem_append_left _ ?_⟩
            rw [hr]
            exact mem_singleton_self _
          · obtain ⟨new', hnew', hmem⟩ := hfound g hg
            exact ⟨new', hnew', fun r hr => mem_append_right _ (hmem r hr)⟩
        · rcases mem_append.1 hc with hc | hc
          · obtain ⟨r, hr, rfl⟩ := Option.map_eq_some_iff.1 (Option.mem_toList.1 hc)
            subst hr
            exact ⟨f, mem_cons_self, r, hnew, rfl⟩
          · obtain ⟨g, hg, r, hr, rfl⟩ := hchanges c hc
            exact ⟨g, mem_cons_of_mem _ hg, r, hr, rfl⟩

variable {referrer : Bytes} {found : List Found}

theorem mem_releaseChanges {c : Change} : c ∈ releaseChanges referrer found ↔
      ∃ f ∈ found, ∃ r, f.refs = some r ∧ referrer ∈ r ∧ c = ⟨f.id, f.refs, left referrer r⟩ := by
  rw [releaseChanges, mem_filterMap]
  constructor
  · rintro ⟨f, hf, h⟩
    split at h
    · rename_i r hr
      split at h
      · rename_i hmem
        exact ⟨f, hf, r, hr, hmem, (Option.some.inj h).symm⟩
      · cases h
    · cases h
  · rintro ⟨f, hf, r, hr, hmem, rfl⟩
    refine ⟨f, hf, ?_⟩
    rw [hr]
    exact if_pos hmem

theorem Found.last_iff :
    f.last referrer = true ↔ ∃ r, f.refs = some r ∧ referrer ∈ r ∧ left referrer r = none := by
  rw [Found.last, Option.any_eq_true]
  constructor
  · rintro ⟨r, hr, h⟩
    rw [Bool.and_eq_true, decide_eq_true_eq, Option.isNone_iff_eq_none] at h
    exact ⟨r, hr, h⟩
  · rintro ⟨r, hr, hmem, hleft⟩
    exact ⟨r, hr, by rw [hleft]; simpa using hmem⟩

theorem mem_releasePacks {c : PackChange} : c ∈ releasePacks referrer found ↔
      ∃ f ∈ found, ∃ record, f.pack = some record ∧ f.last referrer = true ∧ c = ⟨f.id, record, none⟩ := by
  rw [releasePacks, mem_filterMap]
  constructor
  · rintro ⟨f, hf, h⟩
    split at h
    · rename_i record hrecord
      split at h
      · rename_i hlast
        exact ⟨f, hf, record, hrecord, hlast, (Option.some.inj h).symm⟩
      · cases h
    · cases h
  · rintro ⟨f, hf, record, hrecord, hlast, rfl⟩
    refine ⟨f, hf, ?_⟩
    rw [hrecord]
    exact if_pos hlast

theorem mem_freeable : id ∈ freeable referrer found ↔
      ∃ f ∈ found, f.id = id ∧ f.pack = none ∧ (f.refs = none ∨ f.last referrer = true) := by
  simp only [freeable, mem_map, mem_filter, Bool.and_eq_true, Bool.or_eq_true, Option.isNone_iff_eq_none]
  constructor
  · rintro ⟨f, ⟨hf, hpack, hfree⟩, hid⟩
    exact ⟨f, hf, hid, hpack, hfree⟩
  · rintro ⟨f, hf, hid, hpack, hfree⟩
    exact ⟨f, ⟨hf, hpack, hfree⟩, hid⟩

/-! ## What the registry keeps -/

/-- An entry lists every holder; a stripe without one has one holder at most, the object that wrote it; a pack
without one, none; and what was freed is gone. -/
structure Registry (rows : Tables) (log : List (Entry Bytes Bytes)) : Prop where
  sound : Sound log
  listed : ∀ id r, refsOf rows id = some r → ∀ o ∈ holders log id, o ∈ r
  writer : ∀ id, refsOf rows id = none → packRecord rows id = none → ∃ w, ∀ o ∈ holders log id, o = w
  unsealed : ∀ id record, packRecord rows id = some record → refsOf rows id = none → holders log id = []
  freed : ∀ id, .free id ∈ log → refsOf rows id = none ∧ packRecord rows id = none ∧ holders log id = []

/-- What holds of the entry, pack record and holders of one stripe or pack. -/
structure Fits (refs : Option (List Bytes)) (pack : Option PackRecord) (held : List Bytes)
    (freed : Prop) : Prop where
  listed : ∀ r, refs = some r → ∀ o ∈ held, o ∈ r
  writer : refs = none → pack = none → ∃ w, ∀ o ∈ held, o = w
  unsealed : ∀ record, pack = some record → refs = none → held = []
  freed : freed → refs = none ∧ pack = none ∧ held = []

section Fits

variable {refs : Option (List Bytes)} {pack : Option PackRecord} {held held' : List Bytes}
  {freed freed' : Prop}

theorem Fits.gone (h : held = []) : Fits none none held freed where
  listed := nofun
  writer := fun _ _ => ⟨[], fun _ ho => absurd (h ▸ ho) not_mem_nil⟩
  unsealed := nofun
  freed := fun _ => ⟨rfl, rfl, h⟩

theorem Fits.entry {r : List Bytes} (h : ∀ o ∈ held, o ∈ r) (hfreed : ¬ freed) :
    Fits (some r) pack held freed where
  listed := fun _ hr => Option.some.inj hr ▸ h
  writer := nofun
  unsealed := nofun
  freed := fun hf => absurd hf hfreed

theorem Fits.grow (h : Fits refs pack held freed) (hheld : ∀ o ∈ held', o ∈ held ∨ o ∈ refs.getD [])
    (hfreed : freed' → freed) : Fits refs pack held' freed' := by
  cases refs with
  | some r =>
    refine .entry (fun o ho => ?_) fun hf => nomatch (h.freed (hfreed hf)).1
    rcases hheld o ho with ho | ho
    · exact h.listed r rfl o ho
    · exact ho
  | none =>
    have hsub : ∀ o ∈ held', o ∈ held := fun o ho => (hheld o ho).resolve_right not_mem_nil
    have hnil : held = [] → held' = [] := fun hnil =>
      eq_nil_iff_forall_not_mem.2 fun o ho => absurd (hnil ▸ hsub o ho) not_mem_nil
    refine ⟨nofun, fun hno hp => ?_, fun record hp hno => ?_, fun hf => ?_⟩
    · obtain ⟨w, hw⟩ := h.writer hno hp
      exact ⟨w, fun o ho => hw o (hsub o ho)⟩
    · exact hnil (h.unsealed record hp hno)
    · obtain ⟨hno, hp, hnone⟩ := h.freed (hfreed hf)
      exact ⟨hno, hp, hnil hnone⟩

theorem Fits.setPack (h : Fits refs (some old) held freed) (new : Option PackRecord) :
    Fits refs new held freed where
  listed := h.listed
  writer := fun hno _ => ⟨[], fun _ ho => absurd (h.unsealed old rfl hno ▸ ho) not_mem_nil⟩
  unsealed := fun _ _ hno => h.unsealed old rfl hno
  freed := fun hf => nomatch (h.freed hf).2.1

end Fits

variable {rows : Tables} {log : List (Entry Bytes Bytes)} {found : List Found}

theorem Registry.fits (h : Registry rows log) (id : Bytes) :
    Fits (refsOf rows id) (packRecord rows id) (holders log id) (.free id ∈ log) :=
  ⟨h.listed id, h.writer id, h.unsealed id, h.freed id⟩

theorem Registry.of_fits (hsound : Sound log)
    (h : ∀ id, Fits (refsOf rows id) (packRecord rows id) (holders log id) (.free id ∈ log)) :
    Registry rows log :=
  ⟨hsound, fun id => (h id).listed, fun id => (h id).writer, fun id => (h id).unsealed,
    fun id => (h id).freed⟩

section Share

variable {owner sharer : Bytes} {changes : List Change}

theorem share_live (hplan : shareChanges owner sharer found = .ok changes)
    (hexpected : Expected rows ⟨changes, []⟩)
    (hcare : ∀ f ∈ found, (f.refs = none → owner ∈ holders log f.id) ∧
      (sharer ∈ f.refs.getD [] → sharer ∈ (refsOf rows f.id).getD [])) (hf : f ∈ found) :
    refsOf rows f.id ≠ none ∨ owner ∈ holders log f.id := by
  obtain ⟨new, hnew, hchange⟩ := (shareChanges_ok hplan).1 f hf
  rcases shareOne_ok hnew with ⟨r, hr, rfl⟩ | ⟨hr, -, -⟩
  · left
    by_cases hmem : sharer ∈ r
    · have hlisted := (hcare f hf).2 (by rw [hr]; exact hmem)
      intro hnone
      rw [hnone] at hlisted
      cases hlisted
    · have hfound := hexpected.found (hchange (r ++ [sharer]) (if_neg hmem))
      intro hnone
      rw [hnone, hr] at hfound
      cases hfound
  · exact .inr ((hcare f hf).1 hr)

/-- A call that takes care keeps the registry in order. -/
theorem Registry.share (hreg : Registry rows log) (hplan : shareChanges owner sharer found = .ok changes)
    (hexpected : Expected rows ⟨changes, []⟩)
    (hcare : ∀ f ∈ found, (f.refs = none → owner ∈ holders log f.id) ∧
      (sharer ∈ f.refs.getD [] → sharer ∈ (refsOf rows f.id).getD []))
    (hpacks : ∀ f ∈ found, f.pack = none → packRecord rows f.id = none) :
    Registry (written rows ⟨changes, []⟩) (log ++ found.map fun f => .take f.id sharer) ∧
      ∀ f ∈ found, .free f.id ∉ log := by
  have hlive : ∀ f ∈ found, .free f.id ∉ log := by
    intro f hf hfree
    obtain ⟨hrefs, -, hholders⟩ := hreg.freed f.id hfree
    rcases share_live hplan hexpected hcare hf with hsome | howner
    · exact hsome hrefs
    · rw [hholders] at howner
      cases howner
  have hpack : ∀ id, packRecord (written rows ⟨changes, []⟩) id = packRecord rows id := by
    intro id
    rcases packRecord_written hexpected id with ⟨c, hc, -⟩ | ⟨-, hsame⟩
    · cases hc
    · exact hsame
  -- A stripe whose entry the share leaves: the sharer is listed, or is the owner.
  have hleft : ∀ {f}, f ∈ found → (∀ c ∈ changes, c.id ≠ f.id) →
      sharer ∈ (refsOf rows f.id).getD [] ∨ sharer ∈ holders log f.id := by
    intro f hf hno
    obtain ⟨new, hnew, hchange⟩ := (shareChanges_ok hplan).1 f hf
    rcases shareOne_ok hnew with ⟨r, hr, rfl⟩ | ⟨hr, -, rfl⟩
    · by_cases hmem : sharer ∈ r
      · exact .inl ((hcare f hf).2 (by rw [hr]; exact hmem))
      · exact absurd rfl (hno _ (hchange (r ++ [sharer]) (if_neg hmem)))
    · by_cases heq : sharer = owner
      · subst heq
        exact .inr ((hcare f hf).1 hr)
      · exact absurd rfl (hno _ (hchange [owner, sharer] (if_neg heq)))
  refine ⟨.of_fits (hreg.sound.takes hlive) fun id => ?_, hlive⟩
  rw [hpack]
  -- A holder held the stripe before, or it is the sharer.
  rcases refsOf_written hexpected id with ⟨c, hc, rfl, hwas, hnow⟩ | ⟨hno, hsame⟩
  · obtain ⟨f, hf, new, hnew, rfl⟩ := (shareChanges_ok hplan).2 c hc
    rw [hnow]
    refine .entry (fun o ho => ?_) fun hfree => hlive f hf (free_mem_takes.1 hfree)
    rcases shareOne_ok hnew with ⟨old, hold, heq⟩ | ⟨hnone, hpackf, heq⟩
    · split at heq
      · cases heq
      · cases heq
        rcases mem_holders_takes.1 ho with ho | ⟨-, -, -, rfl⟩
        · exact mem_append_left _ (hreg.listed f.id old (hwas.trans hold) o ho)
        · simp
    · split at heq
      · cases heq
      · cases heq
        obtain ⟨w, hw⟩ := hreg.writer f.id (hwas.trans hnone) (hpacks f hf hpackf)
        rcases mem_holders_takes.1 ho with ho | ⟨-, -, -, rfl⟩
        · rw [hw o ho, ← hw owner ((hcare f hf).1 hnone)]
          exact mem_cons_self
        · simp
  · rw [hsame]
    refine (hreg.fits id).grow (fun o ho => ?_) free_mem_takes.1
    rcases mem_holders_takes.1 ho with ho | ⟨f, hf, rfl, rfl⟩
    · exact .inl ho
    · exact (hleft hf hno).symm

end Share

section Release

variable {referrer : Bytes}

def releasePlan (referrer : Bytes) (found : List Found) : Plan :=
  ⟨releaseChanges referrer found, releasePacks referrer found⟩

theorem last_gone (hreg : Registry rows log) (hexpected : Expected rows (releasePlan referrer found))
    (hf : f ∈ found) (hlast : f.last referrer = true) :
    refsOf (written rows (releasePlan referrer found)) f.id = none ∧
      ∀ o ∈ holders log f.id, o = referrer := by
  obtain ⟨r, hr, hmem, hleft⟩ := Found.last_iff.1 hlast
  have hchange : ⟨f.id, f.refs, left referrer r⟩ ∈ releaseChanges referrer found :=
    mem_releaseChanges.2 ⟨f, hf, r, hr, hmem, rfl⟩
  have hwas : refsOf rows f.id = some r := (hexpected.found hchange).trans hr
  constructor
  · rcases refsOf_written hexpected f.id with ⟨c, hc, -, hfound, hnow⟩ | ⟨hno, -⟩
    · obtain ⟨g, -, r', hr', -, rfl⟩ := mem_releaseChanges.1 hc
      rw [hwas, hr'] at hfound
      cases hfound
      rw [hnow, hleft]
    · exact absurd rfl (hno _ hchange)
  · intro o ho
    exact left_eq_none hleft o (hreg.listed f.id r hwas o ho)

theorem Registry.release (hreg : Registry rows log) (hexpected : Expected rows (releasePlan referrer found))
    (hcare : ∀ f ∈ found, f.refs = none → f.pack = none →
      refsOf rows f.id = none ∧ ∀ o ∈ holders log f.id, o = referrer)
    (hpacks : ∀ f ∈ found, f.pack = none → packRecord rows f.id = none) (ids : List Bytes) :
    Registry (written rows (releasePlan referrer found)) (log ++ effects (.release referrer ids) found) := by
  have hlog : log ++ effects (.release referrer ids) found =
      (log ++ found.map fun f => .drop f.id referrer) ++ (freeable referrer found ++
        (releasePacks referrer found).map PackChange.id).map .free := by
    rw [effects, append_assoc]
  have hnobody : ∀ {f}, f ∈ found → (∀ o ∈ holders log f.id, o = referrer) →
      holders (log ++ found.map fun f => .drop f.id referrer) f.id = [] := by
    intro f hf honly
    refine eq_nil_iff_forall_not_mem.2 fun o ho => ?_
    obtain ⟨ho, hne⟩ := mem_holders_drops.1 ho
    exact hne f hf rfl (honly o ho).symm
  -- What is freed has no entry, no record and no holder left.
  have hgone : ∀ id ∈ freeable referrer found ++ (releasePacks referrer found).map PackChange.id,
      refsOf (written rows (releasePlan referrer found)) id = none ∧
      packRecord (written rows (releasePlan referrer found)) id = none ∧
      holders (log ++ found.map fun f => .drop f.id referrer) id = [] := by
    intro id hid
    rcases mem_append.1 hid with hid | hid
    · obtain ⟨f, hf, rfl, hpack, hfree⟩ := mem_freeable.1 hid
      have hnopack := packRecord_written_none hexpected (hpacks f hf hpack)
      rcases hfree with hnone | hlast
      · obtain ⟨hrefs, honly⟩ := hcare f hf hnone hpack
        refine ⟨?_, hnopack, hnobody hf honly⟩
        rcases refsOf_written hexpected f.id with ⟨c, hc, -, hfound, -⟩ | ⟨-, hsame⟩
        · obtain ⟨g, -, r, hr, -, rfl⟩ := mem_releaseChanges.1 hc
          rw [hrefs, hr] at hfound
          cases hfound
        · rw [hsame, hrefs]
      · obtain ⟨hrefs, honly⟩ := last_gone hreg hexpected hf hlast
        exact ⟨hrefs, hnopack, hnobody hf honly⟩
    · obtain ⟨c, hc, rfl⟩ := mem_map.1 hid
      obtain ⟨f, hf, record, hrecord, hlast, rfl⟩ := mem_releasePacks.1 hc
      obtain ⟨hrefs, honly⟩ := last_gone hreg hexpected hf hlast
      refine ⟨hrefs, ?_, hnobody hf honly⟩
      rcases packRecord_written hexpected f.id with ⟨c', hc', -, -, hnow⟩ | ⟨hno, -⟩
      · obtain ⟨g, -, record', -, -, rfl⟩ := mem_releasePacks.1 hc'
        exact hnow
      · exact absurd rfl (hno _ hc)
  rw [hlog]
  refine .of_fits (hreg.sound.drops.frees fun id hid => (hgone id hid).2.2) fun id => ?_
  rw [holders_frees]
  by_cases hfreed : id ∈ freeable referrer found ++ (releasePacks referrer found).map PackChange.id
  · obtain ⟨hrefs, hpack, hheld⟩ := hgone id hfreed
    rw [hrefs, hpack]
    exact .gone hheld
  -- Not freed: the pack's record stays, and so does an entry.
  have hnopack : ∀ c ∈ releasePacks referrer found, c.id ≠ id := by
    rintro c hc rfl
    exact hfreed (mem_append_right _ (mem_map_of_mem hc))
  have hpack : packRecord (written rows (releasePlan referrer found)) id = packRecord rows id := by
    rcases packRecord_written hexpected id with ⟨c, hc, hid, -⟩ | ⟨-, hsame⟩
    · exact absurd hid (hnopack c hc)
    · exact hsame
  have hbefore : (.free id : Entry Bytes Bytes) ∈ (log ++ found.map fun f => .drop f.id referrer) ++
      (freeable referrer found ++ (releasePacks referrer found).map PackChange.id).map .free →
        .free id ∈ log := by
    intro hfree
    rcases mem_append.1 hfree with hfree | hfree
    · exact free_mem_drops.1 hfree
    · obtain ⟨id', hid', heq⟩ := mem_map.1 hfree
      cases heq
      exact absurd hid' hfreed
  rw [hpack]
  rcases refsOf_written hexpected id with ⟨c, hc, rfl, hwas, hnow⟩ | ⟨-, hsame⟩
  · obtain ⟨f, hf, old, hold, hmem, rfl⟩ := mem_releaseChanges.1 hc
    cases hleft : left referrer old with
    | none =>
      have hlast : f.last referrer = true := Found.last_iff.2 ⟨old, hold, hmem, hleft⟩
      cases hrecord : f.pack with
      | none => exact absurd (mem_append_left _ (mem_freeable.2 ⟨f, hf, rfl, hrecord, .inr hlast⟩)) hfreed
      | some record => exact absurd rfl (hnopack _ (mem_releasePacks.2 ⟨f, hf, record, hrecord, hlast, rfl⟩))
    | some r =>
      rw [hnow, hleft]
      refine .entry (fun o ho => ?_) fun hfree => ?_
      · obtain ⟨ho, hne⟩ := mem_holders_drops.1 ho
        exact ((left_eq_some hleft).1 o).2
          ⟨hreg.listed f.id old (hwas.trans hold) o ho, (hne f hf rfl).symm⟩
      · rw [(hreg.freed f.id (hbefore hfree)).1, hold] at hwas
        cases hwas
  · rw [hsame]
    exact (hreg.fits id).grow (fun o ho => .inl (mem_holders_drops.1 ho).1) hbefore

end Release

theorem sealRecord_ok {stripe : Option StripeMeta} {new : PackRecord}
    (h : sealRecord stripe f = .ok (old, new)) : f.refs = none := by
  unfold sealRecord at h
  split at h
  · cases h
  · rename_i record hrecord
    split at h
    · cases h
    · split at h
      · cases h
      · split at h
        · cases h
        · rename_i hrefs
          cases h
          exact Option.not_isSome_iff_eq_none.1 hrefs

theorem Registry.sealPack (hreg : Registry rows log) {referrers : List Bytes} {new : PackRecord}
    (hexpected : Expected rows ⟨[⟨id, none, some referrers⟩], [⟨id, old, some new⟩]⟩) :
    Registry (written rows ⟨[⟨id, none, some referrers⟩], [⟨id, old, some new⟩]⟩)
      (log ++ referrers.map fun o => .take id o) := by
  have hrefs : refsOf rows id = none := hexpected.found mem_cons_self
  have hpack : packRecord rows id = some old := hexpected.pack mem_cons_self
  have hnobody := hreg.unsealed id old hpack hrefs
  have hlive : .free id ∉ log := by
    intro hfree
    rw [(hreg.freed id hfree).2.1] at hpack
    cases hpack
  have hnow : refsOf (written rows ⟨[⟨id, none, some referrers⟩], [⟨id, old, some new⟩]⟩) id =
      some referrers := by
    rcases refsOf_written hexpected id with ⟨c, hc, -, -, hnow⟩ | ⟨hno, -⟩
    · rw [hnow, mem_singleton.1 hc]
    · exact absurd rfl (hno _ mem_cons_self)
  have hsame : ∀ {id'}, id' ≠ id →
      refsOf (written rows ⟨[⟨id, none, some referrers⟩], [⟨id, old, some new⟩]⟩) id' = refsOf rows id' := by
    intro id' hne
    rcases refsOf_written hexpected id' with ⟨c, hc, hid, -⟩ | ⟨-, hsame⟩
    · rw [mem_singleton.1 hc] at hid
      exact absurd hid.symm hne
    · exact hsame
  have hsamePack : ∀ {id'}, id' ≠ id →
      packRecord (written rows ⟨[⟨id, none, some referrers⟩], [⟨id, old, some new⟩]⟩) id' =
        packRecord rows id' := by
    intro id' hne
    rcases packRecord_written hexpected id' with ⟨c, hc, hid, -⟩ | ⟨-, hsame⟩
    · rw [mem_singleton.1 hc] at hid
      exact absurd hid.symm hne
    · exact hsame
  refine .of_fits (hreg.sound.takes fun _ _ => hlive) fun id' => ?_
  by_cases hid : id' = id
  · subst hid
    rw [hnow]
    refine .entry (fun o ho => ?_) fun hfree => hlive (free_mem_takes.1 hfree)
    rcases mem_holders_takes.1 ho with ho | ⟨o', ho', -, rfl⟩
    · rw [hnobody] at ho
      cases ho
    · exact ho'
  · rw [hsame hid, hsamePack hid]
    refine (hreg.fits id').grow (fun o ho => .inl ?_) free_mem_takes.1
    exact (mem_holders_takes.1 ho).resolve_right fun ⟨_, _, heq, _⟩ => hid heq.symm

end IoLake.Meta.StripeRefs
