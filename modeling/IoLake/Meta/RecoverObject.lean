import IoLake.Meta.Listing

/-!
# Recovering one object

`recover_object` brings the newest entry of one name to the acting members that answered the listing.  A
delete goes to the members that still have an object.  An object's copy is read from a member that holds it,
every shard not in place is written to the member at its position, and the metadata goes to the members
behind.

What an OSD answers, and whether the bytes of a stripe's missing shards could be had, is `ObjectEnv`.
-/

namespace IoLake.Meta

open Proto Osd Gateway List Bool

/-! ## The model -/

inductive Outcome where
  | done
  /-- A position whose member can't be used is left. -/
  | partly
  | changed
  | unfound (stripeId good needed : Nat)
  | failed (why : String)
deriving DecidableEq, Repr

inductive RebuildError where
  | tooFew (good : Nat)
  | other (why : String)
deriving DecidableEq, Repr

/-- What recovery meets on one object: an error, if any, of each call to each OSD, why the bytes of a stripe's
shards could not be had, whether the registry lets the shards written for an object replaced meanwhile go, and
the time. -/
structure ObjectEnv where
  reads : OsdId → Option String
  checks : OsdId → Option String
  writes : OsdId → Option String
  puts : OsdId → Option String
  states : OsdId → Option String
  rebuild : Nat → Option RebuildError
  freed : Bool
  address : OsdId → String
  wall : Nat

abbrev Copies := OsdId → GroupCopy

def Copies.modify (copies : Copies) (id : OsdId) (f : GroupCopy → GroupCopy) : Copies :=
  fun x => if x = id then f (copies x) else copies x

def Copies.slot (copies : Copies) (id : OsdId) (name : EntryName) : Slot := (copies id).slot name

section
variable (acting : List OsdId) (stripe : StripeMeta)

/-- Whether recovery rebuilds a stripe: the object's own, with shards to rebuild from. -/
def recoverable : Bool :=
  stripe.packId == [] && 0 < stripe.ecK && 0 < stripe.ecM

def located (position : Nat) : Option ShardLocation :=
  (stripe.shards.filter (fun l => l.position == position)).getLast?

def namedThere (position : Nat) : Bool :=
  (located stripe position).any (fun l => acting[position]? = some l.nodeId)

def relocate (moved : List (Nat × OsdId)) : StripeMeta :=
  let kept := stripe.shards.filter (fun l => l.position ∉ moved.map Prod.fst)
  let new : List ShardLocation := moved.map fun m => { position := m.1, nodeId := m.2 }
  { stripe with shards := (kept ++ new).insertionSort (fun a b => a.position ≤ b.position) }

end

def writeShards (env : ObjectEnv) (object : ObjectMeta) (stripe : StripeMeta) :
    List (Nat × OsdId) → Copies → Copies × Option String
  | [], copies => (copies, none)
  | m :: rest, copies =>
    match env.writes m.2 with
    | some e =>
      (copies, some ("writing position " ++ toString m.1 ++ " to " ++ env.address m.2 ++ ": " ++ e))
    | none =>
      writeShards env object stripe rest (copies.modify m.2 fun c =>
        { c with shards := shardId object stripe m.1 :: c.shards })

structure StripeWork where
  stripe : StripeMeta
  written : List (Nat × OsdId)
  small : Bool
  leftOut : Bool

section
variable (env : ObjectEnv) (acting : List OsdId) (members : List (Option OsdId)) (object : ObjectMeta)
  (stripe : StripeMeta)

def askedOf :
    List (Nat × OsdId) :=
  (range (min (stripe.ecK + stripe.ecM) members.length)).filterMap fun p =>
    if namedThere acting stripe p then members[p]?.join.map (p, ·) else none

def wantedOf (copies : Copies) : List (Nat × OsdId) :=
  let inPlace := ((askedOf acting members stripe).filter fun a =>
    shardId object stripe a.1 ∈ (copies a.2).shards).map Prod.fst
  (range (min (stripe.ecK + stripe.ecM) acting.length)).filterMap fun p =>
    if p ∈ inPlace then none else members[p]?.join.map (p, ·)

def recoverStripe (si : Nat) (stripe : StripeMeta) (copies : Copies) :
    Copies × Except Outcome StripeWork :=
  if !recoverable stripe then (copies, .ok ⟨stripe, [], false, false⟩)
  else
    let leftOut := (range (min (stripe.ecK + stripe.ecM) members.length)).any fun p =>
      members[p]? = some none ∧ ¬ namedThere acting stripe p
    match (askedOf acting members stripe).findSome? (fun a => (env.checks a.2).map (a.2, ·)) with
    | some (m, e) => (copies, .error (.failed ("checking shards on " ++ env.address m ++ ": " ++ e)))
    | none =>
      let wanted := wantedOf acting members object stripe copies
      if wanted = [] then (copies, .ok ⟨stripe, [], false, leftOut⟩)
      else
        match env.rebuild si with
        | some (.tooFew good) => (copies, .error (.unfound stripe.stripeId good stripe.ecK))
        | some (.other why) => (copies, .error (.failed why))
        | none =>
          if si = 0 ∧ stripe.shardsInMetadata then
            (copies, .ok ⟨relocate stripe wanted, wanted, true, leftOut⟩)
          else
            let (copies, why) := writeShards env object stripe wanted copies
            match why with
            | some why => (copies, .error (.failed why))
            | none => (copies, .ok ⟨relocate stripe wanted, wanted, false, leftOut⟩)

end

def recoverStripes (env : ObjectEnv) (acting : List OsdId) (members : List (Option OsdId))
    (object : ObjectMeta) : Nat → List StripeMeta → Copies → Copies × Except Outcome (List StripeWork)
  | _, [], copies => (copies, .ok [])
  | si, stripe :: stripes, copies =>
    match recoverStripe env acting members object si stripe copies with
    | (copies, .error o) => (copies, .error o)
    | (copies, .ok work) =>
      match recoverStripes env acting members object (si + 1) stripes copies with
      | (copies, .error o) => (copies, .error o)
      | (copies, .ok works) => (copies, .ok (work :: works))

inductive Loaded where
  | changed
  | missing
  | found (object : ObjectMeta)
deriving DecidableEq, Repr

def newestCopy (env : ObjectEnv) (copies : Copies) (w : Work) : List OsdId → Loaded
  | [] => .missing
  | holder :: holders =>
    match env.reads holder, (copies.slot holder w.name).object with
    | none, some o =>
      let listed : WriteOrder := toLex (w.newest.stamp, toLex (w.newest.objectId, w.newest.updateStamp))
      if listed < o.writeOrder then .changed
      else if o.writeOrder = listed then .found o
      else newestCopy env copies w holders
    | _, _ => newestCopy env copies w holders

def applyDeletes (env : ObjectEnv) (members : List (Option OsdId)) (w : Work) :
    List Nat → Copies → Outcome → Copies × Outcome
  | [], copies, outcome => (copies, outcome)
  | p :: ps, copies, outcome =>
    match members[p]?.join with
    | none => applyDeletes env members w ps copies .partly
    | some m =>
      match env.puts m with
      | some e => applyDeletes env members w ps copies
          (.failed ("delete on " ++ env.address m ++ ": " ++ e))
      | none => applyDeletes env members w ps (copies.modify m fun c =>
          c.setSlot w.name ((c.slot w.name).delete w.newest.stamp)) outcome

/-- The copies, how it went, how many members were asked, and how many had a newer stamp. -/
structure Put where
  copies : Copies
  outcome : Outcome
  asked : Nat
  newer : Nat

section
variable (env : ObjectEnv) (acting : List OsdId) (members : List (Option OsdId)) (name : EntryName)
  (object : ObjectMeta) (works : List StripeWork) (small : List ShardId) (put : Put)

def putOne (c : GroupCopy) : GroupCopy :=
  if (c.slot name).supersedes object then c
  else { c.setSlot name ((c.slot name).put object) with shards := small ++ c.shards }

def Put.ask (m : OsdId) : Put :=
  match env.puts m with
  | some e => { put with
      outcome := .failed ("metadata to " ++ env.address m ++ ": " ++ e), asked := put.asked + 1 }
  | none =>
    let held := put.copies.slot m name
    { put with
      copies := put.copies.modify m (putOne name object small)
      asked := put.asked + 1
      newer := put.newer + if held.supersedes object ∧ object.stamp < held.heldStamp then 1 else 0 }

def putObject (env : ObjectEnv) (members : List (Option OsdId)) (name : EntryName)
    (object : ObjectMeta) (small : Nat → List ShardId) : List Nat → Put → Put
  | [], put => put
  | p :: ps, put =>
    match members[p]?.join with
    | none => putObject env members name object small ps put
    | some m => putObject env members name object small ps (put.ask env name object (small p) m)

/-- Whether every copy at these positions answers and has another object, or none. -/
def heldNowhere
    (objectId : Bytes) (copies : Copies) (positions : List Nat) : Bool :=
  (positions.filterMap fun p => members[p]?.join).all fun m =>
    (env.states m).isNone && !((copies.slot m name).object.any fun o => o.objectId == objectId)

def freeWritten (copies : Copies) : Copies :=
  fun id => { copies id with
    shards := (copies id).shards.filter fun s =>
      !works.any fun w => !w.small && w.written.any fun m => m.2 = id ∧ s = shardId object w.stripe m.1 }

def newOwner : Option OsdId :=
  if object.usageOwner ∈ acting then none else (members.filterMap id).head?

def changes : Bool :=
  works.any (fun w => !w.written.isEmpty) || (newOwner acting members object).isSome

/-- Its stripes where its shards now are, counted by an acting member, and if anything changed a new update.
-/
def updated (clock : Clock) : ObjectMeta :=
  { object with
    stripes := works.map (·.stripe)
    usageOwner := (newOwner acting members object).getD object.usageOwner
    updateStamp := if changes acting members object works then clock.nextAfter object.updateStamp
      else object.updateStamp }

def smallShards (p : Nat) : List ShardId :=
  (works.filter fun w => w.small && p ∈ w.written.map Prod.fst).map fun w => shardId object w.stripe p

end

structure Recovered where
  copies : Copies
  clock : Nat
  outcome : Outcome

section
variable (env : ObjectEnv) (acting : List OsdId) (members : List (Option OsdId)) (w : Work)
  (object : ObjectMeta) (works : List StripeWork) (copies : Copies) (clock : Nat)

def recipients : List Nat :=
  if changes acting members object works then range acting.length else w.behind

def placed : Put :=
  let outcome := if works.any (·.leftOut) || w.behind.any (fun p => members[p]?.join.isNone)
    then Outcome.partly else .done
  putObject env members w.name (updated acting members object works ⟨clock, env.wall⟩)
    (smallShards object works) (recipients acting members w object works) ⟨copies, outcome, 0, 0⟩

/-- Where every member has a newer write and none the object, what was written for it goes again. -/
def placeObject : Recovered :=
  let put := placed env acting members w object works copies clock
  let clock := if changes acting members object works
    then (updated acting members object works ⟨clock, env.wall⟩).updateStamp else clock
  if 0 < put.asked ∧ put.newer = put.asked ∧ works.any (fun w => !w.written.isEmpty) ∧
      heldNowhere env members w.name object.objectId put.copies
        (recipients acting members w object works) then
    ⟨if env.freed then freeWritten object works put.copies else put.copies, clock, .changed⟩
  else ⟨put.copies, clock, put.outcome⟩

def recoverObject : Recovered :=
  if w.newest.tombstone then
    let (copies, outcome) := applyDeletes env members w w.behind copies .done
    ⟨copies, clock, outcome⟩
  else
    match newestCopy env copies w w.holders with
    | .changed => ⟨copies, clock, .changed⟩
    | .missing => ⟨copies, clock, .failed "no member holding its newest copy answered"⟩
    | .found object =>
      match recoverStripes env acting members object 0 object.stripes copies with
      | (copies, .error outcome) => ⟨copies, clock, outcome⟩
      | (copies, .ok works) => placeObject env acting members w object works copies clock

end

/-! ## Slots -/

section
variable {copies : Copies} {id id' : OsdId} {name name' : EntryName} (f : GroupCopy → GroupCopy)

@[simp] theorem modify_self : copies.modify id f id = f (copies id) := by
  rw [Copies.modify, if_pos rfl]

theorem modify_other (h : id' ≠ id) : copies.modify id f id' = copies id' := by
  rw [Copies.modify, if_neg h]

theorem slot_modify_of (h : ∀ c, (f c).slots = c.slots) :
    (copies.modify id f).slot id' name = copies.slot id' name := by
  rw [Copies.slot, Copies.slot, GroupCopy.slot, GroupCopy.slot]
  by_cases hid : id' = id
  · subst hid
    rw [modify_self, h]
  · rw [modify_other f hid]

theorem Slot.supersedes_put (s : Slot) (o : ObjectMeta) : (s.put o).supersedes o = s.supersedes o := by
  cases h : s.supersedes o with
  | true => rw [put_of_supersedes h, h]
  | false =>
    refine eq_false_iff.2 fun h0 => ?_
    rcases supersedes_iff.1 h0 with ⟨c, hc, hlt⟩ | hle
    · rw [put_object h] at hc
      cases hc
      exact lt_irrefl _ hlt
    · rw [put_tombstone] at hle
      exact false_ne_true (h.symm.trans (supersedes_iff.2 (.inr hle)))

theorem Slot.put_put (s : Slot) (o : ObjectMeta) : (s.put o).put o = s.put o := by
  cases h : s.supersedes o with
  | true => rw [put_of_supersedes h, put_of_supersedes h]
  | false =>
    have hnot := (s.supersedes_put o).trans h
    exact Slot.ext ((put_object hnot).trans (put_object h).symm) put_tombstone

theorem Slot.delete_delete (s : Slot) (stamp : Nat) : (s.delete stamp).delete stamp = s.delete stamp := by
  by_cases h : s.object.any (fun o => decide (stamp < o.stamp)) = true
  · rw [show s.delete stamp = s from if_pos h, show s.delete stamp = s from if_pos h]
  · have hs : s.delete stamp = ⟨none, max s.tombstone stamp, by simp⟩ := if_neg h
    rw [hs]
    exact Slot.ext rfl (max_eq_left (le_max_right _ _))

end

/-- Nothing was lost: what `b` has of slots is what `a` has, and it holds every shard `a` holds. -/
structure Copies.Shards (a b : Copies) : Prop where
  slots : ∀ id, (b id).slots = (a id).slots
  held : ∀ id, (a id).shards ⊆ (b id).shards

namespace Copies.Shards

variable {a b c : Copies}

theorem refl (a : Copies) : Shards a a := ⟨fun _ => rfl, fun _ => List.Subset.refl _⟩

theorem trans (hab : Shards a b) (hbc : Shards b c) : Shards a c :=
  ⟨fun id => (hbc.slots id).trans (hab.slots id), fun id => List.Subset.trans (hab.held id) (hbc.held id)⟩

theorem slot (h : Shards a b) (id : OsdId) (name : EntryName) : b.slot id name = a.slot id name := by
  rw [Copies.slot, Copies.slot, GroupCopy.slot, GroupCopy.slot, h.slots id]

theorem store (a : Copies) (id : OsdId) (s : ShardId) :
    Shards a (a.modify id fun c => { c with shards := s :: c.shards }) := by
  constructor
  · intro x
    by_cases hx : x = id
    · subst hx
      rw [modify_self]
    · rw [modify_other _ hx]
  · intro x
    by_cases hx : x = id
    · subst hx
      rw [modify_self]
      exact subset_cons_self _ _
    · rw [modify_other _ hx]
      exact List.Subset.refl _

end Copies.Shards

/-! ## Stripes -/

def skeleton (stripe : StripeMeta) : StripeMeta := { stripe with shards := [] }

variable {o : ObjectMeta} {p : Nat} {copies' : Copies} {α : Type} {works : List StripeWork}

theorem shardId_congr {o' : ObjectMeta} {s s' : StripeMeta} (ho : o.objectId = o'.objectId)
    (hs : skeleton s = skeleton s') (p : Nat) : shardId o s p = shardId o' s' p := by
  have hid : (skeleton s).objectId = (skeleton s').objectId := by rw [hs]
  have hstripe : (skeleton s).stripeId = (skeleton s').stripeId := by rw [hs]
  rw [skeleton, skeleton] at hid hstripe
  rw [shardId, shardId, shardObject, shardObject, ho, hid, hstripe]

variable {id : OsdId}

section
variable (env : ObjectEnv) (acting : List OsdId) (members : List (Option OsdId)) (object : ObjectMeta)

theorem writeShards_spec (stripe : StripeMeta) (to_ : List (Nat × OsdId)) : ∀ copies : Copies,
    copies.Shards (writeShards env object stripe to_ copies).1 ∧
      ((writeShards env object stripe to_ copies).2 = none → ∀ m ∈ to_,
        shardId object stripe m.1 ∈ ((writeShards env object stripe to_ copies).1 m.2).shards) := by
  induction to_ with
  | nil => exact fun copies => ⟨.refl copies, nofun⟩
  | cons m rest ih =>
    intro copies
    rw [writeShards]
    cases env.writes m.2 with
    | some e => exact ⟨.refl copies, nofun⟩
    | none =>
      have hstore := Copies.Shards.store copies m.2 (shardId object stripe m.1)
      obtain ⟨hkeep, hheld⟩ := ih (copies.modify m.2 fun c =>
        { c with shards := shardId object stripe m.1 :: c.shards })
      refine ⟨hstore.trans hkeep, fun hok x hx => ?_⟩
      rcases mem_cons.1 hx with rfl | hx
      · apply hkeep.held
        rw [modify_self]
        exact mem_cons_self
      · exact hheld hok x hx

variable {acting members object} {stripe : StripeMeta} {copies : Copies}

theorem held_or_wanted (hlt : p < stripe.ecK + stripe.ecM)
    (hacting : p < acting.length) (hp : members[p]? = some (some id)) :
    shardId object stripe p ∈ (copies id).shards ∨
      (p, id) ∈ wantedOf acting members object stripe copies := by
  by_cases hin : p ∈ ((askedOf acting members stripe).filter fun a =>
      shardId object stripe a.1 ∈ (copies a.2).shards).map Prod.fst
  · left
    obtain ⟨a, ha, rfl⟩ := mem_map.1 hin
    obtain ⟨hasked, hheld⟩ := mem_filter.1 ha
    obtain ⟨q, -, hq⟩ := mem_filterMap.1 hasked
    split at hq
    · obtain ⟨m, hm, rfl⟩ := Option.map_eq_some_iff.1 hq
      rw [hp] at hm
      cases hm
      exact of_decide_eq_true hheld
    · cases hq
  · right
    refine mem_filterMap.2 ⟨p, mem_range.2 (by omega), ?_⟩
    rw [if_neg hin, hp]
    rfl

def Outcome.settled : Outcome → Bool
  | .done | .partly => true
  | .changed | .unfound .. | .failed _ => false

/-- What recovering a stripe leaves: every member that answered has its shard, or has it with the
metadata to come. -/
structure StripeDone (acting : List OsdId) (members : List (Option OsdId)) (object : ObjectMeta)
    (stripe : StripeMeta) (copies : Copies) (work : StripeWork) : Prop where
  skeleton : skeleton work.stripe = skeleton stripe
  held : recoverable stripe = true → ∀ p id, p < stripe.ecK + stripe.ecM → p < acting.length →
    members[p]? = some (some id) → shardId object stripe p ∈ (copies id).shards ∨
      work.small = true ∧ p ∈ work.written.map Prod.fst

theorem StripeDone.mono {work : StripeWork}
    (h : StripeDone acting members object stripe copies work) (hkeep : copies.Shards copies') :
    StripeDone acting members object stripe copies' work := by
  refine ⟨h.skeleton, fun hrec p id hlt hacting hp => ?_⟩
  exact (h.held hrec p id hlt hacting hp).imp_left fun hheld => hkeep.held id hheld

structure StripesRun {α : Type} (copies : Copies) (r : Copies × Except Outcome α)
    (ok : Copies → α → Prop) : Prop where
  keep : copies.Shards r.1
  error : ∀ o, r.2 = .error o → o.settled = false
  ok : ∀ a, r.2 = .ok a → ok r.1 a

theorem StripesRun.stop {ok : Copies → α → Prop} {o : Outcome}
    (h : copies.Shards copies') (ho : o.settled = false) : StripesRun copies (copies', .error o) ok := by
  refine ⟨h, fun o' h' => ?_, nofun⟩
  cases h'
  exact ho

theorem StripesRun.done {ok : Copies → α → Prop} {a : α}
    (h : copies.Shards copies') (ha : ok copies' a) : StripesRun copies (copies', .ok a) ok := by
  refine ⟨h, (nofun), fun a' h' => ?_⟩
  cases h'
  exact ha

variable (acting members object stripe copies)

theorem recoverStripe_spec (si : Nat) :
    StripesRun copies (recoverStripe env acting members object si stripe copies)
      (StripeDone acting members object stripe) := by
  have hwanted : ∀ {p id}, p < stripe.ecK + stripe.ecM → p < acting.length →
      members[p]? = some (some id) → shardId object stripe p ∈ (copies id).shards ∨
        (p, id) ∈ wantedOf acting members object stripe copies := held_or_wanted
  rw [recoverStripe]
  split
  · -- A stripe that cannot be rebuilt is left.
    rename_i hnot
    refine .done (.refl copies) ⟨rfl, fun hrec => ?_⟩
    simp [hrec] at hnot
  dsimp only
  split
  · exact .stop (.refl copies) rfl
  split
  · rename_i hnone
    refine .done (.refl copies) ⟨rfl, fun _ p id hlt hacting hp => .inl ?_⟩
    refine (hwanted hlt hacting hp).resolve_right fun h0 => ?_
    rw [hnone] at h0
    exact not_mem_nil h0
  split
  · exact .stop (.refl copies) rfl
  · exact .stop (.refl copies) rfl
  split
  · refine .done (.refl copies) ⟨rfl, fun _ p id hlt hacting hp => ?_⟩
    exact (hwanted hlt hacting hp).imp_right fun h0 => ⟨rfl, mem_map_of_mem h0⟩
  obtain ⟨hkeep, hheld⟩ := writeShards_spec env object stripe
    (wantedOf acting members object stripe copies) copies
  split
  · exact .stop hkeep rfl
  · rename_i hok
    refine .done hkeep ⟨rfl, fun _ p id hlt hacting hp => .inl ?_⟩
    rcases hwanted hlt hacting hp with h0 | h0
    · exact hkeep.held id h0
    · exact hheld hok _ h0

omit stripe copies in
theorem recoverStripes_spec (stripes : List StripeMeta) : ∀ (si : Nat) (copies : Copies),
    StripesRun copies (recoverStripes env acting members object si stripes copies) (fun copies' works =>
        List.Forall₂ (StripeDone acting members object · copies' ·) stripes works) := by
  induction stripes with
  | nil => exact fun si copies => .done (.refl copies) .nil
  | cons stripe stripes ih =>
    intro si copies
    rw [recoverStripes]
    have hone := recoverStripe_spec env acting members object stripe copies si
    split
    · rename_i copies' o heq
      rw [heq] at hone
      exact .stop hone.keep (hone.error o rfl)
    · rename_i copies' work heq
      rw [heq] at hone
      have hrest := ih (si + 1) copies'
      split
      · rename_i copies'' o heq'
        rw [heq'] at hrest
        exact .stop (hone.keep.trans hrest.keep) (hrest.error o rfl)
      · rename_i copies'' works heq'
        rw [heq'] at hrest
        exact .done (hone.keep.trans hrest.keep)
          (.cons ((hone.ok work rfl).mono hrest.keep) (hrest.ok works rfl))

end

/-! ## The metadata -/

/-- **What the writes of one name do**: nothing but to the name's slots, each to what the write makes
of it; no shard is lost. -/
structure Wrote (name : EntryName) (f : Slot → Slot) (a b : Copies) : Prop where
  other : ∀ id name', name' ≠ name → b.slot id name' = a.slot id name'
  slot : ∀ id, b.slot id name = a.slot id name ∨ b.slot id name = f (a.slot id name)
  shards : ∀ id, (a id).shards ⊆ (b id).shards

structure Takes (name : EntryName) (f : Slot → Slot) (g : GroupCopy → GroupCopy) : Prop where
  slot : ∀ c name', (g c).slot name' = if name' = name then f (c.slot name) else c.slot name'
  shards : ∀ c, c.shards ⊆ (g c).shards

section
variable {name : EntryName} {f : Slot → Slot} {g : GroupCopy → GroupCopy} {a b : Copies}

theorem Takes.slot_modify (h : Takes name f g) (m id : OsdId) (name' : EntryName) :
    (a.modify m g).slot id name' = if id = m ∧ name' = name then f (a.slot id name) else a.slot id name' := by
  by_cases hm : id = m
  · subst hm
    rw [Copies.slot, modify_self, h.slot]
    by_cases hname : name' = name
    · rw [if_pos hname, if_pos ⟨rfl, hname⟩]
      rfl
    · rw [if_neg hname, if_neg fun h0 => hname h0.2]
      rfl
  · rw [Copies.slot, modify_other _ hm, if_neg fun h0 => hm h0.1]
    rfl

theorem Wrote.cons (hf : ∀ s, f (f s) = f s) (hg : Takes name f g) (m : OsdId)
    (h : Wrote name f (a.modify m g) b) : Wrote name f a b := by
  refine ⟨fun id name' hname => ?_, fun id => ?_, fun id => List.Subset.trans ?_ (h.shards id)⟩
  · rw [h.other id name' hname, hg.slot_modify, if_neg fun h0 => hname h0.2]
  · have hone : (a.modify m g).slot id name = _ := hg.slot_modify m id name
    by_cases hm : id = m
    · rw [if_pos ⟨hm, rfl⟩] at hone
      right
      rcases h.slot id with h' | h' <;> rw [h', hone]
      exact hf _
    · rw [if_neg fun h0 => hm h0.1] at hone
      rw [← hone]
      exact h.slot id
  · by_cases hm : id = m
    · subst hm
      rw [modify_self]
      exact hg.shards _
    · rw [modify_other _ hm]
      exact List.Subset.refl _

theorem takes_delete (stamp : Nat) : Takes name (Slot.delete · stamp) fun c =>
    c.setSlot name ((c.slot name).delete stamp) :=
  ⟨fun c name' => c.slot_setSlot name name' _, fun _ => List.Subset.refl _⟩

theorem takes_putOne (name : EntryName) (object : ObjectMeta) (small : List ShardId) :
    Takes name (Slot.put · object) (putOne name object small) := by
  refine ⟨fun c name' => ?_, fun c => ?_⟩
  · rw [putOne]
    split
    · rename_i hsup
      rw [Slot.put_of_supersedes hsup]
      split
      · rename_i hname
        rw [hname]
      · rfl
    · exact c.slot_setSlot name name' _
  · rw [putOne]
    split
    · exact List.Subset.refl _
    · exact subset_append_right _ _

end

section
variable (env : ObjectEnv) (members : List (Option OsdId))

theorem applyDeletes_slots (w : Work) (ps : List Nat) : ∀ (copies : Copies) (outcome : Outcome),
    Wrote w.name (Slot.delete · w.newest.stamp) copies (applyDeletes env members w ps copies outcome).1 := by
  induction ps with
  | nil => exact fun copies outcome => ⟨fun _ _ _ => rfl, fun _ => .inl rfl, fun _ => List.Subset.refl _⟩
  | cons p ps ih =>
    intro copies outcome
    rw [applyDeletes]
    split
    · exact ih copies .partly
    · rename_i m hm
      split
      · exact ih copies _
      · exact .cons (Slot.delete_delete · _) (takes_delete _) m (ih _ outcome)

variable (name : EntryName) (object : ObjectMeta) (small : Nat → List ShardId)

theorem ask_copies {m : OsdId} (small : List ShardId) (put : Put) (h : env.puts m = none) :
    (put.ask env name object small m).copies = put.copies.modify m (putOne name object small) ∧
      (put.ask env name object small m).outcome = put.outcome := by
  rw [Put.ask, h]
  exact ⟨rfl, rfl⟩

theorem ask_failed {m : OsdId} {e : String} (small : List ShardId) (put : Put)
    (h : env.puts m = some e) : (put.ask env name object small m).copies = put.copies ∧
      (put.ask env name object small m).outcome.settled = false := by
  rw [Put.ask, h]
  exact ⟨rfl, rfl⟩

theorem putObject_puts (ps : List Nat) : ∀ put : Put, Wrote name (Slot.put · object) put.copies
      (putObject env members name object small ps put).copies := by
  induction ps with
  | nil => exact fun put => ⟨fun _ _ _ => rfl, fun _ => .inl rfl, fun _ => List.Subset.refl _⟩
  | cons p ps ih =>
    intro put
    rw [putObject]
    split
    · exact ih put
    · rename_i m hm
      have hrest := ih (put.ask env name object (small p) m)
      cases hput : env.puts m with
      | some e => rwa [(ask_failed env name object (small p) put hput).1] at hrest
      | none =>
        rw [(ask_copies env name object (small p) put hput).1] at hrest
        exact .cons (Slot.put_put · _) (takes_putOne name object (small p)) m hrest

/-- A member asked took the write, and unless it had something newer the shards that go with it. -/
structure Took (a b : Copies) (p : Nat) (m : OsdId) : Prop where
  slot : b.slot m name = (a.slot m name).put object
  small : (a.slot m name).supersedes object = false → small p ⊆ (b m).shards

theorem putObject_took (ps : List Nat) : ∀ put : Put,
    (putObject env members name object small ps put).outcome.settled = true →
      put.outcome.settled = true ∧ ∀ p ∈ ps, ∀ m, members[p]?.join = some m →
        Took name object small put.copies (putObject env members name object small ps put).copies p m := by
  induction ps with
  | nil => exact fun put h => ⟨h, nofun⟩
  | cons p ps ih =>
    intro put h
    cases hm : members[p]?.join with
    | none =>
      rw [putObject, hm] at h ⊢
      obtain ⟨houtcome, htook⟩ := ih put h
      refine ⟨houtcome, fun q hq x hx => ?_⟩
      rcases mem_cons.1 hq with rfl | hq
      · cases hm.symm.trans hx
      · exact htook q hq x hx
    | some m =>
      rw [putObject, hm] at h ⊢
      dsimp only at h ⊢
      obtain ⟨houtcome, htook⟩ := ih _ h
      have hrest := putObject_puts env members name object small ps
        (put.ask env name object (small p) m)
      cases hput : env.puts m with
      | some e =>
        rw [(ask_failed env name object (small p) put hput).2] at houtcome
        cases houtcome
      | none =>
        obtain ⟨hcopies, hout⟩ := ask_copies env name object (small p) put hput
        rw [hcopies] at htook hrest
        rw [hout] at houtcome
        have hone := (takes_putOne name object (small p)).slot_modify (a := put.copies) m
        refine ⟨houtcome, fun q hq x hx => ?_⟩
        rcases mem_cons.1 hq with rfl | hq
        · cases hm.symm.trans hx
          constructor
          · rcases hrest.slot m with h' | h' <;> rw [h', hone, if_pos ⟨rfl, rfl⟩]
            exact Slot.put_put _ _
          · intro hsup
            refine List.Subset.trans ?_ (hrest.shards m)
            rw [Copies.slot] at hsup
            rw [modify_self, putOne, if_neg (by rw [hsup]; exact false_ne_true)]
            exact subset_append_left _ _
        · have htake := htook q hq x hx
          constructor
          · rw [htake.slot, hone]
            split
            · exact Slot.put_put _ _
            · rfl
          · intro hsup
            apply htake.small
            rw [hone]
            split
            · rwa [Slot.supersedes_put]
            · exact hsup

end

/-! ## What recovering one object does -/

/-- An object is one a member had under the name when it was listed, its shards moved. -/
structure Moved (copies : Copies) (w : Work) (o : ObjectMeta) : Prop where
  stamp : o.stamp = w.newest.stamp
  objectId : o.objectId = w.newest.objectId
  updateStamp : w.newest.updateStamp ≤ o.updateStamp
  skeleton : ∃ id c, (copies.slot id w.name).object = some c ∧ c.objectId = o.objectId ∧
    o.stripes.map skeleton = c.stripes.map skeleton

inductive SlotMove (copies : Copies) (w : Work) (s : Slot) : Slot → Prop where
  | same : SlotMove copies w s s
  | put (o : ObjectMeta) (ht : w.newest.tombstone = false) (ho : Moved copies w o) :
      SlotMove copies w s (s.put o)
  | delete (ht : w.newest.tombstone = true) : SlotMove copies w s (s.delete w.newest.stamp)

theorem objectOrder_eq {e : ListedEntry} (ht : e.tombstone = false)
    (hstamp : o.stamp = e.stamp) (hid : o.objectId = e.objectId)
    (hupdate : o.updateStamp = e.updateStamp) : objectOrder o = e.order := by
  rw [objectOrder, ListedEntry.order, ht, hstamp, hid, hupdate]

theorem Moved.order_le {copies : Copies} {w : Work} (h : Moved copies w o)
    (ht : w.newest.tombstone = false) : w.newest.order ≤ objectOrder o := by
  rw [objectOrder, ListedEntry.order, ht, h.stamp, h.objectId, Prod.Lex.toLex_le_toLex,
    Prod.Lex.toLex_le_toLex, Prod.Lex.toLex_le_toLex]
  exact .inr ⟨rfl, .inr ⟨rfl, .inr ⟨rfl, h.updateStamp⟩⟩⟩

section
variable {env : ObjectEnv} {acting : List OsdId} {members : List (Option OsdId)} {w : Work}
  {copies : Copies} {clock : Nat}

variable {object : ObjectMeta}

theorem newestCopy_found : ∀ {holders : List OsdId}, newestCopy env copies w holders = .found object →
      ∃ id, (copies.slot id w.name).object = some object ∧ object.stamp = w.newest.stamp ∧
        object.objectId = w.newest.objectId ∧ object.updateStamp = w.newest.updateStamp
  | [], h => nomatch h
  | holder :: holders, h => by
    rw [newestCopy] at h
    split at h
    · rename_i o _ ho
      dsimp only at h
      split_ifs at h with hlt heq
      · cases h
        rw [ObjectMeta.writeOrder, toLex_inj, Prod.mk.injEq, toLex_inj, Prod.mk.injEq] at heq
        exact ⟨holder, ho, heq.1, heq.2.1, heq.2.2⟩
      · exact newestCopy_found h
    · exact newestCopy_found h

variable (acting members) in
theorem le_updateStamp_updated (object : ObjectMeta) (works : List StripeWork) (clock : Clock) :
    object.updateStamp ≤ (updated acting members object works clock).updateStamp := by
  rw [updated]
  dsimp only
  split
  · exact (clock.lt_nextAfter _).le
  · exact le_rfl

theorem changes_of_written {work : StripeWork} (hwork : work ∈ works) (hwritten : work.written ≠ []) :
    changes acting members object works = true := by
  have hany : works.any (fun w => !w.written.isEmpty) = true := by
    rw [any_eq_true]
    exact ⟨work, hwork, by simpa using hwritten⟩
  rw [changes, hany, Bool.true_or]

theorem update_lt {o' : ObjectMeta} (hstamp : o.stamp = o'.stamp) (hid : o.objectId = o'.objectId)
    (h : o.updateStamp < o'.updateStamp) : o.writeOrder < o'.writeOrder := by
  rw [ObjectMeta.writeOrder, ObjectMeta.writeOrder, hstamp, hid, Prod.Lex.toLex_lt_toLex,
    Prod.Lex.toLex_lt_toLex]
  exact .inr ⟨rfl, .inr ⟨rfl, h⟩⟩

theorem lt_updateStamp_updated (h : changes acting members object works = true) (clock : Clock) :
    object.updateStamp < (updated acting members object works clock).updateStamp := by
  rw [updated, h, if_pos rfl]
  exact clock.lt_nextAfter _

theorem forall₂_left {β : Type} {R : α → β → Prop} {as : List α} {bs : List β} {a : α}
    (h : List.Forall₂ R as bs) (ha : a ∈ as) : ∃ b ∈ bs, R a b := by
  induction h with
  | nil => exact (not_mem_nil ha).elim
  | cons hab _ ih =>
    rcases mem_cons.1 ha with rfl | ha
    · exact ⟨_, mem_cons_self, hab⟩
    · obtain ⟨b, hb, hR⟩ := ih ha
      exact ⟨b, mem_cons_of_mem _ hb, hR⟩

theorem skeleton_works {stripes : List StripeMeta} {copies : Copies}
    (h : List.Forall₂ (StripeDone acting members object · copies ·) stripes works) :
    (works.map (·.stripe)).map skeleton = stripes.map skeleton := by
  induction h with
  | nil => rfl
  | cons hd _ ih =>
    rw [map_cons, map_cons, map_cons, ih, hd.skeleton]

theorem moved_updated (hfound : newestCopy env copies w w.holders = .found object)
    (hworks : List.Forall₂ (StripeDone acting members object · copies' ·) object.stripes works)
    (clock : Clock) : Moved copies w (updated acting members object works clock) := by
  obtain ⟨id, hid, hstamp, hobject, hupdate⟩ := newestCopy_found hfound
  refine ⟨hstamp, hobject, ?_, id, object, hid, rfl, ?_⟩
  · rw [← hupdate]
    exact le_updateStamp_updated acting members object works clock
  · exact skeleton_works hworks

variable (env acting members w copies clock)

section
variable (object : ObjectMeta) (works : List StripeWork) (id : OsdId)

theorem placeObject_cases :
    ((placeObject env acting members w object works copies clock).copies =
        (placed env acting members w object works copies clock).copies ∧
      (placeObject env acting members w object works copies clock).outcome =
        (placed env acting members w object works copies clock).outcome) ∨
    ((placeObject env acting members w object works copies clock).outcome = .changed ∧
      ∀ id, ((placeObject env acting members w object works copies clock).copies id).slots =
        ((placed env acting members w object works copies clock).copies id).slots) := by
  rw [placeObject]
  split
  · refine .inr ⟨rfl, fun id => ?_⟩
    dsimp only
    split <;> rfl
  · exact .inl ⟨rfl, rfl⟩

theorem recoverObject_cases (ht : w.newest.tombstone = false) :
    (copies.Shards (recoverObject env acting members w copies clock).copies ∧
      (recoverObject env acting members w copies clock).outcome.settled = false) ∨
    ∃ object works copies', newestCopy env copies w w.holders = .found object ∧ copies.Shards copies' ∧
      List.Forall₂ (StripeDone acting members object · copies' ·) object.stripes works ∧
      recoverObject env acting members w copies clock =
        placeObject env acting members w object works copies' clock := by
  rw [recoverObject, ht, if_neg Bool.false_ne_true]
  split
  · exact .inl ⟨.refl copies, rfl⟩
  · exact .inl ⟨.refl copies, rfl⟩
  · rename_i object hfound
    have hstripes := recoverStripes_spec env acting members object object.stripes 0 copies
    split
    · rename_i copies' o heq
      rw [heq] at hstripes
      exact .inl ⟨hstripes.keep, hstripes.error o rfl⟩
    · rename_i copies' works heq
      rw [heq] at hstripes
      exact .inr ⟨object, works, copies', hfound, hstripes.keep, hstripes.ok works rfl, rfl⟩

theorem placed_puts :
    Wrote w.name (Slot.put · (updated acting members object works ⟨clock, env.wall⟩)) copies
      (placed env acting members w object works copies clock).copies := by
  rw [placed]
  exact putObject_puts env members w.name _ (smallShards object works)
    (recipients acting members w object works) ⟨copies, _, 0, 0⟩

theorem slot_placeObject (name : EntryName) :
    (placeObject env acting members w object works copies clock).copies.slot id name =
      (placed env acting members w object works copies clock).copies.slot id name := by
  rcases placeObject_cases env acting members w copies clock object works with ⟨hcopies, -⟩ | ⟨-, hslots⟩
  · rw [hcopies]
  · rw [Copies.slot, Copies.slot, GroupCopy.slot, GroupCopy.slot, hslots id]

/-- The other names' slots are left alone, and no shard is lost but by an outcome `changed`. -/
theorem recoverObject_other {name : EntryName} (hname : name ≠ w.name) :
    (recoverObject env acting members w copies clock).copies.slot id name = copies.slot id name := by
  cases ht : w.newest.tombstone with
  | true =>
    rw [recoverObject, ht, if_pos rfl]
    exact (applyDeletes_slots env members w w.behind copies .done).other id name hname
  | false =>
    rcases recoverObject_cases env acting members w copies clock ht with ⟨hkeep, -⟩ | hplaced
    · exact hkeep.slot id name
    · obtain ⟨object, works, copies', -, hkeep, -, heq⟩ := hplaced
      rw [heq, slot_placeObject, ← hkeep.slot id name]
      exact (placed_puts env acting members w copies' clock object works).other id name hname

theorem recoverObject_slot : SlotMove copies w (copies.slot id w.name)
    ((recoverObject env acting members w copies clock).copies.slot id w.name) := by
  cases ht : w.newest.tombstone with
  | true =>
    rw [recoverObject, ht, if_pos rfl]
    rcases (applyDeletes_slots env members w w.behind copies .done).slot id with h | h
    · exact h ▸ .same
    · exact h ▸ .delete ht
  | false =>
    rcases recoverObject_cases env acting members w copies clock ht with ⟨hkeep, -⟩ | hplaced
    · rw [hkeep.slot id w.name]
      exact .same
    · obtain ⟨object, works, copies', hfound, hkeep, hworks, heq⟩ := hplaced
      have hmoved := moved_updated hfound hworks ⟨clock, env.wall⟩
      rw [heq, slot_placeObject, ← hkeep.slot id w.name]
      rcases (placed_puts env acting members w copies' clock object works).slot id with h | h
      · exact h ▸ .same
      · exact h ▸ .put _ ht hmoved

end

/-- Every member that has the object holds its shards. -/
theorem recoverObject_shards (h : (recoverObject env acting members w copies clock).outcome ≠ .changed) (id : OsdId) :
    (copies id).shards ⊆ ((recoverObject env acting members w copies clock).copies id).shards := by
  cases ht : w.newest.tombstone with
  | true =>
    rw [recoverObject, ht, if_pos rfl]
    exact (applyDeletes_slots env members w w.behind copies .done).shards id
  | false =>
    rcases recoverObject_cases env acting members w copies clock ht with ⟨hkeep, -⟩ | hplaced
    · exact hkeep.held id
    · obtain ⟨object, works, copies', -, hkeep, -, heq⟩ := hplaced
      rw [heq] at h ⊢
      rcases placeObject_cases env acting members w copies' clock object works with
        ⟨hcopies, -⟩ | ⟨hchanged, -⟩
      · rw [hcopies]
        exact List.Subset.trans (hkeep.held id)
          ((placed_puts env acting members w copies' clock object works).shards id)
      · exact absurd hchanged h

variable {env acting members w copies clock}

theorem recoverObject_settled (ht : w.newest.tombstone = false)
    (h : (recoverObject env acting members w copies clock).outcome.settled = true) :
    ∃ object works copies', newestCopy env copies w w.holders = .found object ∧ copies.Shards copies' ∧
      List.Forall₂ (StripeDone acting members object · copies' ·) object.stripes works ∧
      (recoverObject env acting members w copies clock).copies =
        (placed env acting members w object works copies' clock).copies ∧
      ∀ p ∈ recipients acting members w object works, ∀ m, members[p]?.join = some m →
        Took w.name (updated acting members object works ⟨clock, env.wall⟩) (smallShards object works) copies'
          (placed env acting members w object works copies' clock).copies p m := by
  rcases recoverObject_cases env acting members w copies clock ht with ⟨-, hnot⟩ | hplaced
  · exact absurd (h.symm.trans hnot) Bool.noConfusion
  · obtain ⟨object, works, copies', hfound, hkeep, hworks, heq⟩ := hplaced
    rw [heq] at h ⊢
    rcases placeObject_cases env acting members w copies' clock object works with
      ⟨hcopies, houtcome⟩ | ⟨hchanged, -⟩
    · rw [houtcome] at h
      exact ⟨object, works, copies', hfound, hkeep, hworks, hcopies,
        (putObject_took env members w.name _ _ _ _ h).2⟩
    · rw [hchanged] at h
      cases h

/-- An object that is done is on every member that answered and was behind. -/
theorem recoverObject_done (ht : w.newest.tombstone = false)
    (h : (recoverObject env acting members w copies clock).outcome.settled = true)
    (hp : p ∈ w.behind) (hlt : p < acting.length) (hid : members[p]? = some (some id)) :
    (w.newest.order : WithBot EntryOrder) ≤
      ((recoverObject env acting members w copies clock).copies.slot id w.name).rank := by
  obtain ⟨object, works, copies', hfound, hkeep, hworks, hcopies, htook⟩ := recoverObject_settled ht h
  have hmoved := moved_updated hfound hworks ⟨clock, env.wall⟩
  have hmem : p ∈ recipients acting members w object works := by
    rw [recipients]
    split
    · exact mem_range.2 hlt
    · exact hp
  have hput := htook p hmem id (by rw [hid]; rfl)
  have hstamp : (updated acting members object works ⟨clock, env.wall⟩).stamp ≠ 0 := by
    obtain ⟨x, hx, hxs, -⟩ := newestCopy_found hfound
    have hpos := (copies.slot x w.name).newer object hx
    show object.stamp ≠ 0
    omega
  rw [hcopies, hput.slot]
  exact le_trans (WithBot.coe_le_coe.2 (hmoved.order_le ht)) (Slot.order_le_put hstamp)

theorem Slot.object_put {s : Slot} {new : ObjectMeta} (h : (s.put new).object = some o) :
    s.object = some o ∨ o = new := by
  cases hs : s.supersedes new with
  | true => exact .inl (by rwa [put_of_supersedes hs] at h)
  | false =>
    rw [put_object hs] at h
    cases h
    exact .inr rfl

theorem not_supersedes {s : Slot} {c new : ObjectMeta} {e : ListedEntry} (hc : s.object = some c)
    (hold : objectOrder c ≤ e.order) (hlt : e.order < objectOrder new) : s.supersedes new = false := by
  have hcnew := hold.trans_lt hlt
  refine eq_false_iff.2 fun h => ?_
  rcases Slot.supersedes_iff.1 h with ⟨x, hx, hlt'⟩ | hle
  · cases hc.symm.trans hx
    exact lt_asymm hcnew (objectOrder_lt_iff.2 hlt')
  · have hstamp := WriteOrder.stamp_le (objectOrder_lt_iff.1 hcnew).le
    rw [ObjectMeta.stamp_writeOrder, ObjectMeta.stamp_writeOrder] at hstamp
    have := s.newer c hc
    omega

/-- **And every member that answered holds its shards**, where `made` is what the object's stripes are. -/
theorem recoverObject_filled (made : List StripeMeta) (ht : w.newest.tombstone = false)
    (h : (recoverObject env acting members w copies clock).outcome.settled = true)
    (hmade : ∀ id c, (copies.slot id w.name).object = some c → c.objectId = w.newest.objectId →
      c.stripes.map skeleton = made) (hrec : ∀ s ∈ made, s.packId = [] → recoverable s = true)
    (hlt : p < acting.length) (hid : members[p]? = some (some id))
    (hold : ∀ c, (copies.slot id w.name).object = some c → c.objectId = w.newest.objectId →
      objectOrder c ≤ w.newest.order)
    (ho : ((recoverObject env acting members w copies clock).copies.slot id w.name).object = some o)
    (hobject : o.objectId = w.newest.objectId) {stripe : StripeMeta} (hstripe : stripe ∈ ownStripes o)
    (hwidth : p < stripe.ecK + stripe.ecM) :
    shardId o stripe p ∈ ((recoverObject env acting members w copies clock).copies id).shards := by
  obtain ⟨object, works, copies', hfound, hkeep, hworks, hcopies, htook⟩ := recoverObject_settled ht h
  have hputs := placed_puts env acting members w copies' clock object works
  have hmoved := moved_updated hfound hworks ⟨clock, env.wall⟩
  obtain ⟨holder, hholder, hstamp, hobject', hupdate⟩ := newestCopy_found hfound
  have hobjectMade := hmade holder object hholder hobject'
  rw [hcopies] at ho ⊢
  -- Whatever copy of the object the member has now, its stripes are the object's.
  have homade : o.stripes.map skeleton = made := by
    have hcases : (copies.slot id w.name).object = some o ∨
        o = updated acting members object works ⟨clock, env.wall⟩ := by
      rw [← hkeep.slot id w.name]
      rcases hputs.slot id with h0 | h0
      · exact .inl (h0 ▸ ho)
      · exact Slot.object_put (h0 ▸ ho)
    rcases hcases with h0 | rfl
    · exact hmade id o h0 hobject
    · exact (skeleton_works hworks).trans hobjectMade
  obtain ⟨hmem, hown⟩ := mem_filter.1 hstripe
  have hin : skeleton stripe ∈ object.stripes.map skeleton := by
    rw [hobjectMade, ← homade]
    exact mem_map_of_mem hmem
  obtain ⟨s, hs, hskel⟩ := mem_map.1 hin
  have hsrec : recoverable s = true := by
    have hmem' : skeleton s ∈ made := hobjectMade ▸ mem_map_of_mem hs
    exact hrec (skeleton s) hmem' (by rw [hskel]; exact eq_of_beq hown)
  have hswidth : p < s.ecK + s.ecM := by
    have hk : (skeleton s).ecK + (skeleton s).ecM = (skeleton stripe).ecK + (skeleton stripe).ecM := by
      rw [hskel]
    exact hk ▸ hwidth
  rw [shardId_congr (hobject.trans hobject'.symm) hskel.symm]
  obtain ⟨work, hwork, hdone⟩ := forall₂_left hworks hs
  rcases hdone.held hsrec p id hswidth hlt hid with hheld | ⟨hsmall, hwritten⟩
  · exact hputs.shards id hheld
  -- It goes with the metadata, unless the member has another object by now.
  have hchanges : changes acting members object works = true := by
    refine changes_of_written hwork fun h0 => ?_
    rw [h0] at hwritten
    exact not_mem_nil hwritten
  have htake := htook p (by rw [recipients, if_pos hchanges]; exact mem_range.2 hlt) id
    (by rw [hid]; rfl)
  have hsup : (copies'.slot id w.name).supersedes
      (updated acting members object works ⟨clock, env.wall⟩) = false := by
    refine Bool.eq_false_iff.2 fun h0 => ?_
    have hsame : (copies.slot id w.name).object = some o := by
      rw [htake.slot, Slot.put_of_supersedes h0, hkeep.slot id w.name] at ho
      exact ho
    have hnew : w.newest.order < objectOrder (updated acting members object works ⟨clock, env.wall⟩) := by
      rw [← objectOrder_eq ht hstamp hobject' hupdate, objectOrder_lt_iff]
      exact update_lt rfl rfl (lt_updateStamp_updated hchanges _)
    rw [hkeep.slot id w.name, not_supersedes hsame (hold o hsame hobject) hnew] at h0
    cases h0
  apply htake.small hsup
  rw [smallShards, mem_map]
  refine ⟨work, mem_filter.2 ⟨hwork, ?_⟩, shardId_congr rfl hdone.skeleton p⟩
  rw [hsmall, Bool.true_and]
  exact decide_eq_true hwritten

end

end IoLake.Meta
