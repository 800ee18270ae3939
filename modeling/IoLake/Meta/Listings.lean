import IoLake.Lib.Linearizable
import IoLake.Lib.ProtoWire
import IoLake.MetaStore.Command
import IoLake.Proto.ObjectMeta

/-!
# Listing entries and conditional writes

`create_object` and `delete_object` on the listing entry of one key.  A create decides its condition on the
entry it reads, and commits by a compare-and-set that expects that entry.  Calls interleave between their
steps; an answer may be lost and the call sent again.
-/

namespace IoLake.Meta.Listings

open Proto MetaStore Linearizable List OrdMap Steps CompareAndSet

/-! ## Requests and entries -/

structure CreateObjectRequest where
  size : Nat := 0
  contentType : String := ""
  etag : String
  userMetadata : List (String × String) := []
  stripes : List StripeMeta := []
  objectId : Bytes
  pgId : Nat := 0
  pool : String := ""
  ifMatch : String := ""
  ifNoneMatch : String := ""
deriving DecidableEq, Repr

structure ObjectListingEntry where
  size : Nat
  etag : String
  contentType : String
  createdAt : Nat
  modifiedAt : Nat
  storageClass : String
  userMetadata : List (String × String)
  primaryOsdId : Bytes
  pgId : Nat
  pool : String
  objectId : Bytes
deriving DecidableEq, Repr

structure DegradedStripe where
  stripeId : Nat
  missing : List Nat
  present : Nat
  needed : Nat
deriving DecidableEq, Repr

structure DegradedObject where
  objectId : Bytes
  stripes : List DegradedStripe
  recordedAt : Nat
deriving DecidableEq, Repr

structure Key where
  bucket : String
  key : String
  encode : ObjectListingEntry → Bytes
  decode : Bytes → Option ObjectListingEntry
  encodeDegraded : DegradedObject → Bytes
  decodeDegraded : Bytes → Option DegradedObject

section
variable (k : Key) (req : CreateObjectRequest)

def Key.ReadsBack : Prop := ∀ e, k.decode (k.encode e) = some e

def Key.listingRow (versionId : String) : RowKey :=
  rowKey "object_listings" (k.bucket ++ "\x00" ++ k.key ++ "\x00" ++ versionId)

def Key.degradedRow : RowKey := rowKey "degraded_objects" (k.bucket ++ "/" ++ k.key)

def degradedStripes (stripes : List StripeMeta) : List DegradedStripe :=
  (stripes.filter fun s => 0 < s.ecK ∧ 0 < s.ecM ∧ s.packId = []).filterMap fun s =>
    let total := s.ecK + s.ecM
    let present := ((s.shards.map (·.position)).filter (· < total)).dedup
    let missing := (range total).filter fun p => p ∉ present
    if missing = [] then none
    else some ⟨s.stripeId, missing, present.length, s.ecK⟩

def degradedRecord (now : Nat) : Option Bytes :=
  match degradedStripes req.stripes with
  | [] => none
  | stripes => some (k.encodeDegraded ⟨req.objectId, stripes, now⟩)

/-- The listing entry of a create; `listingPg` is the key's own placement group, for a request that
names none. -/
def newEntry (now : Nat) (listingPg : Nat × String) : ObjectListingEntry where
  size := req.size
  etag := req.etag
  contentType := req.contentType
  createdAt := now
  modifiedAt := now
  storageClass := "STANDARD"
  userMetadata := req.userMetadata
  primaryOsdId := ((req.stripes.head?.bind fun s => s.shards.head?).map (·.nodeId)).getD []
  pgId := if req.pool = "" then listingPg.1 else req.pgId
  pool := if req.pool = "" then listingPg.2 else req.pool
  objectId := req.objectId

def trimQuotes (s : String) : String :=
  String.ofList ((s.toList.dropWhile (· = '"')).rdropWhile (· = '"'))

def etagMatches (want : String) (etag : Option String) : Bool :=
  etag.any fun e => want = "*" || trimQuotes e = trimQuotes want

def CreateObjectRequest.conditional : Bool :=
  req.ifMatch ≠ "" || req.ifNoneMatch ≠ ""

def CreateObjectRequest.holds (etag : Option String) : Bool :=
  (req.ifMatch = "" || etagMatches req.ifMatch etag) &&
    !(req.ifNoneMatch ≠ "" && etagMatches req.ifNoneMatch etag)

end

/-! ## Calls -/

inductive Call where
  | create (req : CreateObjectRequest)
  | delete (versionId : String)
deriving DecidableEq, Repr

/-- A call as its caller sees it, from its start to its answer. -/
structure Made where
  call : Call
  started : Nat
  answered : Option Nat := none
deriving DecidableEq, Repr

inductive Stage where
  | sent
  | decided (expected : Option Bytes) (now : Nat) (entry : ObjectListingEntry)
  | ready (ops : List CasOp)
  | done
deriving DecidableEq, Repr

/-- One sending of a call; a call without an answer is sent again. -/
structure Send where
  call : Nat
  stage : Stage := .sent
deriving DecidableEq, Repr

structure State where
  rows : Rows
  clock : Nat := 0
  calls : List Made := []
  sends : List Send := []
  /-- What took effect, in order: creates by their requests, deletes of the current entry. -/
  order : List (Effect Call) := []

variable (k : Key)

def State.entry (s : State) : Option ObjectListingEntry :=
  (s.rows.get (k.listingRow "")).bind k.decode

inductive Event where
  | call (c : Call)
  | send (c : Nat)
  /-- The listing entry is read, and what to do decided. -/
  | read (i now : Nat) (listingPg : Nat × String) (bucket : Bool)
  | readDegraded (i : Nat)
  | commit (i : Nat) (heard : Bool)
  | other (ops : List CasOp)
deriving DecidableEq, Repr

section
variable (s : State) (i c : Nat)

def State.answer : State :=
  { s with calls := s.calls.modify c fun m => { m with answered := m.answered.or (some s.clock) } }

def State.effect (op : Call) : State :=
  { s with order := s.order ++ [⟨s.clock, c, op⟩] }

def State.stage (s : State) (i : Nat) (st : Stage) : State :=
  { s with sends := s.sends.modify i fun x => { x with stage := st } }

def readCreate (now : Nat) (listingPg : Nat × String) (bucket : Bool)
    (req : CreateObjectRequest) : State :=
  if !bucket then s.stage i .done
  else
    let expected := s.rows.get (k.listingRow "")
    let current := expected.bind k.decode
    if req.conditional && current.any fun e => req.objectId ≠ [] && e.objectId = req.objectId then
      -- This very write, sent again.
      (s.stage i .done).answer c
    else if req.conditional && !req.holds (current.map (·.etag)) then s.stage i .done
    else s.stage i (.decided expected now (newEntry req now listingPg))

def createOps (req : CreateObjectRequest) (expected : Option Bytes) (now : Nat)
    (entry : ObjectListingEntry) : List CasOp :=
  let new := degradedRecord k req now
  let current := (s.rows.get k.degradedRow).filter fun b =>
    new.isSome || (k.decodeDegraded b).any fun d => d.objectId ≠ req.objectId
  ⟨.objectListings, (ofLex (k.listingRow "")).2, expected, some (k.encode entry)⟩ ::
    if current.isSome || new.isSome then
      [⟨.named "degraded_objects", (ofLex k.degradedRow).2, current, new⟩]
    else []

def readDelete (versionId : String) : State :=
  match s.rows.get (k.listingRow versionId) with
  | none => ((s.stage i .done).effect c (.delete versionId)).answer c
  | some b =>
    s.stage i (.ready [⟨.objectListings, (ofLex (k.listingRow versionId)).2, some b, none⟩])

def commitOps (heard : Bool) (op : Call) (ops : List CasOp) : State :=
  match apply s.rows (ops.map CasOp.row) with
  | none => s.stage i .done
  | some rows =>
    let s := ({ s with rows := rows }.stage i .done).effect c op
    if heard then s.answer c else s

def State.fresh : Call → Bool
  | .create req =>
    req.objectId = [] || (s.calls.all fun m =>
        match m.call with
        | .create other => other.objectId ≠ req.objectId
        | .delete _ => true) && (s.entry k).all fun e => e.objectId ≠ req.objectId
  | .delete _ => true

def move : Event → Option State
  | .call c => if s.fresh k c then some { s with calls := s.calls ++ [⟨c, s.clock, none⟩] } else none
  | .send c => if c < s.calls.length then some { s with sends := s.sends ++ [⟨c, .sent⟩] } else none
  | .read i now listingPg bucket =>
    s.sends[i]?.bind fun x =>
      match x.stage with
      | .sent =>
        (s.calls[x.call]?).map fun m =>
          match m.call with
          | .create req => readCreate k s i x.call now listingPg bucket req
          | .delete versionId => readDelete k s i x.call versionId
      | _ => none
  | .readDegraded i =>
    s.sends[i]?.bind fun x =>
      match x.stage with
      | .decided expected now entry =>
        (s.calls[x.call]?).bind fun m =>
          match m.call with
          | .create req => some (s.stage i (.ready (createOps k s req expected now entry)))
          | .delete _ => none
      | _ => none
  | .commit i heard =>
    s.sends[i]?.bind fun x =>
      match x.stage with
      | .ready ops => (s.calls[x.call]?).map fun m => commitOps s i x.call heard m.call ops
      | _ => none
  | .other ops =>
    if ops.all fun op => op.row.key ≠ k.listingRow "" then
      (apply s.rows (ops.map CasOp.row)).map fun rows => { s with rows := rows }
    else none

def step (e : Event) : Option State :=
  (move k s e).map fun s' => { s' with clock := s.clock + 1 }

end

def leaves (etag : Option String) : Call → Option String
  | .create req => some req.etag
  | .delete versionId => if versionId = "" then none else etag

def allowed (etag : Option String) : Call → Prop
  | .create req => req.holds etag = true
  | .delete _ => True

instance (etag : Option String) : ∀ c, Decidable (allowed etag c)
  | .create _ => inferInstanceAs (Decidable (_ = true))
  | .delete _ => .isTrue trivial

def State.ops (s : State) : List Call := s.order.map Effect.op

def State.callOf (s : State) (c : Nat) : Option Call := s.calls[c]?.map Made.call

def SendOk (s : State) (c : Nat) : Stage → Prop
  | .sent | .done => True
  | .decided expected _ entry => ∃ req, s.callOf c = some (.create req) ∧
      req.holds ((expected.bind k.decode).map (·.etag)) = true ∧ entry.etag = req.etag ∧
      entry.objectId = req.objectId
  | .ready ops =>
    (∃ req expected entry rest, s.callOf c = some (.create req) ∧
      req.holds ((expected.bind k.decode).map (·.etag)) = true ∧ entry.etag = req.etag ∧
      entry.objectId = req.objectId ∧
      ops = ⟨.objectListings, (ofLex (k.listingRow "")).2, expected, some (k.encode entry)⟩ :: rest ∧
      ∀ op ∈ rest, op.row.key ≠ k.listingRow "") ∨
    ∃ versionId b, s.callOf c = some (.delete versionId) ∧
      ops = [⟨.objectListings, (ofLex (k.listingRow versionId)).2, some b, none⟩]

/-- What holds at the moment `now`, of a run that found the ETag `etag₀` listed. -/
structure Inv (etag₀ : Option String) (now : Nat) (s : State) : Prop where
  ordered : Ordered now s.order
  legal : Legal leaves allowed etag₀ s.ops
  listed : (s.entry k).map (·.etag) = replay leaves etag₀ s.ops
  started : ∀ m ∈ s.calls, m.started < now
  effects : ∀ e ∈ s.order, ∃ m, s.calls[e.call]? = some m ∧ m.call = e.op ∧ m.started < e.moment
  answered : ∀ c m t, s.calls[c]? = some m → m.answered = some t →
    t < now ∧ ∃ e ∈ s.order, e.call = c ∧ e.moment ≤ t
  sends : ∀ x ∈ s.sends, SendOk k s x.call x.stage
  own : ∀ entry, s.entry k = some entry → ∀ c req, s.callOf c = some (.create req) →
    req.objectId = entry.objectId → req.objectId ≠ [] → ∃ e ∈ s.order, e.call = c
  ids : ∀ c c' req req', s.callOf c = some (.create req) → s.callOf c' = some (.create req') →
    req.objectId = req'.objectId → req.objectId ≠ [] → c = c'

variable {k} {etag₀ : Option String} {now : Nat} {s s' : State}

variable {req : CreateObjectRequest} {c : Call} {c' i : Nat} {x : Send} {m : Made}

theorem holds_of_not_conditional (h : req.conditional = false)
    (etag : Option String) : req.holds etag = true := by
  simp only [CreateObjectRequest.conditional, Bool.or_eq_false_iff, decide_eq_false_iff_not,
    not_not, ne_eq] at h
  simp [CreateObjectRequest.holds, h.1, h.2]

variable {versionId : String}

theorem listingRow_eq (h : k.listingRow versionId = k.listingRow "") : versionId = "" := by
  have h' := congrArg (fun r : RowKey => (ofLex r).2) h
  exact String.append_right_inj _ |>.1 h'

theorem degradedRow_ne (k : Key) (versionId : String) : k.degradedRow ≠ k.listingRow versionId :=
  rowKey_ne (by decide) _ _

theorem SendOk.mono {c : Nat} {st : Stage} (hcall : ∀ call, s.callOf c = some call → s'.callOf c = some call)
    (h : SendOk k s c st) : SendOk k s' c st := by
  cases st with
  | sent | done => trivial
  | decided expected now entry =>
    obtain ⟨req, hc, hrest⟩ := h
    exact ⟨req, hcall _ hc, hrest⟩
  | ready ops =>
    rcases h with ⟨req, expected, entry, rest, hc, hrest⟩ | ⟨versionId, b, hc, hrest⟩
    · exact .inl ⟨req, expected, entry, rest, hcall _ hc, hrest⟩
    · exact .inr ⟨versionId, b, hcall _ hc, hrest⟩

/-! ### One change at a time -/

theorem Inv.tick (hi : Inv k etag₀ now s) : Inv k etag₀ (now + 1) s :=
  { hi with
    ordered := hi.ordered.later
    started := fun m hm => Nat.lt_succ_of_lt (hi.started m hm)
    answered := fun c m t hm ht => (hi.answered c m t hm ht).imp_left Nat.lt_succ_of_lt }

theorem Inv.stage (hi : Inv k etag₀ now s) {st : Stage}
    (hx : s.sends[i]? = some x) (hok : SendOk k s x.call st) : Inv k etag₀ now (s.stage i st) := by
  refine { hi with sends := ?_ }
  intro y hy
  obtain ⟨j, hj⟩ := mem_iff_getElem?.1 hy
  rw [State.stage] at hj
  dsimp only at hj
  rw [getElem?_modify] at hj
  obtain ⟨z, hz, rfl⟩ := Option.map_eq_some_iff.1 hj
  split
  · rename_i hij
    subst hij
    rw [hx] at hz
    cases hz
    exact hok
  · exact hi.sends z (mem_of_getElem? hz)

theorem callOf_answer (s : State) (c c' : Nat) : (s.answer c).callOf c' = s.callOf c' := by
  rw [State.callOf, State.callOf, State.answer]
  dsimp only
  rw [getElem?_modify]
  cases s.calls[c']? with
  | none => rfl
  | some m =>
    show some (if c = c' then _ else m).call = some m.call
    split <;> rfl

theorem Inv.answer {c : Nat} (hi : Inv k etag₀ (now + 1) s) (hclock : s.clock = now)
    (he : ∃ e ∈ s.order, e.call = c ∧ e.moment ≤ now) : Inv k etag₀ (now + 1) (s.answer c) := by
  subst hclock
  have hback : ∀ (c' : Nat) (m' : Made), (s.answer c).calls[c']? = some m' →
      ∃ m, s.calls[c']? = some m ∧ m'.call = m.call ∧ m'.started = m.started ∧
        (m'.answered = m.answered ∨ (c' = c ∧ m'.answered = some s.clock)) := by
    intro c' m' hm'
    rw [State.answer] at hm'
    dsimp only at hm'
    rw [getElem?_modify] at hm'
    obtain ⟨m, hm, rfl⟩ := Option.map_eq_some_iff.1 hm'
    refine ⟨m, hm, ?_⟩
    split
    · rename_i hc
      refine ⟨rfl, rfl, ?_⟩
      cases hans : m.answered with
      | none => exact .inr ⟨hc.symm, rfl⟩
      | some t => exact .inl rfl
    · exact ⟨rfl, rfl, .inl rfl⟩
  refine { hi with started := ?_, effects := ?_, answered := ?_, sends := ?_, own := ?_, ids := ?_ }
  · intro m' hm'
    obtain ⟨c', hc'⟩ := mem_iff_getElem?.1 hm'
    obtain ⟨m, hm, -, hstarted, -⟩ := hback c' m' hc'
    rw [hstarted]
    exact hi.started m (mem_of_getElem? hm)
  · intro e he'
    obtain ⟨m, hm, hcall, hlt⟩ := hi.effects e he'
    have hex : ∃ m', (s.answer c).calls[e.call]? = some m' := by
      rw [State.answer]
      dsimp only
      rw [getElem?_modify, hm]
      exact ⟨_, rfl⟩
    obtain ⟨m', hm'⟩ := hex
    obtain ⟨m₀, hm₀, hcall', hstarted, -⟩ := hback _ m' hm'
    rw [hm] at hm₀
    cases hm₀
    exact ⟨m', hm', hcall'.trans hcall, hstarted ▸ hlt⟩
  · intro c' m' t hm' ht
    obtain ⟨m, hm, -, -, hans | ⟨rfl, hans⟩⟩ := hback c' m' hm'
    · exact hi.answered c' m t hm (hans ▸ ht)
    · rw [hans] at ht
      cases ht
      exact ⟨Nat.lt_succ_self _, he⟩
  · exact fun x hx => (hi.sends x hx).mono fun call hc => (callOf_answer s c _).trans hc
  · intro entry hentry c' req hcall
    rw [callOf_answer] at hcall
    exact hi.own entry hentry c' req hcall
  · intro c₁ c₂ req₁ req₂ h₁ h₂
    rw [callOf_answer] at h₁ h₂
    exact hi.ids c₁ c₂ req₁ req₂ h₁ h₂

theorem State.ops_effect (s : State) (c : Nat) (op : Call) : (s.effect c op).ops = s.ops ++ [op] := by
  rw [State.ops, State.effect, map_append]
  rfl

theorem Inv.effect (hi : Inv k etag₀ now s) (hclock : s.clock = now) {c : Nat} {op : Call}
    (rows : Rows) (hm : s.calls[c]? = some m) (hop : m.call = op)
    (hallowed : allowed ((s.entry k).map (·.etag)) op)
    (hleaves : ((State.entry k { s with rows := rows }).map (·.etag)) = leaves ((s.entry k).map (·.etag)) op)
    (hown : ∀ entry, State.entry k { s with rows := rows } = some entry → s.entry k = some entry ∨
      ∃ req, op = .create req ∧ entry.objectId = req.objectId) :
    Inv k etag₀ (now + 1) ({ s with rows := rows }.effect c op) := by
  subst hclock
  have hcall : s.callOf c = some op := by
    rw [State.callOf, hm, Option.map_some, hop]
  have hlast : (⟨s.clock, c, op⟩ : Effect Call) ∈ ({ s with rows := rows }.effect c op).order :=
    mem_append_right _ (mem_singleton_self _)
  refine { hi.tick with
    ordered := hi.ordered.concat rfl, legal := ?_, listed := ?_, effects := ?_, answered := ?_, own := ?_,
    sends := ?_ }
  · rw [State.ops_effect]
    refine hi.legal.concat ?_
    rw [← hi.listed]
    exact hallowed
  · rw [State.ops_effect, replay_concat]
    refine hleaves.trans ?_
    rw [hi.listed]
    rfl
  · intro e he
    rcases mem_append.1 he with he | he
    · exact hi.effects e he
    · rw [mem_singleton.1 he]
      exact ⟨m, hm, hop, hi.started m (mem_of_getElem? hm)⟩
  · intro c' m' t hm' ht
    obtain ⟨hlt, e, he, hrest⟩ := hi.answered c' m' t hm' ht
    exact ⟨Nat.lt_succ_of_lt hlt, e, mem_append_left _ he, hrest⟩
  · exact fun x hx => (hi.sends x hx).mono fun _ => id
  · intro entry hentry c' req hcall' hid hne
    rcases hown entry hentry with hold | ⟨req', rfl, hid'⟩
    · obtain ⟨e, he, hec⟩ := hi.own entry hold c' req hcall' hid hne
      exact ⟨e, mem_append_left _ he, hec⟩
    · have : c' = c := hi.ids c' c req req' hcall' hcall (hid.trans hid') hne
      exact ⟨_, hlast, this.symm⟩

def State.start (s : State) (c : Call) : State := { s with calls := s.calls ++ [⟨c, s.clock, none⟩] }

theorem getElem?_start (h : (s.start c).calls[c']? = some m) :
    s.calls[c']? = some m ∨ (c' = s.calls.length ∧ m = ⟨c, s.clock, none⟩) := by
  rw [State.start] at h
  dsimp only at h
  rw [getElem?_append] at h
  split at h
  · exact .inl h
  · obtain ⟨hlt, hm⟩ := List.getElem?_eq_some_iff.1 h
    rw [length_singleton] at hlt
    rw [getElem_singleton] at hm
    exact .inr ⟨by omega, hm.symm⟩

theorem callOf_start {call : Call} (h : (s.start c).callOf c' = some call) :
    s.callOf c' = some call ∨ (c' = s.calls.length ∧ call = c) := by
  obtain ⟨m, hm, rfl⟩ := Option.map_eq_some_iff.1 h
  rcases getElem?_start hm with hm | ⟨hc, rfl⟩
  · exact .inl (by rw [State.callOf, hm]; rfl)
  · exact .inr ⟨hc, rfl⟩

theorem getElem?_start_of (h : s.calls[c']? = some m) : (s.start c).calls[c']? = some m := by
  rw [State.start]
  dsimp only
  rw [List.getElem?_append_left (List.getElem?_eq_some_iff.1 h).1, h]

theorem callOf_start_of {call : Call} (h : s.callOf c' = some call) : (s.start c).callOf c' = some call := by
  obtain ⟨m, hm, rfl⟩ := Option.map_eq_some_iff.1 h
  rw [State.callOf, getElem?_start_of hm]
  rfl

theorem fresh_create (h : s.fresh k (.create req) = true) (hne : req.objectId ≠ []) :
    (∀ c req', s.callOf c = some (.create req') → req'.objectId ≠ req.objectId) ∧
      ∀ entry, s.entry k = some entry → entry.objectId ≠ req.objectId := by
  rw [State.fresh, Bool.or_eq_true, Bool.and_eq_true] at h
  rcases h with h | ⟨hcalls, hentry⟩
  · exact absurd (of_decide_eq_true h) hne
  refine ⟨fun c req' hc => ?_, fun entry he => ?_⟩
  · obtain ⟨m, hm, hcall⟩ := Option.map_eq_some_iff.1 hc
    have hall := all_eq_true.1 hcalls m (mem_of_getElem? hm)
    rw [hcall] at hall
    exact of_decide_eq_true hall
  · rw [he] at hentry
    exact of_decide_eq_true hentry

section
variable (hi : Inv k etag₀ s.clock s)
include hi

theorem Inv.start (hfresh : s.fresh k c = true) : Inv k etag₀ (s.clock + 1) (s.start c) := by
  refine { hi.tick with started := ?_, effects := ?_, answered := ?_, sends := ?_, own := ?_, ids := ?_ }
  · intro m hm
    rcases mem_append.1 hm with hm | hm
    · exact Nat.lt_succ_of_lt (hi.started m hm)
    · rw [mem_singleton.1 hm]
      exact Nat.lt_succ_self _
  · intro e he
    obtain ⟨m, hm, hrest⟩ := hi.effects e he
    exact ⟨m, getElem?_start_of hm, hrest⟩
  · intro c' m t hm ht
    rcases getElem?_start hm with hm | ⟨-, rfl⟩
    · exact hi.tick.answered c' m t hm ht
    · cases ht
  · exact fun x hx => (hi.sends x hx).mono fun _ => callOf_start_of
  · intro entry hentry c' req hcall hid hne
    rcases callOf_start hcall with hcall | ⟨-, rfl⟩
    · exact hi.own entry hentry c' req hcall hid hne
    · exact absurd hid.symm ((fresh_create hfresh hne).2 entry hentry)
  · intro c₁ c₂ req₁ req₂ h₁ h₂ hid hne
    rcases callOf_start h₁ with hold₁ | ⟨hc₁, hnew₁⟩
    · rcases callOf_start h₂ with hold₂ | ⟨-, hnew₂⟩
      · exact hi.ids c₁ c₂ req₁ req₂ hold₁ hold₂ hid hne
      · subst hnew₂
        exact absurd hid ((fresh_create hfresh (hid ▸ hne)).1 c₁ req₁ hold₁)
    · subst hnew₁
      rcases callOf_start h₂ with hold₂ | ⟨hc₂, -⟩
      · exact absurd hid.symm ((fresh_create hfresh hne).1 c₂ req₂ hold₂)
      · rw [hc₁, hc₂]

/-! ### The steps -/

theorem Inv.readCreate {now : Nat} {listingPg : Nat × String} {bucket : Bool} (hx : s.sends[i]? = some x)
    (hcall : s.callOf x.call = some (.create req)) :
    Inv k etag₀ (s.clock + 1) (readCreate k s i x.call now listingPg bucket req) := by
  have hdone : Inv k etag₀ (s.clock + 1) (s.stage i .done) := hi.tick.stage hx trivial
  unfold Listings.readCreate
  split
  · exact hdone
  dsimp only
  split
  · rename_i hagain
    rw [Bool.and_eq_true] at hagain
    obtain ⟨entry, hentry, hown⟩ := (Option.any_eq_true _ _).1 hagain.2
    rw [Bool.and_eq_true] at hown
    have hne : req.objectId ≠ [] := of_decide_eq_true hown.1
    have hid : entry.objectId = req.objectId := of_decide_eq_true hown.2
    obtain ⟨e, he, hec⟩ := hi.own entry hentry x.call req hcall hid.symm hne
    exact Inv.answer hdone rfl ⟨e, he, hec, (hi.ordered.past e he).le⟩
  split
  · exact hdone
  rename_i hnot
  refine hi.tick.stage hx ⟨req, hcall, ?_, rfl, rfl⟩
  cases hcond : req.conditional with
  | false => exact holds_of_not_conditional hcond _
  | true =>
    rw [hcond, Bool.true_and, Bool.not_eq_true', Bool.not_eq_false] at hnot
    exact hnot

theorem Inv.readDelete (hx : s.sends[i]? = some x) (hcall : s.callOf x.call = some (.delete versionId)) :
    Inv k etag₀ (s.clock + 1) (readDelete k s i x.call versionId) := by
  unfold Listings.readDelete
  split
  · rename_i hnone
    obtain ⟨m, hm, hop⟩ := Option.map_eq_some_iff.1 hcall
    have hdone : Inv k etag₀ s.clock (s.stage i .done) := hi.stage hx trivial
    have heffect : Inv k etag₀ (s.clock + 1) ((s.stage i .done).effect x.call (.delete versionId)) := by
      refine Inv.effect hdone rfl s.rows hm hop trivial ?_ fun entry hentry => .inl hentry
      rw [leaves]
      split
      · rename_i hversion
        subst hversion
        show ((s.rows.get (k.listingRow "")).bind k.decode).map _ = none
        rw [hnone]
        rfl
      · rfl
    refine Inv.answer heffect rfl ⟨⟨s.clock, x.call, .delete versionId⟩, ?_, rfl, le_rfl⟩
    exact mem_append_right _ (mem_singleton_self _)
  · rename_i b hb
    exact hi.tick.stage hx (.inr ⟨versionId, b, hcall, rfl⟩)

theorem Inv.readDegraded {now : Nat} {expected : Option Bytes} {entry : ObjectListingEntry}
    (hx : s.sends[i]? = some x) (hst : x.stage = .decided expected now entry)
    (hcall : s.callOf x.call = some (.create req)) :
    Inv k etag₀ (s.clock + 1) (s.stage i (.ready (createOps k s req expected now entry))) := by
  have hok := hi.sends x (mem_of_getElem? hx)
  rw [hst] at hok
  obtain ⟨req', hcall', hholds, hetag, hid⟩ := hok
  rw [hcall] at hcall'
  cases hcall'
  refine hi.tick.stage hx (.inl ⟨req, expected, entry, _, hcall, hholds, hetag, hid, rfl, ?_⟩)
  intro op hop
  split at hop
  · rw [mem_singleton.1 hop]
    exact degradedRow_ne k ""
  · cases hop

end

theorem listingRow_notMem {ops : List CasOp} (h : ∀ op ∈ ops, op.row.key ≠ k.listingRow "") :
    k.listingRow "" ∉ (ops.map CasOp.row).map CompareAndSet.Op.key := by
  intro hmem
  rw [map_map] at hmem
  obtain ⟨op, hop, hkey⟩ := mem_map.1 hmem
  exact h op hop hkey

theorem entry_created (hback : k.ReadsBack) {rows : Rows} {expected : Option Bytes}
    {entry : ObjectListingEntry} {rest : List CasOp} (hrest : ∀ op ∈ rest, op.row.key ≠ k.listingRow "")
    (h : apply s.rows (map CasOp.row (⟨.objectListings,
      (ofLex (k.listingRow "")).2, expected, some (k.encode entry)⟩ :: rest)) = some rows) :
    s.rows.get (k.listingRow "") = expected ∧ State.entry k { s with rows := rows } = some entry := by
  obtain ⟨hexpected, rfl⟩ := apply_eq_some.1 h
  refine ⟨hexpected _ mem_cons_self, ?_⟩
  have hget := get_write_of_notMem
    (m := set s.rows (k.listingRow "") (some (k.encode entry))) (listingRow_notMem hrest)
  rw [get_set, if_pos rfl] at hget
  show Option.bind (OrdMap.get _ _) k.decode = some entry
  rw [map_cons]
  exact (congrArg (fun b => Option.bind b k.decode) hget).trans (hback entry)

theorem entry_deleted {rows : Rows} {b : Bytes}
    (h : apply s.rows (map CasOp.row [⟨.objectListings,
      (ofLex (k.listingRow versionId)).2, some b, none⟩]) = some rows) :
    State.entry k { s with rows := rows } = if versionId = "" then none else s.entry k := by
  obtain ⟨-, rfl⟩ := apply_eq_some.1 h
  have hget : (write s.rows (map CasOp.row [⟨.objectListings,
      (ofLex (k.listingRow versionId)).2, some b, none⟩])).get (k.listingRow "") =
      if k.listingRow "" = k.listingRow versionId then none else s.rows.get (k.listingRow "") :=
    get_write_singleton s.rows _ _
  rw [State.entry]
  dsimp only
  rw [hget]
  by_cases hversion : versionId = ""
  · subst hversion
    rw [if_pos rfl, if_pos rfl]
    rfl
  · rw [if_neg fun heq => hversion (listingRow_eq heq.symm), if_neg hversion]
    rfl

theorem Inv.commit (hback : k.ReadsBack) (hi : Inv k etag₀ s.clock s)
    {ops : List CasOp} {heard : Bool} (hx : s.sends[i]? = some x) (hst : x.stage = .ready ops)
    (hm : s.calls[x.call]? = some m) : Inv k etag₀ (s.clock + 1) (commitOps s i x.call heard m.call ops) := by
  have hok := hi.sends x (mem_of_getElem? hx)
  have hcallOf : s.callOf x.call = some m.call := by
    rw [State.callOf, hm]
    rfl
  rw [hst] at hok
  unfold commitOps
  split
  · exact hi.tick.stage hx trivial
  rename_i rows happly
  have hdone : Inv k etag₀ s.clock (s.stage i .done) := hi.stage hx trivial
  have heffect : Inv k etag₀ (s.clock + 1)
      (({ s with rows := rows }.stage i .done).effect x.call m.call) := by
    rcases hok with ⟨req, expected, entry, rest, hcall, hholds, hetag, hid, rfl, hrest⟩ |
      ⟨versionId, b, hcall, rfl⟩
    · obtain ⟨hexpected, hentry⟩ := entry_created hback hrest happly
      rw [hcallOf] at hcall
      have hop : m.call = .create req := Option.some.inj hcall
      refine Inv.effect hdone rfl rows hm rfl ?_ ?_ fun entry' hentry' => .inr ⟨req, hop, ?_⟩
      · rw [hop]
        show req.holds (Option.map _ (Option.bind (s.rows.get (k.listingRow "")) k.decode)) = true
        rw [hexpected]
        exact hholds
      · rw [hop]
        show Option.map _ (State.entry k { s with rows := rows }) = some req.etag
        rw [hentry, Option.map_some, hetag]
      · have : State.entry k { s with rows := rows } = some entry' := hentry'
        rw [hentry] at this
        cases this
        exact hid
    · rw [hcallOf] at hcall
      have hop : m.call = .delete versionId := Option.some.inj hcall
      have hentry := entry_deleted happly
      refine Inv.effect hdone rfl rows hm rfl ?_ ?_ fun entry' hentry' => .inl ?_
      · rw [hop]
        trivial
      · rw [hop, leaves]
        refine (congrArg _ hentry).trans ?_
        split <;> rfl
      · have : State.entry k { s with rows := rows } = some entry' := hentry'
        rw [hentry] at this
        split at this
        · cases this
        · exact this
  dsimp only
  split
  · refine Inv.answer heffect rfl ⟨⟨s.clock, x.call, m.call⟩, ?_, rfl, le_rfl⟩
    exact mem_append_right _ (mem_singleton_self _)
  · exact heffect

theorem Inv.move (hback : k.ReadsBack) (hi : Inv k etag₀ s.clock s) {e : Event}
    (h : move k s e = some s') : Inv k etag₀ (s.clock + 1) s' := by
  cases e with
  | call c =>
    rw [Listings.move] at h
    split at h
    · rename_i hfresh
      cases h
      exact hi.start hfresh
    · cases h
  | send c =>
    rw [Listings.move] at h
    split at h
    · cases h
      refine { hi.tick with sends := ?_ }
      intro x hx
      rcases mem_append.1 hx with hx | hx
      · exact hi.sends x hx
      · rw [mem_singleton.1 hx]
        trivial
    · cases h
  | read i now listingPg bucket =>
    obtain ⟨x, hx, h⟩ := Option.bind_eq_some_iff.1 h
    split at h
    · obtain ⟨m, hm, rfl⟩ := Option.map_eq_some_iff.1 h
      have hcall : s.callOf x.call = some m.call := by
        rw [State.callOf, hm]
        rfl
      split
      · rename_i req hreq
        exact hi.readCreate hx (hreq ▸ hcall)
      · rename_i versionId hversion
        exact hi.readDelete hx (hversion ▸ hcall)
    · cases h
  | readDegraded i =>
    obtain ⟨x, hx, h⟩ := Option.bind_eq_some_iff.1 h
    split at h
    · rename_i expected now entry hst
      obtain ⟨m, hm, h⟩ := Option.bind_eq_some_iff.1 h
      split at h
      · rename_i req hreq
        cases h
        refine hi.readDegraded hx hst ?_
        rw [State.callOf, hm, ← hreq]
        rfl
      · cases h
    · cases h
  | commit i heard =>
    obtain ⟨x, hx, h⟩ := Option.bind_eq_some_iff.1 h
    split at h
    · rename_i ops hst
      obtain ⟨m, hm, rfl⟩ := Option.map_eq_some_iff.1 h
      exact hi.commit hback hx hst hm
    · cases h
  | other ops =>
    rw [Listings.move] at h
    split at h
    · rename_i hspares
      obtain ⟨rows, happly, rfl⟩ := Option.map_eq_some_iff.1 h
      obtain ⟨-, rfl⟩ := apply_eq_some.1 happly
      have hnot := listingRow_notMem fun op hop => of_decide_eq_true (all_eq_true.1 hspares op hop)
      have hentry : State.entry k { s with rows := write s.rows (ops.map CasOp.row) } = s.entry k := by
        rw [State.entry, State.entry, get_write_of_notMem hnot]
      refine { hi.tick with listed := ?_, sends := ?_, own := ?_ }
      · rw [hentry]
        exact hi.listed
      · exact fun x hx => (hi.sends x hx).mono fun _ => id
      · intro entry he
        rw [hentry] at he
        exact hi.own entry he
    · cases h

theorem Inv.step (hback : k.ReadsBack) (hi : Inv k etag₀ s.clock s) {e : Event}
    (h : step k s e = some s') : Inv k etag₀ s'.clock s' := by
  obtain ⟨m, hm, rfl⟩ := Option.map_eq_some_iff.1 h
  have hm := hi.move hback hm
  refine { hm with sends := ?_ }
  exact fun x hx => (hm.sends x hx).mono fun _ => id

theorem replay_isSome : ∀ {l : List Call} {etag : Option String}, etag.isSome →
    (∀ op ∈ l, op ≠ .delete "") → (replay leaves etag l).isSome := by
  intro l
  induction l with
  | nil => exact fun h _ => h
  | cons op l ih =>
    intro etag h hno
    refine ih ?_ fun op' hop' => hno op' (mem_cons_of_mem _ hop')
    cases op with
    | create req => rfl
    | delete versionId =>
      rw [leaves, if_neg fun hversion => hno _ mem_cons_self (by rw [hversion])]
      exact h

theorem delete_between {l : List Call} (hlegal : Legal leaves allowed etag₀ l) {j : Nat}
    {req' : CreateObjectRequest} (hij : i < j) (hi : l[i]? = some (.create req))
    (hj : l[j]? = some (.create req')) (hnone : req'.ifNoneMatch = "*") :
    ∃ d, i < d ∧ d < j ∧ l[d]? = some (.delete "") := by
  by_contra hno
  have hholds : req'.holds (replay leaves etag₀ (l.take j)) = true := hlegal.holds hj
  have hsplit : l.take j = l.take (i + 1) ++ (l.drop (i + 1)).take (j - (i + 1)) := by
    rw [← take_add, Nat.add_sub_cancel' hij]
  have hlast : l.take (i + 1) = l.take i ++ [.create req] := by
    rw [take_add_one, hi]
    rfl
  have hmid : (replay leaves etag₀ (l.take (i + 1))).isSome := by
    rw [hlast, replay_concat]
    rfl
  have hsome : (replay leaves etag₀ (l.take j)).isSome := by
    rw [hsplit, replay, foldl_append]
    refine replay_isSome hmid fun op hop heq => hno ?_
    subst heq
    obtain ⟨d, hd⟩ := mem_iff_getElem?.1 hop
    rw [getElem?_take] at hd
    split at hd
    · rw [getElem?_drop] at hd
      exact ⟨i + 1 + d, by omega, by omega, hd⟩
    · cases hd
  obtain ⟨etag, hetag⟩ := Option.isSome_iff_exists.1 hsome
  rw [hetag] at hholds
  simp [CreateObjectRequest.holds, etagMatches, hnone] at hholds

/-- **Every call that is answered took effect at one moment between its start and its answer**, and each
conditional create's condition held of the entry the effects before it left; a create applied again took
effect once more. -/
theorem creates_linearizable (hback : k.ReadsBack) {s₀ : State} {events : List Event}
    (hcalls : s₀.calls = []) (hsends : s₀.sends = []) (horder : s₀.order = [])
    (hrun : Steps.run (step k) s₀ events = some s) : Legal leaves allowed ((s₀.entry k).map (·.etag)) s.ops ∧
    (s.entry k).map (·.etag) = replay leaves ((s₀.entry k).map (·.etag)) s.ops ∧ (∃ place : Nat → Nat,
      (∀ (c : Nat) (m : Made), s.calls[c]? = some m → m.answered.isSome →
        ∃ moment, s.order[place c]? = some (Effect.mk moment c m.call)) ∧
      ∀ (c c' : Nat) (m m' : Made) (t : Nat), s.calls[c]? = some m → m.answered = some t →
        s.calls[c']? = some m' → m'.answered.isSome → t < m'.started → place c < place c') ∧
    ∀ (i j : Nat) (req req' : CreateObjectRequest), i < j → s.ops[i]? = some (Call.create req) →
      s.ops[j]? = some (Call.create req') → req'.ifNoneMatch = "*" →
      ∃ d, i < d ∧ d < j ∧ s.ops[d]? = some (Call.delete "") := by
  have hinit : Inv k ((s₀.entry k).map (·.etag)) s₀.clock s₀ := by
    have hnone : ∀ c, s₀.callOf c = none := by
      intro c
      rw [State.callOf, hcalls]
      rfl
    have hops : s₀.ops = [] := by
      rw [State.ops, horder]
      rfl
    refine ⟨horder ▸ Ordered.nil _, hops ▸ trivial, hops ▸ rfl, ?_, ?_, ?_, ?_, ?_, ?_⟩
    · exact fun m hm => absurd (hcalls ▸ hm) not_mem_nil
    · exact fun e he => absurd (horder ▸ he) not_mem_nil
    · intro c m t hm
      rw [hcalls] at hm
      cases hm
    · exact fun x hx => absurd (hsends ▸ hx) not_mem_nil
    · intro entry _ c req hc
      rw [hnone] at hc
      cases hc
    · intro c c' req req' hc
      rw [hnone] at hc
      cases hc
  have hi := run_invariant (fun _ _ _ hi hstep => Inv.step hback hi hstep) events s₀ s hinit hrun
  have hplace : ∀ c : Nat, ∃ i : Nat, ∀ (m : Made) (t : Nat), s.calls[c]? = some m →
      m.answered = some t → ∃ moment, s.order[i]? = some (Effect.mk moment c m.call) ∧
        m.started < moment ∧ moment ≤ t := by
    intro c
    by_cases hans : ∃ m t, s.calls[c]? = some m ∧ m.answered = some t
    · obtain ⟨m, t, hm, ht⟩ := hans
      obtain ⟨-, e, he, rfl, hle⟩ := hi.answered c m t hm ht
      obtain ⟨m', hm', hop, hlt⟩ := hi.effects e he
      obtain ⟨i, hi⟩ := mem_iff_getElem?.1 he
      rw [hm] at hm'
      cases hm'
      refine ⟨i, fun m₁ t₁ hm₁ ht₁ => ⟨e.moment, ?_⟩⟩
      rw [hm] at hm₁
      cases hm₁
      rw [ht] at ht₁
      cases ht₁
      exact ⟨hop ▸ hi, hlt, hle⟩
    · exact ⟨0, fun m t hm ht => absurd ⟨m, t, hm, ht⟩ hans⟩
  choose place hplace using hplace
  refine ⟨hi.legal, hi.listed, ⟨place, fun c m hm hans => ?_, ?_⟩, ?_⟩
  · obtain ⟨t, ht⟩ := Option.isSome_iff_exists.1 hans
    obtain ⟨moment, horder, -⟩ := hplace c m t hm ht
    exact ⟨moment, horder⟩
  · intro c c' m m' t hm ht hm' hans' hlt
    obtain ⟨t', ht'⟩ := Option.isSome_iff_exists.1 hans'
    obtain ⟨moment, hc, -, hle⟩ := hplace c m t hm ht
    obtain ⟨moment', hc', hlt', -⟩ := hplace c' m' t' hm' ht'
    refine hi.ordered.index_lt hc hc' ?_
    dsimp only
    omega
  · intro i j req req' hij hfirst hsecond hnone
    exact delete_between hi.legal hij hfirst hsecond hnone

/-! ## Three creates -/

section Sample

open ProtoWire

def createX : CreateObjectRequest := { etag := "x", objectId := [1], pgId := 3, pool := "p" }

def createZ : CreateObjectRequest :=
  { etag := "z", objectId := [2], pgId := 3, pool := "p", ifMatch := "\"x\"" }

def createW : CreateObjectRequest :=
  { etag := "w", objectId := [3], pgId := 3, pool := "p", ifMatch := "\"x\"" }

def createY : CreateObjectRequest :=
  { etag := "y", objectId := [4], pgId := 3, pool := "p", ifNoneMatch := "*" }

def sampleEntries : List ObjectListingEntry :=
  [createX, createZ, createW, createY].map fun req => newEntry req 1700000000 (3, "p")

def wireEntry (e : ObjectListingEntry) : Bytes :=
  lenField 0x0a (asciiBytes "b") ++ lenField 0x12 (asciiBytes "k") ++ uintField 0x18 e.size ++
    lenField 0x22 (asciiBytes e.etag) ++ lenField 0x2a (asciiBytes e.contentType) ++
    uintField 0x30 e.createdAt ++ uintField 0x38 e.modifiedAt ++
    lenField 0x52 (asciiBytes e.storageClass) ++ lenField 0x62 e.primaryOsdId ++
    uintField 0x68 e.pgId ++ lenField 0x72 (asciiBytes e.pool) ++ lenField 0x7a e.objectId

local instance byteCode : Encodable UInt8 :=
  .ofLeftInverse UInt8.toNat UInt8.ofNat fun _ => UInt8.ofNat_toNat

local instance charCode : Encodable Char := .ofLeftInverse Char.toNat Char.ofNat Char.ofNat_toNat

local instance textCode : Encodable String :=
  .ofLeftInverse String.toList String.ofList fun _ => String.ofList_toList

local instance entryCode : Encodable ObjectListingEntry :=
  .ofLeftInverse
    (fun e => (e.size, e.etag, e.contentType, e.createdAt, e.modifiedAt, e.storageClass,
      e.userMetadata, e.primaryOsdId, e.pgId, e.pool, e.objectId))
    (fun (size, etag, contentType, createdAt, modifiedAt, storageClass, userMetadata, primaryOsdId,
      pgId, pool, objectId) => ⟨size, etag, contentType, createdAt, modifiedAt, storageClass,
        userMetadata, primaryOsdId, pgId, pool, objectId⟩)
    fun _ => rfl

def sampleKey : Key where
  bucket := "b"
  key := "k"
  encode e := if e ∈ sampleEntries then wireEntry e else replicate (Encodable.encode e) 0
  decode b := (sampleEntries.find? fun e => wireEntry e = b).or (Encodable.decode b.length)
  encodeDegraded _ := []
  decodeDegraded _ := none

theorem sampleKey_readsBack : sampleKey.ReadsBack := by
  intro e
  by_cases he : e ∈ sampleEntries
  · have hall : ∀ e ∈ sampleEntries, sampleKey.decode (wireEntry e) = some e := by decide +kernel
    have henc : sampleKey.encode e = wireEntry e := if_pos he
    rw [henc]
    exact hall e he
  · have henc : sampleKey.encode e = replicate (Encodable.encode e) 0 := if_neg he
    have hhead : ∀ e ∈ sampleEntries, (wireEntry e).head? = some 0x0a := by decide +kernel
    have hnone : (sampleEntries.find? fun e' =>
        wireEntry e' = replicate (Encodable.encode e) 0) = none := by
      rw [find?_eq_none]
      intro e' he' heq
      have hfirst := hhead e' he'
      rw [of_decide_eq_true heq, head?_replicate] at hfirst
      split at hfirst
      · cases hfirst
      · exact absurd (Option.some.inj hfirst) (by decide)
    have hdec : ∀ b, sampleKey.decode b =
        (sampleEntries.find? fun e => wireEntry e = b).or (Encodable.decode b.length) := fun _ => rfl
    rw [henc, hdec, hnone, length_replicate, Option.none_or]
    exact Encodable.encodek e

/-- The create `X` is applied and its answer lost, `Z` replaces it, `X` is sent again, and `W` replaces that.
-/
def resentRun : List Event :=
  [.call (.create createX), .send 0, .read 0 1700000000 (3, "p") true, .readDegraded 0, .commit 0 false,
    .call (.create createZ), .send 1, .read 1 1700000000 (3, "p") true, .readDegraded 1, .commit 1 true,
    .send 0, .read 2 1700000000 (3, "p") true, .readDegraded 2, .commit 2 true,
    .call (.create createW), .send 2, .read 3 1700000000 (3, "p") true, .readDegraded 3, .commit 3 true]

/-- **A create sent again may take effect twice.** In no order of the three calls do both conditions hold. -/
theorem resent_create_applied_twice :
    ∃ s, Steps.run (step sampleKey) ⟨OrdMap.empty, 0, [], [], []⟩ resentRun = some s ∧
      s.calls.map Made.call = [.create createX, .create createZ, .create createW] ∧
      (∀ m ∈ s.calls, m.answered.isSome) ∧
      ∀ order, order.Perm (s.calls.map Made.call) → ¬ Legal leaves allowed none order := by
  obtain ⟨s, hrun, hcalls, hanswered⟩ : ∃ s, run (step sampleKey) ⟨empty, 0, [], [], []⟩ resentRun = some s ∧
        s.calls.map Made.call = [.create createX, .create createZ, .create createW] ∧
        ∀ m ∈ s.calls, m.answered.isSome := by
    decide +kernel
  have horders : ∀ order ∈ [Call.create createX, .create createZ, .create createW].permutations',
      ¬ Legal leaves allowed none order := by
    decide +kernel
  refine ⟨s, hrun, hcalls, hanswered, fun order horder => ?_⟩
  rw [hcalls] at horder
  exact horders order (mem_permutations'.2 horder)

def contendedRun : List Event :=
  [.call (.create createX), .call (.create createY), .send 0, .send 1,
    .read 0 1700000000 (3, "p") true, .read 1 1700000000 (3, "p") true, .readDegraded 0,
    .readDegraded 1, .commit 0 true, .commit 1 true,
    .call (.delete ""), .send 2, .read 2 0 (0, "") true, .commit 2 true,
    .send 1, .read 3 1700000000 (3, "p") true, .readDegraded 3, .commit 3 true]

theorem contendedRun_linearizable :
    ∃ s, Steps.run (step sampleKey) ⟨OrdMap.empty, 0, [], [], []⟩ contendedRun = some s ∧
      s.ops = [.create createX, .delete "", .create createY] ∧
      Legal leaves allowed none s.ops ∧ (s.entry sampleKey).map (·.etag) = some "y" := by
  obtain ⟨s, hrun, hops⟩ : ∃ s, run (step sampleKey) ⟨empty, 0, [], [], []⟩ contendedRun = some s ∧
        s.ops = [.create createX, .delete "", .create createY] := by
    decide +kernel
  obtain ⟨hlegal, hlisted, -⟩ := creates_linearizable sampleKey_readsBack rfl rfl rfl hrun
  refine ⟨s, hrun, hops, hlegal, ?_⟩
  rw [hlisted, hops]
  decide +kernel

end Sample

end IoLake.Meta.Listings
