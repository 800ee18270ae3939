import IoLake.Lib.Steps
import IoLake.Gateway.MetaCalls

/-!
# One key's copies and the gateways that write and read it

`World` is the `n` copies of one key, the calls of every gateway so far, and the requests on their way.
`step` is one event: a call starts or comes to the end of a round; a request reaches its copy, its answer
heard or lost (`deliver`), or never arrives (`refuse`); the caller stops waiting for a copy, whose request may
still arrive at any later time (`giveUpPut`, `giveUpDelete`); a small write short of its quorum asks the
copies that did not answer (`ask`), is decided and withdrawn; a copy answers a read, or fails to.

A request that is never delivered is lost.  The clock of each event is whatever the gateway's is.
-/

namespace IoLake.Gateway

open IoLake.Proto IoLake.Osd Function

/-- What is fixed over a run: what ids say of their age, and which node each copy is on. -/
structure Config (n : Nat) where
  uuid : Uuids
  node : Fin n → Bytes

/-- A request on its way to a copy, from the call of that number and its round. -/
inductive Msg (n : Nat) where
  | put (call round : Nat) (copy : Fin n) (req : PutObjectMetaRequest)
  | delete (call round : Nat) (copy : Fin n) (req : DeleteObjectMetaRequest)
  | withdraw (call : Nat) (copy : Fin n) (objectId : Bytes)

/-- A read under way: its answers in the order they came, `none` for a copy that failed. -/
structure Read (n : Nat) where
  versionId : Bytes
  atQuorum : Bool
  withSmallShard : Bool
  arrivals : List (Fin n × Option Answer) := []

namespace Read

variable {n : Nat}

def result (r : Read n) : Except ReadError (Option ObjectMeta) :=
  readObjectMeta n r.atQuorum r.withSmallShard (r.arrivals.map (·.2))

def awaits (r : Read n) (i : Fin n) : Bool := !(r.arrivals.map (·.1)).contains i

end Read

structure World (n : Nat) where
  copies : Fin n → KeyEntries := fun _ => {}
  puts : List (PutCall n) := []
  deletes : List (DeleteCall n) := []
  reads : List (Read n) := []
  net : List (Msg n) := []

inductive Event (n : Nat) where
  | startPut (write : MetaWrite) (object : ObjectMeta) (clock : Clock)
  | startDelete (versionId : Bytes) (pg : Option PgId) (clock : Clock)
  | startRead (versionId : Bytes) (atQuorum withSmallShard : Bool)
  | deliver (msg : Nat) (heard : Bool)
  | refuse (msg : Nat)
  | giveUpPut (call : Nat) (copy : Fin n)
  | giveUpDelete (call : Nat) (copy : Fin n)
  | endPutRound (call : Nat) (clock : Clock)
  | endDeleteRound (call : Nat) (clock : Clock)
  | ask (call : Nat) (copy : Fin n)
  | decide (call : Nat) (deadline : Bool)
  | sendWithdraw (call : Nat) (copy : Fin n)
  | readAnswer (read : Nat) (copy : Fin n) (small : Option SmallShard)
  | readFail (read : Nat) (copy : Fin n)

variable {n : Nat}

/-! ## Answers -/

def PutCall.hear (c : PutCall n) (round : Nat) (i : Fin n) (a : Slot (Displaced × Nat)) : PutCall n :=
  if c.round = round ∧ (c.slots i).isWaiting = true then
    { c with slots := update c.slots i a }
  else c

def DeleteCall.hear (c : DeleteCall n) (round : Nat) (i : Fin n) (a : Slot DeleteObjectMetaResponse) :
    DeleteCall n :=
  if c.round = round ∧ (c.slots i).isWaiting = true then
    { c with slots := update c.slots i a }
  else c

def PutCall.withdrawn (c : PutCall n) (i : Fin n) : PutCall n :=
  match c.phase with
  | .withdrawing left => { c with phase := .withdrawing (update left i false) }
  | _ => c

def putAnswer : Except Status (KeyEntries × PutObjectMetaResponse) → Slot (Displaced × Nat)
  | .ok (_, resp) => .ok ({
      replaced := resp.replaced
      versionKept := resp.replacedVersionKept
      superseded := resp.superseded }, resp.heldStamp)
  | .error _ => .failed true

def putEntries (s : KeyEntries) : Except Status (KeyEntries × PutObjectMetaResponse) → KeyEntries
  | .ok (s', _) => s'
  | .error _ => s

namespace World

def deliverMsg (cfg : Config n) (w : World n) (heard : Bool) : Msg n → World n
  | .put call round i req =>
    let answer := putObjectMeta cfg.uuid (w.copies i) req
    { w with
      copies := update w.copies i (putEntries (w.copies i) answer)
      puts := if heard then w.puts.modify call (·.hear round i (putAnswer answer)) else w.puts }
  | .delete call round i req =>
    let answer := deleteObjectMeta cfg.uuid (w.copies i) req
    { w with
      copies := update w.copies i answer.1
      deletes := if heard then w.deletes.modify call (·.hear round i (.ok answer.2)) else w.deletes }
  | .withdraw call i objectId =>
    { w with
      copies := update w.copies i (withdraw cfg.uuid (w.copies i) objectId).1
      puts := if heard then w.puts.modify call (·.withdrawn i) else w.puts }

def refuseMsg (w : World n) : Msg n → World n
  | .put call round i _ => { w with puts := w.puts.modify call (·.hear round i (.failed true)) }
  | .delete call round i _ =>
    { w with deletes := w.deletes.modify call (·.hear round i (.failed true)) }
  | .withdraw _ _ _ => w

def sendPut (w : World n) (call : Nat) (c : PutCall n) : List (Msg n) :=
  w.net ++ (List.finRange n).map (fun i => .put call c.round i c.request)

def sendDelete (w : World n) (call : Nat) (c : DeleteCall n) : List (Msg n) :=
  w.net ++ (List.finRange n).map (fun i => .delete call c.round i c.request)

end World

def copyHolds (s : KeyEntries) (object : ObjectMeta) : Bool :=
  s.current.any (fun o => o.objectId == object.objectId) ||
    (object.versionId != [] && (s.versions.get object.versionId).any (fun o => o.objectId == object.objectId))

def PutCall.asked (c : PutCall n) (i : Fin n) (s : KeyEntries) : Option (PutCall n) :=
  match c.phase with
  | .asking holds unsure suspects =>
    if unsure i then
      let holds := update holds i (copyHolds s c.object)
      some { c with phase := .asking holds (update unsure i false) suspects }
    else none
  | _ => none

/-- Kept once enough copies hold it; withdrawn once they cannot, or when time is up. -/
def PutCall.decided (c : PutCall n) (deadline : Bool) : Option (PutCall n) :=
  match c.phase with
  | .asking holds unsure suspects =>
    if c.needed ≤ count holds then some { c with phase := .refused }
    else if count holds + count unsure < c.needed ∨ deadline = true then
      some { c with phase := .withdrawing suspects }
    else none
  | _ => none

def PutCall.withdrawsFrom (c : PutCall n) (i : Fin n) : Bool :=
  match c.phase with
  | .withdrawing left => left i
  | _ => false

def PutCall.running (c : PutCall n) : Bool :=
  match c.phase with
  | .running => true
  | _ => false

def step (cfg : Config n) (w : World n) : Event n → Option (World n)
  | .startPut write object clock =>
    if h : 0 < n then
      let c : PutCall n := PutCall.start write object (cfg.node ⟨0, h⟩) clock
      some { w with puts := w.puts ++ [c], net := w.sendPut w.puts.length c }
    else none
  | .startDelete versionId pg clock =>
    let c : DeleteCall n := DeleteCall.start versionId pg clock
    some { w with deletes := w.deletes ++ [c], net := w.sendDelete w.deletes.length c }
  | .startRead versionId atQuorum withSmallShard =>
    if 0 < n then some { w with reads := w.reads ++ [{ versionId, atQuorum, withSmallShard }] }
    else none
  | .deliver k heard =>
    match w.net[k]? with
    | some m => some ({ w with net := w.net.eraseIdx k }.deliverMsg cfg heard m)
    | none => none
  | .refuse k =>
    match w.net[k]? with
    | some m => some ({ w with net := w.net.eraseIdx k }.refuseMsg m)
    | none => none
  | .giveUpPut c i =>
    match w.puts[c]? with
    | some p => some { w with puts := w.puts.set c (p.hear p.round i (.failed false)) }
    | none => none
  | .giveUpDelete c i =>
    match w.deletes[c]? with
    | some p => some { w with deletes := w.deletes.set c (p.hear p.round i (.failed false)) }
    | none => none
  | .endPutRound c clock =>
    match w.puts[c]? with
    | some p =>
      if p.running = true ∧ ∀ i, (p.slots i).isWaiting = false then
        let p' := p.endRound clock
        some { w with
          puts := w.puts.set c p'
          net := if p.again then w.sendPut c p' else w.net }
      else none
    | none => none
  | .endDeleteRound c clock =>
    match w.deletes[c]? with
    | some p =>
      if p.returned.isNone = true ∧ ∀ i, (p.slots i).isWaiting = false then
        let p' := p.endRound clock
        some { w with
          deletes := w.deletes.set c p'
          net := if p.again then w.sendDelete c p' else w.net }
      else none
    | none => none
  | .ask c i =>
    match w.puts[c]? with
    | some p => (p.asked i (w.copies i)).map (fun p' => { w with puts := w.puts.set c p' })
    | none => none
  | .decide c deadline =>
    match w.puts[c]? with
    | some p => (p.decided deadline).map (fun p' => { w with puts := w.puts.set c p' })
    | none => none
  | .sendWithdraw c i =>
    match w.puts[c]? with
    | some p =>
      if p.withdrawsFrom i then
        some { w with net := w.net ++ [.withdraw c i p.object.objectId] }
      else none
    | none => none
  | .readAnswer r i small =>
    match w.reads[r]? with
    | some rd =>
      if rd.awaits i then
        let a := objectMetaAnswer (w.copies i) rd.versionId
        let arrivals := rd.arrivals ++ [(i, some ⟨a.object, a.tombstoneStamp, small⟩)]
        some { w with reads := w.reads.set r { rd with arrivals } }
      else none
    | none => none
  | .readFail r i =>
    match w.reads[r]? with
    | some rd =>
      if rd.awaits i then
        some { w with reads := w.reads.set r { rd with arrivals := rd.arrivals ++ [(i, none)] } }
      else none
    | none => none

def run (cfg : Config n) (es : List (Event n)) : Option (World n) := Steps.run (step cfg) {} es

end IoLake.Gateway
