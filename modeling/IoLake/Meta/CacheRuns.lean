import IoLake.Meta.Caches

/-!
# Caches and tables over whole runs

Meta nodes that apply one log.  Once its own node has applied a request's entry, the request puts what it
wrote into the node's maps, at any later time or never.  A node's listener handles the events of its applied
entries in order.  A node may crash, start again and load its maps, and install a snapshot of another.
-/

namespace IoLake.Meta.Caches

open ByteFormat MetaStore Overwrites List Option Function

variable {R : Type}

/-! ## Requests -/

abbrev Mirror (R : Type) := RowKey × Option (Cached R)

structure Proposal (R : Type) where
  cmd : MetaCommand
  mirrors : List (Mirror R)

section
variable (d : Decoders R) (cache : Cache R) (key : String) (ops : List CasOp) (policyName : Bytes)

def attachedTo : Option (List Bytes) :=
  match cache (rowKey "policy_attachments" key) with
  | some (.attachments names) => some names
  | _ => none

/-- `attach_policy`, of a policy and a principal that are there; `none` where nothing is to be done. -/
def attachPolicy : Option (Proposal R) :=
  let current := (attachedTo cache key).getD []
  if policyName ∈ current then none
  else
    let after := current ++ [policyName]
    some {
      cmd := .multiCas [{
        table := .policyAttachments, key,
        expected := if current.isEmpty then none else some (joinNames current)
        newValue := some (joinNames after) }] "attach-policy"
      mirrors := [(rowKey "policy_attachments" key, some (.attachments after))] }

def detachPolicy : Option (Proposal R) :=
  match attachedTo cache key with
  | none => none
  | some current =>
    if policyName ∈ current then
      let after := current.filter (· ≠ policyName)
      some {
        cmd := .multiCas [{
          table := .policyAttachments, key,
          expected := some (joinNames current)
          newValue := if after.isEmpty then none else some (joinNames after) }] "detach-policy"
        mirrors := [(rowKey "policy_attachments" key,
          if after.isEmpty then none else some (.attachments after))] }
    else none

def expectedRefs : Option Bytes :=
  match cache (rowKey "stripe_refs" key) with
  | some (.record r) => some (d.encodeStripeRefs r)
  | _ => none

def writeStripeRefs (changes : List (String × Option R))
    (requestedBy : String) : Option (Proposal R) :=
  if changes.isEmpty then none
  else some {
    cmd := .multiCas (changes.map fun c => {
      table := .named "stripe_refs", key := c.1
      expected := expectedRefs d cache c.1
      newValue := c.2.map d.encodeStripeRefs }) requestedBy
    mirrors := changes.map fun c => (rowKey "stripe_refs" c.1, c.2.map .record) }

def mirrorOf (table key : String) (v : Option Bytes) : Option (Mirror R) :=
  (d.put table v).map fun x => (rowKey table key, x)

def blockGet (table key : String) : Option Bytes :=
  match cache (rowKey table key) with
  | some (.raw b) => some b
  | _ => none

def blockCommit (ops : List (String × String × Option Bytes))
    (requestedBy : String) : Option (Proposal R) :=
  if ops.isEmpty then none
  else some {
    cmd := .multiCas (ops.map fun op => {
      table := .named op.1, key := op.2.1
      expected := if op.1 = "stripe_refs" then expectedRefs d cache op.2.1
        else blockGet cache op.1 op.2.1
      newValue := op.2.2 }) requestedBy
    mirrors := ops.filterMap fun op => mirrorOf d op.1 op.2.1 op.2.2 }

/-- `mirror_landed`: the tables that the listener has no handler for. -/
def mirrorLanded : List (Mirror R) :=
  ops.filterMap fun op =>
    match op.table with
    | .groups | .policyAttachments | .iamPolicies | .deltaShares | .deltaTables =>
      mirrorOf d (casTableName op.table) op.key op.newValue
    | _ => none

def casInOrder (what : String) : Option (Proposal R) :=
  if ops.isEmpty then none
  else some { cmd := .multiCas ops what, mirrors := mirrorLanded d ops }

end

inductive Request (R : Type) where
  | attachPolicy (key : String) (policyName : Bytes)
  | detachPolicy (key : String) (policyName : Bytes)
  | writeStripeRefs (changes : List (String × Option R)) (requestedBy : String)
  | blockCommit (ops : List (String × String × Option Bytes)) (requestedBy : String)
  | casInOrder (ops : List CasOp) (what : String)
  | other (cmd : MetaCommand) (mirrors : List (Mirror R))

def propose (d : Decoders R) (cache : Cache R) : Request R → Option (Proposal R)
  | .attachPolicy key policyName => attachPolicy cache key policyName
  | .detachPolicy key policyName => detachPolicy cache key policyName
  | .writeStripeRefs changes requestedBy => writeStripeRefs d cache changes requestedBy
  | .blockCommit ops requestedBy => blockCommit d cache ops requestedBy
  | .casInOrder ops what => casInOrder d ops what
  | .other cmd mirrors => some ⟨cmd, mirrors⟩

def wellFormed (d : Decoders R) : MetaCommand → Bool
  | .multiCas ops _ => ops.all fun op =>
      wellKeyed op.table op.key &&
        (!CACHED.contains (casTableName op.table) || (d.put (casTableName op.table) op.newValue).isSome)
  | .batch _ => false
  | _ => true

/-! ## Nodes -/

structure Node (R : Type) where
  current : Database := {}
  durable : Database := {}
  queue : List ApplyEvent := []
  cache : Cache R := fun _ => none
  /-- The requests that wait for the entry at an index, with what they put into the maps then. -/
  waiting : List (Nat × List (Mirror R)) := []
  landed : List (Mirror R) := []

structure World (R : Type) where
  log : List Entry := []
  nodes : Nat → Node R := fun _ => {}
  snapshots : List Snapshot := []

def World.set (w : World R) (i : Nat) (n : Node R) : World R :=
  { w with nodes := fun j => if j = i then n else w.nodes j }

inductive Event (R : Type) where
  | request (i : Nat) (r : Request R)
  | apply (i : Nat)
  | listen (i now : Nat)
  | mirror (i j : Nat)
  | cut (i j : Nat)
  | checkpoint (i : Nat)
  | restart (i now : Nat)
  | takeSnapshot (i : Nat)
  | installSnapshot (i s : Nat)

def succeeded : MetaResponse → Bool
  | .multiCasOk | .configSet _ | .configDeleted _ | .osdAdminStateSet _ _ => true
  | _ => false

def Node.apply (codec : Records) (n : Node R) (entry : Entry) : Option (Node R) :=
  match applyEntry codec n.current entry with
  | .error _ => none
  | .ok (db, answer, events) =>
    some { n with
      current := db
      queue := n.queue ++ events
      waiting := n.waiting.filter fun r => r.1 ≠ n.current.next
      landed := n.landed ++
        if succeeded answer then (n.waiting.filter fun r => r.1 = n.current.next).flatMap Prod.snd
        else [] }

section
variable (d : Decoders R) (now : Nat) (n : Node R)

def Node.load : Node R :=
  let loaded := { n.current with rows := seededRows d now n.current.rows }
  { n with
    current := loaded
    durable := if builtins.any (missing d.policies n.current.rows) then loaded else n.durable
    cache := loadCaches d now n.current.rows }

def Node.listen : Option (Node R) :=
  match n.queue with
  | [] => none
  | .snapshotInstalled :: rest => some ({ n with queue := rest }.load d now)
  | .multiCasOp table key v :: rest =>
    some { n with queue := rest, cache := handle d n.cache table key v }

def Node.restart : Node R :=
  { n with current := n.durable, queue := [], waiting := [], landed := [] }.load d now

end

variable (codec : Records) (d : Decoders R)

def step (w : World R) : Event R → Option (World R)
  | .request i r =>
    match propose d (w.nodes i).cache r with
    | none => some w
    | some p =>
      if wellFormed d p.cmd then
        let index := w.log.length
        some { w.set i { w.nodes i with waiting := (w.nodes i).waiting ++ [(index, p.mirrors)] } with
          log := w.log ++ [⟨⟨0, i, index⟩, .normal p.cmd⟩] }
      else none
  | .apply i =>
    w.log[(w.nodes i).current.next]?.bind fun entry =>
      ((w.nodes i).apply codec entry).map (w.set i)
  | .listen i now => ((w.nodes i).listen d now).map (w.set i)
  | .mirror i j =>
    (w.nodes i).landed[j]?.map fun m =>
      w.set i { w.nodes i with
        cache := update (w.nodes i).cache m.1 m.2
        landed := (w.nodes i).landed.eraseIdx j }
  | .cut i j => some (w.set i { w.nodes i with landed := (w.nodes i).landed.eraseIdx j })
  | .checkpoint i => some (w.set i { w.nodes i with durable := (w.nodes i).current })
  | .restart i now => some (w.set i ((w.nodes i).restart d now))
  | .takeSnapshot i => some { w with snapshots := w.snapshots ++ [(w.nodes i).current.snapshot] }
  | .installSnapshot i s =>
    w.snapshots[s]?.bind fun snap =>
      match install (w.nodes i).current snap with
      | .error _ => none
      | .ok db =>
        some (w.set i { w.nodes i with
          current := db, durable := db, queue := (w.nodes i).queue ++ [.snapshotInstalled] })

/-- Every row a command writes is of a table that the listener refreshes, or that has no map. -/
def covered : MetaCommand → Bool
  | .multiCas ops _ => ops.all fun op => listened op.table || !CACHED.contains (casTableName op.table)
  | _ => true

def DropsConfig (rows : Rows) (entry : Entry) : Prop :=
  match entry.payload with
  | .normal (.multiCas ops _) =>
    ∀ op ∈ ops, op.table = .buckets → op.newValue = none → ∀ k ∈ configRows op.key,
      (rows.get k = none ∨ ∃ op' ∈ ops, op'.row.key = k) ∧ ∀ op' ∈ ops, op'.row.key = k → op'.newValue = none
  | _ => True

instance (rows : Rows) (entry : Entry) : Decidable (DropsConfig rows entry) := by
  unfold DropsConfig
  split <;> infer_instance

def writes (k : RowKey) (event : ApplyEvent) : Bool :=
  event == .snapshotInstalled || (cacheEffect d k event).isSome

/-- The commands write tables that the listener refreshes; a bucket goes with its configuration; a load is
plain; and where a request puts an entry into the maps, the row is still as it wrote it, or an event that
writes the entry is still to be handled. -/
def Careful [DecidableEq R] (w : World R) : Event R → Prop
  | .request i r => ∀ p ∈ propose d (w.nodes i).cache r, covered p.cmd = true
  | .apply i => ∀ entry ∈ w.log[(w.nodes i).current.next]?, DropsConfig (w.nodes i).current.rows entry
  | .listen i _ => (w.nodes i).queue.head? = some .snapshotInstalled →
      PlainLoad d (w.nodes i).current.rows
  | .restart i _ => PlainLoad d (w.nodes i).durable.rows
  | .mirror i j => ∀ m ∈ (w.nodes i).landed[j]?,
      d.row (w.nodes i).current.rows m.1 = m.2 ∨ (w.nodes i).queue.any (writes d m.1) = true
  | .cut _ _ | .checkpoint _ | .takeSnapshot _ | .installSnapshot _ _ => True

instance decidableCareful [DecidableEq R] (w : World R) : ∀ e, Decidable (Careful d w e)
  | .request i r => by dsimp only [Careful]; infer_instance
  | .apply i => by dsimp only [Careful]; infer_instance
  | .listen i _ => by dsimp only [Careful]; infer_instance
  | .restart i _ => by dsimp only [Careful]; infer_instance
  | .mirror i j => by dsimp only [Careful]; infer_instance
  | .cut _ _ | .checkpoint _ | .takeSnapshot _ | .installSnapshot _ _ => .isTrue trivial

def Event.time : Event R → Option Nat
  | .listen _ now | .restart _ now => some now
  | _ => none

structure Reads : Prop where
  config : ∀ c, (d.record "config" (codec.encodeConfig c)).isSome
  osd : ∀ o, (d.record "osd_nodes" (codec.encodeOsd o)).isSome

variable {codec d}

/-- An event of a covered command: its value decodes, and its table's map is refreshed. -/
structure EventOk (d : Decoders R) (table : CasTable) (key : String) (v : Option Bytes) : Prop where
  keyed : wellKeyed table key = true
  decodes : casTableName table ∈ CACHED → (d.put (casTableName table) v).isSome
  heard : casTableName table ∈ CACHED → listened table = true

def EntryOk (d : Decoders R) (entry : Entry) : Prop :=
  match entry.payload with
  | .normal cmd => wellFormed d cmd = true ∧ covered cmd = true
  | _ => True

variable {entry : Entry} {answer : MetaResponse} {n : Node R} {now : Nat}

theorem EntryOk.single (h : EntryOk d entry) : single entry = true := by
  unfold EntryOk at h
  unfold Caches.single
  split
  · rename_i cmds hpayload
    rw [hpayload] at h
    cases h.1
  · rfl

theorem put_record {table : String} {b : Bytes} (h : (d.record table b).isSome)
    (hdecode : d.decode table b = (d.record table b).map .record) : (d.put table (some b)).isSome := by
  rw [Decoders.put, hdecode, isSome_map, isSome_map]
  exact h

theorem events_applyEntry (hreads : Reads codec d) {db db' : Database}
    {events : List ApplyEvent} (hok : EntryOk d entry)
    (h : applyEntry codec db entry = .ok (db', answer, events)) :
    ∀ e ∈ events, ∃ table key v, e = .multiCasOp table key v ∧ EventOk d table key v := by
  intro e he
  cases applyEntry_cases hok.single h with
  | nothing => cases he
  | @one table key v _ hv =>
    obtain rfl := mem_singleton.1 he
    refine ⟨table, key, v, rfl, ?_⟩
    rcases hv with ⟨rfl, hv⟩ | ⟨rfl, o, rfl⟩
    · refine ⟨rfl, fun _ => ?_, fun _ => rfl⟩
      cases v with
      | none => rfl
      | some b =>
        obtain ⟨c, rfl⟩ := hv b rfl
        exact put_record (hreads.config c) rfl
    · exact ⟨rfl, fun _ => put_record (hreads.osd o) rfl, fun _ => rfl⟩
  | multiCas hpayload _ =>
    obtain ⟨op, hop, rfl⟩ := mem_map.1 he
    unfold EntryOk at hok
    rw [hpayload] at hok
    have hop₁ := all_eq_true.1 hok.1 op hop
    have hop₂ := all_eq_true.1 hok.2 op hop
    rw [Bool.and_eq_true, Bool.or_eq_true, Bool.not_eq_true'] at hop₁
    rw [Bool.or_eq_true, Bool.not_eq_true'] at hop₂
    refine ⟨_, _, _, rfl, hop₁.1, fun hc => ?_, fun hc => ?_⟩
    · refine hop₁.2.resolve_left fun hno => ?_
      rw [contains_iff_mem.2 hc] at hno
      cases hno
    · refine hop₂.resolve_right fun hno => ?_
      rw [contains_iff_mem.2 hc] at hno
      cases hno

variable {k : RowKey}

/-- A command that deletes a bucket's row, seen from its events: each row of the bucket's configuration goes
too. -/
theorem dropsConfig_events {db db' : Database}
    {events : List ApplyEvent} (hsingle : single entry = true) (hdrop : DropsConfig db.rows entry)
    (h : applyEntry codec db entry = .ok (db', answer, events)) {bucket : String}
    (hdeleted : .multiCasOp .buckets bucket none ∈ events) (hk : k ∈ configRows bucket) :
    (db.rows.get k = none ∨ ∃ e ∈ events, (rowEffect k e).isSome) ∧
      ∀ e ∈ events, ∀ v ∈ rowEffect k e, v = none := by
  cases applyEntry_cases hsingle h with
  | nothing => cases hdeleted
  | one _ hv =>
    cases mem_singleton.1 hdeleted
    rcases hv with ⟨h0, -⟩ | ⟨h0, -⟩ <;> cases h0
  | multiCas hpayload _ =>
    unfold DropsConfig at hdrop
    rw [hpayload] at hdrop
    obtain ⟨op, hop, heq⟩ := mem_map.1 hdeleted
    injection heq with htable hkey hvalue
    subst hkey
    obtain ⟨hthere, hall⟩ := hdrop op hop htable hvalue k hk
    refine ⟨hthere.imp_right ?_, ?_⟩
    · rintro ⟨op', hop', hkey'⟩
      refine ⟨_, mem_map_of_mem hop', ?_⟩
      rw [eventOf, rowEffect, if_pos (show rowKey (casTableName op'.table) op'.key = k from hkey')]
      rfl
    · intro e he v hv
      obtain ⟨op', hop', rfl⟩ := mem_map.1 he
      by_cases hkey' : rowKey (casTableName op'.table) op'.key = k
      · rw [eventOf, rowEffect, if_pos hkey'] at hv
        cases hv
        exact hall op' hop' hkey'
      · rw [eventOf, rowEffect, if_neg hkey'] at hv
        cases hv

/-! ## The invariant -/

def effectNow (d : Decoders R) (rows : Rows) (k : RowKey) : ApplyEvent → Option (Option (Cached R))
  | .snapshotInstalled => some (d.row rows k)
  | .multiCasOp table key v => cacheEffect d k (.multiCasOp table key v)

def Settles (d : Decoders R) (rows : Rows) (queue : List ApplyEvent) (cache : Cache R) : Prop :=
  ∀ k, tableOf k ∈ CACHED → settled (effectNow d rows k) queue (cache k) = d.row rows k

structure NodeInv (d : Decoders R) (n : Node R) : Prop where
  settles : Settles d n.current.rows n.queue n.cache
  keyed : ∀ table key v, .multiCasOp table key v ∈ n.queue → wellKeyed table key = true

structure Inv (d : Decoders R) (w : World R) : Prop where
  log : ∀ entry ∈ w.log, EntryOk d entry
  nodes : ∀ i, NodeInv d (w.nodes i)

theorem effectNow_congr {rows rows' : Rows} (h : d.row rows k = d.row rows' k) :
    effectNow d rows k = effectNow d rows' k := by
  funext e
  cases e with
  | snapshotInstalled => exact congrArg some h
  | multiCasOp table key v => rfl

theorem cached_ne_counter (hk : tableOf k ∈ CACHED) : k ≠ CONFIG_VERSION := by
  rintro rfl
  exact absurd (show "counters" ∈ CACHED from hk) (by decide)

theorem cacheEffect_eq (hk : tableOf k ∈ CACHED) {table : CasTable} {key : String}
    {v : Option Bytes} (hok : EventOk d table key v)
    (hkeep : ¬(table = .buckets ∧ v = none ∧ k ∈ configRows key)) :
    cacheEffect d k (.multiCasOp table key v) =
      (rowEffect k (.multiCasOp table key v)).map fun v => v.bind (d.decode (tableOf k)) := by
  by_cases hrow : rowKey (casTableName table) key = k
  · subst hrow
    have hsome := hok.decodes hk
    have hput : d.put (casTableName table) v = some (v.bind (d.decode (casTableName table))) := by
      cases v with
      | none => rfl
      | some b =>
        rw [Decoders.put, isSome_map] at hsome
        obtain ⟨x, hx⟩ := isSome_iff_exists.1 hsome
        rw [Decoders.put, bind_some, hx]
        rfl
    rw [cacheEffect_row d (hok.heard hk), hput, rowEffect, if_pos rfl]
    rfl
  · rw [cacheEffect_of_ne d fun _ => hrow, if_neg hkeep, rowEffect, if_neg hrow]
    rfl

section Apply

variable {rows rows' : Rows} {queue events : List ApplyEvent} {cache : Cache R} {k : RowKey}
  (hok : ∀ e ∈ events, ∃ table key v, e = .multiCasOp table key v ∧ EventOk d table key v)
  (hrows : rows'.get k = settled (rowEffect k) events (rows.get k)) (hk : tableOf k ∈ CACHED)
include hok hrows hk

theorem settles_forgotten (hforget : ∃ bucket, .multiCasOp .buckets bucket none ∈ events ∧
      k ∈ configRows bucket) (hthere : rows.get k = none ∨ ∃ e ∈ events, (rowEffect k e).isSome)
    (hall : ∀ e ∈ events, ∀ v ∈ rowEffect k e, v = none) :
    settled (effectNow d rows' k) (queue ++ events) (cache k) = d.row rows' k := by
  have hgone : rows'.get k = none := by
    rw [hrows]
    rcases hthere with hnone | hsome
    · rw [hnone]
      exact settled_const hall
    · rw [settled_of_some (y := none) hsome]
      exact settled_const hall
  have hvalue : d.row rows' k = none := by
    rw [Decoders.row, hgone]
    rfl
  have heffects : ∀ e ∈ events, ∀ x ∈ effectNow d rows' k e, x = none := by
    intro e he x hx
    obtain ⟨table, key, v, rfl, hev⟩ := hok e he
    by_cases hkeep : table = .buckets ∧ v = none ∧ k ∈ configRows key
    · by_cases hrow : rowKey (casTableName table) key = k
      · obtain ⟨rfl, -, hconf⟩ := hkeep
        exact absurd (hrow ▸ hconf) (not_mem_configRows key key)
      · rw [effectNow, cacheEffect_of_ne d fun _ => hrow, if_pos hkeep] at hx
        cases hx
        rfl
    · rw [effectNow, cacheEffect_eq hk hev hkeep] at hx
      obtain ⟨v', hv', rfl⟩ := map_eq_some_iff.1 hx
      rw [hall _ he v' hv']
      rfl
  have hsome : ∃ e ∈ events, (effectNow d rows' k e).isSome := by
    obtain ⟨bucket, hmem, hconf⟩ := hforget
    refine ⟨_, hmem, ?_⟩
    have hne : rowKey (casTableName .buckets) bucket ≠ k := by
      rintro rfl
      exact not_mem_configRows _ _ hconf
    rw [effectNow, cacheEffect_of_ne d fun _ => hne, if_pos ⟨rfl, rfl, hconf⟩]
    rfl
  rw [settled_append, settled_of_some (y := none) hsome, hvalue]
  exact settled_const heffects

theorem settles_kept (hkeep : ∀ bucket, .multiCasOp .buckets bucket none ∈ events → k ∉ configRows bucket)
    (h : settled (effectNow d rows k) queue (cache k) = d.row rows k) :
    settled (effectNow d rows' k) (queue ++ events) (cache k) = d.row rows' k := by
  have heffects : ∀ e ∈ events, effectNow d rows' k e =
      (rowEffect k e).map fun v => v.bind (d.decode (tableOf k)) := by
    intro e he
    obtain ⟨table, key, v, rfl, hev⟩ := hok e he
    refine cacheEffect_eq hk hev ?_
    rintro ⟨rfl, rfl, hconf⟩
    exact hkeep key he hconf
  rw [settled_append]
  by_cases htouched : ∃ e ∈ events, (rowEffect k e).isSome
  · have hsome : ∃ e ∈ events, (effectNow d rows' k e).isSome := by
      obtain ⟨e, he, hs⟩ := htouched
      refine ⟨e, he, ?_⟩
      rw [heffects e he, isSome_map]
      exact hs
    rw [settled_of_some (y := d.row rows k) hsome, Decoders.row, Decoders.row, hrows]
    exact settled_map _ heffects
  · have hnone : ∀ e ∈ events, rowEffect k e = none := by
      intro e he
      cases hv : rowEffect k e with
      | none => rfl
      | some v => exact absurd ⟨e, he, by rw [hv]; rfl⟩ htouched
    have hsame : d.row rows' k = d.row rows k := by
      rw [Decoders.row, hrows, settled_none hnone]
      rfl
    have hquiet : ∀ e ∈ events, effectNow d rows' k e = none := by
      intro e he
      rw [heffects e he, hnone e he]
      rfl
    rw [settled_none hquiet, effectNow_congr hsame, h, hsame]

end Apply

theorem NodeInv.apply (hreads : Reads codec d) {n' : Node R} (hi : NodeInv d n)
    (hentry : EntryOk d entry) (hdrop : DropsConfig n.current.rows entry)
    (h : n.apply codec entry = some n') : NodeInv d n' := by
  unfold Node.apply at h
  split at h
  · cases h
  rename_i db answer events happly
  cases h
  have hok := events_applyEntry hreads hentry happly
  refine ⟨?_, ?_⟩
  · intro k hk
    have hrows := rows_applyEntry hentry.single (cached_ne_counter hk) happly
    by_cases hforget : ∃ bucket, .multiCasOp .buckets bucket none ∈ events ∧ k ∈ configRows bucket
    · obtain ⟨bucket, hmem, hconf⟩ := hforget
      obtain ⟨hthere, hall⟩ := dropsConfig_events hentry.single hdrop happly hmem hconf
      exact settles_forgotten hok hrows hk ⟨bucket, hmem, hconf⟩ hthere hall
    · exact settles_kept hok hrows hk (fun bucket hmem hconf => hforget ⟨bucket, hmem, hconf⟩)
        (hi.settles k hk)
  · intro table key v hmem
    rcases mem_append.1 hmem with hmem | hmem
    · exact hi.keyed table key v hmem
    · obtain ⟨table', key', v', heq, hev⟩ := hok _ hmem
      injection heq with htable hkey
      rw [htable, hkey]
      exact hev.keyed

theorem cacheEffect_policy (hk : tableOf k = "iam_policies") (table : CasTable)
    (key : String) (v : Option Bytes) : cacheEffect d k (.multiCasOp table key v) = none := by
  have hrow : listened table = true → rowKey (casTableName table) key ≠ k := by
    rintro hl rfl
    have hname : casTableName table = "iam_policies" := hk
    cases table with
    | named t =>
      obtain rfl : t = "iam_policies" := hname
      exact absurd hl (by decide)
    | _ => first | exact absurd hname (by decide) | cases hl
  have hconf : k ∉ configRows key := by
    intro hmem
    have htable : "iam_policies" ∈ (configRows key).map tableOf := hk ▸ mem_map_of_mem hmem
    exact absurd (show "iam_policies" ∈ ["bucket_policies", "object_lock_configs",
      "lifecycle_configs", "bucket_encryption_configs"] from htable) (by decide)
  rw [cacheEffect_of_ne d hrow, if_neg fun h => hconf h.2.2]

section
variable (hback : RoundTrips d.policies now)
include hback

theorem NodeInv.load (hplain : PlainLoad d n.current.rows) (hqueue : ∀ k, tableOf k ∈ CACHED →
      settled (effectNow d n.current.rows k) n.queue (d.row n.current.rows k) = d.row n.current.rows k)
    (hkeyed : ∀ table key v, .multiCasOp table key v ∈ n.queue → wellKeyed table key = true) :
    NodeInv d (n.load d now) := by
  refine ⟨?_, hkeyed⟩
  intro k hk
  have hloaded : (n.load d now).cache k = d.row (seededRows d now n.current.rows) k :=
    loadCaches_apply hplain hback hk
  rw [hloaded]
  by_cases hpol : tableOf k = "iam_policies"
  · apply settled_const
    intro e _ x hx
    cases e with
    | snapshotInstalled =>
      cases hx
      rfl
    | multiCasOp table key v =>
      rw [effectNow, cacheEffect_policy hpol] at hx
      cases hx
  · have hsame : d.row (seededRows d now n.current.rows) k = d.row n.current.rows k := by
      rw [Decoders.row, get_seededRows_of_ne hpol]
      rfl
    have hrow : (n.load d now).current.rows = seededRows d now n.current.rows := rfl
    rw [hrow, effectNow_congr hsame, hsame]
    exact hqueue k hk

theorem NodeInv.listen {n' : Node R} (hi : NodeInv d n)
    (hplain : n.queue.head? = some .snapshotInstalled → PlainLoad d n.current.rows)
    (h : n.listen d now = some n') : NodeInv d n' := by
  unfold Node.listen at h
  split at h
  · cases h
  · rename_i rest hqueue
    cases h
    refine NodeInv.load hback (hplain (by rw [hqueue]; rfl)) ?_ ?_
    · intro k hk
      have hsettles := hi.settles k hk
      rw [hqueue] at hsettles
      exact hsettles
    · intro table key v hmem
      exact hi.keyed table key v (hqueue ▸ mem_cons_of_mem _ hmem)
  · rename_i table key v rest hqueue
    cases h
    refine ⟨?_, ?_⟩
    · intro k hk
      have hsettles := hi.settles k hk
      rw [hqueue] at hsettles
      have hkeyed := hi.keyed table key v (hqueue ▸ mem_cons_self)
      dsimp only
      rw [handle_apply d n.cache hkeyed]
      exact hsettles
    · intro table' key' v' hmem
      exact hi.keyed table' key' v' (hqueue ▸ mem_cons_of_mem _ hmem)

theorem NodeInv.restart (hplain : PlainLoad d n.durable.rows) : NodeInv d (n.restart d now) := by
  refine NodeInv.load hback hplain ?_ ?_
  · intro k _
    rfl
  · intro table key v hmem
    cases hmem

end

theorem writes_iff {rows : Rows} {e : ApplyEvent} (h : writes d k e = true) :
    (effectNow d rows k e).isSome := by
  cases e with
  | snapshotInstalled => rfl
  | multiCasOp table key v => exact h

theorem NodeInv.mirror (hi : NodeInv d n) {m : Mirror R}
    (hm : d.row n.current.rows m.1 = m.2 ∨ n.queue.any (writes d m.1) = true) (landed : List (Mirror R)) :
    NodeInv d { n with cache := update n.cache m.1 m.2, landed := landed } := by
  refine ⟨?_, hi.keyed⟩
  intro k hk
  dsimp only
  by_cases hkm : k = m.1
  · subst hkm
    rw [update_self]
    by_cases hsome : ∃ e ∈ n.queue, (effectNow d n.current.rows m.1 e).isSome
    · rw [settled_of_some (y := n.cache m.1) hsome]
      exact hi.settles m.1 hk
    · have hrow : d.row n.current.rows m.1 = m.2 := by
        refine hm.resolve_right fun hany => hsome ?_
        obtain ⟨e, he, hw⟩ := any_eq_true.1 hany
        exact ⟨e, he, writes_iff hw⟩
      have hnone : ∀ e ∈ n.queue, effectNow d n.current.rows m.1 e = none := by
        intro e he
        cases hv : effectNow d n.current.rows m.1 e with
        | none => rfl
        | some v => exact absurd ⟨e, he, by rw [hv]; rfl⟩ hsome
      rw [settled_none hnone, hrow]
  · rw [update_of_ne hkm]
    exact hi.settles k hk

theorem NodeInv.install (hi : NodeInv d n) (db durable : Database) : NodeInv d { n with
      current := db, durable := durable, queue := n.queue ++ [.snapshotInstalled] } := by
  refine ⟨?_, ?_⟩
  · intro k _
    dsimp only
    rw [settled_append]
    rfl
  · intro table key v hmem
    rcases mem_append.1 hmem with hmem | hmem
    · exact hi.keyed table key v hmem
    · cases mem_singleton.1 hmem

theorem Inv.set {w : World R} (hi : Inv d w) (i : Nat) (hn : NodeInv d n) : Inv d (w.set i n) := by
  refine ⟨hi.log, ?_⟩
  intro j
  show NodeInv d (if j = i then n else w.nodes j)
  split
  · exact hn
  · exact hi.nodes j

theorem Inv.step [DecidableEq R] (hreads : Reads codec d) {w w' : World R} {e : Event R}
    (hi : Inv d w) (hcareful : Careful d w e ∧ ∀ now ∈ e.time, RoundTrips d.policies now)
    (h : step codec d w e = some w') : Inv d w' := by
  obtain ⟨hcareful, hback⟩ := hcareful
  cases e with
  | request i r =>
    dsimp only [Caches.step] at h
    split at h
    · cases h
      exact hi
    · rename_i p hp
      split at h
      · rename_i hform
        cases h
        refine ⟨?_, fun j => ?_⟩
        · intro entry hentry
          rcases mem_append.1 hentry with hentry | hentry
          · exact hi.log entry hentry
          · obtain rfl := mem_singleton.1 hentry
            exact ⟨hform, hcareful p hp⟩
        · show NodeInv d (if j = i then _ else w.nodes j)
          split
          · exact ⟨(hi.nodes i).settles, (hi.nodes i).keyed⟩
          · exact hi.nodes j
      · cases h
  | apply i =>
    dsimp only [Caches.step] at h
    obtain ⟨entry, hentry, h⟩ := bind_eq_some_iff.1 h
    obtain ⟨n, hn, rfl⟩ := map_eq_some_iff.1 h
    exact hi.set i ((hi.nodes i).apply hreads (hi.log entry (mem_of_getElem? hentry))
      (hcareful entry hentry) hn)
  | listen i now =>
    obtain ⟨n, hn, rfl⟩ := map_eq_some_iff.1 h
    exact hi.set i ((hi.nodes i).listen (hback now rfl) hcareful hn)
  | mirror i j =>
    obtain ⟨m, hm, rfl⟩ := map_eq_some_iff.1 h
    exact hi.set i ((hi.nodes i).mirror (hcareful m hm) _)
  | cut i j | checkpoint i =>
    cases h
    exact hi.set i ⟨(hi.nodes i).settles, (hi.nodes i).keyed⟩
  | restart i now =>
    cases h
    exact hi.set i (NodeInv.restart (hback now rfl) hcareful)
  | takeSnapshot i =>
    cases h
    exact ⟨hi.log, hi.nodes⟩
  | installSnapshot i s =>
    dsimp only [Caches.step] at h
    obtain ⟨snap, -, h⟩ := bind_eq_some_iff.1 h
    split at h
    · cases h
    · cases h
      exact hi.set i ((hi.nodes i).install _ _)

theorem Inv.empty : Inv d ({} : World R) := by
  refine ⟨nofun, fun i => ⟨?_, nofun⟩⟩
  intro k _
  rfl

/-- Records by their bytes; policies in protobuf, read back by the name of a built-in one stored at one
time. -/
def byteDecoders : Decoders Bytes where
  policies :=
    { encode := protoPolicy
      decode := fun b => (builtins.find? fun p =>
        ProtoWire.asciiBytes p.1 = (b.drop 2).take (b.getD 1 0).toNat).map (builtinPolicy 1700000000) }
  placementGroup := fun _ => none
  record := fun _ b => some b
  encodeStripeRefs := id

/-- Node 1 attaches the policy `p` to a user and node 0 is started after that, is the leader and detaches it.
-/
def detachRun : List (Event Bytes) :=
  [.request 1 (.attachPolicy "user:u" [112]), .apply 1, .apply 0, .mirror 1 0, .listen 1 0, .listen 0 0,
    .checkpoint 0, .restart 0 1700000000, .request 0 (.detachPolicy "user:u" [112]), .apply 0,
    .mirror 0 0, .listen 0 0, .apply 1, .listen 1 0]

def Node.quiet (n : Node R) : Bool := n.queue.isEmpty && n.waiting.isEmpty && n.landed.isEmpty

/-- A bucket's policy is set through node 0, which is slow to update its map; node 1 installs a snapshot. -/
def carefulRun : List (Event Bytes) :=
  [.restart 0 1700000000, .restart 1 1700000000,
    .request 0 (.other (.multiCas [⟨.bucketPolicies, "b", none, some [112]⟩] "put-policy")
      [(rowKey "bucket_policies" "b", some (.record [112]))]),
    .apply 0, .apply 1, .listen 1 1700000000, .mirror 0 0, .listen 0 1700000000, .takeSnapshot 0, .installSnapshot 1 0,
    .listen 1 1700000000]

end IoLake.Meta.Caches
