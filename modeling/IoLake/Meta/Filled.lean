import IoLake.Meta.RecoveryPass

/-!
# When a fill is recorded done

`recover_pg` records a group's fills done where nothing it worked was against it.  That the members being
filled have what was listed takes more.
-/

namespace IoLake.Meta.Recovery

open Proto Osd Gateway List Option Steps

/-- The shards of a listed object a member is to hold at its position, where it has the object. -/
def HasShards (copies : Copies) (id : OsdId) (p : Nat) (name : EntryName) (n : ListedEntry) : Prop :=
  ∀ o, (copies.slot id name).object = some o → o.objectId = n.objectId →
    ∀ stripe ∈ ownStripes o, p < stripe.ecK + stripe.ecM → shardId o stripe p ∈ (copies id).shards

/-- **Every member being filled has what the pass listed newest**, or newer, and with an object its shards. -/
def Pass.Filled (pass : Pass) (copies : Copies) : Prop :=
  ∀ f ∈ pass.pg.filling, ∀ id, pass.pg.acting[f.position]? = some id →
    ∀ name n, newestAt pass.plan.listed name = some n → n.entry.tombstone = false →
      (n.entry.order : WithBot EntryOrder) ≤ (copies.slot id name).rank ∧
        HasShards copies id f.position name n.entry

theorem eq_one_of_le_sum {α : Type} {f : α → Nat} : ∀ {l : List α}, (∀ x ∈ l, f x ≤ 1) →
    l.length ≤ (l.map f).sum → ∀ x ∈ l, f x = 1
  | [], _, _, x, hx => (not_mem_nil hx).elim
  | y :: l, hle, hsum, x, hx => by
    have hy := hle y mem_cons_self
    have hrest : ∀ x ∈ l, f x ≤ 1 := fun x hx => hle x (mem_cons_of_mem _ hx)
    have hbound : (l.map f).sum ≤ l.length := by
      have := sum_le_card_nsmul (l.map f) 1 (by simpa using hrest)
      simpa using this
    rw [map_cons, sum_cons, length_cons] at hsum
    rcases mem_cons.1 hx with rfl | hx
    · omega
    · exact eq_one_of_le_sum hrest (by omega) x hx

variable {id : OsdId} {p : Nat} {name : EntryName} {n : ListedEntry} {pass pass' : Pass} {o : ObjectMeta}

theorem length_heldAt_le {stripe : StripeMeta}
    (h : ∀ q ∈ namedAt id stripe, q = p) (shards : List ShardId) (o : ObjectMeta) :
    (heldAt id shards o stripe).length ≤ 1 := by
  have hnodup : (namedAt id stripe).Nodup := nodup_dedup _
  refine (length_filter_le _ _).trans ?_
  have hsub : namedAt id stripe ⊆ [p] := fun q hq => mem_singleton.2 (h q hq)
  exact (subperm_of_subset hnodup hsub).length_le

theorem shards_of_complete {copies : Copies} (ht : n.tombstone = false)
    (hbehind : standing n ((listing id (copies id)).get name) ≠ .behind)
    (hshort : standing n ((listing id (copies id)).get name) ≠ .short)
    (hnamed : ∀ o, (copies.slot id name).object = some o → ∀ stripe ∈ ownStripes o,
      ∀ q ∈ namedAt id stripe, q = p) : HasShards copies id p name n := by
  intro o ho _ stripe hstripe _
  have hlisted : (listing id (copies id)).get name = some (objectListed id (copies id).shards o) := by
    rw [get_listing, Slot.listed, show ((copies id).slot name).object = some o from ho]
  rw [hlisted] at hbehind hshort
  unfold standing at hbehind hshort
  rw [ht, if_neg Bool.false_ne_true] at hbehind hshort
  dsimp only at hbehind hshort
  split_ifs at hbehind hshort with heq hcount
  · exact absurd rfl hshort
  · rw [not_or, not_lt, not_lt] at hcount
    have hone := eq_one_of_le_sum (fun s hs => length_heldAt_le (hnamed o ho s hs) (copies id).shards o)
      (hcount.1.trans hcount.2) stripe hstripe
    obtain ⟨q, hq⟩ := exists_mem_of_length_pos (by rw [hone]; exact Nat.one_pos)
    obtain ⟨hmem, hheld⟩ := mem_filter.1 hq
    rw [hnamed o ho stripe hstripe q hmem] at hheld
    exact of_decide_eq_true hheld
  · exact absurd rfl hbehind

def MadeOf (made : Bytes → List StripeMeta) (copies : Copies) : Prop :=
  ∀ id name o, (copies.slot id name).object = some o → o.stripes.map skeleton = made o.objectId

def Pass.newestObject (pass : Pass) (name : EntryName) : Option ListedEntry :=
  ((newestAt pass.plan.listed name).map Newest.entry).filter fun e => !e.tombstone

/-- An object's id is of one object; while a pass runs, clients write no object it listed again and free no
shard of one; and a member being filled is named at its own position only. -/
def Keeps (made : Bytes → List StripeMeta) (g : Group) : Event → Prop
  | .put name o _ => o.stripes.map skeleton = made o.objectId ∧
      ∀ pass ∈ g.pass, ∀ n ∈ pass.newestObject name, o.objectId ≠ n.objectId
  | .free _ shard => ∀ pass ∈ g.pass, ∀ l ∈ pass.plan.listed, ∀ e ∈ l.2.entries,
      ∀ n ∈ pass.newestObject e.1, ∀ stripe ∈ made n.objectId, stripe.packId = [] →
        shardId { objectId := n.objectId } stripe shard.position ≠ shard
  | .plan _ _ => ∀ f ∈ g.pg.filling, ∀ id ∈ g.pg.acting[f.position]?,
      ∀ e ∈ (g.copies id).slots.entries, ∀ o ∈ e.2.object, ∀ stripe ∈ ownStripes o,
        ∀ q ∈ namedAt id stripe, q = f.position
  | _ => True

instance (made : Bytes → List StripeMeta) (g : Group) : ∀ e, Decidable (Keeps made g e)
  | .put _ _ _ => inferInstanceAs (Decidable (_ ∧ _))
  | .free _ _ => inferInstanceAs (Decidable (∀ pass ∈ g.pass, _))
  | .plan _ _ => inferInstanceAs (Decidable (∀ f ∈ g.pg.filling, _))
  | .delete _ _ _ | .store _ _ | .change _ | .work _ _ | .yield | .stop | .finish _ _ _ _ =>
    .isTrue trivial

theorem mem_newestObject : n ∈ pass.newestObject name ↔
      ∃ newest, newestAt pass.plan.listed name = some newest ∧ newest.entry = n ∧ n.tombstone = false := by
  rw [Pass.newestObject, mem_def, filter_eq_some_iff, map_eq_some_iff]
  constructor
  · rintro ⟨⟨newest, hn, rfl⟩, ht⟩
    exact ⟨newest, hn, rfl, by simpa using ht⟩
  · rintro ⟨newest, hn, rfl, ht⟩
    exact ⟨⟨newest, hn, rfl⟩, by simpa using ht⟩

theorem slot_entries {copies : Copies} (h : (copies.slot id name).object = some o) :
    ∃ s : Slot, (name, s) ∈ (copies id).slots.entries ∧ s.object = some o := by
  rw [Copies.slot, GroupCopy.slot] at h
  cases hs : (copies id).slots.get name with
  | none =>
    rw [hs] at h
    cases h
  | some s =>
    rw [hs] at h
    exact ⟨s, OrdMap.mem_entries.2 hs, h⟩

variable {site : Site OsdId} {g g' : Group} {e : Event} {made : Bytes → List StripeMeta}

/-- An object's id stays that of one object. -/
theorem madeOf_step (hmade : MadeOf made g.copies) (h : step site g e = some g')
    (hk : Keeps made g e) : MadeOf made g'.copies := by
  intro id name o ho
  rcases object_step (slot_step h id name) ho with hold | ⟨reach, rfl⟩ |
    ⟨env, outcome, w, rfl, hmoved⟩
  · exact hmade id name o hold
  · exact hk.1
  · obtain ⟨x, c, hc, hid, hskel⟩ := hmoved.skeleton
    rw [hskel, ← hid]
    exact hmade x w.name c hc

def NoLater (copies : Copies) (id : OsdId) (name : EntryName) (n : ListedEntry) : Prop :=
  ∀ c, (copies.slot id name).object = some c → c.objectId = n.objectId → objectOrder c ≤ n.order

/-- Every member being filled that answered holds the listed shards, unless the pass has the object still to
work. -/
def Pass.Shards (pass : Pass) (copies : Copies) : Prop :=
  pass.Clean → ∀ f ∈ pass.pg.filling, ∀ id, pass.plan.members[f.position]? = some (some id) →
    ∀ name, ∀ n ∈ pass.newestObject name, ((∃ w ∈ pass.queued, w.name = name) ∧ NoLater copies id name n) ∨
        HasShards copies id f.position name n

theorem shards_startPass {usable answer : OsdId → Bool} {plan : Plan} {cursor : Bytes}
    (h : recoveryPlan g.copies g.pg usable answer = .ok plan)
    (hk : Keeps made g (.plan usable answer)) : (startPass g.pg plan cursor).Shards g.copies := by
  intro hclean f hf id hid name n hlists
  have hcursor : cursor = [] := hclean.start
  subst hcursor
  obtain ⟨newest, hn, rfl, ht⟩ := mem_newestObject.1 hlists
  cases hwork : workOf (plan.members.map fun m => m.map fun id => listing id (g.copies id)) name
      newest with
  | none =>
    obtain ⟨hbehind, hshort⟩ := standing_of_workOf_none hwork (listing_of_member hid)
    refine .inr (shards_of_complete ht hbehind hshort fun o ho => ?_)
    obtain ⟨s, hs, hso⟩ := slot_entries ho
    exact hk f hf id (acting_of_member h hid) _ hs o hso
  | some w =>
    obtain ⟨hmem, hname⟩ := (mem_work h hn w).2 hwork
    refine .inl ⟨⟨w, mem_queued_startPass.2 hmem, hname⟩, fun c hc _ => ?_⟩
    -- The member's own entry is among those the newest was taken from.
    have hlisted : (listing id (g.copies id)).get name = some (objectListed id (g.copies id).shards c) := by
      rw [get_listing, Slot.listed, show ((g.copies id).slot name).object = some c from hc]
    exact (newestAt_spec hn).2 _ (member_listed h hid) _ hlisted

theorem shards_of_same {c : ObjectMeta} {shards : List ShardId}
    (hid : o.objectId = c.objectId) (hskel : o.stripes.map skeleton = c.stripes.map skeleton)
    (h : ∀ stripe ∈ ownStripes c, p < stripe.ecK + stripe.ecM → shardId c stripe p ∈ shards) :
    ∀ stripe ∈ ownStripes o, p < stripe.ecK + stripe.ecM → shardId o stripe p ∈ shards := by
  intro stripe hstripe hwidth
  obtain ⟨hmem, hown⟩ := mem_filter.1 hstripe
  have hin : skeleton stripe ∈ c.stripes.map skeleton := hskel ▸ mem_map_of_mem hmem
  obtain ⟨s, hs, hsame⟩ := mem_map.1 hin
  have hpack : (skeleton s).packId = (skeleton stripe).packId := by rw [hsame]
  have hsum : (skeleton s).ecK + (skeleton s).ecM = (skeleton stripe).ecK + (skeleton stripe).ecM := by
    rw [hsame]
  rw [shardId_congr hid hsame.symm]
  refine h s (mem_filter.2 ⟨hs, ?_⟩) (lt_of_lt_of_eq hwidth hsum.symm)
  rw [show s.packId = stripe.packId from hpack]
  exact hown

theorem listed_shard_step {stripe : StripeMeta} (hp : g.pass = some pass) (hlists : n ∈ pass.newestObject name)
    (h : step site g e = some g') (hk : Keeps made g e) (hwork : ∀ env, e ≠ .work env .changed)
    (hid : o.objectId = n.objectId) (hmade : o.stripes.map skeleton = made o.objectId)
    (hstripe : stripe ∈ ownStripes o) (hheld : shardId o stripe p ∈ (g.copies id).shards) :
    shardId o stripe p ∈ (g'.copies id).shards := by
  refine shard_step h hheld (fun x hx => ?_) hwork
  subst hx
  obtain ⟨newest, hn, hentry, -⟩ := mem_newestObject.1 hlists
  obtain ⟨⟨l, hl, hget⟩, -⟩ := newestAt_spec hn
  obtain ⟨hmem, hown⟩ := mem_filter.1 hstripe
  have hskel : skeleton stripe ∈ made n.objectId := by
    rw [← hid, ← hmade]
    exact mem_map_of_mem hmem
  refine hk pass hp l hl _ (OrdMap.mem_entries.2 hget) n hlists (skeleton stripe) hskel
    (eq_of_beq hown) (shardId_congr hid.symm rfl p)

theorem Worked.newest {env : ObjectEnv} {outcome : Outcome} {w : Work}
    (hw : Worked g env outcome g' pass pass' w) (hsound : pass.Sound)
    (hlists : n ∈ pass.newestObject w.name) : w.newest = n ∧ w.newest.tombstone = false := by
  obtain ⟨newest, hn, rfl, ht⟩ := mem_newestObject.1 hlists
  obtain ⟨n', hn', hnewest⟩ := hsound.newest w (hw.queued ▸ mem_cons_self)
  rw [hn] at hn'
  cases hn'
  exact ⟨hnewest, hnewest ▸ ht⟩

theorem Worked.shards {env : ObjectEnv} {outcome : Outcome} {w : Work}
    (hw : Worked g env outcome g' pass pass' w)
    (hsound : pass.Sound) (hrec : ∀ id, ∀ s ∈ made id, s.packId = [] → recoverable s = true)
    (hmade : MadeOf made g.copies) (hmade' : MadeOf made g'.copies)
    (hsettled : outcome.settled = true) (hlists : n ∈ pass.newestObject w.name)
    (hid : pass.plan.members[p]? = some (some id))
    (hold : NoLater g.copies id w.name n ∨ HasShards g.copies id p w.name n) :
    HasShards g'.copies id p w.name n := by
  obtain ⟨hnewest, ht⟩ := hw.newest hsound hlists
  intro o ho hoid
  by_cases hlater : NoLater g.copies id w.name n
  · intro stripe hstripe hwidth
    have hlt := (List.getElem?_eq_some_iff.1 (hsound.member _ _ hid)).1
    rw [hw.copies] at ho ⊢
    refine recoverObject_filled (made n.objectId) ht (hw.came ▸ hsettled) ?_ (hrec n.objectId) hlt
      hid ?_ ho (hnewest ▸ hoid) hstripe hwidth
    · intro x c hc hcid
      rw [hmade x w.name c hc, hcid, hnewest]
    · intro c hc hcid
      rw [hnewest] at hcid ⊢
      exact hlater c hc hcid
  · -- A later update is there, and its shards with it.
    have hheld := hold.resolve_left hlater
    unfold NoLater at hlater
    push Not at hlater
    obtain ⟨c, hc, hcid, -⟩ := hlater
    refine shards_of_same (c := c) (hoid.trans hcid.symm) ?_ fun stripe hstripe hwidth => ?_
    · rw [hmade' id w.name o ho, hmade id w.name c hc, hoid, hcid]
    · rw [hw.copies]
      refine recoverObject_shards _ _ _ _ _ _ ?_ id (hheld c hc hcid stripe hstripe hwidth)
      rw [hw.came]
      rintro rfl
      cases hsettled

theorem Pass.Shards.step (hs : pass.Shards g.copies) (hsound : pass.Sound)
    (hrec : ∀ id, ∀ s ∈ made id, s.packId = [] → recoverable s = true)
    (hmade : MadeOf made g.copies) (h : step site g e = some g') (hk : Keeps made g e)
    (hp : g.pass = some pass) (hp' : g'.pass = some pass') : pass'.Shards g'.copies := by
  intro hclean f hf id hid name n hlists
  rcases pass_step h hp hp' with ⟨rfl | rfl, hnot⟩ | ⟨env, outcome, w, rfl, hw⟩
  · -- Nothing of the pass: what is there was there, or is another object.
    have hback : ∀ c, (g'.copies.slot id name).object = some c → c.objectId = n.objectId →
        (g.copies.slot id name).object = some c := by
      intro c hc hcid
      rcases object_step (slot_step h id name) hc with hold | ⟨reach, rfl⟩ | ⟨env, outcome, _, he, -⟩
      · exact hold
      · exact absurd hcid (hk.2 pass' hp n hlists)
      · exact absurd he (hnot env outcome)
    rcases hs hclean f hf id hid name n hlists with ⟨hqueued, hlater⟩ | hheld
    · exact .inl ⟨hqueued, fun c hc hcid => hlater c (hback c hc hcid) hcid⟩
    · refine .inr fun o ho hoid stripe hstripe hwidth => ?_
      have hold := hback o ho hoid
      exact listed_shard_step hp hlists h hk (fun env => hnot env _) hoid (hmade id name o hold)
        hstripe (hheld o hold hoid stripe hstripe hwidth)
  · cases hclean.yielded
  · obtain ⟨hclean', hsettled⟩ := hclean.of_worked hw
    rw [hw.pg] at hf
    rw [hw.plan] at hid
    have hlists' : n ∈ pass.newestObject name := by
      rw [Pass.newestObject, hw.plan] at hlists
      exact hlists
    have hold := hs hclean' f hf id hid name n hlists'
    by_cases hname : w.name = name
    · subst hname
      exact .inr (hw.shards hsound hrec hmade (madeOf_step hmade h hk) hsettled hlists' hid
        (hold.imp_left And.right))
    · have hsame : g'.copies.slot id name = g.copies.slot id name := by
        rw [hw.copies]
        exact recoverObject_other _ _ _ _ _ _ id fun h0 => hname h0.symm
      rcases hold with ⟨⟨x, hx, hxname⟩, hlater⟩ | hheld
      · refine .inl ⟨⟨x, ?_, hxname⟩, fun c hc => hlater c (hsame ▸ hc)⟩
        rw [hw.queued] at hx
        exact (mem_cons.1 hx).resolve_left fun h0 => hname (h0 ▸ hxname)
      · refine .inr fun o ho hoid stripe hstripe hwidth => ?_
        rw [hsame] at ho
        refine listed_shard_step hp hlists' h hk ?_ hoid (hmade id name o ho) hstripe
          (hheld o ho hoid stripe hstripe hwidth)
        rintro env' h0
        cases h0
        cases hsettled

structure FillInv (made : Bytes → List StripeMeta) (g : Group) : Prop where
  made : MadeOf made g.copies
  sound : ∀ pass, g.pass = some pass → pass.Sound
  order : ∀ pass, g.pass = some pass → ∀ name, ∀ n ∈ pass.newestObject name,
    pass.Reaches g.copies name n fun s => (n.order : WithBot EntryOrder) ≤ s.rank
  shards : ∀ pass, g.pass = some pass → pass.Shards g.copies

theorem FillInv.step (hi : FillInv made g) (hrec : ∀ id, ∀ s ∈ made id, s.packId = [] → recoverable s = true)
    (hk : Keeps made g e) (h : step site g e = some g') : FillInv made g' := by
  have hmade' := madeOf_step hi.made h hk
  cases hp : g.pass with
  | none =>
    refine ⟨hmade', fun pass' hp' => ?_, fun pass' hp' name n hlists => ?_, fun pass' hp' => ?_⟩
    · obtain ⟨usable, answer, plan, cursor, rfl, hplan, -, -, rfl⟩ := pass_planned h hp hp'
      exact sound_startPass hplan cursor
    · obtain ⟨usable, answer, plan, cursor, rfl, hplan, hcopies, -, rfl⟩ := pass_planned h hp hp'
      obtain ⟨newest, hn, rfl, ht⟩ := mem_newestObject.1 hlists
      rw [hcopies]
      exact reaches_startPass hplan hn fun id hstand => order_le_of_standing ht hstand
    · obtain ⟨usable, answer, plan, cursor, rfl, hplan, hcopies, -, rfl⟩ := pass_planned h hp hp'
      rw [hcopies]
      exact shards_startPass hplan hk
  | some pass =>
    have hsound := hi.sound pass hp
    refine ⟨hmade', fun pass' hp' => hsound.step h hp hp', fun pass' hp' name n hlists => ?_,
      fun pass' hp' => (hi.shards pass hp).step hsound hrec hi.made h hk hp hp'⟩
    obtain ⟨newest, hn, rfl, ht⟩ := mem_newestObject.1 hlists
    rw [(pass_plan h hp hp').1] at hn
    have hold := hi.order pass hp name _ (mem_newestObject.2 ⟨newest, hn, rfl, ht⟩)
    exact reaches_order hn ht hsound hold h hp hp'

structure CallsFinish (g : Group) (pass : Pass) (usable : OsdId → Bool) : Prop where
  runs : g.pass = some pass
  worked : pass.chunks = []
  finishes : pass.finishes usable = true

/-- **A pass that calls `finish_filling` has filled its members**: where every member being filled
answered its listing, it started from no cursor, and every object it worked was settled. -/
theorem filled_when_finished {made : Bytes → List StripeMeta} {g₀ g : Group} {events : List Event}
    {pass : Pass} {usable : OsdId → Bool} (hrec : ∀ id, ∀ s ∈ made id, s.packId = [] → recoverable s = true)
    (hstart : g₀.pass = none) (hmade : MadeOf made g₀.copies)
    (hkeeps : Steps.Along (step site) (Keeps made) g₀ events)
    (hrun : Steps.run (step site) g₀ events = some g) (hcalls : CallsFinish g pass usable)
    (hheard : ∀ f ∈ pass.pg.filling, (pass.plan.members[f.position]?.join).isSome)
    (hcursor : pass.start = []) (houtcomes : ∀ o ∈ pass.outcomes, o.settled = true) :
    pass.Filled g.copies := by
  have hinit : FillInv made g₀ := by
    refine ⟨hmade, ?_, ?_, ?_⟩ <;> intro pass hp <;> rw [hstart] at hp <;> cases hp
  have hinv := run_invariant_along (fun s e s' hi hk hstep => FillInv.step hi hrec hk hstep)
    events g₀ g hinit hkeeps hrun
  have hclean : pass.Clean := ⟨hcursor, yielded_of_finishes hcalls.finishes, houtcomes⟩
  have hqueued : pass.queued = [] := by rw [Pass.queued, hcalls.worked, flatMap_nil]
  intro f hf id hid name n hn ht
  have hlists : n.entry ∈ pass.newestObject name := mem_newestObject.2 ⟨n, hn, rfl, ht⟩
  have hmember : pass.plan.members[f.position]? = some (some id) := by
    obtain ⟨m, hm⟩ := isSome_iff_exists.1 (hheard f hf)
    have hm := join_eq_some_iff.1 hm
    rw [(hinv.sound pass hcalls.runs).member _ _ hm] at hid
    cases hid
    exact hm
  constructor
  · refine (hinv.order pass hcalls.runs name n.entry hlists hclean _ id hmember).resolve_left ?_
    rintro ⟨w, hw, -⟩
    rw [hqueued] at hw
    exact not_mem_nil hw
  · refine (hinv.shards pass hcalls.runs hclean f hf id hmember name n.entry hlists).resolve_left ?_
    rintro ⟨⟨w, hw, -⟩, -⟩
    rw [hqueued] at hw
    exact not_mem_nil hw

/-! ## A member filled, and one that was not -/

def bareSite : Site OsdId := ⟨⟨[]⟩, .spread .rack 3, fun _ _ _ _ => 0⟩

def threeOsds : PlacementGroup OsdId where
  pool := "default"
  pgId := 0
  acting := [[1], [2], [3]]
  up := [[4], [2], [3]]
  epoch := 1
  filling := []

def emptyGroup (pg : PlacementGroup OsdId) : Group where
  copies := fun _ => GroupCopy.empty
  pg := pg
  clock := 0
  cursor := []
  cursorEpoch := 0
  pass := none
  acked := []

def keyName : EntryName := toLex ([98], [107])

def stripedObject : ObjectMeta where
  bucket := [98]
  key := [107]
  objectId := [7]
  stamp := 5
  usageOwner := [1]
  stripes := [{ ecK := 2, ecM := 1, shards := [⟨0, [1]⟩, ⟨1, [2]⟩, ⟨2, [3]⟩] }]

def writtenThenRemapped : List Event :=
  [.put keyName stripedObject [[1], [2], [3]], .store [1] ⟨[7], 0, 0⟩, .store [2] ⟨[7], 0, 1⟩,
    .store [3] ⟨[7], 0, 2⟩, .change (.remap ⟨[⟨[4], .in_, "d"⟩], fun _ => none, 0⟩)]

def allAnswer : ObjectEnv where
  reads := fun _ => none
  checks := fun _ => none
  writes := fun _ => none
  puts := fun _ => none
  states := fun _ => none
  rebuild := fun _ => none
  freed := true
  address := fun _ => ""
  wall := 0

/-- **A member that did not answer the listing is recorded filled**: nothing is planned for `d`. -/
theorem unheard_member_recorded_filled : ∃ g pass, Steps.run (step bareSite) (emptyGroup threeOsds)
      (writtenThenRemapped ++ [.plan (fun _ => true) (fun id => id ≠ [4])]) = some g ∧
    CallsFinish g pass (fun _ => true) ∧ ¬ pass.Filled g.copies := by
  obtain ⟨g, hrun, pass, hpass, hchunks, hfin, hacting, hfilling, hnewest, hslot⟩ :
      ∃ g, run (step bareSite) (emptyGroup threeOsds)
          (writtenThenRemapped ++ [.plan (fun _ => true) (fun id => id ≠ [4])]) = some g ∧
        ∃ pass, g.pass = some pass ∧ pass.chunks = [] ∧ pass.finishes (fun _ => true) = true ∧
          pass.pg.acting[0]? = some [4] ∧ ⟨0, [1], 2⟩ ∈ pass.pg.filling ∧
          (pass.newestObject keyName).isSome ∧ g.copies.slot [4] keyName = Slot.empty := by
    decide +kernel
  refine ⟨g, pass, hrun, ⟨hpass, hchunks, hfin⟩, fun hfilled => ?_⟩
  obtain ⟨n, hn⟩ := isSome_iff_exists.1 hnewest
  obtain ⟨newest, hnew, rfl, ht⟩ := mem_newestObject.1 hn
  have hle := (hfilled _ hfilling _ hacting keyName newest hnew ht).1
  rw [hslot] at hle
  exact absurd hle (WithBot.not_coe_le_bot _)

def stripedMade (id : Bytes) : List StripeMeta :=
  if id = [7] then [{ ecK := 2, ecM := 1 }] else []

/-- `d` answers, the object is brought to it, and the pass calls `finish_filling`. -/
theorem heard_member_filled : ∃ g pass, Steps.run (step bareSite) (emptyGroup threeOsds)
      (writtenThenRemapped ++ [.plan (fun _ => true) (fun _ => true), .work allAnswer .done]) = some g ∧
    CallsFinish g pass (fun _ => true) ∧ (pass.newestObject keyName).isSome ∧ pass.Filled g.copies := by
  obtain ⟨g, hrun, pass, hpass, hchunks, hfin, hheard, hcursor, houtcomes, hnewest⟩ :
      ∃ g, run (step bareSite) (emptyGroup threeOsds)
          (writtenThenRemapped ++ [.plan (fun _ => true) (fun _ => true), .work allAnswer .done]) = some g ∧
        ∃ pass, g.pass = some pass ∧ pass.chunks = [] ∧ pass.finishes (fun _ => true) = true ∧
          (∀ f ∈ pass.pg.filling, (pass.plan.members[f.position]?.join).isSome) ∧
          pass.start = [] ∧ (∀ o ∈ pass.outcomes, o.settled = true) ∧
          (pass.newestObject keyName).isSome := by
    decide +kernel
  have hkeeps : Steps.Along (step bareSite) (Keeps stripedMade) (emptyGroup threeOsds)
      (writtenThenRemapped ++ [.plan (fun _ => true) (fun _ => true), .work allAnswer .done]) := by
    decide +kernel
  have hrec : ∀ id, ∀ s ∈ stripedMade id, s.packId = [] → recoverable s = true := by
    intro id s hs _
    rw [stripedMade] at hs
    split at hs
    · rw [mem_singleton.1 hs]
      rfl
    · cases hs
  have hmade : MadeOf stripedMade (emptyGroup threeOsds).copies := nofun
  exact ⟨g, pass, hrun, ⟨hpass, hchunks, hfin⟩, hnewest,
    filled_when_finished hrec rfl hmade hkeeps hrun ⟨hpass, hchunks, hfin⟩ hheard hcursor houtcomes⟩

end IoLake.Meta.Recovery
