import IoLake.Meta.Replaced

/-!
# Acknowledged puts across replaced members

A member that stands in for a lost one starts without entries, and is filled by a recovery pass.  Until then
a read quorum may hear only members that missed a put.

The invariant counts, for a write that was acknowledged, the members that lack it and are not being filled
(`VisibleInv`): a write quorum is left without them.  A pass that left nothing out and heard every member
being filled keeps that when it ends (`VisibleInv.finished`).

* `acked_put_visible`: the write is read, or a newer one, where a read quorum of members not being filled is
  heard.
* `blank_member_hides_put`: a member being filled counts as one that answers, and hides the write.
-/

namespace IoLake.Meta.Recovery

open Proto Osd Gateway Option List Finset

def Pass.heardKept (pass : Pass) : Finset Nat :=
  (keptPositions pass.pg).filter fun p => (pass.plan.members[p]?.join).isSome

/-- It left nothing out, and heard every member being filled and a read quorum of the others. -/
structure Pass.Fills (pass : Pass) : Prop where
  start : pass.start = []
  outcomes : ∀ o ∈ pass.outcomes, o.settled = true
  filling : ∀ f ∈ pass.pg.filling, (pass.plan.members[f.position]?.join).isSome
  quorum : metaReadQuorum pass.pg.acting.length ≤ pass.heardKept.card

instance (pass : Pass) : Decidable pass.Fills :=
  decidable_of_iff (pass.start = [] ∧ (∀ o ∈ pass.outcomes, o.settled = true) ∧
    (∀ f ∈ pass.pg.filling, (pass.plan.members[f.position]?.join).isSome) ∧
    metaReadQuorum pass.pg.acting.length ≤ pass.heardKept.card)
    ⟨fun ⟨h₁, h₂, h₃, h₄⟩ => ⟨h₁, h₂, h₃, h₄⟩, fun h => ⟨h.start, h.outcomes, h.filling, h.quorum⟩⟩

def FillsHeard (g : Group) : Event → Prop
  | .finish usable _ _ _ => ∀ pass ∈ g.pass, pass.finishes usable = true → pass.Fills
  | _ => True

instance (g : Group) : ∀ e, Decidable (FillsHeard g e)
  | .finish usable _ _ _ =>
    inferInstanceAs (Decidable (∀ pass ∈ g.pass, pass.finishes usable = true → pass.Fills))
  | .put _ _ _ | .delete _ _ _ | .store _ _ | .free _ _ | .change _ | .plan _ _ | .work _ _ | .yield
  | .stop => .isTrue trivial

def PutsKeep (name : EntryName) (o : ObjectMeta) (g : Group) (e : Event) : Prop :=
  FillsHeard g e ∧ match e with
    | .delete name' stamp _ => name' = name → stamp < o.stamp
    | _ => True

instance (name : EntryName) (o : ObjectMeta) (g : Group) (e : Event) : Decidable (PutsKeep name o g e) :=
  @instDecidableAnd _ _ inferInstance <|
    match e with
    | .delete name' stamp _ => inferInstanceAs (Decidable (name' = name → stamp < o.stamp))
    | .put _ _ _ | .store _ _ | .free _ _ | .change _ | .plan _ _ | .work _ _ | .yield | .stop
    | .finish _ _ _ _ => .isTrue trivial

def Undeleted (copies : Copies) (name : EntryName) (o : ObjectMeta) : Prop :=
  ∀ id, (copies.slot id name).tombstone < o.stamp

/-! ## What a run keeps -/

structure VisibleInv (name : EntryName) (g : Group) : Prop where
  pass : ∀ pass, g.pass = some pass → PassOf g pass
  stamped : ∀ o, (name, o) ∈ g.acked → o.stamp ≠ 0
  acked : ∀ o, (name, o) ∈ g.acked → Undeleted g.copies name o →
    WidespreadKept g.copies g.pg name (objectOrder o)
  deleted : ∀ pass, g.pass = some pass → ∀ n, newestAt pass.plan.listed name = some n →
    n.entry.tombstone = true → ∃ id, n.entry.stamp ≤ (g.copies.slot id name).tombstone
  order : ∀ pass, g.pass = some pass → ∀ n, newestAt pass.plan.listed name = some n →
    n.entry.tombstone = false →
      pass.Reaches g.copies name n.entry fun s => (n.entry.order : WithBot EntryOrder) ≤ s.rank
  /-- A pass that heard a quorum listed what was acknowledged before it. -/
  listed : ∀ pass, g.pass = some pass → g.pg.epoch = pass.pg.epoch →
    metaReadQuorum pass.pg.acting.length ≤ pass.heardKept.card → ∀ o, (name, o) ∈ g.acked →
      Undeleted g.copies name o →
        (∃ n, newestAt pass.plan.listed name = some n ∧ objectOrder o ≤ n.entry.order) ∨
          Widespread g.copies g.pg.acting name (objectOrder o)

variable {site : Site OsdId} {g g' : Group} {e : Event} {name : EntryName}

variable {o : ObjectMeta} {usable : OsdId → Bool} {pass : Pass}

/-- What a majority took a majority has. -/
theorem widespread_put {copies : Copies} {acting reach : List OsdId} (hstamp : o.stamp ≠ 0)
    (h : metaWriteQuorum acting.length ≤ (positionsOf acting (· ∈ reach)).card) :
    Widespread (writeAt copies reach name (·.put o)) acting name (objectOrder o) := by
  have hdisjoint : Disjoint (lackers (writeAt copies reach name (·.put o)) acting name
      (objectOrder o)) (positionsOf acting (· ∈ reach)) := by
    refine disjoint_left.2 fun p hlack hreach => ?_
    obtain ⟨id, hid, hlt⟩ := mem_lackers.1 hlack
    obtain ⟨id', hid', hmem⟩ := mem_positionsOf.1 hreach
    rw [hid] at hid'
    cases hid'
    rw [slot_writeAt, if_pos ⟨of_decide_eq_true hmem, rfl⟩] at hlt
    exact absurd (Slot.order_le_put hstamp) (not_le.2 hlt)
  have hunion : lackers (writeAt copies reach name (·.put o)) acting name (objectOrder o) ∪
      positionsOf acting (· ∈ reach) ⊆ range acting.length :=
    union_subset (filter_subset _ _) (filter_subset _ _)
  have hcard := card_le_card hunion
  rw [card_union_of_disjoint hdisjoint, card_range] at hcard
  unfold Widespread
  omega

theorem acked_step (h : step site g e = some g') (ho : (name, o) ∈ g'.acked) : (name, o) ∈ g.acked ∨
      (o.stamp ≠ 0 ∧ Widespread g'.copies g'.pg.acting name (objectOrder o)) := by
  cases e with
  | put name' new reach =>
    rw [step] at h
    split at h
    · cases h
    rename_i hstamp
    cases h
    dsimp only at ho ⊢
    split at ho
    · rename_i hquorum
      rcases mem_cons.1 ho with heq | ho
      · cases heq
        exact .inr ⟨hstamp, widespread_put hstamp hquorum⟩
      · exact .inl ho
    · exact .inl ho
  | delete name' stamp reach | stop =>
    rw [step] at h
    split at h <;> cases h
    exact .inl ho
  | store id shard | free id shard =>
    cases h
    exact .inl ho
  | change c =>
    rw [step] at h
    obtain ⟨pg, -, rfl⟩ := map_eq_some_iff.1 h
    exact .inl ho
  | plan usable answer =>
    rw [(step_plan h).2.2.2.1] at ho
    exact .inl ho
  | work env outcome =>
    obtain ⟨pass, next, w, hw⟩ := step_work h
    rw [hw.group.2] at ho
    exact .inl ho
  | yield =>
    rw [step] at h
    split at h
    · cases h
    · split at h <;> cases h
      exact .inl ho
  | finish usable committed clean reached =>
    rw [(step_finish h).2.1] at ho
    exact .inl ho

/-- No step takes a delete back. -/
theorem tombstone_le_step (h : step site g e = some g') (id : OsdId) (name : EntryName) :
    (g.copies.slot id name).tombstone ≤ (g'.copies.slot id name).tombstone := by
  have hslot := slot_step h id name
  generalize g.copies.slot id name = s at hslot
  generalize g'.copies.slot id name = s' at hslot
  cases hslot with
  | same => exact le_rfl
  | put o reach ho => rw [Slot.put_tombstone]
  | delete stamp reach hstamp => exact Slot.tombstone_le_delete
  | work env outcome pass w _ hp hw hname hmove =>
    cases hmove with
    | same => exact le_rfl
    | put o ht ho => rw [Slot.put_tombstone]
    | delete ht => exact Slot.tombstone_le_delete
  | withdraw _ _ _ _ pass _ _ _ hwithdrawn => exact hwithdrawn.tombstone.ge

theorem Undeleted.before (hlive : Undeleted g'.copies name o)
    (h : step site g e = some g') : Undeleted g.copies name o :=
  fun id => (tombstone_le_step h id name).trans_lt (hlive id)

theorem deleted_of_plan {answer : OsdId → Bool} {plan : Plan}
    (h : recoveryPlan g.copies g.pg usable answer = .ok plan) {n : Newest}
    (hn : newestAt plan.listed name = some n) (ht : n.entry.tombstone = true) :
    ∃ id, n.entry.stamp ≤ (g.copies.slot id name).tombstone := by
  obtain ⟨⟨l, hl, hentry⟩, -⟩ := newestAt_spec hn
  refine ⟨l.1, ?_⟩
  rw [listed_of_plan h hl, get_listing, Slot.listed] at hentry
  split at hentry
  · rw [← some.inj hentry] at ht
    cases ht
  · split at hentry
    · cases hentry
    · rw [← some.inj hentry]
      exact le_rfl

theorem VisibleInv.object (hi : VisibleInv name g) (hp : g.pass = some pass)
    {n : Newest} (hn : newestAt pass.plan.listed name = some n)
    (hlive : Undeleted g.copies name o) (hle : objectOrder o ≤ n.entry.order) :
    n.entry.tombstone = false := by
  refine Bool.eq_false_iff.2 fun ht => ?_
  obtain ⟨id, hid⟩ := hi.deleted pass hp n hn ht
  have hstamp : o.stamp ≤ n.entry.stamp := by
    rcases Prod.Lex.toLex_le_toLex.1 hle with hlt | heq
    · exact hlt.le
    · exact heq.1.le
  have := hlive id
  omega

theorem listed_of_plan_quorum {answer : OsdId → Bool} {plan : Plan} {cursor : Bytes}
    {ord : EntryOrder} (h : recoveryPlan g.copies g.pg usable answer = .ok plan)
    (hq : metaReadQuorum g.pg.acting.length ≤ (startPass g.pg plan cursor).heardKept.card)
    (hwide : WidespreadKept g.copies g.pg name ord) :
    ∃ n, newestAt plan.listed name = some n ∧ ord ≤ n.entry.order := by
  obtain ⟨p, hp, hnot⟩ := exists_not_lacking hq hwide
  obtain ⟨hkept, hsome⟩ := Finset.mem_filter.1 hp
  obtain ⟨id, hid⟩ := isSome_iff_exists.1 hsome
  have hmember : plan.members[p]? = some (some id) := join_eq_some_iff.1 hid
  have hrank : (ord : WithBot EntryOrder) ≤ (g.copies.slot id name).rank := by
    refine not_lt.1 fun hlt => hnot (mem_inter.2 ⟨?_, hkept⟩)
    exact mem_lackers.2 ⟨id, acting_of_member h hmember, hlt⟩
  rw [Copies.slot, ← Slot.listed_order id (g.copies id).shards, ← get_listing] at hrank
  cases hentry : (listing id (g.copies id)).get name with
  | none =>
    rw [hentry] at hrank
    exact absurd hrank (WithBot.not_coe_le_bot _)
  | some entry =>
    rw [hentry] at hrank
    have hmem := member_listed h hmember
    cases hn : newestAt plan.listed name with
    | none =>
      rw [newestAt_eq_none hn hmem] at hentry
      cases hentry
    | some n =>
      refine ⟨n, rfl, le_trans ?_ ((newestAt_spec hn).2 _ hmem entry hentry)⟩
      exact WithBot.coe_le_coe.1 hrank

theorem VisibleInv.finished (hi : VisibleInv name g) (hp : g.pass = some pass)
    (hfin : pass.finishes usable = true) (hfills : pass.Fills)
    (hqueued : pass.queued = []) (hepoch : g.pg.epoch = pass.pg.epoch)
    (ho : (name, o) ∈ g.acked) (hlive : Undeleted g.copies name o) :
    Widespread g.copies g.pg.acting name (objectOrder o) := by
  have hof := hi.pass pass hp
  obtain ⟨hacting, hfilling⟩ := hof.same hepoch
  rcases hi.listed pass hp hepoch hfills.quorum o ho hlive with ⟨n, hn, hle⟩ | hwide
  · have hclean : pass.Clean := ⟨hfills.start, yielded_of_finishes hfin, hfills.outcomes⟩
    have hsub : lackers g.copies g.pg.acting name (objectOrder o) ⊆
        lackers g.copies g.pg.acting name (objectOrder o) ∩ keptPositions g.pg := by
      intro p hp'
      refine mem_inter.2 ⟨hp', mem_keptPositions.2 ?_⟩
      obtain ⟨id, hid, hlt⟩ := mem_lackers.1 hp'
      refine ⟨(List.getElem?_eq_some_iff.1 hid).1, fun f hf hpos => ?_⟩
      -- A member being filled was heard, and has what was listed newest.
      subst hpos
      obtain ⟨m, hm⟩ := isSome_iff_exists.1 (hfills.filling f (hfilling ▸ hf))
      have hm := join_eq_some_iff.1 hm
      have hsame := hof.sound.member _ _ hm
      rw [← hacting, hid] at hsame
      cases hsame
      have ht := hi.object hp hn hlive hle
      rcases hi.order pass hp n hn ht hclean _ id hm with ⟨w, hw, -⟩ | hrank
      · rw [hqueued] at hw
        exact not_mem_nil hw
      · exact absurd ((WithBot.coe_le_coe.2 hle).trans hrank) (not_le.2 hlt)
    have hcard := card_le_card hsub
    have hkept := hi.acked o ho hlive
    unfold WidespreadKept at hkept
    unfold Widespread
    omega
  · exact hwide

theorem VisibleInv.lackers_step (hi : VisibleInv name g) (h : step site g e = some g') (ord : EntryOrder) :
    lackers g'.copies g.pg.acting name ord ⊆ lackers g.copies g.pg.acting name ord :=
  lackers_mono fun _ hid => rank_le_acting hi.pass h hid name

theorem VisibleInv.acked_step (hi : VisibleInv name g) (h : step site g e = some g')
    (hk : FillsHeard g e) (ho : (name, o) ∈ g.acked)
    (hlive : Undeleted g'.copies name o) : WidespreadKept g'.copies g'.pg name (objectOrder o) := by
  have hkept := hi.acked o ho (hlive.before h)
  rcases pg_step h with hsame | ⟨c, rfl, hchange, hcopies⟩ |
    ⟨usable, _, _, _, pass, rfl, hp, hfin, hqueued, hepoch, hpg⟩
  · rw [hsame]
    exact hkept.of_subset rfl (inter_subset_inter_right (hi.lackers_step h _))
  · rw [hcopies]
    exact hkept.refill (step_refills hchange).1
  · have hwide := hi.finished hp hfin (hk pass hp hfin) hqueued hepoch ho (hlive.before h)
    rw [hpg]
    refine Widespread.kept ?_
    have hcard := card_le_card (hi.lackers_step h (objectOrder o))
    unfold Widespread at hwide ⊢
    dsimp only
    omega

theorem acting_step {pass' : Pass} (hof : PassOf g pass) (h : step site g e = some g')
    (hp : g.pass = some pass) (hp' : g'.pass = some pass') (hepoch : g'.pg.epoch = pass'.pg.epoch) :
    g.pg.epoch = pass.pg.epoch ∧ g'.pg.acting = g.pg.acting := by
  rw [(pass_plan h hp hp').2] at hepoch
  have hle := hof.epoch
  rcases pg_step h with hsame | ⟨c, rfl, hchange, -⟩ | ⟨_, _, _, _, _, rfl, -⟩
  · rw [hsame] at hepoch ⊢
    exact ⟨hepoch, rfl⟩
  · rcases (step_refills hchange).2 with ⟨hacting, -, heq⟩ | hlt
    · exact ⟨heq ▸ hepoch, hacting⟩
    · omega
  · rw [(step_finish h).1] at hp'
    cases hp'

theorem VisibleInv.listed_step (hi : VisibleInv name g) (h : step site g e = some g')
    {pass' : Pass} (hp : g.pass = some pass) (hp' : g'.pass = some pass')
    (hepoch : g'.pg.epoch = pass'.pg.epoch)
    (hq : metaReadQuorum pass'.pg.acting.length ≤ pass'.heardKept.card)
    (ho : (name, o) ∈ g'.acked) (hlive : Undeleted g'.copies name o) :
    (∃ n, newestAt pass'.plan.listed name = some n ∧ objectOrder o ≤ n.entry.order) ∨
      Widespread g'.copies g'.pg.acting name (objectOrder o) := by
  obtain ⟨hplan, hpg⟩ := pass_plan h hp hp'
  obtain ⟨hepoch', hacting⟩ := acting_step (hi.pass pass hp) h hp hp' hepoch
  rw [Pass.heardKept, hplan, hpg] at hq
  rw [hplan]
  rcases Recovery.acked_step h ho with ho | ⟨-, hwide⟩
  · refine (hi.listed pass hp hepoch' hq o ho (hlive.before h)).imp_right fun hwide => ?_
    have hcard := card_le_card (hi.lackers_step h (objectOrder o))
    unfold Widespread at hwide ⊢
    rw [hacting]
    omega
  · exact .inr hwide

theorem VisibleInv.step (hi : VisibleInv name g) (hk : FillsHeard g e)
    (h : step site g e = some g') : VisibleInv name g' := by
  have hstamped : ∀ o, (name, o) ∈ g'.acked → o.stamp ≠ 0 := by
    intro o ho
    rcases Recovery.acked_step h ho with ho | ⟨hstamp, -⟩
    · exact hi.stamped o ho
    · exact hstamp
  have hacked : ∀ o, (name, o) ∈ g'.acked → Undeleted g'.copies name o →
      WidespreadKept g'.copies g'.pg name (objectOrder o) := by
    intro o ho hlive
    rcases Recovery.acked_step h ho with ho | ⟨-, hwide⟩
    · exact hi.acked_step h hk ho hlive
    · exact hwide.kept
  cases hp : g.pass with
  | none =>
    refine ⟨fun pass' hp' => ?_, hstamped, hacked, fun pass' hp' n hn ht => ?_,
      fun pass' hp' n hn ht => ?_, fun pass' hp' _ hq o ho hlive => ?_⟩
    · obtain ⟨usable, answer, plan, cursor, rfl, hplan, -, hpg, rfl⟩ := pass_planned h hp hp'
      exact .start hplan cursor hpg
    · obtain ⟨usable, answer, plan, cursor, rfl, hplan, hcopies, -, rfl⟩ := pass_planned h hp hp'
      rw [hcopies]
      exact deleted_of_plan hplan hn ht
    · obtain ⟨usable, answer, plan, cursor, rfl, hplan, hcopies, -, rfl⟩ := pass_planned h hp hp'
      rw [hcopies]
      exact reaches_startPass hplan hn fun id hstand => order_le_of_standing ht hstand
    · obtain ⟨usable, answer, plan, cursor, rfl, hplan, -, -, rfl⟩ := pass_planned h hp hp'
      rw [(step_plan h).2.2.2.1] at ho
      exact .inl (listed_of_plan_quorum hplan hq (hi.acked o ho (hlive.before h)))
  | some pass =>
    have hof := hi.pass pass hp
    refine ⟨fun pass' hp' => hof.step h hp hp', hstamped, hacked, fun pass' hp' n hn ht => ?_,
      fun pass' hp' n hn ht => ?_, fun pass' hp' hepoch hq o ho hlive => ?_⟩
    · rw [(pass_plan h hp hp').1] at hn
      obtain ⟨id, hid⟩ := hi.deleted pass hp n hn ht
      exact ⟨id, hid.trans (tombstone_le_step h id name)⟩
    · rw [(pass_plan h hp hp').1] at hn
      exact reaches_order hn ht hof.sound (hi.order pass hp n hn ht) h hp hp'
    · exact hi.listed_step h hp hp' hepoch hq ho hlive

theorem covers_answerOf {s : Slot} (h : (objectOrder o : WithBot EntryOrder) ≤ s.rank)
    (small : Option SmallShard) : (answerOf s small).Covers o.writeOrder := by
  rw [Slot.rank] at h
  cases hs : s.object with
  | some c =>
    rw [hs] at h
    exact .inl ⟨c, hs, objectOrder_le_iff.1 (WithBot.coe_le_coe.1 h)⟩
  | none =>
    rw [hs] at h
    dsimp only at h
    split at h
    · exact absurd h (WithBot.not_coe_le_bot _)
    · refine .inr ?_
      have hle := WithBot.coe_le_coe.1 h
      exact not_lt.1 fun hlt => absurd (deleteOrder_lt_object.2 hlt) (not_lt.2 hle)

theorem VisibleInv.init {g₀ : Group} (hstart : g₀.pass = none) (hacked : g₀.acked = []) :
    VisibleInv name g₀ := by
  refine ⟨?_, ?_, ?_, ?_, ?_, ?_⟩
  · intro pass hp
    rw [hstart] at hp
    cases hp
  · intro o ho
    rw [hacked] at ho
    cases ho
  · intro o ho
    rw [hacked] at ho
    cases ho
  all_goals
    intro pass hp
    rw [hstart] at hp
    cases hp

theorem Undeleted.step (hlive : Undeleted g.copies name o) (hi : VisibleInv name g)
    (hbelow : ∀ stamp reach, e = .delete name stamp reach → stamp < o.stamp)
    (h : step site g e = some g') : Undeleted g'.copies name o := by
  intro id
  have hslot := slot_step h id name
  have hid := hlive id
  generalize g.copies.slot id name = s at hslot hid
  generalize g'.copies.slot id name = s' at hslot
  cases hslot with
  | same => exact hid
  | put o reach ho => rwa [Slot.put_tombstone]
  | delete stamp reach hstamp => exact Slot.delete_tombstone_lt hid (hbelow stamp reach rfl)
  | work env outcome pass w _ hp hw hname hmove =>
    cases hmove with
    | same => exact hid
    | put o ht ho => rwa [Slot.put_tombstone]
    | delete ht =>
      subst hname
      obtain ⟨n, hn, hnewest⟩ := (hi.pass pass hp).sound.newest w hw
      rw [hnewest] at ht ⊢
      obtain ⟨id', hid'⟩ := hi.deleted pass hp n hn ht
      exact Slot.delete_tombstone_lt hid (hid'.trans_lt (hlive id'))
  | withdraw _ _ _ _ pass _ _ _ hwithdrawn => rwa [hwithdrawn.tombstone]

theorem mem_readAnswers {arrivals : List (Nat × Option (Option SmallShard))} {a : Answer}
    (h : some a ∈ readAnswers g name arrivals) : ∃ id small, a = answerOf (g.copies.slot id name) small := by
  obtain ⟨x, -, hx⟩ := mem_map.1 h
  obtain ⟨small, -, hx⟩ := bind_eq_some_iff.1 hx
  obtain ⟨id, -, hx⟩ := map_eq_some_iff.1 hx
  exact ⟨id, small, hx.symm⟩

/-- **An acknowledged put is read, or a newer one**, where fills are recorded done by passes that heard
enough, no later delete is made, and a read quorum of members not being filled is heard first. -/
theorem acked_put_visible {g₀ g : Group} {events : List Event} {o : ObjectMeta}
    (hstart : g₀.pass = none) (hacked : g₀.acked = []) (hlive : Undeleted g₀.copies name o)
    (hkeeps : Steps.Along (step site) (PutsKeep name o) g₀ events)
    (hrun : Steps.run (step site) g₀ events = some g) (ho : (name, o) ∈ g.acked)
    {arrivals : List (Nat × Option (Option SmallShard))} (hread : HearsKept g.pg arrivals)
    (atQuorum withSmallShard : Bool) :
    match readObjectMeta g.pg.acting.length atQuorum withSmallShard (readAnswers g name arrivals) with
    | .ok (some r) => o.writeOrder ≤ r.writeOrder
    | .ok none => False
    | .error _ => True := by
  have hstep : ∀ g e g', VisibleInv name g ∧ Undeleted g.copies name o → PutsKeep name o g e →
      step site g e = some g' → VisibleInv name g' ∧ Undeleted g'.copies name o := by
    intro g e g' ⟨hi, hlive⟩ hk hstep
    refine ⟨hi.step hk.1 hstep, hlive.step hi ?_ hstep⟩
    rintro stamp reach rfl
    exact hk.2 rfl
  obtain ⟨hi, hlive⟩ := Steps.run_invariant_along hstep events g₀ g ⟨.init hstart hacked, hlive⟩
    hkeeps hrun
  have hstamp : o.writeOrder.stamp ≠ 0 := hi.stamped o ho
  rcases readObjectMeta_result (n := g.pg.acting.length) atQuorum withSmallShard
    (readAnswers g name arrivals) with ⟨hnone, -⟩ | ⟨k, hk, hresult⟩
  · rw [hnone]
    trivial
  obtain ⟨id, small, hmem, hrank⟩ := heard_widespread hread (hi.acked o ho hlive) hk
  have hcovers := covers_answerOf hrank small
  generalize readObjectMeta g.pg.acting.length atQuorum withSmallShard (readAnswers g name arrivals) =
    result at hresult
  cases hresult with
  | found r hr => exact hr.covers hmem hstamp hcovers
  | tooOld r hr hlevel => trivial
  | nothing hnone =>
    obtain ⟨b, hb, hle⟩ := hnone.covers hmem hcovers
    obtain ⟨id', small', rfl⟩ := mem_readAnswers (mem_of_mem_take hb)
    have := hlive id'
    exact absurd hle (not_le.2 this)

def missedThenRemapped : List Event :=
  [.put keyName stripedObject [[1], [2]], .change (.remap ⟨[⟨[4], .in_, "d"⟩], fun _ => none, 0⟩)]

/-- **A member being filled counts as one that answers**: `d` and `c` make a read quorum, and neither
has the acknowledged put. -/
theorem blank_member_hides_put : ∃ g,
    Steps.run (step bareSite) (emptyGroup threeOsds) missedThenRemapped = some g ∧
    (keyName, stripedObject) ∈ g.acked ∧ readObjectMeta g.pg.acting.length false false
      (readAnswers g keyName [(0, some none), (2, some none)]) = .ok none := by
  decide +kernel

def missedThenFilled : List Event :=
  [.put keyName stripedObject [[1], [2]], .store [1] ⟨[7], 0, 0⟩, .store [2] ⟨[7], 0, 1⟩,
    .store [3] ⟨[7], 0, 2⟩, .change (.remap ⟨[⟨[4], .in_, "d"⟩], fun _ => none, 0⟩),
    .plan (fun _ => true) (fun _ => true), .work allAnswer .done,
    .finish (fun _ => true) true true (fun _ => true)]

theorem filled_member_shows_put : ∃ g,
    Steps.run (step bareSite) (emptyGroup threeOsds) missedThenFilled = some g ∧
    (keyName, stripedObject) ∈ g.acked ∧
    match readObjectMeta g.pg.acting.length false false
      (readAnswers g keyName [(0, some none), (2, some none)]) with
    | .ok (some r) => stripedObject.writeOrder ≤ r.writeOrder
    | .ok none => False
    | .error _ => True := by
  obtain ⟨g, hrun, hacked, hlength, hkept⟩ :
      ∃ g, Steps.run (step bareSite) (emptyGroup threeOsds) missedThenFilled = some g ∧
        (keyName, stripedObject) ∈ g.acked ∧ g.pg.acting.length = 3 ∧ keptPositions g.pg = {0, 1, 2} := by
    decide +kernel
  have hkeeps : Steps.Along (step bareSite) (PutsKeep keyName stripedObject) (emptyGroup threeOsds)
      missedThenFilled := by
    decide +kernel
  have hread : HearsKept g.pg [(0, some none), (2, some none)] := by
    refine ⟨by decide, fun a ha => ?_, fun a ha => ?_⟩
    · rw [hlength]
      revert a
      decide
    · rw [hlength] at ha
      rw [hkept]
      revert a
      decide
  have hlive : Undeleted (emptyGroup threeOsds).copies keyName stripedObject :=
    fun _ => (by decide : 0 < 5)
  exact ⟨g, hrun, hacked, acked_put_visible rfl rfl hlive hkeeps hrun hacked hread false false⟩

end IoLake.Meta.Recovery
