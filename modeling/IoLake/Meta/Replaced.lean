import IoLake.Gateway.QuorumRead
import IoLake.Meta.Filled

/-!
# Majorities of a group whose members are replaced

A write a majority of the acting members took: what stays true, as members are replaced, is that a majority of
the positions has it or is being filled.
-/

namespace IoLake.Meta.Recovery

open Proto Osd Gateway List Finset

/-! ## Majorities -/

section
variable (copies : Copies) (pg : PlacementGroup OsdId) (acting : List OsdId) (name : EntryName)
  (ord : EntryOrder)

def lackers : Finset Nat :=
  positionsOf acting fun id => decide ((copies.slot id name).rank < ord)

def keptPositions : Finset Nat :=
  (Finset.range pg.acting.length).filter fun p => ∀ f ∈ pg.filling, f.position ≠ p

def Widespread : Prop :=
  (lackers copies acting name ord).card + metaWriteQuorum acting.length ≤ acting.length

/-- A majority has it or is being filled. -/
def WidespreadKept : Prop :=
  (lackers copies pg.acting name ord ∩ keptPositions pg).card + metaWriteQuorum pg.acting.length ≤
    pg.acting.length

end

variable {acting : List OsdId} {p : Nat}

section
variable {copies copies' : Copies} {pg pg' : PlacementGroup OsdId} {name : EntryName} {ord : EntryOrder}

theorem mem_positionsOf {q : OsdId → Bool} :
    p ∈ positionsOf acting q ↔ ∃ id, acting[p]? = some id ∧ q id = true := by
  rw [positionsOf, Finset.mem_filter, Finset.mem_range, Option.any_eq_true]
  constructor
  · exact fun h => h.2
  · rintro ⟨id, hid, hq⟩
    exact ⟨(List.getElem?_eq_some_iff.1 hid).1, id, hid, hq⟩

theorem mem_lackers : p ∈ lackers copies acting name ord ↔
    ∃ id, acting[p]? = some id ∧ (copies.slot id name).rank < ord := by
  rw [lackers, mem_positionsOf]
  simp only [decide_eq_true_eq]

theorem mem_keptPositions : p ∈ keptPositions pg ↔
    p < pg.acting.length ∧ ∀ f ∈ pg.filling, f.position ≠ p := by
  rw [keptPositions, Finset.mem_filter, Finset.mem_range]

theorem exists_not_lacking {n : Nat} {S L : Finset Nat} (hS : metaReadQuorum n ≤ S.card)
    (hL : L.card + metaWriteQuorum n ≤ n) : ∃ p ∈ S, p ∉ L := by
  refine exists_mem_notMem_of_card_lt_card ?_
  unfold metaReadQuorum at hS
  omega

theorem WidespreadKept.of_subset (h : WidespreadKept copies pg name ord)
    (hlen : pg'.acting.length = pg.acting.length)
    (hsub : lackers copies' pg'.acting name ord ∩ keptPositions pg' ⊆
      lackers copies pg.acting name ord ∩ keptPositions pg) : WidespreadKept copies' pg' name ord := by
  have hcard := card_le_card hsub
  unfold WidespreadKept at h ⊢
  rw [hlen]
  omega

theorem Widespread.kept (h : Widespread copies pg.acting name ord) : WidespreadKept copies pg name ord := by
  have hsub : lackers copies pg.acting name ord ∩ keptPositions pg ⊆
    lackers copies pg.acting name ord := inter_subset_left
  have hcard := card_le_card hsub
  unfold Widespread at h
  unfold WidespreadKept
  omega

theorem lackers_mono (h : ∀ id ∈ acting, (copies.slot id name).rank ≤ (copies'.slot id name).rank) :
    lackers copies' acting name ord ⊆ lackers copies acting name ord := by
  intro p hp
  obtain ⟨id, hid, hlt⟩ := mem_lackers.1 hp
  exact mem_lackers.2 ⟨id, hid, (h id (mem_of_getElem? hid)).trans_lt hlt⟩

/-- Replacing members keeps what a majority has with a majority. -/
theorem WidespreadKept.refill (h : WidespreadKept copies pg name ord)
    (hr : Refills pg.acting pg.filling pg'.acting pg'.filling) : WidespreadKept copies pg' name ord := by
  refine h.of_subset hr.length fun p hp => ?_
  obtain ⟨hlack, hkept⟩ := mem_inter.1 hp
  obtain ⟨id, hid, hlt⟩ := mem_lackers.1 hlack
  obtain ⟨hbound, hfill⟩ := mem_keptPositions.1 hkept
  obtain ⟨hfill', hsame⟩ := hr.kept p hfill
  rw [hsame] at hid
  refine mem_inter.2 ⟨mem_lackers.2 ⟨id, hid, hlt⟩, mem_keptPositions.2 ⟨?_, hfill'⟩⟩
  exact (List.getElem?_eq_some_iff.1 hid).1

end

def answerOf (s : Slot) (small : Option SmallShard) : Answer :=
  ⟨s.object, s.tombstone, small⟩

/-- The answers of the acting members as they come: of each position, that it failed or what it sends along.
-/
def readAnswers (g : Group) (name : EntryName)
    (arrivals : List (Nat × Option (Option SmallShard))) : List (Option Answer) :=
  arrivals.map fun a => a.2.bind fun small =>
    (g.pg.acting[a.1]?).map fun id => answerOf (g.copies.slot id name) small

/-- A read of the acting set that hears a read quorum of members not being filled before any other. -/
structure HearsKept (pg : PlacementGroup OsdId)
    (arrivals : List (Nat × Option (Option SmallShard))) : Prop where
  nodup : (arrivals.map Prod.fst).Nodup
  bound : ∀ a ∈ arrivals, a.1 < pg.acting.length
  first : ∀ a ∈ (arrivals.filter fun a => a.2.isSome).take (metaReadQuorum pg.acting.length),
    a.1 ∈ keptPositions pg

section
variable {g : Group} {name : EntryName} {ord : EntryOrder}
  {arrivals : List (Nat × Option (Option SmallShard))}

theorem isSome_readAnswer {pg : PlacementGroup OsdId} (copies : Copies)
    {a : Nat × Option (Option SmallShard)} (h : a.1 < pg.acting.length) :
    (a.2.bind fun small => (pg.acting[a.1]?).map fun id =>
      answerOf (copies.slot id name) small).isSome = a.2.isSome := by
  rw [getElem?_eq_getElem h]
  cases a.2 <;> rfl

theorem heard_widespread (hread : HearsKept g.pg arrivals)
    (hwide : WidespreadKept g.copies g.pg name ord) {k : Nat} (hk : metaReadQuorum g.pg.acting.length ≤
      (((readAnswers g name arrivals).take k).filter Option.isSome).length) : ∃ id small,
      some (answerOf (g.copies.slot id name) small) ∈ (readAnswers g name arrivals).take k ∧
        (ord : WithBot EntryOrder) ≤ (g.copies.slot id name).rank := by
  have hlen : (((readAnswers g name arrivals).take k).filter Option.isSome).length =
      ((arrivals.take k).filter fun a => a.2.isSome).length := by
    rw [readAnswers, ← map_take, filter_map, length_map]
    congr 1
    refine filter_congr fun a ha => ?_
    exact isSome_readAnswer g.copies (hread.bound a (mem_of_mem_take ha))
  have hprefix : ((arrivals.take k).filter fun a => a.2.isSome) <+:
      arrivals.filter fun a => a.2.isSome := (List.take_prefix k arrivals).filter _
  rw [hlen] at hk
  -- The first of them are among those that have come.
  obtain ⟨t, ht⟩ := hprefix
  have hfirst := hread.first
  rw [← ht, take_append_of_le_length hk] at hfirst
  have hsub : (((arrivals.take k).filter fun a => a.2.isSome).take
      (metaReadQuorum g.pg.acting.length)).Sublist arrivals :=
    (take_sublist _ _).trans (filter_sublist.trans (take_sublist _ _))
  have hcard : metaReadQuorum g.pg.acting.length ≤ ((((arrivals.take k).filter fun a =>
      a.2.isSome).take (metaReadQuorum g.pg.acting.length)).map Prod.fst).toFinset.card := by
    rw [toFinset_card_of_nodup (hread.nodup.sublist (hsub.map _)), length_map, length_take]
    omega
  obtain ⟨p, hp, hnot⟩ := exists_not_lacking hcard hwide
  obtain ⟨a, ha, rfl⟩ := mem_map.1 (mem_toFinset.1 hp)
  obtain ⟨hmem, hsome⟩ := mem_filter.1 (mem_of_mem_take ha)
  obtain ⟨small, hsmall⟩ := Option.isSome_iff_exists.1 hsome
  obtain ⟨id, hid⟩ : ∃ id, g.pg.acting[a.1]? = some id :=
    ⟨_, getElem?_eq_getElem (hread.bound a (mem_of_mem_take hmem))⟩
  refine ⟨id, small, ?_, not_lt.1 fun hlt => ?_⟩
  · rw [readAnswers, ← map_take]
    refine mem_map.2 ⟨a, hmem, ?_⟩
    rw [hsmall, hid]
    rfl
  · exact hnot (mem_inter.2 ⟨mem_lackers.2 ⟨_, hid, hlt⟩, hfirst a ha⟩)

end

/-- What ties a pass to the group it is of. -/
structure PassOf (g : Group) (pass : Pass) : Prop where
  sound : pass.Sound
  epoch : pass.pg.epoch ≤ g.pg.epoch
  same : g.pg.epoch = pass.pg.epoch → g.pg.acting = pass.pg.acting ∧ g.pg.filling = pass.pg.filling
  strays : ∀ id ∈ pass.plan.strays.map Prod.fst, id ∉ pass.pg.acting

theorem strays_of_plan {copies : Copies} {pg : PlacementGroup OsdId} {usable answer : OsdId → Bool}
    {plan : Plan} (h : recoveryPlan copies pg usable answer = .ok plan) :
    ∀ id ∈ plan.strays.map Prod.fst, id ∉ pg.acting := by
  rw [recoveryPlan] at h
  dsimp only at h
  split_ifs at h
  cases h
  intro id hid
  obtain ⟨stray, hstray, rfl⟩ := mem_map.1 hid
  obtain ⟨l, hl, hentry⟩ := mem_flatMap.1 hstray
  obtain ⟨x, hx, rfl⟩ := mem_map.1 hl
  obtain ⟨e, -, rfl⟩ := mem_map.1 hentry
  have hx := (mem_filter.1 hx).1
  exact of_decide_eq_true (mem_filter.1 hx).2

variable {site : Site OsdId} {g g' : Group} {e : Event}

theorem pg_step (h : step site g e = some g') : g'.pg = g.pg ∨
    (∃ c, e = .change c ∧ Meta.step site g.pg c = some g'.pg ∧ g'.copies = g.copies) ∨
    ∃ usable committed clean reached pass, e = .finish usable committed clean reached ∧
      g.pass = some pass ∧ pass.finishes usable = true ∧ pass.queued = [] ∧
      g.pg.epoch = pass.pg.epoch ∧ g'.pg = { g.pg with filling := [] } := by
  cases e with
  | put name o reach | delete name stamp reach | stop =>
    rw [step] at h
    split at h <;> cases h
    exact .inl rfl
  | store id shard | free id shard =>
    cases h
    exact .inl rfl
  | change c =>
    rw [step] at h
    obtain ⟨pg, hpg, rfl⟩ := Option.map_eq_some_iff.1 h
    exact .inr (.inl ⟨c, rfl, hpg, rfl⟩)
  | plan usable answer => exact .inl (step_plan h).2.2.1
  | work env outcome =>
    obtain ⟨pass, next, w, hw⟩ := step_work h
    exact .inl hw.group.1
  | yield =>
    rw [step] at h
    split at h
    · cases h
    · split at h <;> cases h
      exact .inl rfl
  | finish usable committed clean reached =>
    obtain ⟨-, -, pass, hpass, hqueued, ⟨-, hpg⟩ | ⟨hfin, hepoch, -, hpg, -⟩⟩ := step_finish h
    · exact .inl hpg
    · refine .inr (.inr ⟨usable, committed, clean, reached, pass, rfl, hpass, hfin, hqueued ?_, hepoch, hpg⟩)
      exact yielded_of_finishes hfin

theorem PassOf.start {usable answer : OsdId → Bool} {plan : Plan}
    (h : recoveryPlan g.copies g.pg usable answer = .ok plan) (cursor : Bytes)
    (hpg : g'.pg = g.pg) : PassOf g' (startPass g.pg plan cursor) := by
  refine ⟨sound_startPass h cursor, ?_, fun _ => ?_, strays_of_plan h⟩
  · rw [hpg]
    exact le_rfl
  · rw [hpg]
    exact ⟨rfl, rfl⟩

theorem PassOf.step {pass pass' : Pass} (ho : PassOf g pass) (h : step site g e = some g')
    (hp : g.pass = some pass) (hp' : g'.pass = some pass') : PassOf g' pass' := by
  obtain ⟨hplan, hpg⟩ := pass_plan h hp hp'
  have hsound := ho.sound.step h hp hp'
  rcases pg_step h with hsame | ⟨c, rfl, hchange, -⟩ | ⟨_, _, _, _, _, rfl, -⟩
  · refine ⟨hsound, ?_, ?_, ?_⟩
    · rw [hsame, hpg]
      exact ho.epoch
    · rw [hsame, hpg]
      exact ho.same
    · rw [hplan, hpg]
      exact ho.strays
  · have hepoch := ho.epoch
    refine ⟨hsound, ?_, fun heq => ?_, ?_⟩
    · rw [hpg]
      rcases (step_refills hchange).2 with ⟨-, -, h0⟩ | h0
      · omega
      · omega
    · rw [hpg] at heq ⊢
      rcases (step_refills hchange).2 with ⟨hacting, hfilling, h0⟩ | h0
      · rw [hacting, hfilling]
        exact ho.same (h0 ▸ heq)
      · omega
    · rw [hplan, hpg]
      exact ho.strays
  · rw [(step_finish h).1] at hp'
    cases hp'

theorem rank_le_acting (hpass : ∀ pass, g.pass = some pass → PassOf g pass)
    (h : step site g e = some g') {id : OsdId} (hid : id ∈ g.pg.acting) (name : EntryName) :
    (g.copies.slot id name).rank ≤ (g'.copies.slot id name).rank := by
  have hslot := slot_step h id name
  generalize hs : g.copies.slot id name = s at hslot
  generalize hs' : g'.copies.slot id name = s' at hslot
  cases hslot with
  | same => exact le_rfl
  | put o reach ho => exact Slot.rank_le_put
  | delete stamp reach hstamp => exact Slot.rank_le_delete hstamp
  | work env outcome pass w _ hp hw hname hmove =>
    have hsound := (hpass pass hp).sound
    obtain ⟨n, hn, hnewest⟩ := hsound.newest w hw
    exact rank_le_move hmove (hnewest ▸ hsound.stamp w.name n hn)
  | withdraw usable committed clean reached pass _ hp hstray hwithdrawn =>
    -- Only a fill recorded done withdraws, from strays of the same acting set.
    obtain ⟨-, -, pass', hp', -, ⟨hcopies, -⟩ | ⟨-, hepoch, -⟩⟩ := step_finish h
    · rw [← hs, ← hs', hcopies]
    · cases hp.symm.trans hp'
      have hof := hpass pass hp
      rw [(hof.same hepoch).1] at hid
      exact absurd hid (hof.strays id hstray)

end IoLake.Meta.Recovery
