import IoLake.Erasure.Recoverable
import IoLake.Placement.Copyset

/-!
# Losing a failure domain

The protection a pool asks for, the placement rule that follows from it and the check that the loss of one
domain leaves its objects readable (`tolerates_domain_loss`), against what the codec can decode.
-/

namespace IoLake.Meta

open Erasure Placement List LrcConfig

/-! ## Pools -/

inductive ErasureType where
  | erasureMds | erasureLrc | erasureReplication
deriving DecidableEq, Repr

def ErasureType.tryFrom : Int → Option ErasureType
  | 0 => some .erasureMds
  | 1 => some .erasureLrc
  | 2 => some .erasureReplication
  | _ => none

structure PoolConfig where
  name : String
  ecType : Int
  ecK : Nat
  ecM : Nat
  ecLocalParity : Nat
  ecGlobalParity : Nat
  replicationCount : Nat
  failureDomain : String
  spreadDomains : Nat
  perDomain : Nat
  lrcGroupsPerDomain : Bool
deriving DecidableEq, Repr

/-- The failure-domain level a name stands for; an empty one is a host. -/
def fdLevel : String → Option FailureDomain
  | "host" | "" => some .host
  | "node" | "osd" => some .node
  | "rack" => some .rack
  | "datacenter" => some .datacenter
  | "zone" => some .zone
  | "region" => some .region
  | "disk" => some .disk
  | _ => none

namespace PoolConfig

section
variable (pool : PoolConfig) (mdsCode : MdsCode) (reedSolomon : ReedSolomon)

/-- The type of the pool; a number that stands for none reads as the first. -/
def erasureType : ErasureType :=
  (ErasureType.tryFrom pool.ecType).getD .erasureMds

def copyCount : Nat :=
  match pool.erasureType with
  | .erasureMds => pool.ecK + pool.ecM
  | .erasureLrc => pool.ecK + pool.ecLocalParity + pool.ecGlobalParity
  | .erasureReplication => pool.replicationCount

def checkScheme : Except String Unit :=
  let why : Except String Unit :=
    match ErasureType.tryFrom pool.ecType with
    | some .erasureMds => checkMds pool.ecK pool.ecM
    | some .erasureLrc => checkLrc pool.ecK pool.ecLocalParity pool.ecGlobalParity
    | some .erasureReplication => checkReplicas pool.replicationCount
    | none =>
      .error ("ec_type " ++ toString pool.ecType ++
        " is none of 0 (erasure coding), 1 (LRC) and 2 (replication)")
  why.mapError fun why => "pool '" ++ pool.name ++ "': " ++ why

def localGroups (k l : Nat) : List (List Nat) :=
  let size := k / l
  (range l).map fun g => (range size).map (g * size + ·) ++ [k + g]

def together : Except String (List (List Nat)) :=
  if pool.lrcGroupsPerDomain then
    if pool.erasureType ≠ .erasureLrc then .error "lrc_groups_per_domain is for an LRC pool"
    else
      let k := pool.ecK
      let l := pool.ecLocalParity
      if l = 0 ∨ k % l ≠ 0 then
        .error ("LRC " ++ toString k ++ " data shards don't split into " ++ toString l ++ " local groups")
      else .ok (localGroups k l)
  else .ok []

def ruleOf (level : FailureDomain) (together : List (List Nat)) : PlacementRule :=
  let copies := pool.copyCount
  -- A local group needs its whole size in one domain.
  let perDomain :=
    if pool.perDomain = 0 then (together.map length).max?.getD 1 else pool.perDomain
  let singles := copies - (together.map length).sum
  let domains :=
    if pool.spreadDomains = 0 then together.length + PlacementRule.divCeil singles perDomain
    else pool.spreadDomains
  { level, copyCount := copies, domains, perDomain, together }

def placementRule : Except String PlacementRule :=
  match fdLevel pool.failureDomain with
  | none => .error ("failure_domain '" ++ pool.failureDomain ++ "' not recognised")
  | some level =>
    match pool.together with
    | .error why => .error why
    | .ok together =>
      match (pool.ruleOf level together).validate with
      | .error e => .error e.message
      | .ok () => .ok (pool.ruleOf level together)

/-- Whether losing any one domain of `rule` is to leave the pool's objects readable. -/
def toleratesDomainLoss (rule : PlacementRule) : Bool :=
  let mostInOne := (rule.slots.map length).max?.getD 0
  match pool.erasureType with
  | .erasureReplication => mostInOne < pool.replicationCount
  | .erasureLrc =>
    if ¬ rule.together.isEmpty then
      rule.together.all (fun g => g.length - 1 ≤ pool.ecGlobalParity)
    else mostInOne ≤ pool.ecM
  | .erasureMds => mostInOne ≤ pool.ecM

def lrc : LrcConfig :=
  ⟨pool.ecK, pool.ecLocalParity, pool.ecGlobalParity⟩

def codec : ErasureCodec :=
  { mdsCode, reedSolomon
    backend := if pool.erasureType = .erasureLrc then .lrc pool.lrc else .mds pool.ecK pool.ecM }

def CodesLawful : Prop :=
  (pool.erasureType = .erasureMds → mdsCode.Lawful pool.ecK pool.ecM) ∧
    (pool.erasureType = .erasureLrc → reedSolomon.Lawful pool.ecK pool.ecGlobalParity)

end

end PoolConfig

variable {k : Nat} {slot : List Nat} {lost : Nat → Bool}

section
variable {pool : PoolConfig} {rule : PlacementRule}

theorem mapError_ok {ε ε' α : Type} {x : Except ε α} {f : ε → ε'} {a : α}
    (h : x.mapError f = .ok a) : x = .ok a := by
  cases x with
  | error e => cases h
  | ok b =>
    cases h
    rfl

theorem checkScheme_ok (h : pool.checkScheme = .ok ()) :
    (pool.erasureType = .erasureMds → checkMds pool.ecK pool.ecM = .ok ()) ∧ (pool.erasureType = .erasureLrc →
        checkLrc pool.ecK pool.ecLocalParity pool.ecGlobalParity = .ok ()) := by
  have hwhy := mapError_ok h
  rw [PoolConfig.erasureType]
  cases hf : ErasureType.tryFrom pool.ecType with
  | none =>
    rw [hf] at hwhy
    cases hwhy
  | some t =>
    rw [hf] at hwhy
    cases t with
    | erasureMds => exact ⟨fun _ => hwhy, nofun⟩
    | erasureLrc => exact ⟨(nofun), fun _ => hwhy⟩
    | erasureReplication => exact ⟨(nofun), nofun⟩

theorem checkMds_ok {m : Nat} (h : checkMds k m = .ok ()) : 0 < k ∧ isMds k m = true := by
  rw [checkMds] at h
  split_ifs at h with hk hm hmds
  exact ⟨Nat.pos_of_ne_zero fun h0 => hk (.inl h0), by simpa using hmds⟩

theorem checkLrc_ok {l g : Nat} (h : checkLrc k l g = .ok ()) : LrcConfig.Valid ⟨k, l, g⟩ := by
  rw [checkLrc] at h
  split_ifs at h with hpos hgroups
  obtain ⟨hk, hl, -⟩ := by simpa only [not_or] using hpos
  exact ⟨Nat.pos_of_ne_zero hk, Nat.pos_of_ne_zero hl, by simpa using hgroups⟩

section
variable (h : pool.placementRule = .ok rule)
include h

theorem placementRule_ok : ∃ level together,
    pool.together = .ok together ∧ rule = pool.ruleOf level together := by
  rw [PoolConfig.placementRule] at h
  split at h
  · cases h
  rename_i level _
  split at h
  · cases h
  rename_i together htogether
  split at h
  · cases h
  · cases h
    exact ⟨level, together, htogether, rfl⟩

theorem placementRule_copyCount : rule.copyCount = pool.copyCount := by
  obtain ⟨level, together, -, rfl⟩ := placementRule_ok h
  rfl

theorem placementRule_together : rule.together =
      if pool.lrcGroupsPerDomain then PoolConfig.localGroups pool.ecK pool.ecLocalParity
      else [] := by
  obtain ⟨level, together, ht, rfl⟩ := placementRule_ok h
  change together = _
  rw [PoolConfig.together] at ht
  dsimp only at ht
  split_ifs at ht ⊢
  · cases ht
    rfl
  · cases ht
    rfl

end

end

def lostWith {Id : Type} [DecidableEq Id] [ToString Id] (topology : ClusterTopology Id)
    (rule : PlacementRule) (osds : List Id) (domain : String) (position : Nat) : Bool :=
  match osds[position]?.bind topology.getNode with
  | some node => domainName node rule.level = domain
  | none => false

section
variable {Id : Type} [DecidableEq Id] [ToString Id] {topology : ClusterTopology Id}
  {rule : PlacementRule} {osds : List Id}

theorem lostWith_iff (hids : topology.Distinct) {domain : String} {p : Nat} {n : NodeInfo Id}
    (hn : n ∈ topology.nodes)
    (hp : osds[p]? = some n.id) :
    lostWith topology rule osds domain p = true ↔ domainName n rule.level = domain := by
  rw [lostWith, hp, Option.bind_some, hids.getNode_of_mem hn]
  exact decide_eq_true_iff

theorem slot_lost (hids : topology.Distinct) (hvalid : rule.Valid) (hlaid : LaidOut topology rule osds)
    (hslot : slot ∈ rule.slots) : ∃ domain, ∀ q < rule.copyCount,
      lostWith topology rule osds domain q = decide (q ∈ slot) := by
  obtain ⟨p, hp⟩ := exists_mem_of_ne_nil slot (hvalid.slot_ne_nil hslot)
  have hlt : p < rule.copyCount :=
    mem_range.1 (hvalid.flatten_slots_perm.mem_iff.1 (mem_flatten.2 ⟨slot, hslot, hp⟩))
  obtain ⟨n, hn, hpn⟩ := hlaid.active p hlt
  have hn' := ClusterTopology.mem_of_activeNodes hn
  refine ⟨domainName n rule.level, fun q hq => ?_⟩
  obtain ⟨m, hm, hqm⟩ := hlaid.active q hq
  have hm' := ClusterTopology.mem_of_activeNodes hm
  rw [Bool.eq_iff_iff, lostWith_iff hids hm' hqm, decide_eq_true_iff]
  exact hlaid.domains slot hslot p hp q n hn' m hm' hpn hqm

/-- The positions of one domain are those of one slot of the rule. -/
theorem lost_slot (hids : topology.Distinct) (hvalid : rule.Valid) (hlaid : LaidOut topology rule osds)
    (domain : String) :
    (∀ q < rule.copyCount, lostWith topology rule osds domain q = false) ∨
      ∃ slot ∈ rule.slots, ∀ q < rule.copyCount,
        lostWith topology rule osds domain q = decide (q ∈ slot) := by
  by_cases hnone : ∀ q < rule.copyCount, lostWith topology rule osds domain q = false
  · exact .inl hnone
  push Not at hnone
  obtain ⟨p, hp, hlost⟩ := hnone
  obtain ⟨slot, hslot, hps⟩ := mem_flatten.1
    (hvalid.flatten_slots_perm.mem_iff.2 (mem_range.2 hp))
  obtain ⟨n, hn, hpn⟩ := hlaid.active p hp
  have hn' := ClusterTopology.mem_of_activeNodes hn
  have hdomain := (lostWith_iff hids hn' hpn).1 (Bool.eq_true_of_not_eq_false hlost)
  refine .inr ⟨slot, hslot, fun q hq => ?_⟩
  obtain ⟨m, hm, hqm⟩ := hlaid.active q hq
  have hm' := ClusterTopology.mem_of_activeNodes hm
  rw [Bool.eq_iff_iff, lostWith_iff hids hm' hqm, decide_eq_true_iff, ← hdomain]
  exact hlaid.domains slot hslot p hps q n hn' m hm' hpn hqm

end

/-- With the positions of a domain gone, the data is read back: a copy is left, or what is left of
its stripe decodes to it. -/
def ReadsBack (pool : PoolConfig) (mdsCode : MdsCode) (reedSolomon : ReedSolomon)
    (data : List UInt8) (lost : Nat → Bool) : Prop :=
  if pool.erasureType = .erasureReplication then ∃ p < pool.copyCount, lost p = false
  else
    let codec := pool.codec mdsCode reedSolomon
    codec.decode (lose lost (codec.encode data)) data.length = .ok data

section
variable {pool : PoolConfig} {rule : PlacementRule} {mdsCode : MdsCode} {reedSolomon : ReedSolomon}
  {data : List UInt8}

theorem length_encode (hcodes : pool.CodesLawful mdsCode reedSolomon)
    (ht : pool.erasureType ≠ .erasureReplication) :
    ((pool.codec mdsCode reedSolomon).encode data).length = pool.copyCount := by
  rw [PoolConfig.copyCount]
  cases htype : pool.erasureType with
  | erasureMds =>
    have hb : (pool.codec mdsCode reedSolomon).backend = .mds pool.ecK pool.ecM := by
      rw [PoolConfig.codec, htype]
      rfl
    rw [ErasureCodec.encode, hb]
    have hdata : ((pool.codec mdsCode reedSolomon).dataShardsOf data).length = pool.ecK := by
      rw [ErasureCodec.length_dataShardsOf, ErasureCodec.dataShards, hb]
    rw [length_append, hdata]
    exact congrArg (pool.ecK + ·) ((hcodes.1 htype).parity_length hdata)
  | erasureLrc =>
    have hb : (pool.codec mdsCode reedSolomon).backend = .lrc pool.lrc := by
      rw [PoolConfig.codec, htype]
      rfl
    rw [ErasureCodec.encode, hb]
    refine length_encodeLrc ?_ (hcodes.2 htype)
    rw [ErasureCodec.length_dataShardsOf, ErasureCodec.dataShards, hb]
  | erasureReplication => exact absurd htype ht

theorem readsBack_congr (hcodes : pool.CodesLawful mdsCode reedSolomon) {lost' : Nat → Bool}
    (h : ∀ q < pool.copyCount, lost q = lost' q) : ReadsBack pool mdsCode reedSolomon data lost ↔
      ReadsBack pool mdsCode reedSolomon data lost' := by
  rw [ReadsBack, ReadsBack]
  split_ifs with ht
  · exact exists_congr fun p => and_congr_right fun hp => by rw [h p hp]
  · have hlose : lose lost ((pool.codec mdsCode reedSolomon).encode data) =
        lose lost' ((pool.codec mdsCode reedSolomon).encode data) :=
      lose_congr fun q hq => h q (length_encode hcodes ht ▸ hq)
    dsimp only
    rw [hlose]

theorem lost_le (slot : List Nat) (n : Nat) :
    ((range n).filter (fun p => p ∈ slot)).length ≤ slot.length := by
  refine (subperm_of_subset (nodup_range.filter _) fun p hp => ?_).length_le
  simpa using (mem_filter.1 hp).2

theorem readsBack_replication (ht : pool.erasureType = .erasureReplication)
    (h : slot.length < pool.copyCount) : ReadsBack pool mdsCode reedSolomon data (fun p => p ∈ slot) := by
  rw [ReadsBack, if_pos ht]
  have hall := countP_left_add_lost (fun p => decide (p ∈ slot)) pool.copyCount
  have hle := lost_le slot pool.copyCount
  obtain ⟨p, hp, hleft⟩ := countP_pos_iff.1 (by omega : 0 <
    (range pool.copyCount).countP (fun p => !decide (p ∈ slot)))
  exact ⟨p, mem_range.1 hp, by simpa using hleft⟩

theorem readsBack_mds (ht : pool.erasureType = .erasureMds)
    (hcodes : pool.CodesLawful mdsCode reedSolomon) (hscheme : pool.checkScheme = .ok ())
    (h : slot.length ≤ pool.ecM) : ReadsBack pool mdsCode reedSolomon data (fun p => p ∈ slot) := by
  obtain ⟨hk, hmds⟩ := checkMds_ok ((checkScheme_ok hscheme).1 ht)
  rw [ReadsBack, if_neg (by rw [ht]; decide)]
  refine ErasureCodec.mds_decodes (by rw [PoolConfig.codec, ht]; rfl) (hcodes.1 ht) hmds hk ?_
  have hall := countP_left_add_lost (fun p => decide (p ∈ slot)) (pool.ecK + pool.ecM)
  have hle := lost_le slot (pool.ecK + pool.ecM)
  omega

theorem readsBack_lrc (ht : pool.erasureType = .erasureLrc)
    (hcodes : pool.CodesLawful mdsCode reedSolomon) (hscheme : pool.checkScheme = .ok ()) :
    ReadsBack pool mdsCode reedSolomon data lost ↔ pool.lrc.recoverable lost = true := by
  rw [ReadsBack, if_neg (by rw [ht]; decide)]
  exact ErasureCodec.lrc_decodes_iff (by rw [PoolConfig.codec, ht]; rfl)
    (checkLrc_ok ((checkScheme_ok hscheme).2 ht)) (hcodes.2 ht)

end

section
variable {c : LrcConfig}

/-- **A whole group lost is rebuilt from the global parity**, where that is as many shards as the
group has data. -/
theorem recoverable_group (hc : c.Valid) {g : Nat} (hg : g < c.localParityShards)
    (h : c.localGroupSize ≤ c.globalParityShards) :
    c.recoverable (fun p => p ∈ c.groupIndices g ++ [c.dataShards + g]) = true := by
  refine decide_eq_true ?_
  have hlost : (c.unrebuilt (fun p => p ∈ c.groupIndices g ++ [c.dataShards + g])).length ≤
      (c.groupIndices g).length := by
    refine (subperm_of_subset (nodup_range.filter _) fun i hi => ?_).length_le
    obtain ⟨hi, hlost⟩ := mem_filter.1 hi
    have hlt := mem_range.1 hi
    rw [Bool.and_eq_true, decide_eq_true_iff, mem_append, mem_singleton] at hlost
    exact hlost.1.resolve_right (by omega)
  have hleft : c.globalLeft (fun p => p ∈ c.groupIndices g ++ [c.dataShards + g]) = c.globalParityShards := by
    rw [globalLeft, countP_eq_length.2, length_range]
    intro j _
    have hnot : c.dataShards + c.localParityShards + j ∉
        c.groupIndices g ++ [c.dataShards + g] := by
      rw [mem_append, mem_singleton]
      rintro (hj | hj)
      · have := lt_of_groupOf hc (((mem_groupIndices hc).1 hj).symm ▸ hg)
        omega
      · omega
    simp [hnot]
  rw [groupIndices, length_map, length_range] at hlost
  rw [hleft]
  exact hlost.trans h

theorem mem_localGroups {l : Nat} {group : List Nat} : group ∈ PoolConfig.localGroups k l ↔ ∃ g < l, group =
      groupIndices ⟨k, l, 0⟩ g ++ [k + g] := by
  rw [PoolConfig.localGroups]
  simp only [mem_map, mem_range]
  exact exists_congr fun g => and_congr_right fun _ => eq_comm

theorem recoverable_slot {rule : PlacementRule} (hc : c.Valid) (hvalid : rule.Valid)
    (htogether : rule.together = PoolConfig.localGroups c.dataShards c.localParityShards)
    (h : ∀ group ∈ rule.together, group.length - 1 ≤ c.globalParityShards)
    (hslot : slot ∈ rule.slots) : c.recoverable (fun p => p ∈ slot) = true := by
  obtain ⟨rest, heq, hrest, -⟩ := hvalid.slots_eq
  rw [heq] at hslot
  rcases mem_append.1 hslot with hgroup | hsingle
  · have hle := h slot hgroup
    obtain ⟨g, hg, rfl⟩ := mem_localGroups.1 (htogether ▸ hgroup)
    refine recoverable_group hc hg ?_
    rw [length_append, groupIndices, length_map, length_range, length_singleton, Nat.add_sub_cancel] at hle
    exact hle
  · -- The data shards are all in groups.
    refine recoverable_of_data fun i hi => decide_eq_false fun hmem => ?_
    have hsingle : i ∈ rule.singles := hrest ▸ mem_flatten.2 ⟨slot, hsingle, hmem⟩
    have hgroup : c.groupIndices (c.groupOf i) ++ [c.dataShards + c.groupOf i] ∈
        PoolConfig.localGroups c.dataShards c.localParityShards :=
      mem_localGroups.2 ⟨c.groupOf i, groupOf_lt hc hi, rfl⟩
    exact (PlacementRule.mem_singles.1 hsingle).2 (mem_flatten.2 ⟨_, htogether ▸ hgroup,
      mem_append_left _ ((mem_groupIndices hc).2 rfl)⟩)

end

section
variable {Id Rng : Type} [DecidableEq Id] [ToString Id] {topology : ClusterTopology Id}
  {pool : PoolConfig} {rule : PlacementRule} {mdsCode : MdsCode} {reedSolomon : ReedSolomon}
  {data : List UInt8} {osds : List Id}

theorem survives_iff_slots (hids : topology.Distinct) (hcodes : pool.CodesLawful mdsCode reedSolomon)
    (hrule : pool.placementRule = .ok rule) (hvalid : rule.Valid) (hlaid : LaidOut topology rule osds)
    (hnone : ReadsBack pool mdsCode reedSolomon data (fun p => p ∈ ([] : List Nat))) :
    (∀ domain, ReadsBack pool mdsCode reedSolomon data (lostWith topology rule osds domain)) ↔
      ∀ slot ∈ rule.slots, ReadsBack pool mdsCode reedSolomon data (fun p => p ∈ slot) := by
  have hcopies := placementRule_copyCount hrule
  refine ⟨fun h slot hslot => ?_, fun h domain => ?_⟩
  · obtain ⟨domain, hlost⟩ := slot_lost hids hvalid hlaid hslot
    exact (readsBack_congr hcodes (hcopies ▸ hlost)).1 (h domain)
  · rcases lost_slot hids hvalid hlaid domain with hlost | ⟨slot, hslot, hlost⟩
    · refine (readsBack_congr hcodes fun q hq => ?_).2 hnone
      rw [hlost q (hcopies ▸ hq)]
      rfl
    · exact (readsBack_congr hcodes (hcopies ▸ hlost)).2 (h slot hslot)

/-- A pool the check passes survives the loss of any domain exactly when, its stripes being layered and its
groups not kept together, no slot holds more data shards beyond what their groups rebuild than there are
global parity shards outside it. -/
theorem survives_domain_loss_iff (hids : topology.Distinct) {rand : Placement.Rand Rng} (hrand : rand.Lawful)
    (hcodes : pool.CodesLawful mdsCode reedSolomon) (hscheme : pool.checkScheme = .ok ())
    (hrule : pool.placementRule = .ok rule) (htolerates : pool.toleratesDomainLoss rule = true)
    {scatterWidth seed : Nat} {built : CopysetPool Id}
    (hbuild : buildWithRule rand topology rule scatterWidth seed = .ok built) (hosds : osds ∈ built.sets) :
    (∀ domain, ReadsBack pool mdsCode reedSolomon data (lostWith topology rule osds domain)) ↔
      (pool.erasureType = .erasureLrc → pool.lrcGroupsPerDomain = false →
        ∀ slot ∈ rule.slots, pool.lrc.recoverable (fun p => p ∈ slot) = true) := by
  obtain ⟨hvalid, hsets⟩ := buildWithRule_laidOut hids hrand hbuild
  have hlaid := hsets osds hosds
  have hmost : ∀ slot ∈ rule.slots, slot.length ≤ (rule.slots.map length).max?.getD 0 := fun slot hslot =>
    le_max?_getD_of_mem (mem_map_of_mem hslot)
  rw [PoolConfig.toleratesDomainLoss] at htolerates
  cases ht : pool.erasureType with
  | erasureMds =>
    rw [ht] at htolerates
    have hle := of_decide_eq_true htolerates
    rw [survives_iff_slots hids hcodes hrule hvalid hlaid (readsBack_mds ht hcodes hscheme (Nat.zero_le _))]
    exact iff_of_true (fun slot hslot =>
      readsBack_mds ht hcodes hscheme ((hmost slot hslot).trans hle)) nofun
  | erasureReplication =>
    rw [ht] at htolerates
    have hlt := of_decide_eq_true htolerates
    have hcopies : pool.copyCount = pool.replicationCount := by rw [PoolConfig.copyCount, ht]
    rw [survives_iff_slots hids hcodes hrule hvalid hlaid (readsBack_replication ht
      (hcopies.symm ▸ Nat.zero_lt_of_lt hlt))]
    exact iff_of_true (fun slot hslot =>
      readsBack_replication ht (hcopies.symm ▸ (hmost slot hslot).trans_lt hlt)) nofun
  | erasureLrc =>
    have hc := checkLrc_ok ((checkScheme_ok hscheme).2 ht)
    have hnone : pool.lrc.recoverable (fun p => p ∈ ([] : List Nat)) = true :=
      recoverable_of_data fun i _ => rfl
    rw [survives_iff_slots hids hcodes hrule hvalid hlaid ((readsBack_lrc ht hcodes hscheme).2 hnone)]
    simp only [readsBack_lrc ht hcodes hscheme, forall_const]
    refine ⟨fun h _ => h, fun h slot hslot => ?_⟩
    have htogether := placementRule_together hrule
    cases hg : pool.lrcGroupsPerDomain with
    | false => exact h hg slot hslot
    | true =>
      rw [hg, if_pos rfl] at htogether
      have hsome : ¬ rule.together.isEmpty := by
        rw [htogether, PoolConfig.localGroups]
        simpa using hc.localParityShards_pos.ne'
      rw [ht] at htolerates
      dsimp only at htolerates
      rw [if_pos hsome, all_eq_true] at htolerates
      exact recoverable_slot hc hvalid htogether
        (fun group hgroup => of_decide_eq_true (htolerates group hgroup)) hslot

end

/-! ## A layered pool over two racks -/

def fourHosts : ClusterTopology String where
  nodes := [("a", "r1"), ("b", "r1"), ("c", "r2"), ("d", "r2")].map fun n =>
    { id := n.1, status := .active
      failureDomain := { region := "", zone := "", datacenter := "", rack := n.2, host := n.1 } }

def overHosts : PoolConfig where
  name := "p"
  ecType := 1
  ecK := 2
  ecM := 2
  ecLocalParity := 1
  ecGlobalParity := 1
  replicationCount := 0
  failureDomain := "host"
  spreadDomains := 0
  perDomain := 0
  lrcGroupsPerDomain := false

def overRacks : PoolConfig :=
  { overHosts with failureDomain := "rack", spreadDomains := 2, perDomain := 2 }

def firstFirst : Placement.Rand Unit where
  seedFromU64 := fun _ => ()
  shuffle := fun l _ => (l, ())
  chooseMultiple := fun l k _ => (l.take k, ())
  gen := fun _ => (0, ())

theorem firstFirst_lawful : firstFirst.Lawful where
  shuffle_perm := fun _ _ => .rfl
  choose_subperm := fun l k _ => (take_sublist k l).subperm
  choose_length := fun _ _ _ => length_take

def unusedCode : MdsCode where
  parity := xorCode.recovery
  decode := fun _ _ _ _ _ => .error (.decodingFailed "unused")

theorem overHosts_codes : overHosts.CodesLawful unusedCode xorCode :=
  ⟨(nofun), fun _ => xorCode_lawful (by decide)⟩

theorem overRacks_codes : overRacks.CodesLawful unusedCode xorCode :=
  ⟨(nofun), fun _ => xorCode_lawful (by decide)⟩

theorem host_loss_survived :
    buildWithRule firstFirst fourHosts (.spread .host 4) 0 0 = .ok ⟨.host, 4, [["a", "b", "c", "d"]]⟩ ∧
      ∀ domain, ReadsBack overHosts unusedCode xorCode [1, 2, 3]
        (lostWith fourHosts (.spread .host 4) ["a", "b", "c", "d"] domain) := by
  have hbuild : buildWithRule firstFirst fourHosts (.spread .host 4) 0 0 =
      .ok ⟨.host, 4, [["a", "b", "c", "d"]]⟩ := by
    decide +kernel
  refine ⟨hbuild, (survives_domain_loss_iff (by decide) firstFirst_lawful overHosts_codes (by decide)
    (by decide) (by decide) hbuild mem_cons_self).2 fun _ _ => ?_⟩
  decide

/-- Two copies in each rack: the check passes, and the loss of the rack of both data shards loses the object.
-/
theorem layered_domain_loss : fourHosts.Distinct ∧ firstFirst.Lawful ∧
      overRacks.CodesLawful unusedCode xorCode ∧
      overRacks.checkScheme = .ok () ∧ ∃ rule built, overRacks.placementRule = .ok rule ∧
        overRacks.toleratesDomainLoss rule = true ∧ buildWithRule firstFirst fourHosts rule 0 0 = .ok built ∧
        ["a", "b", "c", "d"] ∈ built.sets ∧
        let codec := overRacks.codec unusedCode xorCode
        codec.decode (lose (lostWith fourHosts rule ["a", "b", "c", "d"] "r1") (codec.encode [1, 2, 3])) 3 =
            .error (.decodingFailed "insufficient shards: have 1, need 2") :=
  ⟨by decide, firstFirst_lawful, overRacks_codes, by decide, ⟨.rack, 4, 2, 2, []⟩,
    ⟨.rack, 4, [["a", "b", "c", "d"]]⟩, by decide, by decide, by decide +kernel, by decide,
    by decide +kernel⟩

end IoLake.Meta
