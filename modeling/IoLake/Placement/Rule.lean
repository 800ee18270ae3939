import Mathlib

/-!
# Placement rules

How the copies of a placement group are spread over failure domains: the topology, the rule a pool asks for,
the slots it cuts the positions into and the check a stand-in must pass.
-/

namespace IoLake.Placement

open List

/-! ## The topology -/

inductive FailureDomain where
  | disk | node | host | rack | datacenter | zone | region
deriving DecidableEq, Repr

def FailureDomain.debug : FailureDomain → String
  | .disk => "Disk"
  | .node => "Node"
  | .host => "Host"
  | .rack => "Rack"
  | .datacenter => "Datacenter"
  | .zone => "Zone"
  | .region => "Region"

structure FailureDomainInfo where
  region : String
  zone : String
  datacenter : String
  rack : String
  host : String
deriving DecidableEq, Repr

def FailureDomainInfo.atLevel (info : FailureDomainInfo) : FailureDomain → String
  | .disk | .node => ""
  | .host => info.host
  | .rack => info.rack
  | .datacenter => info.datacenter
  | .zone => info.zone
  | .region => info.region

/-- Whether two nodes are in one rack of one datacenter of one region, the maps a node is found through. -/
def FailureDomainInfo.sameRack (info other : FailureDomainInfo) : Prop :=
  info.region = other.region ∧ info.datacenter = other.datacenter ∧ info.rack = other.rack

instance (info other : FailureDomainInfo) : Decidable (info.sameRack other) := inferInstanceAs (Decidable (_ ∧ _))

inductive NodeStatus where
  | active | draining | down | decommissioning
deriving DecidableEq, Repr

structure NodeInfo (Id : Type) where
  id : Id
  failureDomain : FailureDomainInfo
  status : NodeStatus
deriving DecidableEq, Repr

/-- The nodes of every rack in turn. -/
structure ClusterTopology (Id : Type) where
  nodes : List (NodeInfo Id)

namespace ClusterTopology

variable {Id : Type}

def getNode [DecidableEq Id] (topology : ClusterTopology Id) (id : Id) : Option (NodeInfo Id) :=
  topology.nodes.find? (fun n => n.id = id)

def activeNodes (topology : ClusterTopology Id) : List (NodeInfo Id) :=
  topology.nodes.filter (fun n => n.status = .active)

/-- A node replaces the one of its id in its own rack.  One of its id in another rack stays where it is. -/
def upsertNode [DecidableEq Id] (topology : ClusterTopology Id) (node : NodeInfo Id) : ClusterTopology Id where
  nodes := (topology.nodes.filter fun n => ¬ (n.id = node.id ∧ n.failureDomain.sameRack node.failureDomain)) ++
    [node]

/-- Every OSD is listed once. -/
def Distinct (topology : ClusterTopology Id) : Prop := (topology.nodes.map NodeInfo.id).Nodup

instance [DecidableEq Id] (topology : ClusterTopology Id) : Decidable topology.Distinct :=
  inferInstanceAs (Decidable (Nodup _))

/-- An OSD that registers in the rack it is in is still listed once. -/
theorem Distinct.upsertNode [DecidableEq Id] {topology : ClusterTopology Id} (h : topology.Distinct)
    {node : NodeInfo Id} (hrack : ∀ n ∈ topology.nodes, n.id = node.id →
      n.failureDomain.sameRack node.failureDomain) : (topology.upsertNode node).Distinct := by
  rw [Distinct, ClusterTopology.upsertNode, map_append, map_singleton, nodup_append]
  refine ⟨h.sublist (filter_sublist.map _), nodup_singleton _, fun i hi j hj => ?_⟩
  obtain ⟨n, hn, rfl⟩ := mem_map.1 hi
  obtain ⟨hmem, hother⟩ := mem_filter.1 hn
  rw [mem_singleton.1 hj]
  exact fun hid => of_decide_eq_true hother ⟨hid, hrack n hmem hid⟩

theorem Distinct.getNode_of_mem [DecidableEq Id] {topology : ClusterTopology Id} (h : topology.Distinct)
    {n : NodeInfo Id} (hn : n ∈ topology.nodes) : topology.getNode n.id = some n := by
  have hfound : (topology.getNode n.id).isSome := by
    rw [getNode, find?_isSome]
    exact ⟨n, hn, by simp⟩
  obtain ⟨m, hm⟩ := Option.isSome_iff_exists.1 hfound
  have hid : m.id = n.id := by simpa using find?_some hm
  have hmn : m = n :=
    inj_on_of_nodup_map h (mem_of_find?_eq_some hm) hn hid
  rw [hm, hmn]

theorem mem_of_activeNodes {topology : ClusterTopology Id} {n : NodeInfo Id}
    (h : n ∈ topology.activeNodes) : n ∈ topology.nodes :=
  mem_of_mem_filter h

end ClusterTopology

/-! ## The rule -/

inductive CopysetError where
  | zeroCopyCount
  | insufficientGroups (have_ need : Nat)
  | emptyTopology
  | invalidRule (why : String)
  | infeasible (why : String)
deriving DecidableEq, Repr

def CopysetError.message : CopysetError → String
  | .zeroCopyCount => "copy_count must be >= 1"
  | .insufficientGroups have_ need =>
    "not enough distinct failure-domain groups: have " ++ toString have_ ++ ", need " ++ toString need
  | .emptyTopology => "no viable OSDs in the topology"
  | .invalidRule why => "placement rule: " ++ why
  | .infeasible why => "the topology can't satisfy the placement rule: " ++ why

/-- `copyCount` positions over `domains` domains at `level`, at most `perDomain` in one, each group of
`together` in a domain of its own. -/
structure PlacementRule where
  level : FailureDomain
  copyCount : Nat
  domains : Nat
  perDomain : Nat
  together : List (List Nat)
deriving DecidableEq, Repr

namespace PlacementRule

def spread (level : FailureDomain) (copyCount : Nat) : PlacementRule :=
  { level, copyCount, domains := copyCount, perDomain := 1, together := [] }

def hostsDistinct (rule : PlacementRule) : Bool :=
  match rule.level with
  | .rack | .datacenter | .zone | .region => true
  | _ => false

def groupOf (rule : PlacementRule) (position : Nat) : Option Nat :=
  rule.together.findIdx? (fun g => g.contains position)

def singles (rule : PlacementRule) : List Nat :=
  (range rule.copyCount).filter (fun p => (rule.groupOf p).isNone)

/-- `free` slots cut from `it`, the first `extra - d` of them one longer than `each`. -/
def spreadEvenly (each extra : Nat) : Nat → Nat → List Nat → List (List Nat)
  | _, 0, _ => []
  | d, free + 1, it =>
    let n := each + (if d < extra then 1 else 0)
    it.take n :: spreadEvenly each extra (d + 1) free (it.drop n)

def slots (rule : PlacementRule) : List (List Nat) :=
  let singles := rule.singles
  let free := rule.domains - rule.together.length
  if free = 0 ∨ singles.isEmpty then rule.together
  else rule.together ++ spreadEvenly (singles.length / free) (singles.length % free) 0 free singles

def checkPositions (rule : PlacementRule) : List Nat → List Nat → Except CopysetError (List Nat)
  | [], seen => .ok seen
  | p :: ps, seen =>
    if p ≥ rule.copyCount ∨ p ∈ seen then
      .error (.invalidRule ("group position " ++ toString p ++ " is out of range or in two groups"))
    else rule.checkPositions ps (p :: seen)

def checkGroups (rule : PlacementRule) : List (List Nat) → List Nat → Except CopysetError (List Nat)
  | [], seen => .ok seen
  | g :: gs, seen =>
    if g.isEmpty then .error (.invalidRule "an empty group")
    else
      match rule.checkPositions g seen with
      | .error e => .error e
      | .ok seen =>
        if g.length > rule.perDomain then
          .error (.invalidRule
            ("a group of " ++ toString g.length ++ " needs at least " ++ toString g.length ++
              " copies per domain, not " ++ toString rule.perDomain))
        else rule.checkGroups gs seen

def divCeil (a b : Nat) : Nat := (a + b - 1) / b

def checkSingles (rule : PlacementRule) (singles free : Nat) : Except CopysetError Unit :=
  if singles = 0 ∧ 0 < free then
    .error (.invalidRule (toString free ++ " domains with nothing to hold"))
  else if 0 < singles then
    if free = 0 then
      .error (.invalidRule ("no domain left for " ++ toString singles ++ " copies outside the groups"))
    else if free > singles then
      .error (.invalidRule (toString rule.domains ++ " domains for " ++ toString rule.copyCount ++
          " copies: some would hold none"))
    else if divCeil singles free > rule.perDomain then
      .error (.invalidRule (toString singles ++ " copies over " ++ toString free ++ " domains puts " ++
          toString (divCeil singles free) ++ " in one, more than " ++ toString rule.perDomain ++
          " per domain"))
    else .ok ()
  else .ok ()

def validate (rule : PlacementRule) : Except CopysetError Unit :=
  if rule.copyCount = 0 then .error .zeroCopyCount
  else if rule.perDomain = 0 then .error (.invalidRule "at most 0 copies per domain")
  else if (rule.level = .node ∨ rule.level = .disk) ∧ rule.perDomain > 1 then
    .error (.invalidRule "an OSD is its own failure domain: one copy per domain")
  else
    match rule.checkGroups rule.together [] with
    | .error e => .error e
    | .ok seen =>
      if rule.domains < rule.together.length then
        .error (.invalidRule
          (toString rule.domains ++ " domains can't hold " ++ toString rule.together.length ++
            " groups, a domain each"))
      else
        rule.checkSingles (rule.copyCount - seen.length) (rule.domains - rule.together.length)

/-- Where a member sits: its position, its domain and its unit in that domain. -/
structure Seat where
  position : Nat
  domain : String
  unit : String
deriving DecidableEq, Repr

def admits (rule : PlacementRule) (position : Nat) (domain unit : String) (others : List Seat) : Bool :=
  let here := others.filter (fun s => s.position ≠ position ∧ s.domain = domain)
  if here.any (fun s => s.unit = unit) then false
  else
    match rule.groupOf position with
    | some g =>
      (others.filter (fun s => s.position ≠ position ∧ rule.groupOf s.position = some g)).all
          (fun s => s.domain = domain) &&
        here.all (fun s => rule.groupOf s.position = some g)
    | none =>
      here.all (fun s => (rule.groupOf s.position).isNone) && here.length < rule.perDomain

end PlacementRule

def domainName {Id : Type} [ToString Id] (node : NodeInfo Id) (level : FailureDomain) : String :=
  match level with
  | .node | .disk => toString node.id
  | level => node.failureDomain.atLevel level

def unitName {Id : Type} [ToString Id] (node : NodeInfo Id) (rule : PlacementRule) : String :=
  if rule.hostsDistinct ∧ node.failureDomain.host ≠ "" then node.failureDomain.host
  else toString node.id

namespace PlacementRule

structure Valid (rule : PlacementRule) : Prop where
  copyCount_pos : 0 < rule.copyCount
  perDomain_pos : 0 < rule.perDomain
  ownDomain : rule.level = .node ∨ rule.level = .disk → rule.perDomain ≤ 1
  group_ne_nil : ∀ g ∈ rule.together, g ≠ []
  group_length_le : ∀ g ∈ rule.together, g.length ≤ rule.perDomain
  position_lt : ∀ p ∈ rule.together.flatten, p < rule.copyCount
  nodup : rule.together.flatten.Nodup
  together_le : rule.together.length ≤ rule.domains
  singles : rule.checkSingles (rule.copyCount - rule.together.flatten.length)
    (rule.domains - rule.together.length) = .ok ()

variable {rule : PlacementRule}

theorem checkPositions_ok : ∀ {ps seen seen' : List Nat},
    rule.checkPositions ps seen = .ok seen' → (∀ p ∈ ps, p < rule.copyCount) ∧
      seen' = ps.reverse ++ seen ∧ (seen.Nodup → seen'.Nodup)
  | [], seen, seen', h => by
    cases h
    exact ⟨nofun, rfl, id⟩
  | p :: ps, seen, seen', h => by
    rw [checkPositions] at h
    split at h
    · cases h
    · rename_i hp
      obtain ⟨hlt, hseen⟩ := not_or.1 hp
      obtain ⟨hrest, rfl, hnodup⟩ := checkPositions_ok h
      refine ⟨?_, by simp, fun hs => hnodup (nodup_cons.2 ⟨hseen, hs⟩)⟩
      intro q hq
      rcases mem_cons.1 hq with rfl | hq
      · exact Nat.lt_of_not_le hlt
      · exact hrest q hq

theorem checkGroups_ok : ∀ {gs : List (List Nat)} {seen seen' : List Nat},
    rule.checkGroups gs seen = .ok seen' →
      (∀ g ∈ gs, g ≠ [] ∧ g.length ≤ rule.perDomain ∧ ∀ p ∈ g, p < rule.copyCount) ∧
        seen'.Perm (gs.flatten ++ seen) ∧ (seen.Nodup → seen'.Nodup)
  | [], seen, seen', h => by
    cases h
    exact ⟨nofun, .rfl, id⟩
  | g :: gs, seen, seen', h => by
    rw [checkGroups] at h
    split at h
    · cases h
    rename_i hne
    split at h
    · cases h
    rename_i mid hmid
    split at h
    · cases h
    rename_i hlen
    obtain ⟨hpos, rfl, hnodup⟩ := checkPositions_ok hmid
    obtain ⟨hrest, hperm, hnodup'⟩ := checkGroups_ok h
    refine ⟨?_, ?_, fun hs => hnodup' (hnodup hs)⟩
    · intro g' hg'
      rcases mem_cons.1 hg' with rfl | hg'
      · exact ⟨fun h0 => hne (by simp [h0]), Nat.le_of_not_lt hlen, hpos⟩
      · exact hrest g' hg'
    · refine hperm.trans ?_
      rw [flatten_cons, append_assoc, ← append_assoc gs.flatten]
      calc gs.flatten ++ g.reverse ++ seen
          _ |>.Perm (g.reverse ++ gs.flatten ++ seen) := perm_append_comm.append_right _
          _ |>.Perm (g ++ gs.flatten ++ seen) :=
            ((reverse_perm g).append_right _).append_right _
          _ |>.Perm (g ++ (gs.flatten ++ seen)) := by rw [append_assoc]

theorem validate_valid (h : rule.validate = .ok ()) : rule.Valid := by
  unfold validate at h
  split at h
  · cases h
  rename_i hcopies
  split at h
  · cases h
  rename_i hper
  split at h
  · cases h
  rename_i hown
  split at h
  · cases h
  rename_i seen hseen
  split at h
  · cases h
  rename_i hroom
  obtain ⟨hgroups, hperm, hnodup⟩ := checkGroups_ok hseen
  rw [append_nil] at hperm
  have hlen : seen.length = rule.together.flatten.length := hperm.length_eq
  refine ⟨Nat.pos_of_ne_zero hcopies, Nat.pos_of_ne_zero hper, fun hl => ?_,
    fun g hg => (hgroups g hg).1, fun g hg => (hgroups g hg).2.1, fun p hp => ?_,
    hperm.nodup_iff.1 (hnodup nodup_nil), Nat.le_of_not_lt hroom, hlen ▸ h⟩
  · exact Nat.le_of_not_lt fun hgt => hown ⟨hl, hgt⟩
  · obtain ⟨g, hg, hpg⟩ := mem_flatten.1 hp
    exact (hgroups g hg).2.2 p hpg

/-! ## The slots of a valid rule -/

variable {rule : PlacementRule}

variable {p : Nat} {slot : List Nat}

theorem groupOf_eq_none : rule.groupOf p = none ↔ p ∉ rule.together.flatten := by
  rw [groupOf, findIdx?_eq_none_iff]
  simp only [contains_eq_mem, decide_eq_false_iff_not, mem_flatten]
  exact ⟨fun h ⟨g, hg, hp⟩ => h g hg hp, fun h g hg hp => h ⟨g, hg, hp⟩⟩

theorem mem_of_groupOf {i : Nat} (h : rule.groupOf p = some i) : ∃ g, rule.together[i]? = some g ∧ p ∈ g := by
  rw [groupOf, findIdx?_eq_some_iff_getElem] at h
  obtain ⟨hi, hp, -⟩ := h
  exact ⟨rule.together[i], getElem?_eq_getElem hi, by simpa using hp⟩

theorem mem_singles : p ∈ rule.singles ↔ p < rule.copyCount ∧ p ∉ rule.together.flatten := by
  rw [singles, mem_filter, mem_range, Option.isNone_iff_eq_none, groupOf_eq_none]

theorem singles_nodup : rule.singles.Nodup := nodup_range.filter _

theorem flatten_spreadEvenly (each extra : Nat) : ∀ (free d : Nat) (it : List Nat),
    it.length ≤ each * free + min (extra - d) free → (spreadEvenly each extra d free it).flatten = it
  | 0, d, it, h => by
    have : it = [] := length_eq_zero_iff.1 (by omega)
    subst this
    rfl
  | free + 1, d, it, h => by
    rw [spreadEvenly, flatten_cons, flatten_spreadEvenly each extra free (d + 1), take_append_drop]
    rw [length_drop, Nat.mul_succ] at *
    split_ifs <;> omega

theorem length_of_mem_spreadEvenly {each extra : Nat} :
    ∀ {free d : Nat} {it : List Nat}, each * free + min (extra - d) free ≤ it.length →
      slot ∈ spreadEvenly each extra d free it → slot.length = each ∨ slot.length = each + 1 ∧ d < extra
  | 0, d, it, _, h => (not_mem_nil h).elim
  | free + 1, d, it, hlen, h => by
    rw [spreadEvenly] at h
    rw [Nat.mul_succ] at hlen
    rcases mem_cons.1 h with rfl | h
    · rw [length_take]
      split_ifs <;> omega
    · have hrest : each * free + min (extra - (d + 1)) free ≤
          (it.drop (each + if d < extra then 1 else 0)).length := by
        rw [length_drop]
        split_ifs <;> omega
      rcases length_of_mem_spreadEvenly hrest h with ih | ⟨ih, hd⟩
      · exact .inl ih
      · exact .inr ⟨ih, by omega⟩

namespace Valid

section
variable (h : rule.Valid)
include h

theorem groupOf_eq_some {i : Nat} : rule.groupOf p = some i ↔ ∃ g, rule.together[i]? = some g ∧ p ∈ g := by
  refine ⟨mem_of_groupOf, ?_⟩
  rintro ⟨g, hg, hp⟩
  -- `p` is in some group the rule finds, and the groups are disjoint.
  cases hc : rule.groupOf p with
  | none =>
    exact absurd (mem_flatten.2 ⟨g, mem_of_getElem? hg, hp⟩) (groupOf_eq_none.1 hc)
  | some j =>
    obtain ⟨g', hg', hp'⟩ := mem_of_groupOf hc
    obtain ⟨hi, rfl⟩ := List.getElem?_eq_some_iff.1 hg
    obtain ⟨hj, rfl⟩ := List.getElem?_eq_some_iff.1 hg'
    have hdisj := (nodup_flatten.1 h.nodup).2
    rcases Nat.lt_trichotomy i j with hij | rfl | hij
    · exact (pairwise_iff_getElem.1 hdisj i j hi hj hij hp hp').elim
    · rfl
    · exact (pairwise_iff_getElem.1 hdisj j i hj hi hij hp' hp).elim

theorem groups_singles_perm : (rule.together.flatten ++ rule.singles).Perm (range rule.copyCount) := by
  have hnodup : (rule.together.flatten ++ rule.singles).Nodup :=
    nodup_append'.2 ⟨h.nodup, singles_nodup, fun p hp hp' => (mem_singles.1 hp').2 hp⟩
  refine (perm_ext_iff_of_nodup hnodup nodup_range).2 fun p => ?_
  rw [mem_append, mem_singles, mem_range]
  constructor
  · rintro (hp | hp)
    · exact h.position_lt p hp
    · exact hp.1
  · intro hp
    by_cases hg : p ∈ rule.together.flatten
    · exact .inl hg
    · exact .inr ⟨hp, hg⟩

theorem length_singles : rule.singles.length = rule.copyCount - rule.together.flatten.length := by
  have hlen := h.groups_singles_perm.length_eq
  rw [length_append, length_range] at hlen
  omega

theorem singles_room : rule.singles.length = 0 ∧ rule.domains - rule.together.length = 0 ∨
      0 < rule.domains - rule.together.length ∧ rule.domains - rule.together.length ≤ rule.singles.length ∧
        divCeil rule.singles.length (rule.domains - rule.together.length) ≤ rule.perDomain := by
  have hs := h.singles
  rw [← h.length_singles, checkSingles] at hs
  split_ifs at hs <;> omega

theorem slots_eq : ∃ rest : List (List Nat), rule.slots = rule.together ++ rest ∧
    rest.flatten = rule.singles ∧ ∀ slot ∈ rest, slot ≠ [] ∧ slot.length ≤ rule.perDomain := by
  rcases h.singles_room with ⟨hs, hf⟩ | ⟨hf, hle, hceil⟩
  · refine ⟨[], ?_, (length_eq_zero_iff.1 hs).symm, fun slot hslot => ?_⟩
    · rw [slots, if_pos (.inl hf), append_nil]
    · exact (not_mem_nil hslot).elim
  · have hmod := Nat.mod_lt rule.singles.length hf
    have hdiv := Nat.div_add_mod rule.singles.length (rule.domains - rule.together.length)
    have heach : 1 ≤ rule.singles.length / (rule.domains - rule.together.length) :=
      (Nat.one_le_div_iff hf).2 hle
    have hne : ¬ rule.singles.isEmpty := by
      intro h0
      rw [isEmpty_iff_length_eq_zero] at h0
      omega
    rw [slots, if_neg (by rintro (h0 | h0) <;> [omega; exact hne h0])]
    rw [Nat.mul_comm] at hdiv
    refine ⟨_, rfl, flatten_spreadEvenly _ _ _ _ _ (by omega), fun slot hslot => ?_⟩
    have hlen := length_of_mem_spreadEvenly (by omega) hslot
    refine ⟨fun h0 => ?_, ?_⟩
    · rw [h0, length_nil] at hlen
      omega
    · rcases hlen with hlen | ⟨hlen, hextra⟩
      · refine hlen ▸ le_trans (Nat.div_le_div_right ?_) hceil
        omega
      · -- Some slot is one longer, so the division left a remainder and its ceiling is one more.
        refine hlen ▸ le_trans ?_ hceil
        rw [divCeil, Nat.le_div_iff_mul_le hf, Nat.add_mul]
        omega

/-- The slots of a valid rule hold every position once. -/
theorem flatten_slots_perm : rule.slots.flatten.Perm (range rule.copyCount) := by
  obtain ⟨rest, heq, hrest, -⟩ := h.slots_eq
  rw [heq, flatten_append, hrest]
  exact h.groups_singles_perm

theorem flatten_slots_nodup : rule.slots.flatten.Nodup :=
  h.flatten_slots_perm.nodup_iff.2 nodup_range

/-- No slot is empty and none holds more than `perDomain` positions. -/
theorem slot_length_le (hs : slot ∈ rule.slots) : slot.length ≤ rule.perDomain := by
  obtain ⟨rest, heq, -, hrest⟩ := h.slots_eq
  rw [heq] at hs
  rcases mem_append.1 hs with hs | hs
  · exact h.group_length_le slot hs
  · exact (hrest slot hs).2

theorem slot_ne_nil (hs : slot ∈ rule.slots) : slot ≠ [] := by
  obtain ⟨rest, heq, -, hrest⟩ := h.slots_eq
  rw [heq] at hs
  rcases mem_append.1 hs with hs | hs
  · exact h.group_ne_nil slot hs
  · exact (hrest slot hs).1

/-- A slot is one group, or holds single positions only. -/
theorem slot_groupOf (hs : slot ∈ rule.slots) {q : Nat} (hp : p ∈ slot) :
    (q ∈ slot → rule.groupOf q = rule.groupOf p) ∧
      ((rule.groupOf p).isSome → rule.groupOf q = rule.groupOf p → q ∈ slot) := by
  obtain ⟨rest, heq, hrest, -⟩ := h.slots_eq
  rw [heq] at hs
  rcases mem_append.1 hs with hs | hs
  · obtain ⟨i, hi⟩ := mem_iff_getElem?.1 hs
    have hmem : ∀ r, r ∈ slot ↔ rule.groupOf r = some i := by
      intro r
      rw [h.groupOf_eq_some, hi]
      simp
    rw [(hmem p).1 hp, hmem q]
    exact ⟨id, fun _ h' => h'⟩
  · have hnone : ∀ r ∈ slot, rule.groupOf r = none := by
      intro r hr
      have : r ∈ rule.singles := hrest ▸ mem_flatten.2 ⟨slot, hs, hr⟩
      exact groupOf_eq_none.2 (mem_singles.1 this).2
    rw [hnone p hp]
    exact ⟨hnone q, nofun⟩

end

end Valid

end PlacementRule

end IoLake.Placement
