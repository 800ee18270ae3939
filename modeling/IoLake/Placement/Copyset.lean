import IoLake.Lib.Grouping
import IoLake.Placement.Rule

/-!
# Copysets

`CopysetPool::build_with_rule` samples copysets from the active OSDs, each keeping the rule.  The random
number generator is a parameter.
-/

namespace IoLake.Placement

open Scatter List

structure Rand (Rng : Type) where
  seedFromU64 : Nat → Rng
  shuffle : {α : Type} → List α → Rng → List α × Rng
  chooseMultiple : {α : Type} → List α → Nat → Rng → List α × Rng
  gen : Rng → ℚ × Rng

structure Rand.Lawful {Rng : Type} (rand : Rand Rng) : Prop where
  shuffle_perm : ∀ {α : Type} (l : List α) (rng : Rng), (rand.shuffle l rng).1.Perm l
  choose_subperm : ∀ {α : Type} (l : List α) (n : Nat) (rng : Rng), (rand.chooseMultiple l n rng).1.Subperm l
  choose_length : ∀ {α : Type} (l : List α) (n : Nat) (rng : Rng),
    (rand.chooseMultiple l n rng).1.length = min n l.length

variable {Id Rng : Type}

/-! ## The model -/

def unitsByDomain [ToString Id] (topology : ClusterTopology Id) (rule : PlacementRule) :
    OrdMap String (OrdMap String (List Id)) :=
  (OrdMap.groupBy (fun n => domainName n rule.level) topology.activeNodes).mapValues fun _ nodes =>
    (OrdMap.groupBy (fun n => unitName n rule) nodes).mapValues fun _ ns => ns.map NodeInfo.id

def covered [DecidableEq Id] (coverage : List (Id × Nat)) (id : Id) : Nat := (coverage.lookup id).getD 0

def walkWeights : List (Id × ℚ) → ℚ → Option Id
  | [], _ => none
  | (id, w) :: rest, pick => if pick - w ≤ 0 then some id else walkWeights rest (pick - w)

def pickWeighted [DecidableEq Id] (rand : Rand Rng) (candidates : List Id) (coverage : List (Id × Nat)) (rng : Rng) :
    Option Id × Rng :=
  let weights := candidates.map fun id => (id, 1 / (1 + (covered coverage id : ℚ)))
  let total := (weights.map Prod.snd).sum
  if total ≤ 0 then (none, rng)
  else
    let drawn := rand.gen rng
    ((walkWeights weights (drawn.1 * total)).or candidates.head?, drawn.2)

def pickUnits [DecidableEq Id] (rand : Rand Rng) (coverage : List (Id × Nat)) :
    List (String × List Id) → Rng → Option (List Id) × Rng
  | [], rng => (some [], rng)
  | unit :: units, rng =>
    match pickWeighted rand unit.2 coverage rng with
    | (none, rng) => (none, rng)
    | (some id, rng) =>
      match pickUnits rand coverage units rng with
      | (none, rng) => (none, rng)
      | (some ids, rng) => (some (id :: ids), rng)

structure Choice (Id : Type) where
  domain : String
  slot : List Nat
  units : List String
  osds : List Id

/-- A domain for each slot in turn, the first that is unused and large enough; then its units and
an OSD in each. -/
def chooseSlots [DecidableEq Id] (rand : Rand Rng) (coverage : List (Id × Nat)) :
    List (List Nat) → List (String × OrdMap String (List Id)) → Rng → Option (List (Choice Id)) × Rng
  | [], _, rng => (some [], rng)
  | slot :: order, domains, rng =>
    match domains.find? (fun d => slot.length ≤ d.2.size) with
    | none => (none, rng)
    | some d =>
      let units := rand.chooseMultiple d.2.entries slot.length rng
      if units.1.length ≠ slot.length then (none, units.2)
      else
        match pickUnits rand coverage units.1 units.2 with
        | (none, rng) => (none, rng)
        | (some osds, rng) =>
          match chooseSlots rand coverage order
              (domains.eraseP (fun d => slot.length ≤ d.2.size)) rng with
          | (none, rng) => (none, rng)
          | (some choices, rng) =>
            (some ({ domain := d.1, slot, units := units.1.map Prod.fst, osds } :: choices), rng)

def collect {α : Type} : List (Option α) → Option (List α)
  | [] => some []
  | none :: _ => none
  | some a :: l => (collect l).map (a :: ·)

def fill (copyCount : Nat) (choices : List (Choice Id)) : Option (List Id) :=
  collect (scatter (replicate copyCount none) (choices.map fun c => (c.slot, c.osds.map some)))

def sampleCopyset [DecidableEq Id] (rand : Rand Rng) (groups : OrdMap String (OrdMap String (List Id)))
    (slots : List (List Nat)) (copyCount : Nat) (coverage : List (Id × Nat)) (rng : Rng) :
    Option (List Id) × Rng :=
  let domains := rand.shuffle groups.entries rng
  let order := slots.insertionSort (fun a b => b.length ≤ a.length)
  match chooseSlots rand coverage order domains.1 domains.2 with
  | (none, rng) => (none, rng)
  | (some choices, rng) => (fill copyCount choices, rng)

structure CopysetPool (Id : Type) where
  level : FailureDomain
  copyCount : Nat
  sets : List (List Id)
deriving DecidableEq, Repr

def sampleSets [DecidableEq Id] (rand : Rand Rng) (groups : OrdMap String (OrdMap String (List Id)))
    (slots : List (List Nat)) (copyCount target scatterWidth : Nat) :
    Nat → List (Id × Nat) → List (List Id) → Rng → List (List Id)
  | 0, _, sets, _ => sets
  | attempts + 1, coverage, sets, rng =>
    if sets.length < target ∨ coverage.any (fun c => c.2 < scatterWidth) then
      match sampleCopyset rand groups slots copyCount coverage rng with
      | (none, rng) =>
        sampleSets rand groups slots copyCount target scatterWidth attempts coverage sets rng
      | (some cs, rng) =>
        -- `seen` holds the sorted ids of every set kept.
        if sets.any (fun s => s.isPerm cs) then
          sampleSets rand groups slots copyCount target scatterWidth attempts coverage sets rng
        else
          sampleSets rand groups slots copyCount target scatterWidth attempts
            (coverage.map fun c => if c.1 ∈ cs then (c.1, c.2 + 1) else c) (sets ++ [cs]) rng
    else sets

def sortDescending (l : List Nat) : List Nat := l.insertionSort (fun a b => b ≤ a)

def infeasible (rule : PlacementRule) (need have_ : List Nat) : String :=
  let unit := if rule.hostsDistinct then "hosts" else "OSDs"
  "it needs " ++ toString rule.domains ++ " " ++ rule.level.debug ++ "s holding " ++
    toString need ++ " copies, each on distinct " ++ unit ++ "; the " ++ rule.level.debug ++
    "s have " ++ toString have_ ++ " " ++ unit

def buildWithRule [DecidableEq Id] [ToString Id] (rand : Rand Rng) (topology : ClusterTopology Id) (rule : PlacementRule)
    (scatterWidth seed : Nat) : Except CopysetError (CopysetPool Id) :=
  match rule.validate with
  | .error e => .error e
  | .ok () =>
    let groups := unitsByDomain topology rule
    if groups.size = 0 then .error .emptyTopology
    else if groups.size < rule.domains then .error (.insufficientGroups groups.size rule.domains)
    else
      let slots := rule.slots
      let need := sortDescending (slots.map length)
      let have_ := sortDescending (groups.entries.map fun d => d.2.size)
      if (need.zip have_).any (fun nh => nh.1 > nh.2) then
        .error (.infeasible (infeasible rule need have_))
      else
        let osds := (groups.entries.flatMap fun d => d.2.entries).flatMap Prod.snd
        let target := max (osds.length * scatterWidth / rule.copyCount) 1
        .ok { level := rule.level, copyCount := rule.copyCount,
              sets := sampleSets rand groups slots rule.copyCount target scatterWidth
                (max (target * 10) 256) (osds.map fun id => (id, 0)) []
                (rand.seedFromU64 seed) }

theorem mem_unitsByDomain [ToString Id] {topology : ClusterTopology Id} {rule : PlacementRule}
    {d : String × OrdMap String (List Id)} (hd : d ∈ (unitsByDomain topology rule).entries)
    {u : String × List Id} (hu : u ∈ d.2.entries) {id : Id} (hid : id ∈ u.2) :
    ∃ n ∈ topology.activeNodes, n.id = id ∧ domainName n rule.level = d.1 ∧ unitName n rule = u.1 := by
  obtain ⟨⟨name, nodes⟩, hnodes, rfl⟩ := mem_map.1 hd
  obtain ⟨⟨unit, ns⟩, hns, rfl⟩ := mem_map.1 hu
  obtain ⟨n, hn, rfl⟩ := mem_map.1 hid
  rw [(OrdMap.mem_groupBy.1 hns).1] at hn
  obtain ⟨hmem, hunit⟩ := mem_filter.1 hn
  rw [(OrdMap.mem_groupBy.1 hnodes).1] at hmem
  obtain ⟨hactive, hdomain⟩ := mem_filter.1 hmem
  exact ⟨n, hactive, rfl, by simpa using hdomain, by simpa using hunit⟩

theorem walkWeights_mem {id : Id} : ∀ {l : List (Id × ℚ)} {pick : ℚ},
    walkWeights l pick = some id → id ∈ l.map Prod.fst
  | [], _, h => by cases h
  | (id', w) :: rest, pick, h => by
    rw [walkWeights] at h
    split at h
    · cases h
      exact mem_cons_self
    · exact mem_cons_of_mem _ (walkWeights_mem h)

variable {rand : Rand Rng} {coverage : List (Id × Nat)}

theorem pickWeighted_mem [DecidableEq Id] {candidates : List Id}
    {rng rng' : Rng} {id : Id} (h : pickWeighted rand candidates coverage rng = (some id, rng')) :
    id ∈ candidates := by
  unfold pickWeighted at h
  dsimp only at h
  split at h
  · cases h
  · have hid := congrArg Prod.fst h
    rcases Option.or_eq_some_iff.1 hid with hw | ⟨-, hhead⟩
    · have hmem := walkWeights_mem hw
      rw [map_map] at hmem
      simpa using hmem
    · exact mem_of_mem_head? hhead

theorem pickUnits_mem [DecidableEq Id] :
    ∀ {units : List (String × List Id)} {rng rng' : Rng} {osds : List Id},
      pickUnits rand coverage units rng = (some osds, rng') → List.Forall₂ (fun u id => id ∈ u.2) units osds
  | [], _, _, _, h => by
    cases h
    exact .nil
  | unit :: units, rng, rng', osds, h => by
    rw [pickUnits] at h
    split at h
    · cases h
    rename_i id rng₁ hid
    split at h
    · cases h
    rename_i ids rng₂ hids
    cases h
    exact .cons (pickWeighted_mem hid) (pickUnits_mem hids)

theorem name_notMem_eraseP {V : Type} {P : String × V → Bool} {d : String × V} :
    ∀ {domains : List (String × V)}, (domains.map Prod.fst).Nodup → domains.find? P = some d →
      d.1 ∉ (domains.eraseP P).map Prod.fst
  | e :: domains, hnodup, hd => by
    obtain ⟨hhead, htail⟩ := nodup_cons.1 hnodup
    cases he : P e with
    | true =>
      rw [find?_cons_of_pos he] at hd
      cases hd
      rwa [eraseP_cons_of_pos he]
    | false =>
      rw [find?_cons_of_neg (by simp [he])] at hd
      rw [eraseP_cons_of_neg (by simp [he]), map_cons, mem_cons, not_or]
      refine ⟨fun h0 => hhead ?_, name_notMem_eraseP htail hd⟩
      exact h0 ▸ mem_map_of_mem (mem_of_find?_eq_some hd)

/-- What a choice says of the OSDs it makes: each is active, in the domain, on its own unit. -/
structure Choice.Seated [ToString Id] (topology : ClusterTopology Id) (rule : PlacementRule) (c : Choice Id) :
    Prop where
  units_nodup : c.units.Nodup
  units_length : c.units.length = c.slot.length
  osds : List.Forall₂ (fun u id => ∃ n ∈ topology.activeNodes, n.id = id ∧
    domainName n rule.level = c.domain ∧ unitName n rule = u) c.units c.osds

/-- What one sample chooses: a domain for each slot, units in it, an OSD in each. -/
structure Sampled [ToString Id] (topology : ClusterTopology Id) (rule : PlacementRule) (order : List (List Nat))
    (choices : List (Choice Id)) : Prop where
  slots : choices.map Choice.slot = order
  domains_nodup : (choices.map Choice.domain).Nodup
  seated : ∀ c ∈ choices, c.Seated topology rule

theorem chooseSlots_sampled [DecidableEq Id] [ToString Id] (hrand : rand.Lawful)
    {topology : ClusterTopology Id} {rule : PlacementRule} :
    ∀ {order : List (List Nat)} {domains : List (String × OrdMap String (List Id))} {rng rng' : Rng}
      {choices : List (Choice Id)},
      (∀ d ∈ domains, d ∈ (unitsByDomain topology rule).entries) → (domains.map Prod.fst).Nodup →
      chooseSlots rand coverage order domains rng = (some choices, rng') →
        Sampled topology rule order choices ∧ ∀ c ∈ choices, c.domain ∈ domains.map Prod.fst
  | [], _, _, _, _, _, _, h => by
    cases h
    exact ⟨⟨rfl, nodup_nil, nofun⟩, nofun⟩
  | slot :: order, domains, rng, rng', choices, hsub, hnodup, h => by
    rw [chooseSlots] at h
    split at h
    · cases h
    rename_i d hd
    have hdmem : d ∈ domains := mem_of_find?_eq_some hd
    dsimp only at h
    split at h
    · cases h
    rename_i hlen
    split at h
    · cases h
    rename_i osds rng₂ hosds
    split at h
    · cases h
    rename_i rest rng₃ hrest
    cases h
    -- The rest is chosen from the other domains.
    have herase : (domains.eraseP (fun d => slot.length ≤ d.2.size)).Sublist domains :=
      eraseP_sublist
    obtain ⟨hsampled, hdomains⟩ := chooseSlots_sampled hrand
      (fun e he => hsub e (herase.subset he)) ((herase.map _).nodup hnodup) hrest
    have hfresh : d.1 ∉ rest.map Choice.domain := by
      intro hmem
      obtain ⟨c, hc, hcd⟩ := mem_map.1 hmem
      have hin := hdomains c hc
      rw [hcd] at hin
      exact name_notMem_eraseP hnodup hd hin
    have hsubperm := hrand.choose_subperm d.2.entries slot.length rng
    refine ⟨⟨by simp [hsampled.slots], ?_, ?_⟩, ?_⟩
    · exact nodup_cons.2 ⟨hfresh, hsampled.domains_nodup⟩
    · intro c hc
      rcases mem_cons.1 hc with rfl | hc
      · refine ⟨?_, by simpa using hlen, ?_⟩
        · obtain ⟨units, hunits, hsublist⟩ := hsubperm
          exact (hunits.map _).nodup_iff.1 ((hsublist.map _).nodup d.2.nodup_keys)
        · refine forall₂_map_left_iff.2 ?_
          have hmem := (forall₂_and_left _ _).2
            ⟨fun u hu => hsubperm.subset hu, pickUnits_mem hosds⟩
          exact hmem.imp fun u id h => mem_unitsByDomain (hsub d hdmem) h.1 h.2
      · exact hsampled.seated c hc
    · intro c hc
      rcases mem_cons.1 hc with rfl | hc
      · exact mem_map_of_mem hdmem
      · exact (herase.map Prod.fst).subset (hdomains c hc)

/-! ## Copysets of a pool -/

theorem collect_eq_some {α : Type} : ∀ {l : List (Option α)} {as : List α},
    collect l = some as → l = as.map some
  | [], as, h => by
    cases h
    rfl
  | none :: _, _, h => by cases h
  | some a :: l, as, h => by
    obtain ⟨rest, hrest, rfl⟩ := Option.map_eq_some_iff.1 h
    rw [map_cons, ← collect_eq_some hrest]

/-- Every position on an active OSD, two positions in one domain exactly when they share a slot, and then on
different units. -/
structure LaidOut [ToString Id] (topology : ClusterTopology Id) (rule : PlacementRule)
    (osds : List Id) : Prop where
  length : osds.length = rule.copyCount
  active : ∀ p < rule.copyCount, ∃ n ∈ topology.activeNodes, osds[p]? = some n.id
  domains : ∀ slot ∈ rule.slots, ∀ p ∈ slot, ∀ q : Nat, ∀ n ∈ topology.nodes, ∀ m ∈ topology.nodes,
    osds[p]? = some n.id → osds[q]? = some m.id →
      (domainName m rule.level = domainName n rule.level ↔ q ∈ slot)
  units : ∀ p q : Nat, p ≠ q → ∀ n ∈ topology.nodes, ∀ m ∈ topology.nodes,
    osds[p]? = some n.id → osds[q]? = some m.id →
      domainName m rule.level = domainName n rule.level → unitName m rule ≠ unitName n rule

theorem length_of_fill {choices : List (Choice Id)} {osds : List Id} {copyCount : Nat}
    (h : fill copyCount choices = some osds) : osds.length = copyCount := by
  have hlen := congrArg length (collect_eq_some h)
  rw [length_scatter, length_replicate, length_map] at hlen
  exact hlen.symm

section
variable [ToString Id] {topology : ClusterTopology Id} {rule : PlacementRule}
  {order : List (List Nat)} {choices : List (Choice Id)} {osds : List Id}

def filled (copyCount : Nat) (choices : List (Choice Id)) : List (Option Id) :=
  scatter (replicate copyCount none) (choices.map fun c => (c.slot, c.osds.map some))

/-- **What is put at a position**: at position `i` of a slot, the OSD chosen in the slot's domain, on
its `i`-th unit. -/
theorem Sampled.written (hs : Sampled topology rule order choices) (hnodup : order.flatten.Nodup)
    {c : Choice Id} (hc : c ∈ choices) {i p : Nat} (hp : c.slot[i]? = some p) (hlt : p < rule.copyCount) :
    ∃ n ∈ topology.activeNodes, (filled rule.copyCount choices)[p]? = some (some n.id) ∧
      domainName n rule.level = c.domain ∧ c.units[i]? = some (unitName n rule) := by
  have hseat := hs.seated c hc
  obtain ⟨hi, hslot⟩ := List.getElem?_eq_some_iff.1 hp
  have hu : i < c.units.length := hseat.units_length ▸ hi
  have ho : i < c.osds.length := hseat.osds.length_eq ▸ hu
  obtain ⟨n, hn, hid, hdomain, hunit⟩ := hseat.osds.get hu ho
  refine ⟨n, hn, ?_, hdomain, ?_⟩
  · -- No position is chosen for twice, so the OSD written there is read back.
    have hzip : (p, some n.id) ∈ c.slot.zip (c.osds.map some) := by
      refine mem_iff_getElem?.2 ⟨i, ?_⟩
      rw [getElem?_zip_eq_some]
      refine ⟨hp, ?_⟩
      rw [getElem?_map, getElem?_eq_getElem ho, hid]
      rfl
    have hwrites : ((choices.map fun c => (c.slot, c.osds.map some)).map Prod.fst).flatten.Nodup := by
      rw [map_map]
      exact (congrArg flatten hs.slots) ▸ hnodup
    exact scatter_of_mem hwrites (mem_map.2 ⟨c, hc, rfl⟩) hzip (by rwa [length_replicate])
  · rw [getElem?_eq_getElem hu, hunit]
    rfl

theorem Sampled.holds (hs : Sampled topology rule order choices) (hnodup : order.flatten.Nodup)
    (hfill : fill rule.copyCount choices = some osds) {c : Choice Id} (hc : c ∈ choices) {i p : Nat}
    (hp : c.slot[i]? = some p) (hlt : p < rule.copyCount) :
    ∃ n ∈ topology.activeNodes, osds[p]? = some n.id ∧ domainName n rule.level = c.domain ∧
      c.units[i]? = some (unitName n rule) := by
  obtain ⟨n, hn, hread, hrest⟩ := hs.written hnodup hc hp hlt
  refine ⟨n, hn, ?_, hrest⟩
  rw [filled, collect_eq_some hfill, getElem?_map] at hread
  obtain ⟨id, hid, hsome⟩ := Option.map_eq_some_iff.1 hread
  rw [hid, Option.some.inj hsome]

theorem Sampled.laidOut (hids : topology.Distinct) (hrule : rule.Valid)
    (hs : Sampled topology rule order choices) (hperm : order.Perm rule.slots)
    (hfill : fill rule.copyCount choices = some osds) : LaidOut topology rule osds := by
  have hflat : order.flatten.Perm rule.slots.flatten := hperm.flatten
  have hnodup : order.flatten.Nodup := hflat.nodup_iff.2 hrule.flatten_slots_nodup
  have hpos : ∀ p, p ∈ order.flatten ↔ p < rule.copyCount := by
    intro p
    rw [(hflat.trans hrule.flatten_slots_perm).mem_iff, mem_range]
  -- Every position has a choice, and an index in its slot.
  have hchoice : ∀ p < rule.copyCount, ∃ c ∈ choices, ∃ i : Nat, c.slot[i]? = some p := by
    intro p hp
    obtain ⟨slot, hslot, hmem⟩ := mem_flatten.1 ((hpos p).2 hp)
    rw [← hs.slots] at hslot
    obtain ⟨c, hc, rfl⟩ := mem_map.1 hslot
    exact ⟨c, hc, mem_iff_getElem?.1 hmem⟩
  have hlen := length_of_fill hfill
  have hlt : ∀ {p : Nat} {id : Id}, osds[p]? = some id → p < rule.copyCount := by
    intro p id hid
    obtain ⟨h, -⟩ := List.getElem?_eq_some_iff.1 hid
    exact hlen ▸ h
  -- The node a position holds is the one chosen for it.
  have hnode : ∀ {c : Choice Id} {i p : Nat} {n : NodeInfo Id}, c ∈ choices → c.slot[i]? = some p → n ∈ topology.nodes →
      osds[p]? = some n.id → domainName n rule.level = c.domain ∧ c.units[i]? = some (unitName n rule) := by
    intro c i p n hc hi hn hid
    obtain ⟨m, hm, hidm, hdom, hunit⟩ := hs.holds hnodup hfill hc hi (hlt hid)
    have hmn : m = n := by
      refine inj_on_of_nodup_map hids
        (ClusterTopology.mem_of_activeNodes hm) hn ?_
      exact Option.some.inj (hidm.symm.trans hid)
    exact hmn ▸ ⟨hdom, hunit⟩
  have hsame : ∀ c ∈ choices, ∀ c' ∈ choices, c.domain = c'.domain → c = c' := fun c hc c' hc' h =>
    inj_on_of_nodup_map hs.domains_nodup hc hc' h
  refine ⟨hlen, fun p hp => ?_, ?_, ?_⟩
  · obtain ⟨c, hc, i, hi⟩ := hchoice p hp
    obtain ⟨n, hn, hid, -⟩ := hs.holds hnodup hfill hc hi hp
    exact ⟨n, hn, hid⟩
  · intro slot hslot p hp q n hn m hm hpn hqm
    rw [← hperm.mem_iff, ← hs.slots] at hslot
    obtain ⟨c, hc, rfl⟩ := mem_map.1 hslot
    obtain ⟨i, hi⟩ := mem_iff_getElem?.1 hp
    obtain ⟨c', hc', j, hj⟩ := hchoice q (hlt hqm)
    rw [(hnode hc hi hn hpn).1, (hnode hc' hj hm hqm).1]
    constructor
    · intro hdom
      rw [hsame c hc c' hc' hdom.symm]
      exact mem_of_getElem? hj
    · intro hq
      obtain ⟨k, hk⟩ := mem_iff_getElem?.1 hq
      rw [← (hnode hc' hj hm hqm).1, (hnode hc hk hm hqm).1]
  · intro p q hne n hn m hm hpn hqm hdom hunit
    obtain ⟨c, hc, i, hi⟩ := hchoice p (hlt hpn)
    obtain ⟨c', hc', j, hj⟩ := hchoice q (hlt hqm)
    have hn' := hnode hc hi hn hpn
    have hm' := hnode hc' hj hm hqm
    have hcc : c' = c := hsame c' hc' c hc (by rw [← hm'.1, ← hn'.1, hdom])
    subst hcc
    -- One unit at two places of the slot: the places are one, so the positions are.
    have hij : i = j := by
      obtain ⟨hilt, hieq⟩ := List.getElem?_eq_some_iff.1 hn'.2
      obtain ⟨hjlt, hjeq⟩ := List.getElem?_eq_some_iff.1 hm'.2
      exact (hs.seated c' hc).units_nodup.getElem_inj_iff.1 (by rw [hieq, hjeq, hunit])
    subst hij
    exact hne (Option.some.inj (hi.symm.trans hj))

theorem sampleCopyset_laidOut [DecidableEq Id] (hids : topology.Distinct) (hrand : rand.Lawful)
    (hrule : rule.Valid) {rng rng' : Rng}
    (h : sampleCopyset rand (unitsByDomain topology rule) rule.slots rule.copyCount coverage rng =
      (some osds, rng')) : LaidOut topology rule osds := by
  rw [sampleCopyset] at h
  split at h
  · cases h
  rename_i choices rng₁ hchoices
  have hshuffle := hrand.shuffle_perm (unitsByDomain topology rule).entries rng
  obtain ⟨hs, -⟩ := chooseSlots_sampled hrand (fun d hd => hshuffle.mem_iff.1 hd)
    ((hshuffle.map _).nodup_iff.2 (unitsByDomain topology rule).nodup_keys) hchoices
  exact hs.laidOut hids hrule (perm_insertionSort _ _) (congrArg Prod.fst h)

theorem sampleSets_laidOut [DecidableEq Id] (hids : topology.Distinct) (hrand : rand.Lawful)
    (hrule : rule.Valid) {target scatterWidth : Nat} :
    ∀ {attempts : Nat} {coverage : List (Id × Nat)} {sets : List (List Id)} {rng : Rng},
      (∀ cs ∈ sets, LaidOut topology rule cs) →
      ∀ cs ∈ sampleSets rand (unitsByDomain topology rule) rule.slots rule.copyCount target
        scatterWidth attempts coverage sets rng, LaidOut topology rule cs
  | 0, _, _, _, hsets => hsets
  | attempts + 1, coverage, sets, rng, hsets => by
    rw [sampleSets]
    split
    · split
      · exact sampleSets_laidOut hids hrand hrule hsets
      · rename_i cs rng₁ hcs
        split
        · exact sampleSets_laidOut hids hrand hrule hsets
        · refine sampleSets_laidOut hids hrand hrule fun cs' hcs' => ?_
          rcases mem_append.1 hcs' with hcs' | hcs'
          · exact hsets cs' hcs'
          · rw [mem_singleton.1 hcs']
            exact sampleCopyset_laidOut hids hrand hrule hcs
    · exact hsets

/-- Every copyset of a pool that is built is laid out by its rule. -/
theorem buildWithRule_laidOut [DecidableEq Id] (hids : topology.Distinct) (hrand : rand.Lawful)
    {scatterWidth seed : Nat} {pool : CopysetPool Id}
    (h : buildWithRule rand topology rule scatterWidth seed = .ok pool) :
    rule.Valid ∧ ∀ cs ∈ pool.sets, LaidOut topology rule cs := by
  rw [buildWithRule] at h
  split at h
  · cases h
  rename_i hvalid
  have hrule := PlacementRule.validate_valid hvalid
  dsimp only at h
  split_ifs at h
  cases h
  exact ⟨hrule, sampleSets_laidOut hids hrand hrule nofun⟩

end

end IoLake.Placement
