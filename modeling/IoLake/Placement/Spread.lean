import IoLake.Placement.Copyset

/-!
# Members that keep the rule

When the members of a placement group keep their pool's rule: at most `perDomain` positions in a
domain, each `together` group alone in one domain, the positions of a domain on distinct units.
-/

namespace IoLake.Placement

open Scatter PlacementRule List

variable {Id Rng : Type}

variable {s : Seat}

section
variable [DecidableEq Id] [ToString Id]

def seat (topology : ClusterTopology Id) (rule : PlacementRule) (p : Nat) (id : Id) : Option Seat :=
  (topology.getNode id).map fun n =>
    { position := p, domain := domainName n rule.level, unit := unitName n rule }

def seats (topology : ClusterTopology Id) (rule : PlacementRule) (members : List Id) : List Seat :=
  members.zipIdx.filterMap fun m => seat topology rule m.2 m.1

variable {topology : ClusterTopology Id} {rule : PlacementRule} {members : List Id}

theorem seat_position {p : Nat} {id : Id} (h : seat topology rule p id = some s) : s.position = p := by
  obtain ⟨n, -, rfl⟩ := Option.map_eq_some_iff.1 h
  rfl

theorem mem_seats : s ∈ seats topology rule members ↔
      ∃ id, members[s.position]? = some id ∧ seat topology rule s.position id = some s := by
  rw [seats, mem_filterMap]
  constructor
  · rintro ⟨⟨id, p⟩, hmem, hs⟩
    have hp := seat_position hs
    exact ⟨id, hp ▸ mem_zipIdx_iff_getElem?.1 hmem, hp ▸ hs⟩
  · rintro ⟨id, hid, hs⟩
    exact ⟨(id, s.position), mem_zipIdx_iff_getElem?.2 hid, hs⟩

theorem seats_positions_nodup : ((seats topology rule members).map Seat.position).Nodup := by
  have hnodup : (members.zipIdx.map Prod.snd).Nodup := by
    rw [zipIdx_map_snd]
    exact nodup_range'
  rw [List.Nodup, pairwise_map] at hnodup ⊢
  refine List.Pairwise.filterMap _ (fun a b hab s hs t ht => ?_) hnodup
  rw [seat_position hs, seat_position ht]
  exact hab

theorem seats_nodup : (seats topology rule members).Nodup := seats_positions_nodup.of_map

variable (topology rule) in
theorem seats_set_perm {p : Nat} (hp : p < members.length) (id : Id) :
    (seats topology rule (members.set p id)).Perm ((seat topology rule p id).toList ++
        (seats topology rule members).filter (fun s => s.position ≠ p)) := by
  refine (perm_ext_iff_of_nodup seats_nodup ?_).2 fun s => ?_
  · refine nodup_append'.2 ⟨?_, seats_nodup.filter _, ?_⟩
    · cases seat topology rule p id <;> simp
    · intro s hs hs'
      have hpos := seat_position (Option.mem_toList.1 hs)
      simp [hpos] at hs'
  · rw [mem_seats, mem_append, Option.mem_toList, mem_filter, mem_seats]
    by_cases h : s.position = p
    · subst h
      simp [getElem?_set_self hp]
    · rw [getElem?_set_ne (fun h0 => h h0.symm)]
      refine ⟨fun hs => .inr ⟨hs, by simpa using h⟩, ?_⟩
      rintro (hs | hs)
      · exact absurd (seat_position hs) h
      · exact hs.1

end

/-! ## Keeping the rule -/

structure Kept (rule : PlacementRule) (seats : List Seat) : Prop where
  perDomain : ∀ s ∈ seats, (seats.filter (fun t => t.domain = s.domain)).length ≤ rule.perDomain
  groups : ∀ s ∈ seats, ∀ t ∈ seats, (rule.groupOf s.position).isSome →
    (rule.groupOf t.position = rule.groupOf s.position ↔ t.domain = s.domain)
  units : ∀ s ∈ seats, ∀ t ∈ seats, s.position ≠ t.position → t.domain = s.domain → t.unit ≠ s.unit

/-- The members, one a position, are known to the topology and their seats keep the rule. -/
structure KeepsRule [DecidableEq Id] [ToString Id] (topology : ClusterTopology Id)
    (rule : PlacementRule) (members : List Id) : Prop where
  length : members.length = rule.copyCount
  known : ∀ id ∈ members, (topology.getNode id).isSome
  kept : Kept rule (seats topology rule members)

instance (rule : PlacementRule) (seats : List Seat) : Decidable (Kept rule seats) :=
  decidable_of_iff
    ((∀ s ∈ seats, (seats.filter (fun t => t.domain = s.domain)).length ≤ rule.perDomain) ∧
      (∀ s ∈ seats, ∀ t ∈ seats, (rule.groupOf s.position).isSome →
        (rule.groupOf t.position = rule.groupOf s.position ↔ t.domain = s.domain)) ∧
      ∀ s ∈ seats, ∀ t ∈ seats, s.position ≠ t.position → t.domain = s.domain → t.unit ≠ s.unit)
    ⟨fun ⟨h₁, h₂, h₃⟩ => ⟨h₁, h₂, h₃⟩, fun h => ⟨h.1, h.2, h.3⟩⟩

instance [DecidableEq Id] [ToString Id] (topology : ClusterTopology Id) (rule : PlacementRule)
    (members : List Id) : Decidable (KeepsRule topology rule members) :=
  decidable_of_iff
    (members.length = rule.copyCount ∧ (∀ id ∈ members, (topology.getNode id).isSome) ∧
      Kept rule (seats topology rule members))
    ⟨fun ⟨h₁, h₂, h₃⟩ => ⟨h₁, h₂, h₃⟩, fun h => ⟨h.1, h.2, h.3⟩⟩

variable {rule : PlacementRule}

theorem Kept.mono {seats seats' : List Seat} (h : Kept rule seats) (hs : seats'.Subperm seats) :
    Kept rule seats' := by
  refine ⟨fun s hmem => ?_, fun s hmem t ht => h.groups s (hs.subset hmem) t (hs.subset ht),
    fun s hmem t ht => h.units s (hs.subset hmem) t (hs.subset ht)⟩
  exact (hs.filter _).length_le.trans (h.perDomain s (hs.subset hmem))

theorem length_le_of_groupOf (hrule : rule.Valid) {seats : List Seat} {g : Nat}
    (hnodup : (seats.map Seat.position).Nodup)
    (hgroup : ∀ s ∈ seats, rule.groupOf s.position = some g) : seats.length ≤ rule.perDomain := by
  rcases seats.eq_nil_or_concat with rfl | ⟨l, s, rfl⟩
  · exact Nat.zero_le _
  · obtain ⟨group, hgr, -⟩ := mem_of_groupOf (hgroup s (by simp))
    rw [← length_map (f := Seat.position)]
    refine (hnodup.subperm ?_).length_le.trans
      (hrule.group_length_le group (mem_of_getElem? hgr))
    intro p hp
    obtain ⟨t, ht, rfl⟩ := mem_map.1 hp
    obtain ⟨group', hgr', hmem⟩ := mem_of_groupOf (hgroup t ht)
    rw [hgr] at hgr'
    cases hgr'
    exact hmem

/-- A seat the rule admits can be taken. -/
theorem Kept.cons (hrule : rule.Valid) {others : List Seat} (h : Kept rule others) {new : Seat}
    (hnodup : ((new :: others).map Seat.position).Nodup)
    (hadmits : rule.admits new.position new.domain new.unit others = true) : Kept rule (new :: others) := by
  have hfresh : ∀ s ∈ others, s.position ≠ new.position := fun s hs h0 =>
    (nodup_cons.1 hnodup).1 (h0 ▸ mem_map_of_mem hs)
  rw [admits] at hadmits
  split at hadmits
  · cases hadmits
  rename_i hunit
  -- What `admits` says of the seats already in the domain.
  have hunits : ∀ s ∈ others, s.domain = new.domain → s.unit ≠ new.unit := by
    intro s hs hd hu
    refine hunit (any_eq_true.2 ⟨s, mem_filter.2 ⟨hs, ?_⟩, by simpa using hu⟩)
    simpa using ⟨hfresh s hs, hd⟩
  have hgroups : ∀ s ∈ others, ((rule.groupOf new.position).isSome ∨ (rule.groupOf s.position).isSome →
        (rule.groupOf s.position = rule.groupOf new.position ↔ s.domain = new.domain)) := by
    intro s hs hsome
    have hhere : s.domain = new.domain →
        s ∈ others.filter (fun t => t.position ≠ new.position ∧ t.domain = new.domain) := fun hd =>
      mem_filter.2 ⟨hs, by simpa using ⟨hfresh s hs, hd⟩⟩
    split at hadmits
    · rename_i g hg
      obtain ⟨hall, hhere'⟩ := Bool.and_eq_true_iff.1 hadmits
      rw [hg]
      constructor
      · intro hsg
        have := all_eq_true.1 hall s (mem_filter.2 ⟨hs, by simpa using ⟨hfresh s hs, hsg⟩⟩)
        simpa using this
      · intro hd
        simpa using all_eq_true.1 hhere' s (hhere hd)
    · rename_i hg
      obtain ⟨hhere', -⟩ := Bool.and_eq_true_iff.1 hadmits
      rw [hg] at hsome ⊢
      have hs' : (rule.groupOf s.position).isSome := by simpa using hsome
      constructor
      · intro h0
        rw [h0] at hs'
        cases hs'
      · intro hd
        have := all_eq_true.1 hhere' s (hhere hd)
        rw [Option.isNone_iff_eq_none] at this
        rw [this]
  have hcount : (others.filter (fun t => t.domain = new.domain)).length < rule.perDomain := by
    have heq : others.filter (fun t => t.domain = new.domain) =
        others.filter (fun t => t.position ≠ new.position ∧ t.domain = new.domain) := by
      refine filter_congr fun s hs => ?_
      simp [hfresh s hs]
    split at hadmits
    · rename_i g hg
      -- The domain holds the group alone: no more than its positions, the new one among them.
      have hall : ∀ s ∈ new :: others.filter (fun t => t.domain = new.domain),
          rule.groupOf s.position = some g := by
        intro s hs
        rcases mem_cons.1 hs with rfl | hs
        · exact hg
        · obtain ⟨hmem, hd⟩ := mem_filter.1 hs
          rw [← hg]
          exact (hgroups s hmem (.inl (by rw [hg]; rfl))).2 (by simpa using hd)
      have hle := length_le_of_groupOf hrule
        ((((filter_sublist).cons_cons new).map _).nodup hnodup) hall
      rwa [length_cons] at hle
    · have hlt := (Bool.and_eq_true_iff.1 hadmits).2
      rw [heq]
      simpa using hlt
  refine ⟨fun s hs => ?_, fun s hs t ht hsome => ?_, fun s hs t ht hne hd => ?_⟩
  · by_cases hd : s.domain = new.domain
    · rw [hd, filter_cons_of_pos (by simp), length_cons]
      exact hcount
    · rcases mem_cons.1 hs with rfl | hs
      · exact absurd rfl hd
      · rw [filter_cons_of_neg (by simpa using fun h0 => hd h0.symm)]
        exact h.perDomain s hs
  · rcases mem_cons.1 hs with rfl | hs' <;> rcases mem_cons.1 ht with rfl | ht'
    · simp
    · exact hgroups t ht' (.inl hsome)
    · rw [eq_comm, eq_comm (a := t.domain)]
      exact hgroups s hs' (.inr hsome)
    · exact h.groups s hs' t ht' hsome
  · rcases mem_cons.1 hs with rfl | hs' <;> rcases mem_cons.1 ht with rfl | ht'
    · exact absurd rfl hne
    · exact hunits t ht' hd
    · exact fun h0 => hunits s hs' hd.symm h0.symm
    · exact h.units s hs' t ht' hne hd

section
variable [DecidableEq Id] [ToString Id] {topology : ClusterTopology Id} {members : List Id}

theorem KeepsRule.set (hids : topology.Distinct) (hrule : rule.Valid) (h : KeepsRule topology rule members)
    {p : Nat}
    (hp : p < members.length) {n : NodeInfo Id} (hn : n ∈ topology.nodes)
    (hadmits : rule.admits p (domainName n rule.level) (unitName n rule)
      ((seats topology rule members).filter (fun s => s.position ≠ p)) = true) :
    KeepsRule topology rule (members.set p n.id) := by
  have hseat : seat topology rule p n.id =
      some { position := p, domain := domainName n rule.level, unit := unitName n rule } := by
    rw [seat, hids.getNode_of_mem hn]
    rfl
  have hperm := seats_set_perm topology rule hp n.id
  rw [hseat, Option.toList_some, singleton_append] at hperm
  refine ⟨by rw [length_set, h.length], fun id hid => ?_, ?_⟩
  · rcases mem_or_eq_of_mem_set hid with hid | rfl
    · exact h.known id hid
    · rw [hids.getNode_of_mem hn]
      rfl
  · refine Kept.mono (Kept.cons hrule (h.kept.mono filter_sublist.subperm) ?_ hadmits)
      hperm.subperm
    exact (hperm.map _).nodup_iff.1 seats_positions_nodup

theorem KeepsRule.nodup (h : KeepsRule topology rule members) : members.Nodup := by
  rw [nodup_iff_getElem?_ne_getElem?]
  intro i j hij hj heq
  have hid := getElem?_eq_getElem (hij.trans hj)
  obtain ⟨n, hn⟩ := Option.isSome_iff_exists.1
    (h.known _ (getElem_mem (hij.trans hj)))
  have hseat : ∀ p, members[p]? = some members[i] → (⟨p, domainName n rule.level, unitName n rule⟩ : Seat) ∈
        seats topology rule members := by
    intro p hp
    refine mem_seats.2 ⟨_, hp, ?_⟩
    rw [seat, hn]
    rfl
  exact h.kept.units _ (hseat i hid) _ (hseat j (heq ▸ hid)) hij.ne rfl rfl

theorem node_of_seat (hs : s ∈ seats topology rule members) : ∃ n ∈ topology.nodes,
    members[s.position]? = some n.id ∧ s.domain = domainName n rule.level ∧ s.unit = unitName n rule := by
  obtain ⟨id, hid, hseat⟩ := mem_seats.1 hs
  obtain ⟨n, hn, hsn⟩ := Option.map_eq_some_iff.1 hseat
  have hidn : n.id = id := by simpa using find?_some hn
  refine ⟨n, mem_of_find?_eq_some hn, hidn ▸ hid, ?_, ?_⟩
  · rw [← hsn]
  · rw [← hsn]

theorem LaidOut.slot_of_seat (hrule : rule.Valid) (h : LaidOut topology rule members)
    (hs : s ∈ seats topology rule members) : ∃ slot ∈ rule.slots, s.position ∈ slot := by
  obtain ⟨n, -, hid, -⟩ := node_of_seat hs
  obtain ⟨hlt, -⟩ := List.getElem?_eq_some_iff.1 hid
  have hmem := hrule.flatten_slots_perm.mem_iff.2 (mem_range.2 (h.length ▸ hlt))
  exact mem_flatten.1 hmem

theorem LaidOut.domain_iff (h : LaidOut topology rule members) {s t : Seat} {slot : List Nat}
    (hs : s ∈ seats topology rule members) (ht : t ∈ seats topology rule members) (hsl : slot ∈ rule.slots)
    (hp : s.position ∈ slot) : t.domain = s.domain ↔ t.position ∈ slot := by
  obtain ⟨n, hn, hid, hd, -⟩ := node_of_seat hs
  obtain ⟨m, hm, hidm, hdm, -⟩ := node_of_seat ht
  rw [hd, hdm]
  exact h.domains slot hsl s.position hp t.position n hn m hm hid hidm

/-- A copyset keeps the rule it was built with. -/
theorem LaidOut.keepsRule (hids : topology.Distinct) (hrule : rule.Valid) (h : LaidOut topology rule members) :
    KeepsRule topology rule members := by
  refine ⟨h.length, fun id hid => ?_, ?_, ?_, ?_⟩
  · obtain ⟨p, hp⟩ := mem_iff_getElem?.1 hid
    obtain ⟨hlt, -⟩ := List.getElem?_eq_some_iff.1 hp
    obtain ⟨n, hn, hidn⟩ := h.active p (h.length ▸ hlt)
    rw [hp] at hidn
    rw [Option.some.inj hidn, hids.getNode_of_mem (ClusterTopology.mem_of_activeNodes hn)]
    rfl
  · -- The seats of a domain are at positions of one slot.
    intro s hs
    obtain ⟨slot, hsl, hp⟩ := h.slot_of_seat hrule hs
    refine le_trans ?_ (hrule.slot_length_le hsl)
    rw [← length_map (f := Seat.position)]
    refine List.Subperm.length_le (List.Nodup.subperm
      ((filter_sublist.map _).nodup seats_positions_nodup) fun q hq => ?_)
    obtain ⟨t, ht, rfl⟩ := mem_map.1 hq
    obtain ⟨ht, hd⟩ := mem_filter.1 ht
    exact (h.domain_iff hs ht hsl hp).1 (by simpa using hd)
  · intro s hs t ht hsome
    obtain ⟨slot, hsl, hp⟩ := h.slot_of_seat hrule hs
    rw [h.domain_iff hs ht hsl hp]
    exact ⟨(hrule.slot_groupOf hsl hp).2 hsome, (hrule.slot_groupOf hsl hp).1⟩
  · intro s hs t ht hne hd
    obtain ⟨n, hn, hid, hdn, hun⟩ := node_of_seat hs
    obtain ⟨m, hm, hidm, hdm, hum⟩ := node_of_seat ht
    rw [hum, hun]
    exact h.units s.position t.position hne n hn m hm hid hidm (by rw [← hdn, ← hdm, hd])

end

/-! ## Shuffling within the rule -/

variable {rand : Rand Rng}

section
variable {α : Type}

def groupAt (together : List (List Nat)) (i : Nat) : List Nat := together[i]?.getD []

def byLength (together : List (List Nat)) : OrdMap Nat (List Nat) :=
  OrdMap.groupBy (fun i => (groupAt together i).length) (range together.length)

def tradeGroups (rand : Rand Rng) (together : List (List Nat)) (original : List α) :
    List (Nat × Nat) → Rng → List (List Nat × List α) × Rng
  | [], rng => ([], rng)
  | pair :: rest, rng =>
    let group := rand.shuffle (gather original (groupAt together pair.2)) rng
    let writes := tradeGroups rand together original rest group.2
    ((groupAt together pair.1, group.1) :: writes.1, writes.2)

def tradeLengths (rand : Rand Rng) (together : List (List Nat)) (original : List α) :
    List (List Nat) → Rng → List (List Nat × List α) × Rng
  | [], rng => ([], rng)
  | idxs :: rest, rng =>
    let order := rand.shuffle idxs rng
    let writes := tradeGroups rand together original (idxs.zip order.1) order.2
    let others := tradeLengths rand together original rest writes.2
    (writes.1 ++ others.1, others.2)

def PlacementRule.shuffle (rule : PlacementRule) (rand : Rand Rng) (members : List α) (rng : Rng) :
    List α × Rng :=
  if rule.together.isEmpty then rand.shuffle members rng
  else
    let groups := tradeLengths rand rule.together members
      ((byLength rule.together).entries.map Prod.snd) rng
    let rest := rand.shuffle (gather members rule.singles) groups.2
    (scatter members (groups.1 ++ [(rule.singles, rest.1)]), rest.2)

def Trade (together : List (List Nat)) (original : List α) (pair : Nat × Nat)
    (w : List Nat × List α) : Prop :=
  w.1 = groupAt together pair.1 ∧ w.2.Perm (gather original (groupAt together pair.2))

theorem tradeGroups_trade (hrand : rand.Lawful) (together : List (List Nat))
    (original : List α) : ∀ (pairs : List (Nat × Nat)) (rng : Rng),
      List.Forall₂ (Trade together original) pairs (tradeGroups rand together original pairs rng).1
  | [], _ => .nil
  | pair :: pairs, rng => by
    rw [tradeGroups]
    exact .cons ⟨rfl, hrand.shuffle_perm _ _⟩ (tradeGroups_trade hrand together original pairs _)

theorem tradeLengths_trade (hrand : rand.Lawful) (together : List (List Nat))
    (original : List α) : ∀ (classes : List (List Nat)) (rng : Rng), ∃ pairs : List (Nat × Nat),
      pairs.map Prod.fst = classes.flatten ∧ (pairs.map Prod.snd).Perm classes.flatten ∧
      (∀ pair ∈ pairs, ∃ idxs ∈ classes, pair.1 ∈ idxs ∧ pair.2 ∈ idxs) ∧
      List.Forall₂ (Trade together original) pairs (tradeLengths rand together original classes rng).1
  | [], _ => ⟨[], rfl, .nil, nofun, .nil⟩
  | idxs :: rest, rng => by
    have hperm := hrand.shuffle_perm idxs rng
    obtain ⟨pairs, hfst, hsnd, hsame, htrade⟩ := tradeLengths_trade hrand together original rest
      (tradeGroups rand together original (idxs.zip (rand.shuffle idxs rng).1) (rand.shuffle idxs rng).2).2
    refine ⟨idxs.zip (rand.shuffle idxs rng).1 ++ pairs, ?_, ?_, ?_, ?_⟩
    · rw [map_append, hfst, map_fst_zip hperm.length_eq.ge, flatten_cons]
    · rw [map_append, map_snd_zip hperm.length_eq.le, flatten_cons]
      exact hperm.append hsnd
    · intro pair hpair
      rcases mem_append.1 hpair with hpair | hpair
      · obtain ⟨h₁, h₂⟩ := of_mem_zip (a := pair.1) (b := pair.2) hpair
        exact ⟨idxs, mem_cons_self, h₁, hperm.mem_iff.1 h₂⟩
      · obtain ⟨idxs', hidxs, h⟩ := hsame pair hpair
        exact ⟨idxs', mem_cons_of_mem _ hidxs, h⟩
    · exact rel_append (tradeGroups_trade hrand together original _ _) htrade

/-- A shuffle within the rule permutes the members, and groups trade places one for one. -/
structure Traded (rule : PlacementRule) (original members : List α) : Prop where
  perm : members.Perm original
  source : ∃ pairs : List (Nat × Nat), (pairs.map Prod.fst).Nodup ∧ (pairs.map Prod.snd).Nodup ∧
    ∀ p v, members[p]? = some v → ∃ q : Nat, original[q]? = some v ∧
      (rule.groupOf p = none ∧ rule.groupOf q = none ∨
        ∃ pair ∈ pairs, rule.groupOf p = some pair.1 ∧ rule.groupOf q = some pair.2)

theorem range_map_groupAt (together : List (List Nat)) :
    (range together.length).map (groupAt together) = together := by
  refine ext_getElem (by simp) fun i h₁ h₂ => ?_
  simp [groupAt, h₂]

theorem groupOf_of_mem_groupAt (hrule : rule.Valid) {p i : Nat}
    (h : p ∈ groupAt rule.together i) : rule.groupOf p = some i := by
  refine hrule.groupOf_eq_some.2 ?_
  cases hg : rule.together[i]? with
  | none => simp [groupAt, hg] at h
  | some g => exact ⟨g, rfl, by simpa [groupAt, hg] using h⟩

theorem length_of_byLength {together : List (List Nat)} {idxs : List Nat}
    (h : idxs ∈ (byLength together).entries.map Prod.snd) {i j : Nat} (hi : i ∈ idxs)
    (hj : j ∈ idxs) : (groupAt together i).length = (groupAt together j).length := by
  obtain ⟨⟨k, _⟩, he, rfl⟩ := mem_map.1 h
  rw [(OrdMap.mem_groupBy.1 he).1] at hi hj
  have hik : (groupAt together i).length = k := by simpa using (mem_filter.1 hi).2
  have hjk : (groupAt together j).length = k := by simpa using (mem_filter.1 hj).2
  rw [hik, hjk]

theorem groups_flatten_perm (hrule : rule.Valid) {is : List Nat} (h : is.Perm (range rule.together.length)) :
    ((is.map (groupAt rule.together)).flatten ++ rule.singles).Perm (range rule.copyCount) := by
  have hflat := (h.map (groupAt rule.together)).flatten
  rw [range_map_groupAt] at hflat
  exact (hflat.append_right _).trans hrule.groups_singles_perm

theorem map_fst_of_trade {together : List (List Nat)} {original : List α} :
    ∀ {pairs : List (Nat × Nat)} {writes : List (List Nat × List α)},
      List.Forall₂ (Trade together original) pairs writes →
        writes.map Prod.fst = (pairs.map Prod.fst).map (groupAt together)
  | _, _, .nil => rfl
  | _, _, .cons h hs => by
    rw [map_cons, map_cons, map_cons, h.1, map_fst_of_trade hs]

theorem shuffle_traded (hrand : rand.Lawful) (hrule : rule.Valid)
    {members : List α} (hlen : members.length = rule.copyCount) (rng : Rng) :
    Traded rule members (rule.shuffle rand members rng).1 := by
  rw [PlacementRule.shuffle]
  split
  · rename_i hempty
    have hnone : ∀ p, rule.groupOf p = none := fun p =>
      groupOf_eq_none.2 (by simp [isEmpty_iff.1 hempty])
    have hperm := hrand.shuffle_perm members rng
    refine ⟨hperm, [], nodup_nil, nodup_nil, fun p v hv => ?_⟩
    obtain ⟨q, hq⟩ := mem_iff_getElem?.1 (hperm.mem_iff.1 (mem_of_getElem? hv))
    exact ⟨q, hq, .inl ⟨hnone p, hnone q⟩⟩
  · dsimp only
    generalize hgroups : tradeLengths rand rule.together members
      ((byLength rule.together).entries.map Prod.snd) rng = groups
    obtain ⟨pairs, hfst, hsnd, hsame, htrade⟩ := tradeLengths_trade hrand rule.together members
      ((byLength rule.together).entries.map Prod.snd) rng
    rw [hgroups] at htrade
    have hclasses : (pairs.map Prod.fst).Perm (range rule.together.length) :=
      hfst ▸ OrdMap.groupBy_flatten_perm nodup_range
    have hpartners : (pairs.map Prod.snd).Perm (range rule.together.length) :=
      (hfst ▸ hsnd).trans hclasses
    -- Every group moves to its partner and the single positions stay among themselves.
    have hmoves : List.Forall₂ (Moves members)
        ((pairs.map Prod.snd).map (groupAt rule.together) ++ [rule.singles])
        (groups.1 ++ [(rule.singles, (rand.shuffle (gather members rule.singles) groups.2).1)]) := by
      refine rel_append ?_ (.cons ⟨rfl, hrand.shuffle_perm _ _⟩ .nil)
      rw [map_map, forall₂_map_left_iff]
      refine ((forall₂_and_left _ _).2 ⟨fun _ h => h, htrade⟩).imp fun pair w h => ?_
      obtain ⟨idxs, hidxs, h₁, h₂⟩ := hsame pair h.1
      exact ⟨h.2.1 ▸ length_of_byLength hidxs h₁ h₂, h.2.2⟩
    have hdest : ((groups.1 ++ [(rule.singles,
        (rand.shuffle (gather members rule.singles) groups.2).1)]).map Prod.fst).flatten.Perm
          (range members.length) := by
      have hwfst : groups.1.map Prod.fst = (pairs.map Prod.fst).map (groupAt rule.together) :=
        map_fst_of_trade htrade
      rw [map_append, hwfst, flatten_append, hlen]
      simpa using groups_flatten_perm hrule hclasses
    have hsrc : ((pairs.map Prod.snd).map (groupAt rule.together) ++ [rule.singles]).flatten.Perm
        (range members.length) := by
      rw [flatten_append, hlen]
      simpa using groups_flatten_perm hrule hpartners
    refine ⟨scatter_moves_perm hdest hsrc hmoves, pairs, hclasses.nodup_iff.2 nodup_range,
      hpartners.nodup_iff.2 nodup_range, fun p v hv => ?_⟩
    obtain ⟨⟨src, w⟩, hsw, hp, q, hq, hqv⟩ := scatter_moves_source hdest hsrc hmoves hv
    refine ⟨q, hqv, ?_⟩
    rw [zip_append (by simp [htrade.length_eq]), mem_append] at hsw
    rcases hsw with hsw | hsw
    · rw [map_map, zip_map_left] at hsw
      obtain ⟨⟨pair, w'⟩, hmem, heq⟩ := mem_map.1 hsw
      cases heq
      have htr := forall₂_zip htrade hmem
      exact .inr ⟨pair, (of_mem_zip hmem).1, groupOf_of_mem_groupAt hrule (htr.1 ▸ hp),
        groupOf_of_mem_groupAt hrule hq⟩
    · cases mem_singleton.1 hsw
      exact .inl ⟨groupOf_eq_none.2 (mem_singles.1 hp).2, groupOf_eq_none.2 (mem_singles.1 hq).2⟩

end

def Seat.place (s : Seat) : String × String := (s.domain, s.unit)

theorem places_nodup_iff {seats : List Seat} (hnodup : (seats.map Seat.position).Nodup) :
    (seats.map Seat.place).Nodup ↔ ∀ s ∈ seats, ∀ t ∈ seats, s.position ≠ t.position →
      t.domain = s.domain → t.unit ≠ s.unit := by
  constructor
  · intro h s hs t ht hne hd hu
    exact hne (congrArg Seat.position (inj_on_of_nodup_map h hs ht (Prod.ext hd.symm hu.symm)))
  · intro h
    refine List.Nodup.map_on (fun s hs t ht hst => ?_) hnodup.of_map
    by_contra hne
    have hpos : s.position ≠ t.position := fun h0 =>
      hne (inj_on_of_nodup_map hnodup hs ht h0)
    have hplace := Prod.mk.inj hst
    exact h s hs t ht hpos hplace.1.symm hplace.2.symm

section
variable [DecidableEq Id] [ToString Id] {topology : ClusterTopology Id}

theorem seats_map_place (members : List Id) :
    (seats topology rule members).map Seat.place = members.filterMap fun id =>
      (topology.getNode id).map fun n => (domainName n rule.level, unitName n rule) := by
  have hmap : members = members.zipIdx.map Prod.fst := by rw [zipIdx_map_fst]
  conv_rhs => rw [hmap]
  rw [seats, map_filterMap, filterMap_map]
  refine filterMap_congr fun m _ => ?_
  rw [seat, Option.map_map]
  rfl

theorem places_perm (topology : ClusterTopology Id) (rule : PlacementRule) {members members' : List Id} (h : members'.Perm members) :
    ((seats topology rule members').map Seat.place).Perm ((seats topology rule members).map Seat.place) := by
  rw [seats_map_place, seats_map_place]
  exact h.filterMap _

theorem length_filter_domain (seats : List Seat) (d : String) :
    (seats.filter (fun t => t.domain = d)).length =
      ((seats.map Seat.place).filter (fun p => p.1 = d)).length := by
  rw [filter_map, length_map]
  rfl

/-- `PlacementRule::shuffle` keeps the rule. -/
theorem KeepsRule.shuffle {members : List Id} (hrand : rand.Lawful)
    (hrule : rule.Valid) (h : KeepsRule topology rule members) (rng : Rng) :
    KeepsRule topology rule (rule.shuffle rand members rng).1 := by
  obtain ⟨hperm, pairs, hfst, hsnd, hsource⟩ := shuffle_traded hrand hrule h.length rng
  have hplaces := places_perm topology rule hperm
  -- A seat was taken before, at the position its member came from.
  have hbefore : ∀ {s : Seat}, s ∈ seats topology rule (rule.shuffle rand members rng).1 →
      ∃ s₀ ∈ seats topology rule members, s₀.domain = s.domain ∧
        (rule.groupOf s.position = none ∧ rule.groupOf s₀.position = none ∨
          ∃ pair ∈ pairs, rule.groupOf s.position = some pair.1 ∧
            rule.groupOf s₀.position = some pair.2) := by
    intro s hs
    obtain ⟨id, hid, hseat⟩ := mem_seats.1 hs
    obtain ⟨q, hq, hgroup⟩ := hsource s.position id hid
    obtain ⟨n, hn, hsn⟩ := Option.map_eq_some_iff.1 hseat
    refine ⟨{ s with position := q }, mem_seats.2 ⟨id, hq, ?_⟩, rfl, hgroup⟩
    rw [seat, hn, ← hsn]
    rfl
  refine ⟨hperm.length_eq.trans h.length, fun id hid => h.known id (hperm.mem_iff.1 hid), ?_, ?_, ?_⟩
  · intro s hs
    obtain ⟨s₀, hs₀, hd, -⟩ := hbefore hs
    rw [length_filter_domain, (hplaces.filter _).length_eq, ← length_filter_domain, ← hd]
    exact h.kept.perDomain s₀ hs₀
  · intro s hs t ht hsome
    obtain ⟨s₀, hs₀, hds, hgs⟩ := hbefore hs
    obtain ⟨t₀, ht₀, hdt, hgt⟩ := hbefore ht
    rcases hgs with ⟨hnone, -⟩ | ⟨a, ha, hsa, hs₀a⟩
    · rw [hnone] at hsome
      cases hsome
    rw [← hds, ← hdt, ← h.kept.groups s₀ hs₀ t₀ ht₀ (by rw [hs₀a]; rfl), hsa, hs₀a]
    rcases hgt with ⟨htn, ht₀n⟩ | ⟨b, hb, htb, ht₀b⟩
    · rw [htn, ht₀n]
      simp
    · -- Partners are one for one: the groups agree before exactly when they agree after.
      rw [htb, ht₀b, Option.some.injEq, Option.some.injEq]
      exact ⟨fun h0 => congrArg Prod.snd (inj_on_of_nodup_map hfst hb ha h0),
        fun h0 => congrArg Prod.fst (inj_on_of_nodup_map hsnd hb ha h0)⟩
  · refine (places_nodup_iff seats_positions_nodup).1 (hplaces.nodup_iff.2 ?_)
    exact (places_nodup_iff seats_positions_nodup).2 h.kept.units

end

end IoLake.Placement
