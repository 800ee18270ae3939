import IoLake.Placement.Spread

/-!
# Copyset construction is exact

`build_with_rule` compares two sorted lists of sizes and then samples, the largest slots first.
-/

namespace IoLake.Placement

open Scatter PlacementRule List OrdMap

/-- For every size, at least as many have room for it as need it. -/
def Fits (need room : List Nat) : Prop :=
  ∀ n, need.countP (fun k => n ≤ k) ≤ room.countP (fun k => n ≤ k)

section
variable {n r : Nat} {need room : List Nat}

theorem Fits.exists_room (h : Fits (n :: need) room) : ∃ r ∈ room, n ≤ r := by
  have hpos : 0 < room.countP (fun k => n ≤ k) := by
    have := h n
    rw [countP_cons_of_pos (by simp)] at this
    omega
  simpa using countP_pos_iff.1 hpos

theorem Fits.perm {need' room' : List Nat} (h : Fits need room) (hn : need.Perm need') (hr : room.Perm room') :
    Fits need' room' := by
  intro n
  rw [← hn.countP_eq, ← hr.countP_eq]
  exact h n

/-- The largest slot can take any domain with room for it. -/
theorem Fits.rest (h : Fits (n :: need) room) {left : List Nat} (hmax : ∀ k ∈ need, k ≤ n)
    (hroom : room.Perm (r :: left)) (hr : n ≤ r) : Fits need left := by
  intro m
  have hm := h m
  rw [hroom.countP_eq] at hm
  by_cases hmn : m ≤ n
  · rw [countP_cons_of_pos (by simpa using hmn), countP_cons_of_pos (by simpa using hmn.trans hr)] at hm
    omega
  · have hnone : need.countP (fun k => m ≤ k) = 0 := by
      rw [countP_eq_zero]
      intro k hk
      have := hmax k hk
      simp only [decide_eq_true_eq]
      omega
    omega

theorem Fits.zip : ∀ {need room : List Nat}, Fits need room → need.Pairwise (· ≥ ·) → room.Pairwise (· ≥ ·) →
    ∀ nr ∈ need.zip room, nr.1 ≤ nr.2
  | [], room, _, _, _, nr, hnr => by simp at hnr
  | n :: need, [], _, _, _, nr, hnr => by simp at hnr
  | n :: need, r :: room, h, hneed, hroom, nr, hnr => by
    obtain ⟨hmax, hneed⟩ := pairwise_cons.1 hneed
    obtain ⟨hfirst, hroom⟩ := pairwise_cons.1 hroom
    have hr : n ≤ r := by
      obtain ⟨r', hr', hle⟩ := h.exists_room
      rcases mem_cons.1 hr' with rfl | hr'
      · exact hle
      · exact hle.trans (hfirst r' hr')
    rcases mem_cons.1 hnr with rfl | hnr
    · exact hr
    · exact Fits.zip (h.rest hmax (List.Perm.refl _) hr) hneed hroom nr hnr

end

theorem sortDescending_pairwise (l : List Nat) : (sortDescending l).Pairwise (· ≥ ·) :=
  pairwise_insertionSort (· ≥ ·) l

variable {Id Rng : Type} [DecidableEq Id]

theorem pickWeighted_some (rand : Rand Rng) {candidates : List Id} (hne : candidates ≠ [])
    (coverage : List (Id × Nat)) (rng : Rng) :
    ∃ id rng', pickWeighted rand candidates coverage rng = (some id, rng') := by
  obtain ⟨c, l, rfl⟩ := exists_cons_of_ne_nil hne
  have hpos : 0 < (((c :: l).map fun id => (id, 1 / (1 + (covered coverage id : ℚ)))).map Prod.snd).sum := by
    refine sum_pos _ (fun w hw => ?_) (by simp)
    obtain ⟨p, hp, rfl⟩ := mem_map.1 hw
    obtain ⟨id, -, rfl⟩ := mem_map.1 hp
    positivity
  rw [pickWeighted]
  dsimp only
  rw [if_neg (not_le.2 hpos)]
  generalize walkWeights _ _ = walked
  cases walked with
  | some id => exact ⟨id, _, rfl⟩
  | none => exact ⟨c, _, rfl⟩

theorem pickUnits_some (rand : Rand Rng) (coverage : List (Id × Nat)) :
    ∀ {units : List (String × List Id)}, (∀ u ∈ units, u.2 ≠ []) → ∀ rng,
      ∃ osds rng', pickUnits rand coverage units rng = (some osds, rng')
  | [], _, rng => ⟨[], rng, rfl⟩
  | unit :: units, h, rng => by
    obtain ⟨hunit, hunits⟩ := forall_mem_cons.1 h
    obtain ⟨id, rng₁, hid⟩ := pickWeighted_some rand hunit coverage rng
    obtain ⟨ids, rng₂, hids⟩ := pickUnits_some rand coverage hunits rng₁
    exact ⟨id :: ids, rng₂, by rw [pickUnits, hid]; simp only [hids]⟩

variable {rand : Rand Rng} {osds : List Id}

/-- No slot is left without a domain. -/
theorem chooseSlots_some (hrand : rand.Lawful) (coverage : List (Id × Nat)) :
    ∀ {order : List (List Nat)} {domains : List (String × OrdMap String (List Id))},
      order.Pairwise (fun a b => b.length ≤ a.length) →
      Fits (order.map length) (domains.map fun d => d.2.size) →
      (∀ d ∈ domains, ∀ u ∈ d.2.entries, u.2 ≠ []) → ∀ rng,
        ∃ choices rng', chooseSlots rand coverage order domains rng = (some choices, rng')
  | [], _, _, _, _, rng => ⟨[], rng, rfl⟩
  | slot :: order, domains, hsorted, hfits, hunits, rng => by
    obtain ⟨hmax, hsorted⟩ := pairwise_cons.1 hsorted
    rw [map_cons] at hfits
    obtain ⟨r, hr, hle⟩ := hfits.exists_room
    obtain ⟨d₀, hd₀, rfl⟩ := mem_map.1 hr
    obtain ⟨d, before, after, hbefore, hd, rfl, herase⟩ := exists_of_eraseP hd₀
      (p := fun d : String × OrdMap String (List Id) => decide (slot.length ≤ d.2.size)) (decide_eq_true hle)
    have hfind : (before ++ d :: after).find? (fun d => decide (slot.length ≤ d.2.size)) = some d := by
      rw [find?_append, find?_eq_none.2 hbefore, Option.none_or]
      exact find?_cons_of_pos hd
    have hsize := of_decide_eq_true hd
    rw [chooseSlots, hfind]
    dsimp only
    have hlength : (rand.chooseMultiple d.2.entries slot.length rng).1.length = slot.length := by
      rw [hrand.choose_length]
      exact min_eq_left hsize
    rw [if_neg (not_not.2 hlength), herase]
    obtain ⟨osds, rng₁, hosds⟩ := pickUnits_some rand coverage
      (fun u hu => hunits d (by simp) u ((hrand.choose_subperm d.2.entries slot.length rng).subset hu))
      (rand.chooseMultiple d.2.entries slot.length rng).2
    have hrest : Fits (order.map length) ((before ++ after).map fun d => d.2.size) := by
      refine hfits.rest (fun k hk => ?_) (r := d.2.size) (perm_middle.map _) hsize
      obtain ⟨slot', hslot', rfl⟩ := mem_map.1 hk
      exact hmax slot' hslot'
    obtain ⟨choices, rng₂, hchoices⟩ := chooseSlots_some hrand coverage hsorted hrest
      (fun e he => hunits e (by
        rcases mem_append.1 he with he | he
        · exact mem_append_left _ he
        · exact mem_append_right _ (mem_cons_of_mem _ he))) rng₁
    rw [hosds]
    dsimp only
    rw [hchoices]
    exact ⟨_, rng₂, rfl⟩

theorem collect_some {α : Type} : ∀ {l : List (Option α)}, (∀ o ∈ l, ∃ a, o = some a) → ∃ as, collect l = some as
  | [], _ => ⟨[], rfl⟩
  | o :: l, h => by
    obtain ⟨⟨a, rfl⟩, hl⟩ := forall_mem_cons.1 h
    obtain ⟨as, has⟩ := collect_some hl
    exact ⟨a :: as, by rw [collect, has]; rfl⟩

section
variable [ToString Id] {topology : ClusterTopology Id} {rule : PlacementRule}

omit [DecidableEq Id] in
theorem Sampled.fill_some {order : List (List Nat)} {choices : List (Choice Id)}
    (hs : Sampled topology rule order choices) (hperm : order.flatten.Perm (range rule.copyCount)) :
    ∃ osds, fill rule.copyCount choices = some osds := by
  refine collect_some fun o ho => ?_
  obtain ⟨p, hp⟩ := mem_iff_getElem?.1 ho
  have hlt : p < rule.copyCount := by
    have := (List.getElem?_eq_some_iff.1 hp).1
    rwa [length_scatter, length_replicate] at this
  obtain ⟨slot, hslot, hmem⟩ := mem_flatten.1 (hperm.mem_iff.2 (mem_range.2 hlt))
  rw [← hs.slots] at hslot
  obtain ⟨c, hc, rfl⟩ := mem_map.1 hslot
  obtain ⟨i, hi⟩ := mem_iff_getElem?.1 hmem
  obtain ⟨n, -, hn, -⟩ := hs.written (hperm.nodup_iff.2 nodup_range) hc hi hlt
  exact ⟨n.id, Option.some.inj (hp.symm.trans hn)⟩

theorem sampleCopyset_some (hrand : rand.Lawful) (hrule : rule.Valid)
    (hfits : Fits (rule.slots.map length) ((unitsByDomain topology rule).entries.map fun d => d.2.size))
    (coverage : List (Id × Nat)) (rng : Rng) : ∃ osds rng',
      sampleCopyset rand (unitsByDomain topology rule) rule.slots rule.copyCount coverage rng = (some osds, rng') := by
  have hshuffle := hrand.shuffle_perm (unitsByDomain topology rule).entries rng
  have horder := perm_insertionSort (fun a b : List Nat => b.length ≤ a.length) rule.slots
  have hsorted : (rule.slots.insertionSort fun a b => b.length ≤ a.length).Pairwise fun a b => b.length ≤ a.length := by
    have : Std.Total fun a b : List Nat => b.length ≤ a.length := ⟨fun a b => le_total _ _⟩
    have : IsTrans (List Nat) fun a b => b.length ≤ a.length := ⟨fun _ _ _ h h' => h'.trans h⟩
    exact pairwise_insertionSort _ _
  have hunits : ∀ d ∈ (rand.shuffle (unitsByDomain topology rule).entries rng).1, ∀ u ∈ d.2.entries, u.2 ≠ [] := by
    intro d hd u hu
    obtain ⟨e, -, rfl⟩ := mem_map.1 (hshuffle.mem_iff.1 hd)
    obtain ⟨f, hf, rfl⟩ := mem_map.1 hu
    simpa using (mem_groupBy.1 hf).2
  obtain ⟨choices, rng', hchoices⟩ := chooseSlots_some hrand coverage hsorted
    (hfits.perm (horder.map _).symm (hshuffle.map _).symm) hunits (rand.shuffle (unitsByDomain topology rule).entries rng).2
  obtain ⟨hs, -⟩ := chooseSlots_sampled hrand (fun d hd => hshuffle.mem_iff.1 hd)
    ((hshuffle.map _).nodup_iff.2 (unitsByDomain topology rule).nodup_keys) hchoices
  obtain ⟨osds, hosds⟩ := hs.fill_some (horder.flatten.trans hrule.flatten_slots_perm)
  exact ⟨osds, rng', by rw [sampleCopyset]; simp only [hchoices, hosds]⟩

omit [ToString Id] in
theorem subset_sampleSets (rand : Rand Rng) (groups : OrdMap String (OrdMap String (List Id)))
    (slots : List (List Nat)) (copyCount target scatterWidth : Nat) :
    ∀ (attempts : Nat) (coverage : List (Id × Nat)) (sets : List (List Id)) (rng : Rng),
      sets ⊆ sampleSets rand groups slots copyCount target scatterWidth attempts coverage sets rng
  | 0, _, _, _ => List.Subset.refl _
  | attempts + 1, coverage, sets, rng => by
    rw [sampleSets]
    split
    · split
      · exact subset_sampleSets ..
      · split
        · exact subset_sampleSets ..
        · exact fun cs hcs => subset_sampleSets _ _ _ _ _ _ _ _ _ _ (mem_append_left _ hcs)
    · exact List.Subset.refl _

/-! ## Assignments -/

def seatsIn (topology : ClusterTopology Id) (rule : PlacementRule) (osds : List Id) (d : String) : List Seat :=
  (seats topology rule osds).filter fun s => s.domain = d

/-- Active OSDs at the positions: in `domains` distinct domains with the sizes of the slots, each
group alone in its domain, the positions of a domain on distinct units. -/
structure Assignment (topology : ClusterTopology Id) (rule : PlacementRule) (osds : List Id) : Prop where
  length : osds.length = rule.copyCount
  active : ∀ id ∈ osds, ∃ n ∈ topology.activeNodes, n.id = id
  sizes : ∃ used : List String, used.Nodup ∧ used.length = rule.domains ∧
    (∀ s ∈ seats topology rule osds, s.domain ∈ used) ∧
    used.map (fun d => (seatsIn topology rule osds d).length) = rule.slots.map List.length
  groups : ∀ s ∈ seats topology rule osds, ∀ t ∈ seats topology rule osds, (rule.groupOf s.position).isSome →
    (rule.groupOf t.position = rule.groupOf s.position ↔ t.domain = s.domain)
  units : ∀ s ∈ seats topology rule osds, ∀ t ∈ seats topology rule osds, s.position ≠ t.position →
    t.domain = s.domain → t.unit ≠ s.unit

omit [DecidableEq Id] in
theorem unit_mem {n : NodeInfo Id} (hn : n ∈ topology.activeNodes) :
    ∃ units, (unitsByDomain topology rule).get (domainName n rule.level) = some units ∧
      unitName n rule ∈ units.entries.map Prod.fst := by
  have hdomain : n ∈ topology.activeNodes.filter fun v => domainName v rule.level = domainName n rule.level :=
    mem_filter.2 ⟨hn, by simp⟩
  have hunit : n ∈ (topology.activeNodes.filter fun v => domainName v rule.level = domainName n rule.level).filter
      fun v => unitName v rule = unitName n rule := mem_filter.2 ⟨hdomain, by simp⟩
  refine ⟨_, mem_entries.1 (mem_map.2 ⟨(_, _), mem_groupBy.2 ⟨rfl, ne_nil_of_mem hdomain⟩, rfl⟩), ?_⟩
  exact mem_map.2 ⟨(_, _), mem_map.2 ⟨(_, _), mem_groupBy.2 ⟨rfl, ne_nil_of_mem hunit⟩, rfl⟩, rfl⟩

theorem Assignment.room (hids : topology.Distinct) (h : Assignment topology rule osds) {d : String}
    (hne : seatsIn topology rule osds d ≠ []) : ∃ units, (unitsByDomain topology rule).get d = some units ∧
      (seatsIn topology rule osds d).length ≤ units.size := by
  have hunit : ∀ s ∈ seatsIn topology rule osds d, ∃ units, (unitsByDomain topology rule).get d = some units ∧
      s.unit ∈ units.entries.map Prod.fst := by
    intro s hs
    obtain ⟨hs, hd⟩ := mem_filter.1 hs
    obtain ⟨id, hid, hseat⟩ := mem_seats.1 hs
    obtain ⟨n, hn, hidn⟩ := h.active id (mem_of_getElem? hid)
    rw [seat, ← hidn, hids.getNode_of_mem (ClusterTopology.mem_of_activeNodes hn)] at hseat
    rw [← of_decide_eq_true hd, ← Option.some.inj hseat]
    exact unit_mem hn
  obtain ⟨s, hs⟩ := exists_mem_of_ne_nil _ hne
  obtain ⟨units, hunits, -⟩ := hunit s hs
  refine ⟨units, hunits, ?_⟩
  have hnodup : ((seatsIn topology rule osds d).map Seat.unit).Nodup := by
    refine pairwise_map.2 ((pairwise_map.1 seats_positions_nodup).filter _ |>.imp_of_mem ?_)
    intro s t hs ht hpos
    obtain ⟨hs, hsd⟩ := mem_filter.1 hs
    obtain ⟨ht, htd⟩ := mem_filter.1 ht
    exact (h.units s hs t ht hpos ((of_decide_eq_true htd).trans (of_decide_eq_true hsd).symm)).symm
  have hsub : (seatsIn topology rule osds d).map Seat.unit ⊆ units.entries.map Prod.fst := by
    intro u hu
    obtain ⟨t, ht, rfl⟩ := mem_map.1 hu
    obtain ⟨units', hunits', hmem⟩ := hunit t ht
    cases hunits.symm.trans hunits'
    exact hmem
  have hle := (hnodup.subperm hsub).length_le
  rwa [length_map, length_map] at hle

theorem length_spreadEvenly (each extra : Nat) : ∀ (free d : Nat) (it : List Nat),
    (spreadEvenly each extra d free it).length = free
  | 0, _, _ => rfl
  | free + 1, d, _ => congrArg (· + 1) (length_spreadEvenly each extra free (d + 1) _)

theorem length_slots (h : rule.Valid) : rule.slots.length = rule.domains := by
  have hle := h.together_le
  rw [slots]
  split
  · rename_i hnone
    rcases h.singles_room with hs | hs
    · omega
    · rw [isEmpty_iff_length_eq_zero] at hnone
      omega
  · rw [length_append, length_spreadEvenly]
    omega

/-- An assignment's slots fit the domains. -/
theorem Assignment.fits (hids : topology.Distinct) (h : Assignment topology rule osds) (hrule : rule.Valid) :
    Fits (rule.slots.map List.length) ((unitsByDomain topology rule).entries.map fun d => d.2.size) := by
  obtain ⟨used, hnodup, -, -, hsizes⟩ := h.sizes
  intro n
  rw [← hsizes, countP_map, countP_map, countP_eq_length_filter, countP_eq_length_filter]
  refine le_of_le_of_eq ((hnodup.filter _).subperm fun d hd => ?_).length_le (length_map Prod.fst)
  obtain ⟨hd, hn⟩ := mem_filter.1 hd
  have hne : seatsIn topology rule osds d ≠ [] := by
    have hmem : (seatsIn topology rule osds d).length ∈ rule.slots.map List.length :=
      hsizes ▸ mem_map.2 ⟨d, hd, rfl⟩
    obtain ⟨slot, hslot, hlength⟩ := mem_map.1 hmem
    intro h0
    rw [h0] at hlength
    exact hrule.slot_ne_nil hslot (length_eq_zero_iff.1 hlength)
  obtain ⟨units, hunits, hle⟩ := h.room hids hne
  refine mem_map.2 ⟨(d, units), mem_filter.2 ⟨mem_entries.2 hunits, ?_⟩, rfl⟩
  exact decide_eq_true ((of_decide_eq_true hn).trans hle)

theorem LaidOut.seat_at (hids : topology.Distinct) (h : LaidOut topology rule osds) {p : Nat}
    (hp : p < rule.copyCount) :
    ∃ s ∈ seats topology rule osds, s.position = p := by
  obtain ⟨n, hn, hid⟩ := h.active p hp
  have hseat : seat topology rule p n.id = some ⟨p, domainName n rule.level, unitName n rule⟩ := by
    rw [seat, hids.getNode_of_mem (ClusterTopology.mem_of_activeNodes hn)]
    rfl
  exact ⟨⟨p, _, _⟩, mem_seats.2 ⟨n.id, hid, hseat⟩, rfl⟩

theorem LaidOut.assignment (hids : topology.Distinct) (h : LaidOut topology rule osds) (hrule : rule.Valid) :
    Assignment topology rule osds := by
  have hkept := (h.keepsRule hids hrule).kept
  have hlt : ∀ slot ∈ rule.slots, ∀ p ∈ slot, p < rule.copyCount := fun slot hslot p hp =>
    mem_range.1 (hrule.flatten_slots_perm.mem_iff.1 (mem_flatten.2 ⟨slot, hslot, hp⟩))
  have hdomain : ∀ slot ∈ rule.slots, ∃ d, ∀ t ∈ seats topology rule osds, t.domain = d ↔ t.position ∈ slot := by
    intro slot hslot
    obtain ⟨p, hp⟩ := exists_mem_of_ne_nil _ (hrule.slot_ne_nil hslot)
    obtain ⟨s, hs, rfl⟩ := h.seat_at hids (hlt slot hslot p hp)
    exact ⟨s.domain, fun t ht => h.domain_iff hs ht hslot hp⟩
  choose! d hd using hdomain
  refine ⟨h.length, fun id hid => ?_, ⟨rule.slots.map d, ?_, ?_, fun s hs => ?_, ?_⟩, hkept.groups, hkept.units⟩
  · obtain ⟨p, hp⟩ := mem_iff_getElem?.1 hid
    obtain ⟨n, hn, hidn⟩ := h.active p (h.length ▸ (List.getElem?_eq_some_iff.1 hp).1)
    exact ⟨n, hn, Option.some.inj (hidn.symm.trans hp)⟩
  · have hdisjoint := (nodup_flatten.1 hrule.flatten_slots_nodup).2
    refine pairwise_map.2 (hdisjoint.imp_of_mem fun {a b} ha hb hab heq => ?_)
    obtain ⟨p, hp⟩ := exists_mem_of_ne_nil _ (hrule.slot_ne_nil ha)
    obtain ⟨s, hs, rfl⟩ := h.seat_at hids (hlt a ha p hp)
    exact hab hp ((hd b hb s hs).1 (((hd a ha s hs).2 hp).trans heq))
  · rw [length_map, length_slots hrule]
  · obtain ⟨slot, hslot, hp⟩ := h.slot_of_seat hrule hs
    exact mem_map.2 ⟨slot, hslot, ((hd slot hslot s hs).2 hp).symm⟩
  · rw [map_map]
    refine map_congr_left fun slot hslot => ?_
    -- The seats in the slot's domain are at its positions.
    have hperm : ((seatsIn topology rule osds (d slot)).map Seat.position).Perm slot := by
      refine (perm_ext_iff_of_nodup ((filter_sublist.map _).nodup seats_positions_nodup)
        ((nodup_flatten.1 hrule.flatten_slots_nodup).1 slot hslot)).2 fun p => ⟨fun hp => ?_, fun hp => ?_⟩
      · obtain ⟨s, hs, rfl⟩ := mem_map.1 hp
        obtain ⟨hs, hsd⟩ := mem_filter.1 hs
        exact (hd slot hslot s hs).1 (of_decide_eq_true hsd)
      · obtain ⟨s, hs, rfl⟩ := h.seat_at hids (hlt slot hslot p hp)
        exact mem_map.2 ⟨s, mem_filter.2 ⟨hs, decide_eq_true ((hd slot hslot s hs).2 hp)⟩, rfl⟩
    simpa using hperm.length_eq

theorem sampleSets_ne_nil (hrand : rand.Lawful) (hrule : rule.Valid)
    (hfits : Fits (rule.slots.map length) ((unitsByDomain topology rule).entries.map fun d => d.2.size))
    {target attempts : Nat} (htarget : 0 < target) (hattempts : 0 < attempts) (scatterWidth : Nat)
    (coverage : List (Id × Nat)) (rng : Rng) :
    sampleSets rand (unitsByDomain topology rule) rule.slots rule.copyCount target scatterWidth attempts
      coverage [] rng ≠ [] := by
  obtain ⟨k, rfl⟩ := Nat.exists_eq_add_of_lt hattempts
  obtain ⟨cs, rng', hcs⟩ := sampleCopyset_some hrand hrule hfits coverage rng
  have hfirst : ([] : List (List Id)).length < target ∨ (coverage.any fun c => c.2 < scatterWidth) = true :=
    .inl htarget
  rw [sampleSets, if_pos hfirst, hcs]
  exact ne_nil_of_mem (subset_sampleSets _ _ _ _ _ _ _ _ _ _ mem_cons_self)

end

def inOrder : Rand Unit :=
  { seedFromU64 := fun _ => (), shuffle := fun l _ => (l, ()), chooseMultiple := fun l n _ => (l.take n, ()),
    gen := fun _ => (0, ()) }

theorem inOrder_lawful : inOrder.Lawful :=
  ⟨fun _ _ => List.Perm.refl _, fun _ _ _ => (take_sublist _ _).subperm, fun _ _ _ => length_take⟩

def twoHosts : ClusterTopology Nat :=
  ⟨[⟨1, ⟨"", "", "", "", "a"⟩, .active⟩, ⟨2, ⟨"", "", "", "", "b"⟩, .active⟩]⟩

/-- One OSD, registered in a rack and again in another. -/
def movedOsd : ClusterTopology Nat :=
  (ClusterTopology.upsertNode ⟨[]⟩ ⟨1, ⟨"", "", "", "r1", ""⟩, .active⟩).upsertNode
    ⟨1, ⟨"", "", "", "r2", ""⟩, .active⟩

end IoLake.Placement
