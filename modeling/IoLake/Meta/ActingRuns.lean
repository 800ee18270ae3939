import IoLake.Meta.ActingSets

/-!
# Runs of acting-set changes

What holds of a placement group's acting set over any sequence of plans, stand-ins, repairs and
remaps.
-/

namespace IoLake.Meta

open Placement List Function Steps Finset

variable {Id : Type} [DecidableEq Id]

variable {change : Change Id}

section
variable [ToString Id] {site : Site Id} {pg new : PlacementGroup Id}

theorem proposed_nodup (h : pg.acting.Nodup) (hnew : proposed site pg change = some new) :
    new.acting.Nodup ∧ new.acting.length = pg.acting.length ∧
      (new.acting = pg.acting ∨ new.epoch = pg.epoch + 1) := by
  rcases proposed_cases hnew with hsame | ⟨view, hstand⟩ | ⟨view, -, hlen, rfl⟩
  · rw [hsame]
    exact ⟨h, rfl, .inl rfl⟩
  · have hacting := standIn_induction
      (P := fun acting => acting.Nodup ∧ acting.length = pg.acting.length) ⟨h, rfl⟩ ?_ hstand
    · exact ⟨hacting.1.1, hacting.1.2, .inr hacting.2⟩
    · intro acting position n hs hp _ hfree _
      exact ⟨hs.1.set hfree, by rw [length_set, hs.2]⟩
  · exact ⟨commitRemap_nodup hlen h, commitRemap_length hlen _, .inr (commitRemap_epoch hlen _)⟩

theorem step_nodup (h : pg.acting.Nodup) (hstep : step site pg change = some new) : new.acting.Nodup := by
  rcases step_cases hstep with rfl | hnew
  · exact h
  · exact (proposed_nodup h hnew).1

/-- **No change ever puts an OSD at two positions**: the guard of the commit has nothing to refuse. -/
theorem no_shared_member (site : Site Id) {first pg new : PlacementGroup Id}
    {changes : List (Change Id)} {change : Change Id} (hfirst : first.acting.Nodup)
    (hrun : Steps.run (step site) first changes = some pg) (hnew : proposed site pg change = some new) :
    new.acting.Nodup ∧ addsSharedMember pg.acting new.acting = false ∧
      new.acting.length = pg.acting.length ∧ (new.acting ≠ pg.acting → pg.epoch < new.epoch) := by
  have hpg : pg.acting.Nodup := run_invariant (P := fun pg => pg.acting.Nodup)
    (fun _ _ _ hs hstep => step_nodup hs hstep) changes first pg hfirst hrun
  obtain ⟨hnodup, hlen, hepoch⟩ := proposed_nodup hpg hnew
  refine ⟨hnodup, addsSharedMember_of_nodup _ hnodup, hlen, fun hne => ?_⟩
  have := hepoch.resolve_left hne
  omega

end

def twoRacks : ClusterTopology String where
  nodes := [("a", "r1"), ("b", "r2"), ("c", "r1")].map fun o =>
    { id := o.1, failureDomain := ⟨"", "", "", o.2, ""⟩, status := .active }

def twoCopies : Site String := ⟨twoRacks, .spread .rack 2, fun _ _ _ _ => 0⟩

def seen (down : List String) : View String where
  osdNodes := ["a", "b", "c"].map fun id => { nodeId := id, adminState := .in_, address := id }
  downSince := fun id => if id ∈ down then some 600 else none
  grace := 600

def onAB : PlacementGroup String := ⟨"default", 0, ["a", "b"], ["a", "b"], 1, []⟩

theorem returned_member_distinct : ∃ pg new : PlacementGroup String,
    Steps.run (step twoCopies) onAB [.standIn (seen ["a"])] = some pg ∧
      proposed twoCopies pg (.remap (seen [])) = some new ∧ new.acting ≠ pg.acting ∧
      new.acting.Nodup ∧ addsSharedMember pg.acting new.acting = false ∧
      new.acting.length = pg.acting.length ∧ pg.epoch < new.epoch := by
  obtain ⟨pg, new, hrun, hnew, hne⟩ : ∃ pg new : PlacementGroup String,
      run (step twoCopies) onAB [.standIn (seen ["a"])] = some pg ∧
        proposed twoCopies pg (.remap (seen [])) = some new ∧ new.acting ≠ pg.acting :=
    ⟨⟨"default", 0, ["c", "b"], ["a", "b"], 2, [⟨0, "a", 2⟩]⟩,
      ⟨"default", 0, ["a", "b"], ["a", "b"], 3, [⟨0, "c", 3⟩]⟩, by decide +kernel,
      by decide +kernel, by decide⟩
  obtain ⟨hnodup, hshared, hlen, hepoch⟩ := no_shared_member twoCopies (by decide) hrun hnew
  exact ⟨pg, new, hrun, hnew, hne, hnodup, hshared, hlen, hepoch hne⟩

/-! ## Reaching the up set -/

def remapRound (osdNodes : List (OsdNode Id)) (pg : PlacementGroup Id) : PlacementGroup Id :=
  match remapPositions osdNodes pg with
  | [] => pg
  | positions =>
    ((commitPgs pg (commitRemap pg positions)).map fun new => { new with filling := [] }).getD pg

/-- Some positions are to move onto members that hold positions among them. -/
def Rotates (pg : PlacementGroup Id) : Prop :=
  ∃ ps : List Nat, ps ≠ [] ∧ ∀ p ∈ ps, ∃ u, pg.up[p]? = some u ∧ pg.acting[p]? ≠ some u ∧
    ∃ q ∈ ps, pg.acting[q]? = some u

/-- A group that can move: both sets without duplicates, of one length, every up member usable. -/
structure Settling (osdNodes : List (OsdNode Id)) (pg : PlacementGroup Id) : Prop where
  acting : pg.acting.Nodup
  up : pg.up.Nodup
  length : pg.up.length = pg.acting.length
  usable : ∀ u ∈ pg.up, (usableAddress osdNodes u).isSome

variable {osdNodes : List (OsdNode Id)} {pg : PlacementGroup Id}

variable (osdNodes) in
theorem remapRound_up (hlen : pg.up.length = pg.acting.length) : (remapRound osdNodes pg).up = pg.up := by
  rw [remapRound]
  split
  · rfl
  · rw [commitPgs]
    split
    · rfl
    · exact commitRemap_up hlen _

theorem remapRound_acting (hlen : pg.up.length = pg.acting.length) (h : pg.acting.Nodup) (p : Nat) :
    (remapRound osdNodes pg).acting[p]? =
      if p ∈ remapPositions osdNodes pg then pg.up[p]? else pg.acting[p]? := by
  rw [← commitRemap_acting hlen, remapRound]
  split
  · rename_i hnil
    rw [hnil, commitRemap_acting hlen, if_neg not_mem_nil]
  · rw [commitPgs, addsSharedMember_of_nodup _ (commitRemap_nodup hlen h)]
    rfl

theorem Settling.round (h : Settling osdNodes pg) : Settling osdNodes (remapRound osdNodes pg) := by
  have hup := remapRound_up osdNodes h.length
  have hacting : (remapRound osdNodes pg).acting = (commitRemap pg (remapPositions osdNodes pg)).acting := by
    refine ext_getElem? fun p => ?_
    rw [remapRound_acting h.length h.acting, commitRemap_acting h.length]
  refine ⟨hacting ▸ commitRemap_nodup h.length h.acting, hup ▸ h.up, ?_, hup ▸ h.usable⟩
  rw [hup, hacting, commitRemap_length h.length, h.length]

theorem Settling.mem_remapPositions (h : Settling osdNodes pg) {p : Nat} {u : Id}
    (hu : pg.up[p]? = some u) : p ∈ remapPositions osdNodes pg ↔ u ∉ pg.acting := by
  constructor
  · intro hp
    obtain ⟨v, hv⟩ := movable_of_mem_remapPositions hp
    rw [hv.up] at hu
    cases hu
    exact hv.free
  · intro hfree
    have hlt := (List.getElem?_eq_some_iff.1 hu).1
    refine Meta.mem_remapPositions h.length ⟨hu, h.length ▸ hlt,
      h.usable u (mem_of_getElem? hu), hfree⟩ fun q hq => ?_
    exact ((getElem?_inj hlt h.up).1 (hu.trans hq.symm)).symm

/-- A round neither makes nor breaks a rotation. -/
theorem Settling.rotates_round (h : Settling osdNodes pg) :
    Rotates (remapRound osdNodes pg) ↔ Rotates pg := by
  constructor
  · rintro ⟨ps, hne, hps⟩
    -- A position of the rotation is not yet at its up member, so the round has not moved it.
    have hstay : ∀ p ∈ ps, (remapRound osdNodes pg).acting[p]? = pg.acting[p]? := by
      intro p hp
      obtain ⟨u, hu, hacting, -⟩ := hps p hp
      rw [remapRound_up osdNodes h.length] at hu
      rw [remapRound_acting h.length h.acting] at hacting ⊢
      split at hacting
      · exact absurd hu hacting
      · exact if_neg ‹_›
    refine ⟨ps, hne, fun p hp => ?_⟩
    obtain ⟨u, hu, hacting, q, hq, hqu⟩ := hps p hp
    exact ⟨u, remapRound_up osdNodes h.length ▸ hu, hstay p hp ▸ hacting, q, hq, hstay q hq ▸ hqu⟩
  · rintro ⟨ps, hne, hps⟩
    have hstay : ∀ p ∈ ps, (remapRound osdNodes pg).acting[p]? = pg.acting[p]? := by
      intro p hp
      obtain ⟨u, hu, -, q, -, hqu⟩ := hps p hp
      rw [remapRound_acting h.length h.acting, if_neg]
      exact fun hmem => (h.mem_remapPositions hu).1 hmem (mem_of_getElem? hqu)
    refine ⟨ps, hne, fun p hp => ?_⟩
    obtain ⟨u, hu, hacting, q, hq, hqu⟩ := hps p hp
    exact ⟨u, (remapRound_up osdNodes h.length).symm ▸ hu,
      (hstay p hp).symm ▸ hacting, q, hq, (hstay q hq).symm ▸ hqu⟩

def misplaced (pg : PlacementGroup Id) : Finset Nat :=
  (Finset.range pg.acting.length).filter fun p => pg.up[p]? ≠ pg.acting[p]?

theorem acting_eq_up_of_misplaced (hlen : pg.up.length = pg.acting.length)
    (h : misplaced pg = ∅) : pg.acting = pg.up := by
  refine ext_getElem? fun p => ?_
  by_cases hp : p < pg.acting.length
  · by_contra hne
    have : p ∈ misplaced pg :=
      Finset.mem_filter.2 ⟨Finset.mem_range.2 hp, fun h0 => hne h0.symm⟩
    rw [h] at this
    exact absurd this (notMem_empty p)
  · rw [getElem?_eq_none (Nat.le_of_not_lt hp), getElem?_eq_none (hlen ▸ Nat.le_of_not_lt hp)]

theorem Settling.rotates_of_stuck (h : Settling osdNodes pg)
    (hstuck : remapPositions osdNodes pg = []) (hne : misplaced pg ≠ ∅) : Rotates pg := by
  refine ⟨(misplaced pg).toList, by simpa using hne, fun p hp => ?_⟩
  obtain ⟨hp', hdiff⟩ := Finset.mem_filter.1 (Finset.mem_toList.1 hp)
  have hlt : p < pg.up.length := h.length ▸ Finset.mem_range.1 hp'
  have hu := getElem?_eq_getElem hlt
  have hacting : pg.up[p] ∈ pg.acting := by
    by_contra hfree
    have := (h.mem_remapPositions hu).2 hfree
    rw [hstuck] at this
    cases this
  obtain ⟨q, hq⟩ := mem_iff_getElem?.1 hacting
  refine ⟨pg.up[p], hu, fun h0 => hdiff (hu.trans h0.symm), q, ?_, hq⟩
  -- The position that holds the member is misplaced too: the up set names it at `p` only.
  refine Finset.mem_toList.2 (Finset.mem_filter.2
    ⟨Finset.mem_range.2 (List.getElem?_eq_some_iff.1 hq).1, fun h0 => ?_⟩)
  have hpq : p = q := (getElem?_inj hlt h.up).1 (hu.trans (h0.trans hq).symm)
  subst hpq
  exact hdiff h0

theorem Settling.misplaced_lt (h : Settling osdNodes pg) (hmoves : remapPositions osdNodes pg ≠ []) :
    (misplaced (remapRound osdNodes pg)).card < (misplaced pg).card := by
  obtain ⟨p, hp⟩ := exists_mem_of_ne_nil _ hmoves
  obtain ⟨u, hu⟩ := movable_of_mem_remapPositions hp
  have hup := remapRound_up osdNodes h.length
  refine Finset.card_lt_card (Finset.ssubset_iff_of_subset ?_ |>.2 ⟨p, ?_, ?_⟩)
  · intro q hq
    obtain ⟨hlt, hne⟩ := Finset.mem_filter.1 hq
    rw [hup, remapRound_acting h.length h.acting] at hne
    rw [← h.round.length, hup, h.length] at hlt
    refine Finset.mem_filter.2 ⟨hlt, ?_⟩
    split at hne
    · exact absurd rfl hne
    · exact hne
  · refine Finset.mem_filter.2 ⟨Finset.mem_range.2 hu.lt, fun h0 => hu.free ?_⟩
    exact mem_of_getElem? (h0.symm.trans hu.up)
  · intro hmem
    have hne := (Finset.mem_filter.1 hmem).2
    rw [hup, remapRound_acting h.length h.acting, if_pos hp] at hne
    exact hne rfl

theorem Settling.reaches_up : ∀ (n : Nat) {pg : PlacementGroup Id}, Settling osdNodes pg →
    ¬ Rotates pg → (misplaced pg).card ≤ n →
      ∃ rounds, ((remapRound osdNodes)^[rounds] pg).acting = pg.up := by
  intro n
  induction n with
  | zero =>
    intro pg h _ hn
    exact ⟨0, acting_eq_up_of_misplaced h.length (card_eq_zero.1 (Nat.le_zero.1 hn))⟩
  | succ n ih =>
    intro pg h hrot hn
    by_cases hempty : misplaced pg = ∅
    · exact ⟨0, acting_eq_up_of_misplaced h.length hempty⟩
    · have hmoves : remapPositions osdNodes pg ≠ [] := fun h0 =>
        hrot (h.rotates_of_stuck h0 hempty)
      have hlt := h.misplaced_lt hmoves
      obtain ⟨rounds, hrounds⟩ := ih h.round (fun h0 => hrot (h.rotates_round.1 h0)) (by omega)
      refine ⟨rounds + 1, ?_⟩
      rw [iterate_succ_apply, hrounds, remapRound_up osdNodes h.length]

/-- Recovery's remaps reach the up set **exactly when no positions rotate among themselves**. -/
theorem remap_reaches_up_iff {osdNodes : List (OsdNode Id)} {pg : PlacementGroup Id}
    (hacting : pg.acting.Nodup) (hup : pg.up.Nodup) (hlen : pg.up.length = pg.acting.length)
    (husable : ∀ u ∈ pg.up, (usableAddress osdNodes u).isSome) :
    (∃ rounds, ((remapRound osdNodes)^[rounds] pg).acting = pg.up) ↔ ¬ Rotates pg := by
  have h : Settling osdNodes pg := ⟨hacting, hup, hlen, husable⟩
  constructor
  · -- A rotation outlives every round, and a group at its up set has none.
    rintro ⟨rounds, hrounds⟩ hrot
    have hall : ∀ n, Settling osdNodes ((remapRound osdNodes)^[n] pg) ∧
        Rotates ((remapRound osdNodes)^[n] pg) ∧ ((remapRound osdNodes)^[n] pg).up = pg.up := by
      intro n
      induction n with
      | zero => exact ⟨h, hrot, rfl⟩
      | succ n ih =>
        obtain ⟨hs, hr, hu⟩ := ih
        rw [iterate_succ_apply']
        exact ⟨hs.round, hs.rotates_round.2 hr, (remapRound_up osdNodes hs.length).trans hu⟩
    obtain ⟨-, ⟨ps, hne, hps⟩, hu⟩ := hall rounds
    obtain ⟨p, hp⟩ := exists_mem_of_ne_nil _ hne
    obtain ⟨u, hpu, hdiff, -⟩ := hps p hp
    rw [hrounds, ← hu] at hdiff
    exact hdiff hpu
  · exact fun hrot => h.reaches_up _ hrot le_rfl

def shifted : PlacementGroup String := { onAB with up := ["c", "a"] }

theorem shifted_reaches_up :
    ∃ rounds, ((remapRound (seen []).osdNodes)^[rounds] shifted).acting = shifted.up := by
  refine (remap_reaches_up_iff (by decide) (by decide) rfl (by decide)).2 ?_
  rintro ⟨ps, hne, hps⟩
  -- The member for position 0 holds none, so neither position can be of a rotation.
  have hnone : ∀ p ∈ ps, p ≠ 0 := by
    rintro p hp rfl
    obtain ⟨u, hu, -, q, -, hq⟩ := hps 0 hp
    cases hu
    exact absurd (mem_of_getElem? hq) (by decide)
  obtain ⟨p, hp⟩ := exists_mem_of_ne_nil _ hne
  obtain ⟨u, hu, -, q, hqmem, hq⟩ := hps p hp
  match p, hu with
  | 0, _ => exact hnone 0 hp rfl
  | 1, hu =>
    cases hu
    match q, hq with
    | 0, _ => exact hnone 0 hqmem rfl
    | 1, hq => exact absurd hq (by decide)

def swapped : PlacementGroup String := { onAB with up := ["b", "a"] }

/-- Recovery never exchanges two members. -/
theorem swapped_sets_stay : swapped.acting.Nodup ∧ swapped.up.Nodup ∧
    swapped.up.length = swapped.acting.length ∧
    (∀ u ∈ swapped.up, (usableAddress (seen []).osdNodes u).isSome) ∧
    ¬ ∃ rounds, ((remapRound (seen []).osdNodes)^[rounds] swapped).acting = swapped.up := by
  refine ⟨by decide, by decide, rfl, by decide, ?_⟩
  rintro ⟨rounds, h⟩
  have hfix : remapRound (seen []).osdNodes swapped = swapped := by decide
  rw [iterate_fixed hfix] at h
  exact absurd h (by decide)

/-! ## Keeping the rule -/

def canMove (view : View Id) (pg : PlacementGroup Id) (p : Nat) : Prop :=
  (pg.up[p]?.bind (usableAddress view.osdNodes)).isSome ∧ ∀ u ∈ pg.up[p]?, u ∉ pg.acting

instance (view : View Id) (pg : PlacementGroup Id) (p : Nat) : Decidable (canMove view pg p) :=
  inferInstanceAs (Decidable (_ ∧ _))

theorem canMove_of_mem_remapPositions {view : View Id} {pg : PlacementGroup Id} {p : Nat}
    (h : p ∈ remapPositions view.osdNodes pg) : p < pg.acting.length ∧ canMove view pg p := by
  obtain ⟨u, hu⟩ := movable_of_mem_remapPositions h
  refine ⟨hu.lt, by rw [hu.up]; exact hu.usable, fun v hv => ?_⟩
  rw [hu.up] at hv
  cases hv
  exact hu.free

theorem commitRemap_whole {view : View Id} {pg : PlacementGroup Id} (hup : pg.up.Nodup)
    (hlen : pg.up.length = pg.acting.length)
    (h : ∀ p < pg.acting.length, pg.up[p]? = pg.acting[p]? ∨ canMove view pg p) :
    (commitRemap pg (remapPositions view.osdNodes pg)).acting = pg.up := by
  refine ext_getElem? fun p => ?_
  rw [commitRemap_acting hlen]
  split
  · rfl
  rename_i hstay
  by_cases hp : p < pg.acting.length
  · rcases h p hp with hsame | ⟨husable, hfree⟩
    · exact hsame.symm
    · have hlt : p < pg.up.length := hlen ▸ hp
      have hu := getElem?_eq_getElem hlt
      rw [hu] at husable hfree
      refine absurd (mem_remapPositions hlen ⟨hu, hp, husable, hfree _ rfl⟩ fun q hq => ?_) hstay
      exact ((getElem?_inj hlt hup).1 (hu.trans hq.symm)).symm
  · rw [getElem?_eq_none (Nat.le_of_not_lt hp), getElem?_eq_none (hlen ▸ Nat.le_of_not_lt hp)]

section
variable [ToString Id]

def RemapsWhole (site : Site Id) (pg : PlacementGroup Id) : Change Id → Prop
  | .remap view =>
    (∀ p < pg.acting.length, ¬ canMove view pg p) ∨ KeepsRule site.topology site.rule pg.up ∧
        ∀ p < pg.acting.length, pg.up[p]? = pg.acting[p]? ∨ canMove view pg p
  | _ => True

instance (site : Site Id) (pg : PlacementGroup Id) : ∀ change, Decidable (RemapsWhole site pg change)
  | .remap _ => inferInstanceAs (Decidable (_ ∨ _))
  | .plan _ => .isTrue trivial
  | .standIn _ => .isTrue trivial
  | .repair _ => .isTrue trivial

theorem step_keepsRule {site : Site Id} (hids : site.topology.Distinct) {pg new : PlacementGroup Id}
    (hrule : site.rule.Valid) (h : KeepsRule site.topology site.rule pg.acting)
    (hwhole : RemapsWhole site pg change) (hstep : step site pg change = some new) :
    KeepsRule site.topology site.rule new.acting := by
  rcases step_cases hstep with rfl | hnew
  · exact h
  rcases proposed_cases hnew with hsame | ⟨view, hstand⟩ | ⟨view, rfl, hlen, rfl⟩
  · exact hsame.symm ▸ h
  · refine (standIn_induction (P := KeepsRule site.topology site.rule) h ?_ hstand).1
    intro acting position n hs hp hactive _ hadmits
    exact hs.set hids hrule hp (ClusterTopology.mem_of_activeNodes hactive) hadmits
  · rcases hwhole with hnone | ⟨hup, hall⟩
    · have hnil : remapPositions view.osdNodes pg = [] := by
        refine eq_nil_iff_forall_not_mem.2 fun p hp => ?_
        obtain ⟨hlt, hmove⟩ := canMove_of_mem_remapPositions hp
        exact hnone p hlt hmove
      rw [hnil]
      exact h
    · rw [commitRemap_whole hup.nodup hlen hall]
      exact hup

/-- The acting set keeps the pool's rule where each remap moves all there is to move. -/
theorem acting_keeps_rule {Rng : Type} {rand : Placement.Rand Rng} (hrand : rand.Lawful) {site : Site Id}
    (hids : site.topology.Distinct) {scatterWidth seed : Nat} {pool : CopysetPool Id}
    (hpool : buildWithRule rand site.topology site.rule scatterWidth seed = .ok pool)
    {osds : List Id} (hosds : osds ∈ pool.sets) (rng : Rng) {first pg : PlacementGroup Id}
    (hfirst : first.acting = (site.rule.shuffle rand osds rng).1) {changes : List (Change Id)}
    (hrun : Steps.run (step site) first changes = some pg)
    (hwhole : Steps.Along (step site) (RemapsWhole site) first changes) :
    KeepsRule site.topology site.rule pg.acting := by
  obtain ⟨hrule, hsets⟩ := buildWithRule_laidOut hids hrand hpool
  have hstart : KeepsRule site.topology site.rule first.acting :=
    hfirst ▸ ((hsets osds hosds).keepsRule hids hrule).shuffle hrand hrule rng
  exact run_invariant_along (I := fun pg => KeepsRule site.topology site.rule pg.acting)
    (fun _ _ _ hs hw hstep => step_keepsRule hids hrule hs hw hstep) changes first pg hstart hwhole hrun

end

def turning : Placement.Rand Nat where
  seedFromU64 := fun _ => 0
  shuffle := fun l n => (if n < 5 then l else l.reverse, n + 1)
  chooseMultiple := fun l k n => ((if n < 5 then l else l.reverse).take k, n + 1)
  gen := fun n => (0, n + 1)

theorem turning_lawful : turning.Lawful where
  shuffle_perm := fun l n => by
    by_cases h : n < 5
    · simp [turning, h]
    · simp [turning, h, reverse_perm l]
  choose_subperm := fun l k n => by
    by_cases h : n < 5
    · simp [turning, h, (take_sublist k l).subperm]
    · have hsub := (take_sublist k l.reverse).subperm
      simpa [turning, h] using hsub.trans (reverse_perm l).subperm
  choose_length := fun l k n => by
    by_cases h : n < 5 <;> simp [turning, h]

def turningPool : CopysetPool String := ⟨.rack, 2, [["a", "b"], ["b", "c"]]⟩

theorem turning_builds : buildWithRule turning twoCopies.topology twoCopies.rule 1 0 = .ok turningPool := by
  decide +kernel

/-- `a` goes down and is stood in for; it is back, and recovery moves the group back whole. -/
theorem returned_member_keeps_rule : ∃ pg : PlacementGroup String,
    Steps.run (step twoCopies) onAB [.standIn (seen ["a"]), .remap (seen [])] = some pg ∧
      Steps.Along (step twoCopies) (RemapsWhole twoCopies) onAB [.standIn (seen ["a"]), .remap (seen [])] ∧
      KeepsRule twoCopies.topology twoCopies.rule pg.acting := by
  obtain ⟨pg, hrun, hwhole⟩ : ∃ pg : PlacementGroup String,
      run (step twoCopies) onAB [.standIn (seen ["a"]), .remap (seen [])] = some pg ∧
        Steps.Along (step twoCopies) (RemapsWhole twoCopies) onAB
          [.standIn (seen ["a"]), .remap (seen [])] :=
    ⟨⟨"default", 0, ["a", "b"], ["a", "b"], 3, [⟨0, "c", 3⟩]⟩, by decide +kernel, by decide +kernel⟩
  have hosds : ["a", "b"] ∈ turningPool.sets := by decide
  exact ⟨pg, hrun, hwhole, acting_keeps_rule turning_lawful (by decide) turning_builds hosds 0 rfl hrun hwhole⟩

/-- **A plan that overlaps the acting set breaks the rule on the way**: only `c` moves, and `a` and `c` share
a rack. -/
theorem overlapping_plan_breaks_rule : turning.Lawful ∧
      buildWithRule turning twoCopies.topology twoCopies.rule 1 0 = .ok turningPool ∧
      ["a", "b"] ∈ turningPool.sets ∧ ["b", "c"] ∈ turningPool.sets ∧
      onAB.acting = (twoCopies.rule.shuffle turning ["a", "b"] 0).1 ∧ ∃ pg : PlacementGroup String,
        Steps.run (step twoCopies) onAB [.plan ["b", "c"], .remap (seen [])] = some pg ∧
          ¬ KeepsRule twoCopies.topology twoCopies.rule pg.acting :=
  ⟨turning_lawful, turning_builds, by decide, by decide, rfl,
    ⟨"default", 0, ["a", "c"], ["b", "c"], 2, [⟨1, "b", 2⟩]⟩, by decide +kernel, by decide +kernel⟩

end IoLake.Meta
