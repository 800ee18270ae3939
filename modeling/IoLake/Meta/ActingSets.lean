import IoLake.Lib.Steps
import IoLake.Placement.Spread

/-!
# Acting sets

What changes a placement group's members: the balancer's plan of an up set, stand-ins for members that cannot
take writes, the repair of an up set whose member is gone, and recovery's move of the acting set to the up
set.
-/

namespace IoLake.Meta

open Placement List

/-! ## The model -/

inductive OsdAdminState where
  | in_ | out | draining
deriving DecidableEq, Repr

structure OsdNode (Id : Type) where
  nodeId : Id
  adminState : OsdAdminState
  address : String
deriving DecidableEq, Repr

/-- A position whose acting member does not yet hold what the member before it held. -/
structure PgFill (Id : Type) where
  position : Nat
  from_ : Id
  epoch : Nat
deriving DecidableEq, Repr

structure PlacementGroup (Id : Type) where
  pool : String
  pgId : Nat
  acting : List Id
  up : List Id
  epoch : Nat
  filling : List (PgFill Id)
deriving DecidableEq, Repr

/-- The OSDs registered, how long each has been down, and the grace a member that is down has. -/
structure View (Id : Type) where
  osdNodes : List (OsdNode Id)
  downSince : Id → Option Nat
  grace : Nat

variable {Id : Type} [DecidableEq Id]

section
variable (view : View Id) (osdNodes : List (OsdNode Id)) (pg : PlacementGroup Id)

/-- Whether `id` can be an acting member: registered, in, with an address, and not down past the
grace. -/
def actingUsable (downSince : Id → Option Nat) (grace : Nat)
    (id : Id) : Bool :=
  osdNodes.any (fun n => n.nodeId = id ∧ n.adminState = .in_ ∧ n.address ≠ "") &&
    (downSince id).all (fun elapsed => elapsed < grace)

def View.gone (id : Id) : Bool :=
  !actingUsable view.osdNodes (fun _ => none) 0 id

def View.usable (id : Id) : Bool :=
  actingUsable view.osdNodes view.downSince view.grace id

def usableAddress (id : Id) : Option String :=
  ((osdNodes.find? (fun n => n.nodeId = id ∧ n.adminState = .in_)).map OsdNode.address).filter
    (fun a => a ≠ "")

def setFilling (filling : List (PgFill Id)) (position : Nat) (from_ : Id) (epoch : Nat) : List (PgFill Id) :=
  filling.filter (fun f => f.position ≠ position) ++
    [{ position := position, from_ := from_, epoch := epoch }]

def addsSharedMember (old new : List Id) : Bool :=
  new.any fun id => new.count id > 1 ∧ new.count id > old.count id

def commitPgs (old new : PlacementGroup Id) : Option (PlacementGroup Id) :=
  if addsSharedMember old.acting new.acting then none else some new

/-- `up` with each member that is gone, where acting has another, replaced by the acting one. -/
def repairUp (view : View Id) : List Id → List Id → List Id
  | u :: up, a :: acting => (if u ≠ a ∧ view.gone u then a else u) :: repairUp view up acting
  | up, _ => up

def withoutGoneUp : Option (PlacementGroup Id) :=
  if pg.up.length ≠ pg.acting.length then none
  else if (pg.up.zip pg.acting).any (fun ua => ua.1 ≠ ua.2 ∧ view.gone ua.1) then
    some { pg with up := repairUp view pg.up pg.acting }
  else none

def firstMembers (up : List Id) : List Id → List Nat → List Nat
  | _, [] => []
  | chosen, p :: ps =>
    match up[p]? with
    | none => firstMembers up chosen ps
    | some u => if u ∈ chosen then firstMembers up chosen ps else p :: firstMembers up (u :: chosen) ps

/-- The positions whose up member is usable and not the acting one, onto members that hold no
position and that this move gives no other. -/
def remapPositions : List Nat :=
  if pg.up.length ≠ pg.acting.length then []
  else
    firstMembers pg.up [] ((range pg.up.length).filter fun p =>
      pg.up[p]? ≠ pg.acting[p]? ∧ (pg.up[p]?.bind (usableAddress osdNodes)).isSome ∧
        pg.up[p]?.all (fun u => u ∉ pg.acting))

def remapAt (up : List Id) (new : PlacementGroup Id) (p : Nat) : PlacementGroup Id :=
  match new.acting[p]?, up[p]? with
  | some from_, some u =>
    { new with acting := new.acting.set p u, filling := setFilling new.filling p from_ new.epoch }
  | _, _ => new

def commitRemap (positions : List Nat) : PlacementGroup Id :=
  positions.foldl (remapAt pg.up) { pg with epoch := pg.epoch + 1 }

end

section
variable [ToString Id]

/-- The topology, the pool's rule, and the hash that ranks the candidates for a position (`xxh64`). -/
structure Site (Id : Type) where
  topology : ClusterTopology Id
  rule : PlacementRule
  rank : String → Nat → Nat → Id → Nat

structure StandIns (Id : Type) where
  acting : List Id
  up : List Id
  filling : List (PgFill Id)
  any : Bool

section
variable (site : Site Id) (view : View Id) (pg : PlacementGroup Id) (s : StandIns Id) (position : Nat)

def StandIns.taken (id : Id) : Bool :=
  s.acting.any (fun a => a = id) || s.up.zipIdx.any (fun u => u.2 ≠ position ∧ u.1 = id)

def candidates : List (NodeInfo Id) :=
  let others := (seats site.topology site.rule s.acting).filter (fun t => t.position ≠ position)
  site.topology.activeNodes.filter fun n =>
    !s.taken position n.id && view.usable n.id &&
      site.rule.admits position (domainName n site.rule.level) (unitName n site.rule) others

/-- The one that stands in: in a domain not shared with the other members if there is one, then by
rank. -/
def spare : Option (NodeInfo Id) :=
  let others := (seats site.topology site.rule s.acting).filter (fun t => t.position ≠ position)
  (candidates site view s position).argmin fun n =>
    toLex (others.any (fun t => t.domain = domainName n site.rule.level),
      site.rank pg.pool pg.pgId position n.id)

def standInAt : StandIns Id :=
  match s.acting[position]? with
  | none => s
  | some member =>
    if view.usable member then s
    else
      match spare site view pg s position with
      | none => s
      | some n =>
        { acting := s.acting.set position n.id
          up := if view.gone member ∧ s.up[position]? = some member then s.up.set position n.id
            else s.up
          filling := setFilling s.filling position member (pg.epoch + 1)
          any := true }

def standIn : Option (PlacementGroup Id) :=
  let s := (range pg.acting.length).foldl (standInAt site view pg)
    { acting := pg.acting, up := pg.up, filling := pg.filling, any := false }
  if s.any then
    some { pg with acting := s.acting, up := s.up, epoch := pg.epoch + 1, filling := s.filling }
  else none

end

inductive Change (Id : Type) where
  | plan (up : List Id)
  | standIn (view : View Id)
  | repair (view : View Id)
  | remap (view : View Id)

def proposed (site : Site Id) (pg : PlacementGroup Id) : Change Id → Option (PlacementGroup Id)
  | .plan up => some { pg with up }
  | .standIn view => standIn site view pg
  | .repair view => withoutGoneUp view pg
  | .remap view =>
    match remapPositions view.osdNodes pg with
    | [] => none
    | positions => some (commitRemap pg positions)

def step (site : Site Id) (pg : PlacementGroup Id) (change : Change Id) : Option (PlacementGroup Id) :=
  some (((proposed site pg change).bind (commitPgs pg)).getD pg)

end

theorem addsSharedMember_of_nodup (old : List Id) {new : List Id} (h : new.Nodup) :
    addsSharedMember old new = false := by
  rw [addsSharedMember, any_eq_false]
  intro id _
  have hcount := nodup_iff_count_le_one.1 h id
  simp only [decide_eq_true_eq, not_and]
  omega

/-! ## Remaps -/

theorem firstMembers_sublist (up : List Id) : ∀ (chosen : List Id) (ps : List Nat),
    (firstMembers up chosen ps).Sublist ps
  | _, [] => .slnil
  | chosen, p :: ps => by
    rw [firstMembers]
    split
    · exact (firstMembers_sublist up chosen ps).cons p
    · split
      · exact (firstMembers_sublist up chosen ps).cons p
      · exact (firstMembers_sublist up _ ps).cons_cons p

variable {up : List Id} {osdNodes : List (OsdNode Id)} {p : Nat} {change : Change Id}

theorem firstMembers_fresh : ∀ {chosen : List Id} {ps : List Nat} {p : Nat} {u : Id},
    p ∈ firstMembers up chosen ps → up[p]? = some u → u ∉ chosen
  | chosen, q :: ps, p, u, hp, hu => by
    rw [firstMembers] at hp
    split at hp
    · exact firstMembers_fresh hp hu
    rename_i v hv
    split at hp
    · exact firstMembers_fresh hp hu
    rename_i hnew
    rcases mem_cons.1 hp with rfl | hp'
    · rw [hv] at hu
      cases hu
      exact hnew
    · exact fun h0 => firstMembers_fresh hp' hu (mem_cons_of_mem _ h0)

theorem firstMembers_inj : ∀ {chosen : List Id} {ps : List Nat} {p q : Nat} {u : Id},
    p ∈ firstMembers up chosen ps → q ∈ firstMembers up chosen ps → up[p]? = some u → up[q]? = some u → p = q
  | chosen, r :: ps, p, q, u, hp, hq, hpu, hqu => by
    rw [firstMembers] at hp hq
    split at hp
    · exact firstMembers_inj hp (by simpa [*] using hq) hpu hqu
    rename_i v hv
    rw [hv] at hq
    dsimp only at hq
    split at hp
    · rename_i hold
      rw [if_pos hold] at hq
      exact firstMembers_inj hp hq hpu hqu
    rename_i hnew
    rw [if_neg hnew] at hq
    rcases mem_cons.1 hp with rfl | hp' <;> rcases mem_cons.1 hq with rfl | hq'
    · rfl
    · rw [hv] at hpu
      cases hpu
      exact absurd mem_cons_self (firstMembers_fresh hq' hqu)
    · rw [hv] at hqu
      cases hqu
      exact absurd mem_cons_self (firstMembers_fresh hp' hpu)
    · exact firstMembers_inj hp' hq' hpu hqu

theorem mem_firstMembers : ∀ {chosen : List Id} {ps : List Nat} {p : Nat} {u : Id},
    p ∈ ps → up[p]? = some u → u ∉ chosen → (∀ q ∈ ps, up[q]? = some u → q = p) →
      p ∈ firstMembers up chosen ps
  | chosen, q :: ps, p, u, hp, hu, hnew, honly => by
    have hrest : ∀ r ∈ ps, up[r]? = some u → r = p := fun r hr => honly r (mem_cons_of_mem _ hr)
    rw [firstMembers]
    split
    · rename_i hnone
      rcases mem_cons.1 hp with rfl | hp
      · rw [hu] at hnone
        cases hnone
      · exact mem_firstMembers hp hu hnew hrest
    rename_i v hv
    rcases mem_cons.1 hp with rfl | hp
    · rw [hu] at hv
      cases hv
      rw [if_neg hnew]
      exact mem_cons_self
    · split
      · exact mem_firstMembers hp hu hnew hrest
      · by_cases hqp : q = p
        · exact hqp ▸ mem_cons_self
        · refine mem_cons_of_mem _ (mem_firstMembers hp hu ?_ hrest)
          rintro (h0 | h0)
          · exact hqp (honly q mem_cons_self (by rw [hv]))
          · exact hnew ‹_›

structure Movable (osdNodes : List (OsdNode Id)) (pg : PlacementGroup Id) (p : Nat) (u : Id) :
    Prop where
  up : pg.up[p]? = some u
  lt : p < pg.acting.length
  usable : (usableAddress osdNodes u).isSome
  free : u ∉ pg.acting

variable {pg : PlacementGroup Id}

theorem movable_of_mem_remapPositions
    (h : p ∈ remapPositions osdNodes pg) : ∃ u, Movable osdNodes pg p u := by
  rw [remapPositions] at h
  split at h
  · cases h
  rename_i hlen
  have hmem := mem_filter.1 ((firstMembers_sublist _ _ _).subset h)
  have hlt := mem_range.1 hmem.1
  have hu := getElem?_eq_getElem hlt
  have hcond := hmem.2
  rw [hu] at hcond
  simp only [Option.bind_some, Option.all_some, decide_eq_true_eq] at hcond
  exact ⟨_, hu, not_not.1 hlen ▸ hlt, hcond.2.1, hcond.2.2⟩

theorem remapPositions_inj {q : Nat}
    {u : Id} (hp : p ∈ remapPositions osdNodes pg) (hq : q ∈ remapPositions osdNodes pg)
    (hpu : pg.up[p]? = some u) (hqu : pg.up[q]? = some u) : p = q := by
  rw [remapPositions] at hp hq
  split at hp
  · cases hp
  rename_i hlen
  rw [if_neg hlen] at hq
  exact firstMembers_inj hp hq hpu hqu

theorem mem_remapPositions {u : Id} (hlen : pg.up.length = pg.acting.length) (hm : Movable osdNodes pg p u)
    (honly : ∀ q, pg.up[q]? = some u → q = p) : p ∈ remapPositions osdNodes pg := by
  rw [remapPositions, if_neg (not_not.2 hlen)]
  refine mem_firstMembers (mem_filter.2 ⟨?_, ?_⟩) hm.up not_mem_nil fun q _ => honly q
  · exact mem_range.2 (hlen ▸ hm.lt)
  · have hne : some u ≠ pg.acting[p]? := fun h0 => hm.free (mem_of_getElem? h0.symm)
    simp [hm.up, hne, hm.usable, hm.free]

theorem up_length_of_mem_remapPositions
    (h : p ∈ remapPositions osdNodes pg) : pg.up.length = pg.acting.length := by
  rw [remapPositions] at h
  split at h
  · cases h
  · exact not_not.1 ‹_›

section
omit [DecidableEq Id]

theorem foldl_remapAt (up : List Id) : ∀ (positions : List Nat) (pg : PlacementGroup Id),
    up.length = pg.acting.length → (positions.foldl (remapAt up) pg).epoch = pg.epoch ∧
        (positions.foldl (remapAt up) pg).up = pg.up ∧
        (positions.foldl (remapAt up) pg).acting.length = pg.acting.length ∧
        ∀ p, (positions.foldl (remapAt up) pg).acting[p]? = if p ∈ positions then up[p]? else pg.acting[p]?
  | [], pg, _ => ⟨rfl, rfl, rfl, fun p => by simp⟩
  | q :: positions, pg, hlen => by
    have hat : (remapAt up pg q).epoch = pg.epoch ∧ (remapAt up pg q).up = pg.up ∧
        (remapAt up pg q).acting.length = pg.acting.length ∧
        ∀ p, (remapAt up pg q).acting[p]? = if p = q then up[p]? else pg.acting[p]? := by
      rw [remapAt]
      split
      · rename_i from_ u hfrom hu
        refine ⟨rfl, rfl, length_set, fun p => ?_⟩
        obtain ⟨hlt, -⟩ := List.getElem?_eq_some_iff.1 hfrom
        by_cases hp : p = q
        · subst hp
          rw [if_pos rfl, hu, getElem?_set_self hlt]
        · rw [if_neg hp, getElem?_set_ne (fun h0 => hp h0.symm)]
      · rename_i hnone
        refine ⟨rfl, rfl, rfl, fun p => ?_⟩
        by_cases hp : p = q
        · -- Out of both ranges: there is nothing to move.
          subst hp
          rw [if_pos rfl]
          rcases Nat.lt_or_ge p pg.acting.length with hlt | hge
          · exact (hnone _ _ (getElem?_eq_getElem hlt) (getElem?_eq_getElem (hlen ▸ hlt))).elim
          · rw [getElem?_eq_none hge, getElem?_eq_none (hlen ▸ hge)]
        · rw [if_neg hp]
    obtain ⟨hepoch, hup, hlength, hget⟩ :=
      foldl_remapAt up positions (remapAt up pg q) (hlen.trans hat.2.2.1.symm)
    refine ⟨hepoch.trans hat.1, hup.trans hat.2.1, hlength.trans hat.2.2.1, fun p => ?_⟩
    rw [foldl_cons, hget p, hat.2.2.2 p]
    by_cases hp : p ∈ positions
    · simp [hp]
    · by_cases hpq : p = q <;> simp [hp, hpq]

section
variable (hlen : pg.up.length = pg.acting.length)
include hlen

section
variable (positions : List Nat)
include positions

theorem commitRemap_acting (p : Nat) : (commitRemap pg positions).acting[p]? =
      if p ∈ positions then pg.up[p]? else pg.acting[p]? :=
  (foldl_remapAt pg.up positions { pg with epoch := pg.epoch + 1 } hlen).2.2.2 p

theorem commitRemap_epoch : (commitRemap pg positions).epoch = pg.epoch + 1 :=
  (foldl_remapAt pg.up positions { pg with epoch := pg.epoch + 1 } hlen).1

theorem commitRemap_up : (commitRemap pg positions).up = pg.up :=
  (foldl_remapAt pg.up positions { pg with epoch := pg.epoch + 1 } hlen).2.1

theorem commitRemap_length : (commitRemap pg positions).acting.length = pg.acting.length :=
  (foldl_remapAt pg.up positions { pg with epoch := pg.epoch + 1 } hlen).2.2.1

end

end

end

theorem commitRemap_nodup (hlen : pg.up.length = pg.acting.length) (h : pg.acting.Nodup) :
    (commitRemap pg (remapPositions osdNodes pg)).acting.Nodup := by
  rw [nodup_iff_getElem?_ne_getElem?]
  intro i j hij hj heq
  rw [commitRemap_length hlen] at hj
  rw [commitRemap_acting hlen, commitRemap_acting hlen] at heq
  have hai := getElem?_eq_getElem (hij.trans hj)
  have haj := getElem?_eq_getElem hj
  split_ifs at heq with hi hj' hj'
  · obtain ⟨u, hu⟩ := movable_of_mem_remapPositions hi
    exact hij.ne (remapPositions_inj hi hj' hu.up (heq ▸ hu.up))
  · obtain ⟨u, hu⟩ := movable_of_mem_remapPositions hi
    exact hu.free (mem_of_getElem? (heq ▸ hu.up))
  · obtain ⟨u, hu⟩ := movable_of_mem_remapPositions hj'
    exact hu.free (mem_of_getElem? (heq.trans hu.up))
  · exact nodup_iff_getElem?_ne_getElem?.1 h i j hij hj heq

section
variable [ToString Id] {site : Site Id} {view : View Id} {pg new : PlacementGroup Id}

theorem mem_candidates {s : StandIns Id} {position : Nat} {n : NodeInfo Id}
    (h : n ∈ candidates site view s position) : n ∈ site.topology.activeNodes ∧ n.id ∉ s.acting ∧
      site.rule.admits position (domainName n site.rule.level) (unitName n site.rule)
        ((seats site.topology site.rule s.acting).filter (fun t => t.position ≠ position)) = true := by
  obtain ⟨hactive, hcond⟩ := mem_filter.1 h
  simp only [Bool.and_eq_true, Bool.not_eq_true', StandIns.taken, Bool.or_eq_false_iff] at hcond
  obtain ⟨⟨⟨hacting, -⟩, -⟩, hadmits⟩ := hcond
  refine ⟨hactive, fun hmem => ?_, hadmits⟩
  simpa using any_eq_false.1 hacting n.id hmem

/-- Stand-ins replace members by active OSDs that are not members and that the rule admits. -/
theorem standIn_induction {P : List Id → Prop} (h₀ : P pg.acting)
    (hset : ∀ (acting : List Id) (position : Nat) (n : NodeInfo Id), P acting →
      position < acting.length → n ∈ site.topology.activeNodes → n.id ∉ acting →
      site.rule.admits position (domainName n site.rule.level) (unitName n site.rule)
        ((seats site.topology site.rule acting).filter (fun t => t.position ≠ position)) = true →
      P (acting.set position n.id))
    (h : standIn site view pg = some new) : P new.acting ∧ new.epoch = pg.epoch + 1 := by
  have hat : ∀ (s : StandIns Id) (position : Nat), P s.acting →
      P (standInAt site view pg s position).acting := by
    intro s position hs
    rw [standInAt]
    split
    · exact hs
    rename_i member hmember
    split
    · exact hs
    split
    · exact hs
    rename_i n hn
    obtain ⟨hactive, hfree, hadmits⟩ := mem_candidates (argmin_mem hn)
    exact hset s.acting position n hs (List.getElem?_eq_some_iff.1 hmember).1 hactive hfree hadmits
  have hfold : ∀ (positions : List Nat) (s : StandIns Id), P s.acting →
      P (positions.foldl (standInAt site view pg) s).acting := by
    intro positions
    induction positions with
    | nil => exact fun s hs => hs
    | cons position positions ih => exact fun s hs => ih _ (hat s position hs)
  rw [standIn] at h
  split at h
  · cases h
    exact ⟨hfold _ _ h₀, rfl⟩
  · cases h

/-- What any change can make of an acting set. -/
theorem proposed_cases (h : proposed site pg change = some new) :
    new.acting = pg.acting ∨ (∃ view, standIn site view pg = some new) ∨
      ∃ view, change = .remap view ∧ pg.up.length = pg.acting.length ∧
        new = commitRemap pg (remapPositions view.osdNodes pg) := by
  cases change with
  | plan up =>
    cases h
    exact .inl rfl
  | standIn view => exact .inr (.inl ⟨view, h⟩)
  | repair view =>
    rw [proposed, withoutGoneUp] at h
    split_ifs at h
    cases h
    exact .inl rfl
  | remap view =>
    rw [proposed] at h
    split at h
    · cases h
    · rename_i positions hne
      cases h
      refine .inr (.inr ⟨view, rfl, ?_, rfl⟩)
      cases hc : remapPositions view.osdNodes pg with
      | nil => exact absurd hc hne
      | cons p ps =>
        have hmem : p ∈ remapPositions view.osdNodes pg := hc ▸ mem_cons_self
        exact up_length_of_mem_remapPositions hmem

theorem step_cases (h : step site pg change = some new) : new = pg ∨ proposed site pg change = some new := by
  rw [step, Option.some.injEq] at h
  cases hp : proposed site pg change with
  | none => exact .inl (by rw [← h, hp]; rfl)
  | some next =>
    rw [hp, Option.bind_some, commitPgs] at h
    split at h
    · exact .inl h.symm
    · exact .inr (congrArg some h)

end

structure Refills (acting : List Id) (filling : List (PgFill Id)) (acting' : List Id)
    (filling' : List (PgFill Id)) : Prop where
  length : acting'.length = acting.length
  kept : ∀ p, (∀ f ∈ filling', f.position ≠ p) → (∀ f ∈ filling, f.position ≠ p) ∧ acting'[p]? = acting[p]?

section
omit [DecidableEq Id]

theorem Refills.refl (acting : List Id) (filling : List (PgFill Id)) :
    Refills acting filling acting filling := ⟨rfl, fun _ h => ⟨h, rfl⟩⟩

theorem Refills.trans {a b c : List Id} {fa fb fc : List (PgFill Id)} (h : Refills a fa b fb)
    (h' : Refills b fb c fc) : Refills a fa c fc := by
  refine ⟨h'.length.trans h.length, fun p hp => ?_⟩
  obtain ⟨hb, hc⟩ := h'.kept p hp
  obtain ⟨ha, hb⟩ := h.kept p hb
  exact ⟨ha, hc.trans hb⟩

theorem Refills.set (acting : List Id) (filling : List (PgFill Id)) (position : Nat)
    (id from_ : Id) (epoch : Nat) :
    Refills acting filling (acting.set position id) (setFilling filling position from_ epoch) := by
  refine ⟨length_set, fun p hp => ?_⟩
  have hne : position ≠ p := hp ⟨position, from_, epoch⟩ (mem_append_right _ mem_cons_self)
  refine ⟨fun f hf hfp => ?_, getElem?_set_ne hne⟩
  refine hp f (mem_append_left _ (mem_filter.2 ⟨hf, ?_⟩)) hfp
  exact decide_eq_true fun h0 => hne (h0.symm.trans hfp)

theorem foldl_remapAt_refills (up : List Id) (positions : List Nat) : ∀ pg : PlacementGroup Id,
    Refills pg.acting pg.filling (positions.foldl (remapAt up) pg).acting
      (positions.foldl (remapAt up) pg).filling := by
  induction positions with
  | nil => exact fun pg => .refl _ _
  | cons p positions ih =>
    intro pg
    refine Refills.trans ?_ (ih (remapAt up pg p))
    rw [remapAt]
    split
    · exact .set _ _ _ _ _ _
    · exact .refl _ _

end

section
variable [ToString Id] {site : Site Id} {view : View Id} {pg new : PlacementGroup Id}

theorem standIn_refills (h : standIn site view pg = some new) :
    Refills pg.acting pg.filling new.acting new.filling := by
  have hat : ∀ (s : StandIns Id) (position : Nat), Refills s.acting s.filling
      (standInAt site view pg s position).acting (standInAt site view pg s position).filling := by
    intro s position
    rw [standInAt]
    split
    · exact .refl _ _
    split
    · exact .refl _ _
    split
    · exact .refl _ _
    · exact .set _ _ _ _ _ _
  have hfold : ∀ (positions : List Nat) (s : StandIns Id), Refills s.acting s.filling
      (positions.foldl (standInAt site view pg) s).acting
      (positions.foldl (standInAt site view pg) s).filling := by
    intro positions
    induction positions with
    | nil => exact fun s => .refl _ _
    | cons position positions ih => exact fun s => (hat s position).trans (ih _)
  rw [standIn] at h
  split at h
  · cases h
    exact hfold (range pg.acting.length) ⟨pg.acting, pg.up, pg.filling, false⟩
  · cases h

/-- Every position a change replaces is recorded filling. -/
theorem step_refills (h : step site pg change = some new) :
    Refills pg.acting pg.filling new.acting new.filling ∧
      (new.acting = pg.acting ∧ new.filling = pg.filling ∧ new.epoch = pg.epoch ∨ pg.epoch < new.epoch) := by
  rcases step_cases h with rfl | hnew
  · exact ⟨.refl _ _, .inl ⟨rfl, rfl, rfl⟩⟩
  cases change with
  | plan up =>
    cases hnew
    exact ⟨.refl _ _, .inl ⟨rfl, rfl, rfl⟩⟩
  | standIn view =>
    have hepoch := (standIn_induction (P := fun _ => True) trivial (fun _ _ _ _ _ _ _ _ => trivial) hnew).2
    exact ⟨standIn_refills hnew, .inr (by omega)⟩
  | repair view =>
    rw [proposed, withoutGoneUp] at hnew
    split_ifs at hnew
    cases hnew
    exact ⟨.refl _ _, .inl ⟨rfl, rfl, rfl⟩⟩
  | remap view =>
    rw [proposed] at hnew
    split at hnew
    · cases hnew
    · rename_i positions hne
      cases hnew
      cases hc : remapPositions view.osdNodes pg with
      | nil => exact absurd hc hne
      | cons p ps =>
        have hlen := up_length_of_mem_remapPositions (hc ▸ mem_cons_self)
        refine ⟨foldl_remapAt_refills pg.up (p :: ps) { pg with epoch := pg.epoch + 1 }, .inr ?_⟩
        rw [commitRemap_epoch hlen]
        omega

end

end IoLake.Meta
