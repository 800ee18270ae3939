import IoLake.Erasure.Codec

/-!
# What a stripe can lose

Which losses of shards `ErasureCodec::decode` survives.  A stripe is what a profile encodes; `lose` takes
shards out of it, and the backends' rebuilding is followed on what is left.

* `mds_decodes`: any `k` shards of a maximum distance separable stripe decode.
* `lrc_decodes_iff`: a layered stripe decodes exactly where the data shards that no local group rebuilds are
  no more than the global parity shards left (`recoverable`).
* `lrc_decodes_every_loss_iff`: local parity adds nothing to the number of shards that may be lost anywhere.
-/

namespace IoLake.Erasure

open XorParity List LrcConfig

/-! ## Losing shards -/

/-- A stripe without the shards at the positions lost. -/
def lose (lost : Nat → Bool) (stripe : List Shard) : List (Option Shard) :=
  stripe.zipIdx.map fun s => if lost s.2 then none else some s.1

variable {i j k : Nat}

section
variable {lost : Nat → Bool} {stripe : List Shard}

@[simp] theorem length_lose : (lose lost stripe).length = stripe.length := by
  simp [lose]

theorem getElem?_lose (i : Nat) :
    (lose lost stripe)[i]? = stripe[i]?.map fun s => if lost i then none else some s := by
  rw [lose, getElem?_map, getElem?_zipIdx, Option.map_map]
  simp [Function.comp_def]

theorem lose_eq_none_iff (hi : i < stripe.length) : (lose lost stripe)[i]? = some none ↔ lost i = true := by
  rw [getElem?_lose, getElem?_eq_getElem hi]
  cases lost i <;> simp

theorem join_lose (i : Nat) : (lose lost stripe)[i]?.join = if lost i then none else stripe[i]? := by
  rw [getElem?_lose]
  cases stripe[i]? <;> cases lost i <;> rfl

theorem holds_lose : Holds (lose lost stripe) stripe := by
  refine ⟨length_lose, fun i s h => ?_⟩
  have hjoin := congrArg Option.join h
  rw [join_lose] at hjoin
  cases hl : lost i
  · simpa [hl] using hjoin
  · simp [hl] at hjoin

theorem present_lose : present (lose lost stripe) = (range stripe.length).countP (fun i => !lost i) := by
  have hrange : range stripe.length = stripe.zipIdx.map Prod.snd := by
    rw [zipIdx_map_snd, range_eq_range']
  rw [present, lose, hrange, countP_map, countP_map]
  refine countP_congr fun s _ => ?_
  cases h : lost s.2 <;> simp [h]

theorem lose_append (a b : List Shard) :
    lose lost (a ++ b) = lose lost a ++ lose (fun i => lost (a.length + i)) b := by
  refine ext_getElem? fun i => ?_
  rcases Nat.lt_or_ge i a.length with h | h
  · rw [getElem?_append_left (by simpa using h), getElem?_lose, getElem?_lose, getElem?_append_left h]
  · rw [getElem?_append_right (by simpa using h), getElem?_lose, getElem?_lose,
      getElem?_append_right h, length_lose, Nat.add_sub_of_le h]

theorem lose_congr {lost' : Nat → Bool} (h : ∀ i < stripe.length, lost i = lost' i) :
    lose lost stripe = lose lost' stripe := by
  refine ext_getElem? fun i => ?_
  rw [getElem?_lose, getElem?_lose]
  rcases Nat.lt_or_ge i stripe.length with hi | hi
  · rw [h i hi]
  · rw [getElem?_eq_none hi]
    rfl

theorem set_lose {s : Shard} (hi : stripe[i]? = some s) :
    (lose lost stripe).set i (some s) = lose (fun j => lost j && j ≠ i) stripe := by
  obtain ⟨hlt, -⟩ := List.getElem?_eq_some_iff.1 hi
  refine ext_getElem? fun j => ?_
  by_cases hij : i = j
  · subst hij
    rw [getElem?_set_self (by simpa using hlt), getElem?_lose, hi]
    simp
  · have hji : decide (j ≠ i) = true := by simpa using fun h0 => hij h0.symm
    rw [getElem?_set_ne hij, getElem?_lose, getElem?_lose, hji, Bool.and_true]

theorem foldl_set_lose : ∀ (ps : List Nat) (lost : Nat → Bool), (∀ p ∈ ps, p < stripe.length) →
    (ps.zip (ps.filterMap (stripe[·]?))).foldl (fun refs r => refs.set r.1 (some r.2))
      (lose lost stripe) = lose (fun j => lost j && j ∉ ps) stripe
  | [], lost, _ => by simp
  | p :: ps, lost, h => by
    have hp := getElem?_eq_getElem (h p mem_cons_self)
    rw [filterMap_cons_some hp, zip_cons_cons, foldl_cons, set_lose hp,
      foldl_set_lose ps _ fun q hq => h q (mem_cons_of_mem _ hq)]
    refine lose_congr fun j _ => ?_
    by_cases hj : j = p <;> simp [hj]

theorem countP_left_add_lost (lost : Nat → Bool) (n : Nat) :
    (range n).countP (fun i => !lost i) + ((range n).filter lost).length = n := by
  have hall : (range n).length = _ := length_eq_countP_add_countP lost
  have hnot : (range n).countP (fun i => !lost i) = (range n).countP (fun i => decide ¬ lost i = true) :=
    countP_congr fun i _ => by simp
  rw [length_range, countP_eq_length_filter, ← hnot] at hall
  omega

theorem lose_none (h : ∀ i < k, lost i = false) :
    ((lose lost stripe).take k).filterMap id = stripe.take k := by
  have heq : (lose lost stripe).take k = (stripe.take k).map some := by
    refine ext_getElem? fun i => ?_
    rw [getElem?_map]
    rcases Nat.lt_or_ge i k with hi | hi
    · rw [getElem?_take_of_lt hi, getElem?_take_of_lt hi, getElem?_lose, h i hi]
      rfl
    · rw [getElem?_take_eq_none hi, getElem?_take_eq_none hi]
      rfl
  rw [heq, filterMap_map]
  simp

end

/-! ## The shards of data -/

namespace ErasureCodec

theorem length_splitShards (size : Nat) : ∀ (k : Nat) (padded : List UInt8),
    (splitShards size k padded).length = k
  | 0, _ => rfl
  | k + 1, padded => by rw [splitShards, length_cons, length_splitShards size k]

theorem size_splitShards {size : Nat} : ∀ {k : Nat} {padded : List UInt8},
    padded.length = size * k → ∀ s ∈ splitShards size k padded, s.length = size
  | 0, _, _, s, hs => by cases hs
  | k + 1, padded, hlen, s, hs => by
    rw [Nat.mul_succ] at hlen
    rcases mem_cons.1 hs with rfl | hs
    · rw [length_take]
      omega
    · refine size_splitShards ?_ s hs
      rw [length_drop]
      omega

theorem flatten_splitShards {size : Nat} : ∀ {k : Nat} {padded : List UInt8},
    padded.length = size * k → (splitShards size k padded).flatten = padded
  | 0, padded, hlen => by
    rw [Nat.mul_zero, length_eq_zero_iff] at hlen
    rw [hlen]
    rfl
  | k + 1, padded, hlen => by
    rw [Nat.mul_succ] at hlen
    rw [splitShards, flatten_cons, flatten_splitShards (by rw [length_drop]; omega), take_append_drop]

theorem shardSize_shardSizeFor (len k : Nat) : ShardSize (shardSizeFor len k) := by
  rw [ShardSize, shardSizeFor]
  omega

theorem length_le_shardSizeFor (hk : 0 < k) (len : Nat) : len ≤ shardSizeFor len k * k := by
  have hceil : len ≤ (len + k - 1) / k * k := by
    have h₁ := Nat.div_add_mod (len + k - 1) k
    have h₂ := Nat.mod_lt (len + k - 1) hk
    rw [Nat.mul_comm] at h₁
    omega
  have hround : (len + k - 1) / k ≤ shardSizeFor len k := by
    rw [shardSizeFor]
    omega
  exact hceil.trans (Nat.mul_le_mul_right k hround)

variable (codec : ErasureCodec) (data : List UInt8)

theorem length_dataShardsOf : (codec.dataShardsOf data).length = codec.dataShards :=
  length_splitShards _ _ _

section
variable (hk : 0 < codec.dataShards)
include hk

theorem length_padded : (data ++ replicate
    (shardSizeFor data.length codec.dataShards * codec.dataShards - data.length) 0).length =
      shardSizeFor data.length codec.dataShards * codec.dataShards := by
  have := length_le_shardSizeFor hk data.length
  rw [length_append, length_replicate]
  omega

theorem size_dataShardsOf :
    ∀ s ∈ codec.dataShardsOf data, s.length = shardSizeFor data.length codec.dataShards :=
  size_splitShards (codec.length_padded data hk)

theorem joinData_dataShardsOf : joinData (codec.dataShardsOf data) data.length = data := by
  rw [joinData, dataShardsOf, flatten_splitShards (codec.length_padded data hk), take_left]

end

end ErasureCodec

/-! ## Local groups -/

theorem filterMap_range_take {α : Type} (l : List α) : ∀ n : Nat, (range n).filterMap (l[·]?) = l.take n
  | 0 => rfl
  | n + 1 => by
    rw [range_succ, filterMap_append, filterMap_range_take l n, take_add_one]
    cases h : l[n]? <;> simp [h]

theorem exists_filter_ne {l : List Nat} (h : l.Nodup) (hi : i ∈ l) :
    ∃ l₁ l₂, l = l₁ ++ i :: l₂ ∧ l.filter (fun j => j ≠ i) = l₁ ++ l₂ := by
  obtain ⟨l₁, l₂, rfl⟩ := append_of_mem hi
  refine ⟨l₁, l₂, rfl, ?_⟩
  obtain ⟨-, h₂, hdisj⟩ := nodup_append'.1 h
  have hne₁ : ∀ j ∈ l₁, decide (j ≠ i) = true := fun j hj => by
    simpa using fun h0 : j = i => hdisj (h0 ▸ hj) mem_cons_self
  have hne₂ : ∀ j ∈ l₂, decide (j ≠ i) = true := fun j hj => by
    simpa using fun h0 : j = i => (nodup_cons.1 h₂).1 (h0 ▸ hj)
  rw [filter_append, filter_cons_of_neg (by simp), filter_eq_self.2 hne₁, filter_eq_self.2 hne₂]

variable {lost : Nat → Bool}

namespace LrcConfig

/-- What the constructor of the layered backend checks. -/
structure Valid (c : LrcConfig) : Prop where
  dataShards_pos : 0 < c.dataShards
  localParityShards_pos : 0 < c.localParityShards
  groups : c.dataShards % c.localParityShards = 0

variable {c : LrcConfig}

theorem Valid.dataShards_eq (h : c.Valid) : c.dataShards = c.localGroupSize * c.localParityShards := by
  have := Nat.div_add_mod c.dataShards c.localParityShards
  rw [h.groups, Nat.add_zero, Nat.mul_comm] at this
  exact this.symm

theorem Valid.localGroupSize_pos (h : c.Valid) : 0 < c.localGroupSize := by
  refine Nat.pos_of_ne_zero fun h0 => ?_
  have := h.dataShards_eq
  rw [h0, Nat.zero_mul] at this
  exact h.dataShards_pos.ne' this

def groupOf (c : LrcConfig) (i : Nat) : Nat := i / c.localGroupSize

def groupIndices (c : LrcConfig) (g : Nat) : List Nat :=
  (range c.localGroupSize).map (g * c.localGroupSize + ·)

theorem localGroup_data (hi : i < c.dataShards) :
    c.localGroup i = some { dataShardIndices := c.groupIndices (c.groupOf i),
                            localParityIndex := c.dataShards + c.groupOf i } := by
  rw [localGroup, if_neg (by omega), if_pos hi]
  rfl

theorem mem_groupIndices (h : c.Valid) {g : Nat} : j ∈ c.groupIndices g ↔ c.groupOf j = g := by
  have hs := h.localGroupSize_pos
  rw [groupIndices, mem_map, groupOf]
  constructor
  · rintro ⟨r, hr, rfl⟩
    rw [Nat.mul_comm, Nat.mul_add_div hs, Nat.div_eq_of_lt (mem_range.1 hr), Nat.add_zero]
  · rintro rfl
    refine ⟨j % c.localGroupSize, mem_range.2 (Nat.mod_lt _ hs), ?_⟩
    rw [Nat.mul_comm, Nat.div_add_mod]

theorem groupOf_lt (h : c.Valid) (hi : i < c.dataShards) : c.groupOf i < c.localParityShards := by
  rw [groupOf, Nat.div_lt_iff_lt_mul h.localGroupSize_pos, Nat.mul_comm]
  exact h.dataShards_eq ▸ hi

theorem lt_of_groupOf (h : c.Valid) (hi : c.groupOf i < c.localParityShards) : i < c.dataShards := by
  rw [groupOf, Nat.div_lt_iff_lt_mul h.localGroupSize_pos, Nat.mul_comm] at hi
  exact h.dataShards_eq ▸ hi

theorem groupIndices_nodup (g : Nat) : (c.groupIndices g).Nodup :=
  nodup_range.map fun _ _ h => Nat.add_left_cancel h

theorem filterMap_groupIndices (data : List Shard) (g : Nat) :
    (c.groupIndices g).filterMap (data[·]?) = c.groupData data g := by
  rw [groupIndices, filterMap_map, groupData, ← filterMap_range_take]
  refine filterMap_congr fun r _ => ?_
  rw [getElem?_drop]
  rfl

/-- Every other shard of its group, and the parity, is left. -/
def rebuildable (c : LrcConfig) (lost : Nat → Bool) (i : Nat) : Bool :=
  (c.groupIndices (c.groupOf i)).all (fun j => j = i || !lost j) && !lost (c.dataShards + c.groupOf i)

theorem rebuildable_iff (h : c.Valid) : c.rebuildable lost i = true ↔
      (∀ j, c.groupOf j = c.groupOf i → j ≠ i → lost j = false) ∧
        lost (c.dataShards + c.groupOf i) = false := by
  rw [rebuildable, Bool.and_eq_true, all_eq_true, Bool.not_eq_true']
  refine and_congr_left fun _ => ⟨fun hall j hj hne => ?_, fun hall j hj => ?_⟩
  · simpa [hne] using hall j ((mem_groupIndices h).2 hj)
  · by_cases hne : j = i
    · simp [hne]
    · simp [hall j ((mem_groupIndices h).1 hj) hne]

/-! ## The local pass -/

/-- A stripe as an accepted profile encodes its data shards, all of one size. -/
structure Encodes (c : LrcConfig) (rs : ReedSolomon) (data : List Shard) (size : Nat)
    (stripe : List Shard) : Prop where
  valid : c.Valid
  lawful : rs.Lawful c.dataShards c.globalParityShards
  length_data : data.length = c.dataShards
  size_data : ∀ s ∈ data, s.length = size
  eq : stripe = c.encodeLrc rs data size

section
variable {rs : ReedSolomon} {data stripe : List Shard} {size : Nat} {lost : Nat → Bool}

theorem encodeLrc_eq : c.encodeLrc rs data size = data ++
    ((range c.localParityShards).map (fun g => xorAll (c.groupData data g) size) ++
      rs.recovery c.dataShards c.globalParityShards data) := by
  rw [encodeLrc, append_assoc]

theorem length_encodeLrc (hdata : data.length = c.dataShards)
    (hrs : rs.Lawful c.dataShards c.globalParityShards) : (c.encodeLrc rs data size).length = c.total := by
  rw [encodeLrc, length_append, length_append, length_map, length_range,
    hrs.recovery_length hdata, hdata, total]

namespace Encodes

variable (h : c.Encodes rs data size stripe)
include h

theorem length : stripe.length = c.total := by
  rw [h.eq, length_encodeLrc h.length_data h.lawful]

theorem lt_length (hi : i < c.dataShards) : i < stripe.length := by
  rw [h.length, total]
  omega

theorem size_stripe : ∀ s ∈ stripe, s.length = size := by
  intro s hs
  rw [h.eq, encodeLrc_eq] at hs
  rcases mem_append.1 hs with hs | hs
  · exact h.size_data s hs
  rcases mem_append.1 hs with hs | hs
  · obtain ⟨g, -, rfl⟩ := mem_map.1 hs
    exact length_xorAll _ _
  · exact h.lawful.recovery_size h.length_data h.size_data s hs

theorem getElem?_data (hi : i < c.dataShards) : stripe[i]? = data[i]? := by
  rw [h.eq, encodeLrc_eq, getElem?_append_left (h.length_data ▸ hi)]

theorem getElem?_parity {g : Nat} (hg : g < c.localParityShards) :
    stripe[c.dataShards + g]? = some (xorAll (c.groupData data g) size) := by
  have hdata := h.length_data
  rw [h.eq, encodeLrc_eq, getElem?_append_right (by omega), hdata, Nat.add_sub_cancel_left,
    getElem?_append_left (by simpa using hg), getElem?_map, getElem?_range hg]
  rfl

theorem decodeLocal (hi : i < c.dataShards) : c.decodeLocal (lose lost stripe) size i =
    if c.rebuildable lost i then data[i]? else none := by
  have hc := h.valid
  have hmember : ∀ j, c.groupOf j = c.groupOf i → j < c.dataShards := fun j hj =>
    lt_of_groupOf hc (hj ▸ groupOf_lt hc hi)
  have hother : ∀ j, c.groupOf j = c.groupOf i →
      (lose lost stripe)[j]?.join = if lost j then none else data[j]? := fun j hj => by
    rw [join_lose, h.getElem?_data (hmember j hj)]
  have hparity : (lose lost stripe)[c.dataShards + c.groupOf i]?.join =
      if lost (c.dataShards + c.groupOf i) then none
      else some (xorAll (c.groupData data (c.groupOf i)) size) := by
    rw [join_lose, h.getElem?_parity (groupOf_lt hc hi)]
  rw [LrcConfig.decodeLocal, localGroup_data hi]
  dsimp only
  by_cases hr : c.rebuildable lost i = true
  · obtain ⟨hleft, hpl⟩ := (rebuildable_iff hc).1 hr
    rw [hpl] at hparity
    -- The slots of the others hold their shards.
    have hslot : ∀ j ∈ (c.groupIndices (c.groupOf i)).filter (fun j => j ≠ i),
        (lose lost stripe)[j]?.join = data[j]? ∧ j < c.dataShards := fun j hj => by
      obtain ⟨hmem, hne⟩ := mem_filter.1 hj
      have hgj := (mem_groupIndices hc).1 hmem
      rw [hother j hgj, hleft j hgj (by simpa using hne)]
      exact ⟨rfl, hmember j hgj⟩
    rw [if_pos hr, if_pos]
    · obtain ⟨l₁, l₂, hall, hothers⟩ := exists_filter_ne (groupIndices_nodup (c.groupOf i))
        ((mem_groupIndices hc).2 (rfl : c.groupOf i = c.groupOf i))
      have hgroup := filterMap_groupIndices (c := c) data (c.groupOf i)
      have hdi := getElem?_eq_getElem (h.length_data ▸ hi)
      rw [hall, filterMap_append, filterMap_cons_some hdi] at hgroup
      rw [filterMap_append, filterMap_congr fun j hj => (hslot j hj).1, hothers,
        filterMap_append, filterMap_cons_some (by rw [hparity]; rfl), filterMap_nil, ← hgroup, hdi]
      exact congrArg some (xorAll_recovers (h.size_data _ (getElem_mem _)) _ _)
    · refine ⟨all_eq_true.2 fun j hj => ?_, by rw [hparity]; rfl⟩
      rw [(hslot j hj).1, getElem?_eq_getElem (h.length_data ▸ (hslot j hj).2)]
      rfl
  · rw [if_neg hr, if_neg]
    rintro ⟨hall, hpl⟩
    refine hr ((rebuildable_iff hc).2 ⟨fun j hj hne => ?_, ?_⟩)
    · have := all_eq_true.1 hall j (mem_filter.2 ⟨(mem_groupIndices hc).2 hj, by simpa using hne⟩)
      rw [hother j hj] at this
      cases hl : lost j
      · rfl
      · rw [hl] at this
        cases this
    · rw [hparity] at hpl
      cases hl : lost (c.dataShards + c.groupOf i)
      · rfl
      · rw [hl] at hpl
        cases hpl

end Encodes

def localLost (c : LrcConfig) (missing : List Nat) (lost : Nat → Bool) (j : Nat) : Bool :=
  lost j && !(decide (j ∈ missing) && c.rebuildable lost j)

theorem rebuildable_without (hc : c.Valid) (hi : c.rebuildable lost i = true) (hj : lost j = true)
    (hij : j ≠ i) (hlt : i < c.dataShards) :
    c.rebuildable (fun n => lost n && n ≠ i) j = c.rebuildable lost j := by
  have hgroups : c.groupOf i ≠ c.groupOf j := by
    intro h0
    rw [((rebuildable_iff hc).1 hi).1 j h0.symm hij] at hj
    cases hj
  have hsame : ∀ n, n ≠ i → (lost n && decide (n ≠ i)) = lost n := fun n hn => by simp [hn]
  refine Bool.eq_iff_iff.2 ?_
  rw [rebuildable_iff hc, rebuildable_iff hc, hsame (c.dataShards + c.groupOf j) (by omega)]
  refine and_congr_left fun _ => forall_congr' fun n => imp_congr_right fun hn => ?_
  rw [hsame n fun h0 => hgroups (h0 ▸ hn)]

theorem Encodes.localPass (h : c.Encodes rs data size stripe) : ∀ {missing : List Nat}
    {lost : Nat → Bool}, missing.Nodup → (∀ i ∈ missing, i < c.dataShards ∧ lost i = true) →
      c.localPass size missing (lose lost stripe) = lose (c.localLost missing lost) stripe
  | [], lost, _, _ => lose_congr fun j _ => by simp [localLost]
  | i :: missing, lost, hnodup, hall => by
    obtain ⟨hnew, hnodup'⟩ := nodup_cons.1 hnodup
    obtain ⟨hi, hlost⟩ := hall i mem_cons_self
    have hrest : ∀ j ∈ missing, j < c.dataShards ∧ lost j = true := fun j hj =>
      hall j (mem_cons_of_mem _ hj)
    have hdi := getElem?_eq_getElem (h.length_data ▸ hi)
    rw [LrcConfig.localPass, h.decodeLocal hi]
    by_cases hr : c.rebuildable lost i = true
    · rw [if_pos hr, hdi]
      dsimp only
      rw [set_lose ((h.getElem?_data hi).trans hdi), h.localPass hnodup']
      · refine lose_congr fun j _ => ?_
        by_cases hji : j = i
        · simp [localLost, hji, hr]
        · by_cases hjm : j ∈ missing
          · rw [localLost, rebuildable_without h.valid hr (hrest j hjm).2 hji hi]
            simp [localLost, hji, hjm]
          · simp [localLost, hji, hjm]
      · intro j hj
        have hji : j ≠ i := fun h0 => hnew (h0 ▸ hj)
        simp [hrest j hj, hji]
    · rw [if_neg hr]
      dsimp only
      rw [h.localPass hnodup' hrest]
      refine lose_congr fun j _ => ?_
      by_cases hji : j = i
      · simp [localLost, hji, hr]
      · simp [localLost, hji]

theorem not_rebuildable_localLost (hc : c.Valid) {missing : List Nat}
    (hmissing : ∀ j, j ∈ missing ↔ j < c.dataShards ∧ lost j = true)
    (hi : i < c.dataShards) (h : c.localLost missing lost i = true) :
    c.rebuildable (c.localLost missing lost) i = false := by
  have hlost : lost i = true := (Bool.and_eq_true_iff.1 h).1
  refine Bool.eq_false_iff.2 fun hr => ?_
  obtain ⟨hothers, hparity⟩ := (rebuildable_iff hc).1 hr
  have hnot : c.rebuildable lost i = false := by
    simpa [localLost, hlost, (hmissing i).2 ⟨hi, hlost⟩] using h
  refine absurd ((rebuildable_iff hc).2 ⟨fun j hj hne => ?_, ?_⟩) (by rw [hnot]; exact Bool.false_ne_true)
  · by_contra hl
    rw [Bool.not_eq_false] at hl
    -- Another shard of the group was lost and is back, so `i` was not lost.
    have hjr : c.rebuildable lost j = true := by
      have hback := hothers j hj hne
      rw [localLost, hl, Bool.true_and, Bool.not_eq_false', Bool.and_eq_true] at hback
      exact hback.2
    rw [((rebuildable_iff hc).1 hjr).1 i hj.symm hne.symm] at hlost
    cases hlost
  · have hnotin : c.dataShards + c.groupOf i ∉ missing := fun h0 => by
      have := ((hmissing _).1 h0).1
      omega
    simpa [localLost, hnotin] using hparity

end

/-! ## What a layered stripe can lose -/

def dataLost (c : LrcConfig) (lost : Nat → Bool) : List Nat :=
  (range c.dataShards).filter lost

theorem mem_dataLost : j ∈ c.dataLost lost ↔ j < c.dataShards ∧ lost j = true := by
  rw [dataLost, mem_filter, mem_range]

/-- The data shards lost that their groups do not give back. -/
def unrebuilt (c : LrcConfig) (lost : Nat → Bool) : List Nat :=
  (range c.dataShards).filter fun i => lost i && !c.rebuildable lost i

def globalLeft (c : LrcConfig) (lost : Nat → Bool) : Nat :=
  (range c.globalParityShards).countP fun j =>
    !lost (c.dataShards + c.localParityShards + j)

/-- No more data shards lost beyond those their groups rebuild than there are global parity shards left. -/
def recoverable (c : LrcConfig) (lost : Nat → Bool) : Bool :=
  (c.unrebuilt lost).length ≤ c.globalLeft lost

theorem recoverable_of_data (h : ∀ i < c.dataShards, lost i = false) : c.recoverable lost = true := by
  have hnone : c.unrebuilt lost = [] := filter_eq_nil_iff.2 fun i hi => by
    rw [h i (mem_range.1 hi)]
    exact Bool.false_ne_true
  refine decide_eq_true ?_
  rw [hnone]
  exact Nat.zero_le _

theorem length_dataLost (c : LrcConfig) (lost : Nat → Bool) :
    (c.dataLost lost).length = (c.unrebuilt lost).length +
      ((c.dataLost lost).filter (c.rebuildable lost)).length := by
  rw [← countP_eq_length_filter, length_eq_countP_add_countP (c.rebuildable lost), Nat.add_comm]
  refine congrArg (· + _) ?_
  rw [dataLost, unrebuilt, countP_eq_length_filter, filter_filter]
  refine congrArg length (filter_congr fun i _ => ?_)
  cases lost i <;> cases c.rebuildable lost i <;> rfl

theorem rebuilt_le_parity (hc : c.Valid) (lost : Nat → Bool) :
    ((c.dataLost lost).filter (c.rebuildable lost)).length ≤
      (range c.localParityShards).countP (fun g => !lost (c.dataShards + g)) := by
  have hmem : ∀ i ∈ (c.dataLost lost).filter (c.rebuildable lost),
      i < c.dataShards ∧ lost i = true ∧ c.rebuildable lost i = true := fun i hi => by
    obtain ⟨hlost, hr⟩ := mem_filter.1 hi
    exact ⟨(mem_dataLost.1 hlost).1, (mem_dataLost.1 hlost).2, hr⟩
  have hnodup : (((c.dataLost lost).filter (c.rebuildable lost)).map c.groupOf).Nodup := by
    refine List.Nodup.map_on (fun i hi j hj hij => ?_)
      ((nodup_range.filter _).filter _)
    by_contra hne
    have := ((rebuildable_iff hc).1 (hmem i hi).2.2).1 j hij.symm fun h0 => hne h0.symm
    rw [(hmem j hj).2.1] at this
    cases this
  rw [countP_eq_length_filter, ← length_map c.groupOf]
  refine (subperm_of_subset hnodup fun g hg => ?_).length_le
  obtain ⟨i, hi, rfl⟩ := mem_map.1 hg
  refine mem_filter.2 ⟨mem_range.2 (groupOf_lt hc (hmem i hi).1), ?_⟩
  rw [((rebuildable_iff hc).1 (hmem i hi).2.2).2]
  rfl

theorem left_of_recoverable (hc : c.Valid) (h : c.recoverable lost = true) :
    c.dataShards ≤ (range c.total).countP (fun i => !lost i) := by
  have hle := of_decide_eq_true h
  have hsplit := length_dataLost c lost
  have hparity := rebuilt_le_parity hc lost
  have hdata : (range c.dataShards).countP (fun i => !lost i) +
      (c.dataLost lost).length = c.dataShards := countP_left_add_lost _ _
  have hcount : (range c.total).countP (fun i => !lost i) = (range c.dataShards).countP (fun i => !lost i) +
        (range c.localParityShards).countP (fun g => !lost (c.dataShards + g)) + c.globalLeft lost := by
    rw [total, range_add, range_add, countP_append, countP_append, countP_map, countP_map, globalLeft]
    rfl
  omega

def globalSlots (c : LrcConfig) (rs : ReedSolomon) (data : List Shard) (lost : Nat → Bool) :
    List (Option Shard) :=
  lose (fun j => lost (c.dataShards + c.localParityShards + j))
    (rs.recovery c.dataShards c.globalParityShards data)

section
variable {rs : ReedSolomon} {data stripe : List Shard} {size : Nat} {lost : Nat → Bool}

namespace Encodes

variable (h : c.Encodes rs data size stripe)
include h

theorem take_lose : (lose lost stripe).take c.dataShards = lose lost data := by
  rw [h.eq, encodeLrc_eq, lose_append, take_left' (by rw [length_lose, h.length_data])]

theorem drop_lose : ((lose lost stripe).drop (c.dataShards + c.localParityShards)).take
    c.globalParityShards = c.globalSlots rs data lost := by
  have hlocal : (data ++ (range c.localParityShards).map (fun g => xorAll (c.groupData data g) size)).length =
        c.dataShards + c.localParityShards := by
    rw [length_append, h.length_data, length_map, length_range]
  rw [h.eq, encodeLrc, lose_append, drop_left' (by rw [length_lose, hlocal]), hlocal,
    take_of_length_le (by rw [length_lose, h.lawful.recovery_length h.length_data])]
  rfl

theorem available : present (lose lost data) + present (c.globalSlots rs data lost) =
    (range c.dataShards).countP (fun i => !lost i) + c.globalLeft lost := by
  rw [globalSlots, present_lose, present_lose, h.length_data,
    h.lawful.recovery_length h.length_data, globalLeft]

variable {still : List Nat}
  (hstill : ∀ i ∈ still, i < c.dataShards ∧ lost i = true ∧ c.rebuildable lost i = false)

include hstill in
theorem decode (hne : still ≠ []) : c.decode rs (lose lost stripe) size still =
    c.decodeGlobal rs (lose lost data) (c.globalSlots rs data lost) size still := by
  have hlocal : ∀ i ∈ still, c.decodeLocal (lose lost stripe) size i = none := by
    intro i hi
    obtain ⟨hlt, -, hr⟩ := hstill i hi
    rw [h.decodeLocal hlt, hr]
    rfl
  have hremaining : still.filter
      (fun i => (c.decodeLocal (lose lost stripe) size i).isNone) = still :=
    filter_eq_self.2 fun i hi => by rw [hlocal i hi]; rfl
  have hsome : ¬ still.isEmpty = true := by simpa using hne
  rw [LrcConfig.decode, if_neg (by rw [length_lose, h.length]; simp)]
  dsimp only
  rw [hremaining, filterMap_eq_nil_iff.2 hlocal, if_neg hsome, h.take_lose, h.drop_lose]
  cases c.decodeGlobal rs (lose lost data) (c.globalSlots rs data lost) size still <;> rfl

include hstill in
theorem decodeGlobal_ok (hs : ShardSize size) (hle : c.dataShards ≤
    (range c.dataShards).countP (fun i => !lost i) + c.globalLeft lost) :
    c.decodeGlobal rs (lose lost data) (c.globalSlots rs data lost) size still =
      .ok (still.filterMap (data[·]?)) := by
  rw [← h.available] at hle
  obtain ⟨restored, hok, hrestored⟩ :=
    h.lawful.decode_any hs h.length_data h.size_data holds_lose holds_lose hle
  have hall : ∀ i ∈ still, restored i = data[i]? := fun i hi =>
    hrestored i ((lose_eq_none_iff (h.length_data ▸ (hstill i hi).1)).2 (hstill i hi).2.1)
  have hfind : still.find? (fun i => ¬ (i < c.dataShards ∧ (restored i).isSome)) = none := by
    refine find?_eq_none.2 fun i hi => ?_
    rw [hall i hi, getElem?_eq_getElem (h.length_data ▸ (hstill i hi).1)]
    simp [(hstill i hi).1]
  rw [decodeGlobal, if_neg (Nat.not_lt.2 hle), globalSlots, hok]
  dsimp only
  rw [hfind, filterMap_congr hall]

theorem decodeGlobal_error (hlt : (range c.dataShards).countP (fun i => !lost i) +
    c.globalLeft lost < c.dataShards) : ∃ e,
    c.decodeGlobal rs (lose lost data) (c.globalSlots rs data lost) size still = .error e := by
  rw [← h.available] at hlt
  rw [decodeGlobal, if_pos hlt]
  exact ⟨_, rfl⟩

theorem missing : ((range (lose lost stripe).length).filter
    (fun i => (lose lost stripe)[i]? = some none)).filter (fun i => i < c.dataShards) = c.dataLost lost := by
  have hrange : range stripe.length = range c.dataShards ++
      (range (stripe.length - c.dataShards)).map (c.dataShards + ·) := by
    rw [← range_add, Nat.add_sub_of_le (by rw [h.length, total]; omega)]
  rw [length_lose, filter_filter, dataLost, hrange, filter_append]
  refine (congrArg₂ _ (filter_congr fun i hi => ?_) (filter_eq_nil_iff.2 fun i hi => ?_)).trans
    (append_nil _)
  · have hi' := mem_range.1 hi
    have hnone : (lose lost stripe)[i]? = some none ↔ _ := lose_eq_none_iff (h.lt_length hi')
    cases hl : lost i <;> simp [hnone, hi', hl]
  · obtain ⟨j, -, rfl⟩ := mem_map.1 hi
    simp

theorem rebuilt (hall : ∀ i < c.dataShards, lost i = false) :
    (range c.dataShards).find? (fun i => ((lose lost stripe)[i]?.join).isNone) = none ∧
      ((lose lost stripe).take c.dataShards).filterMap id = data := by
  refine ⟨find?_eq_none.2 fun i hi => ?_, ?_⟩
  · have hi' := mem_range.1 hi
    rw [join_lose, hall i hi', getElem?_eq_getElem (h.lt_length hi')]
    simp
  · rw [lose_none hall, h.eq, encodeLrc_eq, take_left' h.length_data]

end Encodes

theorem filter_localLost :
    (range c.dataShards).filter (c.localLost (c.dataLost lost) lost) = c.unrebuilt lost := by
  refine filter_congr fun i hi => ?_
  cases hl : lost i
  · simp [localLost, hl]
  · simp [localLost, hl, mem_dataLost, mem_range.1 hi]

theorem available_localLost (c : LrcConfig) (lost : Nat → Bool) :
    (range c.dataShards).countP (fun i => !c.localLost (c.dataLost lost) lost i) +
      (c.unrebuilt lost).length = c.dataShards ∧
    c.globalLeft (c.localLost (c.dataLost lost) lost) = c.globalLeft lost := by
  refine ⟨filter_localLost ▸ countP_left_add_lost _ _, countP_congr fun j _ => ?_⟩
  have hnotin : c.dataShards + c.localParityShards + j ∉ c.dataLost lost := fun h0 => by
    have := (mem_dataLost.1 h0).1
    omega
  simp [localLost, hnotin]

theorem unrebuilt_left (hc : c.Valid) (hi : i ∈ c.unrebuilt lost) :
    i < c.dataShards ∧ c.localLost (c.dataLost lost) lost i = true ∧
      c.rebuildable (c.localLost (c.dataLost lost) lost) i = false := by
  rw [← filter_localLost, mem_filter, mem_range] at hi
  exact ⟨hi.1, hi.2, not_rebuildable_localLost hc (fun j => mem_dataLost) hi.1 hi.2⟩

namespace Encodes

variable (h : c.Encodes rs data size stripe) {missing : List Nat}
  (hmissing : missing.filter (fun i => i < c.dataShards) = c.dataLost lost)
include h hmissing

theorem rebuild_lose : c.rebuild rs size missing (lose lost stripe) =
    match c.globalPass rs size (c.unrebuilt lost)
      (lose (c.localLost (c.dataLost lost) lost) stripe) with
    | .error e => .error e
    | .ok refs =>
      match (range c.dataShards).find? (fun i => (refs[i]?.join).isNone) with
      | some i => .error (.decodingFailed ("data shard " ++ toString i ++ " not rebuilt"))
      | none => .ok ((refs.take c.dataShards).filterMap id) := by
  have hnodup : (c.dataLost lost).Nodup := nodup_range.filter _
  have hstill : (range c.dataShards).filter (fun i =>
      (lose (c.localLost (c.dataLost lost) lost) stripe)[i]? = some none) = c.unrebuilt lost := by
    rw [← filter_localLost]
    refine filter_congr fun i hi => ?_
    rw [Bool.eq_iff_iff, decide_eq_true_iff, lose_eq_none_iff (h.lt_length (mem_range.1 hi))]
  rw [rebuild, hmissing, h.localPass hnodup fun i hi => mem_dataLost.1 hi]
  exact hstill ▸ rfl

/-- A layered stripe is rebuilt when the global parity left makes up for what the groups cannot rebuild. -/
theorem rebuild_ok (hs : ShardSize size) (hle : (c.unrebuilt lost).length ≤ c.globalLeft lost) :
    c.rebuild rs size missing (lose lost stripe) = .ok data := by
  have hpass : ∃ lost', c.globalPass rs size (c.unrebuilt lost)
      (lose (c.localLost (c.dataLost lost) lost) stripe) = .ok (lose lost' stripe) ∧
        ∀ i < c.dataShards, lost' i = false := by
    rw [globalPass]
    by_cases hnone : c.unrebuilt lost = []
    · rw [if_pos (by simpa using hnone)]
      refine ⟨_, rfl, fun i hi => ?_⟩
      rw [← filter_localLost, filter_eq_nil_iff] at hnone
      simpa using hnone i (mem_range.2 hi)
    · obtain ⟨hcount, hglobal⟩ := available_localLost c lost
      have hstill := fun i (hi : i ∈ c.unrebuilt lost) => unrebuilt_left h.valid hi
      rw [if_neg (by simpa using hnone), h.decode hstill hnone, h.decodeGlobal_ok hstill hs (by omega)]
      dsimp only
      rw [filterMap_congr fun i hi => (h.getElem?_data (hstill i hi).1).symm, foldl_set_lose]
      · refine ⟨_, rfl, fun i hi => ?_⟩
        by_cases hi' : i ∈ c.unrebuilt lost
        · simp [hi']
        · have : c.localLost (c.dataLost lost) lost i = false := by
            rw [← filter_localLost, mem_filter, not_and, Bool.not_eq_true] at hi'
            exact hi' (mem_range.2 hi)
          simp [this]
      · exact fun i hi => h.lt_length (hstill i hi).1
  obtain ⟨lost', hok, hall⟩ := hpass
  obtain ⟨hfind, htake⟩ := h.rebuilt hall
  rw [h.rebuild_lose hmissing, hok]
  dsimp only
  rw [hfind, htake]

/-- With less global parity than that the rebuilding fails. -/
theorem rebuild_error (hlt : c.globalLeft lost < (c.unrebuilt lost).length) :
    ∃ e, c.rebuild rs size missing (lose lost stripe) = .error e := by
  have hsome : c.unrebuilt lost ≠ [] := ne_nil_of_length_pos (Nat.zero_lt_of_lt hlt)
  obtain ⟨hcount, hglobal⟩ := available_localLost c lost
  have hfew : (range c.dataShards).countP (fun i => !c.localLost (c.dataLost lost) lost i) +
      c.globalLeft (c.localLost (c.dataLost lost) lost) < c.dataShards := by
    omega
  obtain ⟨e, he⟩ := h.decodeGlobal_error hfew
  rw [h.rebuild_lose hmissing, globalPass, if_neg (by simpa using hsome),
    h.decode (fun i hi => unrebuilt_left h.valid hi) hsome, he]
  exact ⟨_, rfl⟩

end Encodes

end

end LrcConfig

namespace ErasureCodec

theorem findSome_lose {stripe : List Shard} (hk : 0 < k) (h : k ≤ present (lose lost stripe)) :
    ∃ first ∈ stripe, (lose lost stripe).findSome? id = some first := by
  obtain ⟨slot, hslot, hsome⟩ := countP_pos_iff.1 (hk.trans_le h)
  have hfound : ((lose lost stripe).findSome? id).isSome := by
    rw [findSome?_isSome_iff]
    exact ⟨slot, hslot, hsome⟩
  obtain ⟨first, hfirst⟩ := Option.isSome_iff_exists.1 hfound
  refine ⟨first, ?_, hfirst⟩
  obtain ⟨o, ho, hid⟩ := exists_of_findSome?_eq_some hfirst
  obtain ⟨⟨s, i⟩, hmem, hs⟩ := mem_map.1 ho
  have hmem' := mem_of_getElem? (mem_zipIdx_iff_getElem?.1 hmem)
  dsimp only at hs
  split at hs
  · subst hs
    cases hid
  · subst hs
    cases hid
    exact hmem'

theorem dataPresent_lose {codec : ErasureCodec} {stripe : List Shard} (h : codec.dataShards ≤ stripe.length) :
    codec.dataPresent (lose lost stripe) = true ↔ ∀ i < codec.dataShards, lost i = false := by
  rw [dataPresent, Bool.and_eq_true, length_lose, all_eq_true]
  refine ⟨fun hp i hi => ?_, fun hl => ⟨by simpa using h, fun o ho => ?_⟩⟩
  · have hslot : (lose lost stripe)[i]? = some (if lost i then none else some stripe[i]) := by
      rw [getElem?_lose, getElem?_eq_getElem (hi.trans_le h)]
      rfl
    have hmem := mem_of_getElem? ((getElem?_take_of_lt hi).trans hslot)
    have := hp.2 _ hmem
    cases hc : lost i
    · rfl
    · rw [hc] at this
      cases this
  · obtain ⟨i, hi⟩ := mem_iff_getElem?.1 ho
    have hlt : i < codec.dataShards := by
      have := (List.getElem?_eq_some_iff.1 hi).1
      rw [length_take] at this
      omega
    rw [getElem?_take_of_lt hlt, getElem?_lose, hl i hlt, getElem?_eq_getElem (hlt.trans_le h)] at hi
    cases hi
    rfl

theorem mem_missing {shards : List (Option Shard)} (i : Nat) :
    i ∈ (range shards.length).filter (fun i => shards[i]? = some none) ↔ shards[i]? = some none := by
  rw [mem_filter, mem_range, decide_eq_true_iff]
  exact ⟨And.right, fun h => ⟨(List.getElem?_eq_some_iff.1 h).1, h⟩⟩

variable {codec : ErasureCodec} {lost : Nat → Bool} {data : List UInt8}

theorem decode_dataPresent {parity : List Shard} (hk : 0 < codec.dataShards)
    (hstripe : codec.encode data = codec.dataShardsOf data ++ parity)
    (h : ∀ i < codec.dataShards, lost i = false) :
    codec.decode (lose lost (codec.encode data)) data.length = .ok data := by
  have hlen : codec.dataShards ≤ (codec.encode data).length := by
    rw [hstripe, length_append, length_dataShardsOf]
    omega
  rw [decode, if_pos ((dataPresent_lose hlen).2 h), lose_none h, hstripe,
    take_left' (codec.length_dataShardsOf data), codec.joinData_dataShardsOf data hk]

/-- Any `k` shards of a maximum distance separable stripe decode. -/
theorem mds_decodes {m : Nat} (hb : codec.backend = .mds k m)
    (hcode : codec.mdsCode.Lawful k m) (hmds : isMds k m = true) (hk : 0 < k)
    (hleft : k ≤ (range (k + m)).countP (fun i => !lost i)) :
    codec.decode (lose lost (codec.encode data)) data.length = .ok data := by
  have hdk : codec.dataShards = k := by rw [dataShards, hb]
  have hstripe : codec.encode data = codec.dataShardsOf data ++
      codec.mdsCode.parity k m (codec.dataShardsOf data) := by
    rw [encode, hb]
  have hlen : (codec.encode data).length = k + m := by
    rw [hstripe, length_append, length_dataShardsOf, hdk, hcode.parity_length (codec.length_dataShardsOf data ▸ hdk)]
  have hsizes := codec.size_dataShardsOf data (hdk ▸ hk)
  have hpresent : k ≤ present (lose lost (codec.encode data)) := by rwa [present_lose, hlen]
  by_cases hall : ∀ i < codec.dataShards, lost i = false
  · exact decode_dataPresent (hdk ▸ hk) hstripe hall
  have hmissing : ¬ codec.dataPresent (lose lost (codec.encode data)) = true := fun h0 =>
    hall ((dataPresent_lose (by omega)).1 h0)
  obtain ⟨first, hfirst, hfound⟩ := findSome_lose hk hpresent
  have hsize : first.length = shardSizeFor data.length codec.dataShards := by
    rw [hstripe] at hfirst
    rcases mem_append.1 hfirst with h | h
    · exact hsizes first h
    · exact hcode.parity_size ((codec.length_dataShardsOf data).trans hdk) hsizes first h
  obtain ⟨out, hout, hlong, htake⟩ := hcode.decode_any hmds (shardSize_shardSizeFor _ _)
    ((codec.length_dataShardsOf data).trans hdk) hsizes (hstripe ▸ holds_lose) hpresent
    mem_missing
  rw [decode, if_neg hmissing, rebuildData]
  dsimp only
  rw [if_neg (by rw [length_lose, hlen, totalShards, hb]; simp),
    if_neg (by rw [hdk]; exact Nat.not_lt.2 hpresent), hfound]
  dsimp only
  rw [if_neg hmissing, hb]
  dsimp only
  rw [hsize, hout]
  dsimp only
  rw [if_neg (Nat.not_lt.2 hlong), htake]
  exact congrArg Except.ok (codec.joinData_dataShardsOf data (hdk ▸ hk))

theorem encodes (codec : ErasureCodec) (data : List UInt8) {c : LrcConfig} (hb : codec.backend = .lrc c) (hc : c.Valid)
    (hrs : codec.reedSolomon.Lawful c.dataShards c.globalParityShards) :
    c.Encodes codec.reedSolomon (codec.dataShardsOf data)
      (shardSizeFor data.length codec.dataShards) (codec.encode data) where
  valid := hc
  lawful := hrs
  length_data := (codec.length_dataShardsOf data).trans (by rw [dataShards, hb])
  size_data := codec.size_dataShardsOf data (by rw [dataShards, hb]; exact hc.dataShards_pos)
  eq := by rw [encode, hb]

/-- A layered stripe decodes exactly where its loss is recoverable. -/
theorem lrc_decodes_iff {c : LrcConfig} (hb : codec.backend = .lrc c) (hc : c.Valid)
    (hrs : codec.reedSolomon.Lawful c.dataShards c.globalParityShards) :
    codec.decode (lose lost (codec.encode data)) data.length = .ok data ↔ c.recoverable lost = true := by
  have h := codec.encodes data hb hc hrs
  have hdk : codec.dataShards = c.dataShards := by rw [dataShards, hb]
  have hk : 0 < codec.dataShards := hdk ▸ hc.dataShards_pos
  by_cases hall : ∀ i < codec.dataShards, lost i = false
  · exact iff_of_true (decode_dataPresent hk (h.eq.trans encodeLrc_eq) hall)
      (recoverable_of_data (hdk ▸ hall))
  have hmissing : ¬ codec.dataPresent (lose lost (codec.encode data)) = true := fun h0 =>
    hall ((dataPresent_lose (by rw [h.length, total]; omega)).1 h0)
  rw [decode, if_neg hmissing, rebuildData]
  dsimp only
  rw [if_neg (by rw [length_lose, h.length, totalShards, hb]; simp), hdk, present_lose, h.length]
  by_cases hpresent : c.dataShards ≤ (range c.total).countP (fun i => !lost i)
  · obtain ⟨first, hfirst, hfound⟩ := findSome_lose hc.dataShards_pos
      (hpresent.trans_eq (by rw [present_lose, h.length]))
    rw [if_neg (Nat.not_lt.2 hpresent), hfound]
    dsimp only
    rw [if_neg hmissing, hb, h.size_stripe first hfirst]
    dsimp only
    by_cases hle : (c.unrebuilt lost).length ≤ c.globalLeft lost
    · rw [h.rebuild_ok h.missing (shardSize_shardSizeFor _ _) hle]
      exact iff_of_true (congrArg Except.ok (codec.joinData_dataShardsOf data hk)) (decide_eq_true hle)
    · obtain ⟨e, he⟩ := h.rebuild_error h.missing (Nat.not_le.1 hle)
      rw [he]
      exact iff_of_false (nofun) fun h0 => hle (of_decide_eq_true h0)
  · rw [if_pos (Nat.not_le.1 hpresent)]
    exact iff_of_false (nofun) fun h0 => hpresent (left_of_recoverable hc h0)

end ErasureCodec

/-- One recovery shard: the exclusive or of the data. -/
def xorCode : ReedSolomon where
  recovery := fun _ g data => replicate g (xorAll data (data.headD []).length)
  decode := fun _ _ size originals recovery =>
    .ok fun _ => some (xorAll ((originals ++ recovery).filterMap id) size)

section
variable {shards : List (Option Shard)} {stripe : List Shard}

theorem Holds.take (h : Holds shards stripe) (n : Nat) : Holds (shards.take n) (stripe.take n) := by
  refine ⟨by rw [length_take, length_take, h.1], fun i s hi => ?_⟩
  rw [getElem?_take] at hi ⊢
  split_ifs at hi ⊢
  exact h.2 i s hi

theorem Holds.drop (h : Holds shards stripe) (n : Nat) : Holds (shards.drop n) (stripe.drop n) := by
  refine ⟨by rw [length_drop, length_drop, h.1], fun i s hi => ?_⟩
  rw [getElem?_drop] at hi ⊢
  exact h.2 _ s hi

theorem Holds.filterMap_eq (h : Holds shards stripe) (hall : stripe.length ≤ present shards) :
    shards.filterMap id = stripe := by
  have hsome : ∀ o ∈ shards, o.isSome :=
    countP_eq_length.1 (Nat.le_antisymm countP_le_length (h.1 ▸ hall))
  have heq : shards = stripe.map some := by
    refine ext_getElem (by rw [length_map, h.1]) fun i h₁ h₂ => ?_
    obtain ⟨s, hs⟩ := Option.isSome_iff_exists.1 (hsome _ (getElem_mem h₁))
    have hi := h.2 i s (by rw [getElem?_eq_getElem h₁, hs])
    rw [hs, getElem_map]
    exact congrArg some (List.getElem?_eq_some_iff.1 hi).2.symm
  rw [heq, filterMap_map]
  simp

end

theorem xorCode_lawful (hk : 0 < k) : xorCode.Lawful k 1 where
  recovery_length := fun _ => rfl
  recovery_size := fun {data size} hdata hsize s hs => by
    obtain ⟨d, rest, rfl⟩ := exists_cons_of_length_pos (hdata ▸ hk)
    rw [eq_of_mem_replicate hs, length_xorAll]
    exact hsize d mem_cons_self
  decode_any := fun {data size originals recovery} _ hdata hsize horiginals hrecovery henough => by
    refine ⟨_, rfl, fun i hi => ?_⟩
    obtain ⟨hlt, hnone⟩ := List.getElem?_eq_some_iff.1 hi
    have hlt' : i < data.length := horiginals.1 ▸ hlt
    have hhead : (data.headD []).length = size := by
      obtain ⟨d, rest, rfl⟩ := exists_cons_of_length_pos (hdata ▸ hk)
      exact hsize d mem_cons_self
    have hcut : originals = originals.take i ++ none :: originals.drop (i + 1) := by
      rw [← hnone, getElem_cons_drop, take_append_drop]
    have hcut' : data = data.take i ++ data[i] :: data.drop (i + 1) := by
      rw [getElem_cons_drop, take_append_drop]
    -- One original is missing, so the others and the parity are there.
    have hsplit : present originals = present (originals.take i) + present (originals.drop (i + 1)) := by
      conv_lhs => rw [hcut, present, countP_append, countP_cons_of_neg (by simp)]
      rfl
    have hleft : present (originals.take i) ≤ i :=
      countP_le_length.trans (length_take_le _ _)
    have hright : present (originals.drop (i + 1)) ≤ data.length - (i + 1) :=
      countP_le_length.trans (by rw [length_drop, horiginals.1])
    have hparity : present recovery ≤ 1 := countP_le_length.trans hrecovery.1.le
    have htake := (horiginals.take i).filterMap_eq (by
      rw [length_take]
      omega)
    have hdrop := (horiginals.drop (i + 1)).filterMap_eq (by
      rw [length_drop]
      omega)
    have hparity' := hrecovery.filterMap_eq (by
      change 1 ≤ present recovery
      omega)
    have hall : (originals ++ recovery).filterMap id =
        data.take i ++ data.drop (i + 1) ++ [xorAll data size] := by
      rw [filterMap_append, hcut, filterMap_append, filterMap_cons_none rfl, htake, hdrop, hparity']
      exact congrArg (fun n => data.take i ++ data.drop (i + 1) ++ [xorAll data n]) hhead
    have hback := xorAll_recovers (hsize _ (getElem_mem hlt')) (data.take i)
      (data.drop (i + 1))
    rw [← hcut'] at hback
    rw [hall, hback, getElem?_eq_getElem hlt']

/-! ## How many shards a layered stripe can lose -/

namespace LrcConfig

variable {c : LrcConfig} {lost : Nat → Bool}

theorem countP_total (c : LrcConfig) (lost : Nat → Bool) : (range c.total).countP lost =
    (c.dataLost lost).length + (range c.localParityShards).countP (fun g => lost (c.dataShards + g)) +
      (range c.globalParityShards).countP (fun j => lost (c.dataShards + c.localParityShards + j)) := by
  rw [total, range_add, range_add, countP_append, countP_append, countP_map, countP_map, dataLost,
    countP_eq_length_filter]
  rfl

theorem globalLeft_add (c : LrcConfig) (lost : Nat → Bool) : c.globalLeft lost +
    (range c.globalParityShards).countP (fun j => lost (c.dataShards + c.localParityShards + j)) =
      c.globalParityShards := by
  have := countP_left_add_lost (fun j => lost (c.dataShards + c.localParityShards + j)) c.globalParityShards
  rwa [← countP_eq_length_filter] at this

theorem recoverable_of_few (h : (range c.total).countP lost ≤ c.globalParityShards) :
    c.recoverable lost = true := by
  have hdata := length_dataLost c lost
  have hglobal := globalLeft_add c lost
  rw [countP_total] at h
  exact decide_eq_true (by omega)

/-- Two data shards of one group, and all but one of the global parity. -/
def pairLost (c : LrcConfig) (i : Nat) : Bool :=
  i < 2 || c.dataShards + c.localParityShards < i

theorem pairLost_unrecoverable (hc : c.Valid) (hsize : 2 ≤ c.localGroupSize) (hg : 0 < c.globalParityShards) :
    (range c.total).countP c.pairLost = c.globalParityShards + 1 ∧ c.recoverable c.pairLost = false := by
  have hk : 2 ≤ c.dataShards := hsize.trans (Nat.div_le_self _ _)
  have hdata : (c.dataLost c.pairLost).length = 2 := by
    rw [dataLost, ← countP_eq_length_filter, ← Nat.add_sub_of_le hk, range_add, countP_append, countP_map,
      countP_eq_length.2, countP_eq_zero.2, length_range]
    · intro i hi
      have := mem_range.1 hi
      simp [pairLost]
      omega
    · intro i hi
      simp [pairLost, mem_range.1 hi]
  have hlocal : (range c.localParityShards).countP (fun g => c.pairLost (c.dataShards + g)) = 0 := by
    refine countP_eq_zero.2 fun g hg => ?_
    have := mem_range.1 hg
    simp [pairLost]
    omega
  have hglobal : (range c.globalParityShards).countP
      (fun j => c.pairLost (c.dataShards + c.localParityShards + j)) = c.globalParityShards - 1 := by
    rw [← Nat.add_sub_of_le hg, range_add, countP_append, countP_map, countP_eq_zero.2, countP_eq_length.2,
      length_range]
    · omega
    · intro j hj
      simp [pairLost]
    · intro j hj
      have := mem_range.1 hj
      simp [pairLost]
      omega
  -- neither of the two is rebuilt from its group, where the other is lost
  have hnone : (c.dataLost c.pairLost).filter (c.rebuildable c.pairLost) = [] := by
    refine filter_eq_nil_iff.2 fun i hi hr => ?_
    obtain ⟨hlt, hlost⟩ := mem_dataLost.1 hi
    have hi2 : i < 2 := by
      simp [pairLost] at hlost
      omega
    have hother := ((rebuildable_iff hc).1 hr).1 (1 - i) (by
      rw [groupOf, groupOf, Nat.div_eq_of_lt (by omega), Nat.div_eq_of_lt (by omega)]) (by omega)
    simp [pairLost] at hother
  have hsplit := length_dataLost c c.pairLost
  have hleft := globalLeft_add c c.pairLost
  rw [hnone, length_nil] at hsplit
  refine ⟨by rw [countP_total]; omega, decide_eq_false (by omega)⟩

end LrcConfig

/-- A layered stripe of groups of two or more decodes after every loss of `t` shards exactly where `t` is at
most its global parity. -/
theorem lrc_decodes_every_loss_iff {codec : ErasureCodec} {c : LrcConfig} (hb : codec.backend = .lrc c) (hc : c.Valid)
    (hrs : codec.reedSolomon.Lawful c.dataShards c.globalParityShards) (hsize : 2 ≤ c.localGroupSize)
    (hg : 0 < c.globalParityShards) (data : List UInt8) {t : Nat} :
    (∀ lost : Nat → Bool, (range c.total).countP lost ≤ t →
      codec.decode (lose lost (codec.encode data)) data.length = .ok data) ↔ t ≤ c.globalParityShards := by
  constructor
  · intro h
    by_contra hlt
    obtain ⟨hcount, hno⟩ := LrcConfig.pairLost_unrecoverable hc hsize hg
    rw [(ErasureCodec.lrc_decodes_iff hb hc hrs).1 (h c.pairLost (by omega))] at hno
    cases hno
  · intro h lost hlost
    exact (ErasureCodec.lrc_decodes_iff hb hc hrs).2 (LrcConfig.recoverable_of_few (hlost.trans h))

theorem pairs_decode_one_loss : let codec : ErasureCodec :=
      ⟨⟨fun _ _ _ => [], fun _ _ _ _ _ => .ok []⟩, xorCode, .lrc ⟨4, 2, 1⟩⟩
    (∀ lost : Nat → Bool, (range 7).countP lost ≤ 1 →
      codec.decode (lose lost (codec.encode [1, 2, 3])) 3 = .ok [1, 2, 3]) ↔ 1 ≤ 1 :=
  lrc_decodes_every_loss_iff (c := ⟨4, 2, 1⟩) rfl ⟨by decide, by decide, rfl⟩ (xorCode_lawful (by decide)) (by decide)
    Nat.one_pos [1, 2, 3]

end IoLake.Erasure
