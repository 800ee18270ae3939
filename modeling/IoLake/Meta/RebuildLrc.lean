import IoLake.Erasure.Recoverable
import IoLake.Meta.RecoverObject

/-!
# Rebuilding the shards of a layered stripe

`rebuild_lrc` rebuilds a position whose local group is whole from the group.  For the others the whole stripe
is read, its data shards lost are decoded one at a time, and the data is encoded again.

* `localStage_spec` — what the groups give is right, and they give a data shard only where it is `rebuildable`;
* `wholeStripe_ok`, `wholeStripe_error` — the stripe is had from what is left exactly where `decodesEach`;
* `rebuilt_as_written_iff` — of what a read can decode, recovery rebuilds exactly that;
* `decodes_not_rebuilt` — and that is less: a read puts the shards the groups give back first.
-/

namespace IoLake.Meta

open Erasure Option LrcConfig

/-! ## The model -/

abbrev Slots := List (Option Shard)

def newLrcBackend (c : LrcConfig) : Except ErasureError Unit :=
  if c.dataShards = 0 then .error (.invalidConfig "data_shards must be > 0")
  else if c.localParityShards = 0 then .error (.invalidConfig "local_parity_shards must be > 0")
  else if c.dataShards % c.localParityShards ≠ 0 then
    .error (.invalidConfig "data_shards must be divisible by local_parity_shards")
  else .ok ()

/-- The positions located, with the checksum recorded of each; the shards at hand; the positions held in
place; and what a read of a located position gives. -/
structure ShardSources where
  located : List (Nat × Option UInt32)
  atHand : Nat → Option Shard
  inPlace : List Nat
  read : Nat → Option Shard

section
variable (crc32c : Shard → UInt32) (c : LrcConfig) (rs : ReedSolomon) (src : ShardSources) (shards : Slots)
  (missing : List Nat)

def ShardSources.knows (q : Nat) : Bool := q ∈ src.located.map Prod.fst

def ShardSources.candidates : List Nat :=
  src.inPlace ++ (src.located.map Prod.fst).filter fun p => p ∉ src.inPlace

def lrcLocalSet (position : Nat) : Option (List Nat) :=
  let (k, l) := (c.dataShards, c.localParityShards)
  if l = 0 ∨ k % l ≠ 0 then none
  else
    let size := k / l
    -- In ascending order, so that the sort leaves them as they are.
    let set := fun group => ((List.range size).map (group * size + ·) ++ [k + group]).filter
      fun p => p ≠ position
    if position < k then some (set (position / size))
    else if position < k + l then some (set (position - k))
    else none

/-- Read the positions that are not there yet, with `stop` up to one that cannot be read. -/
def readSlots (src : ShardSources) (stop : Bool) : List Nat → Slots → Slots × Bool
  | [], shards => (shards, true)
  | q :: qs, shards =>
    if (shards[q]?.join).isSome then readSlots src stop qs shards
    else
      match src.read q with
      | some b => readSlots src stop qs (shards.set q (some b))
      | none => if stop then (shards, false) else readSlots src stop qs shards

def rebuildLocal (p : Nat)
    (shards : Slots) : Slots × Option Shard :=
  match (lrcLocalSet c p).filter fun set =>
      set.all fun q => q ∉ missing && ((shards[q]?.join).isSome || src.knows q) with
  | none => (shards, none)
  | some set =>
    match readSlots src true set shards with
    | (shards, false) => (shards, none)
    | (shards, true) =>
      let size := (set.findSome? fun q => (shards[q]?.join).map List.length).getD 0
      (shards, c.decodeLocal shards size p)

def localStage (c : LrcConfig) (src : ShardSources) (missing : List Nat) :
    List Nat → Slots → Slots × List (Nat × Option Shard)
  | [], shards => (shards, [])
  | p :: ps, shards =>
    let (shards, rebuilt) := rebuildLocal c src missing p shards
    let (shards, results) := localStage c src missing ps shards
    (shards, (p, rebuilt) :: results)

def decodeOne (size q : Nat) :
    Except RebuildError Shard :=
  match c.decode rs shards size [q] with
  | .error e => .error (.other ("decode: " ++ e.message))
  | .ok [] => .error (.other ("decode gave nothing for " ++ toString q))
  | .ok (b :: _) => .ok b

def encodeAgain (data : List Shard) (size : Nat) :
    Except RebuildError (List Shard) :=
  match data.zipIdx.find? fun s => s.1.length ≠ size with
  | some (s, i) =>
    .error (.other ("encode: " ++ (ErasureError.invalidConfig ("shard " ++ toString i ++
      " has size " ++ toString s.length ++ ", expected " ++ toString size)).message))
  | none => .ok (c.encodeLrc rs data size)

def wholeStripe : Except RebuildError (List Shard) :=
  if present shards < c.dataShards then .error (.tooFew (present shards))
  else
    match shards.findSome? id with
    | none => .error (.tooFew 0)
    | some first =>
      let size := first.length
      let lostData := (List.range c.dataShards).filter fun q => (shards[q]?.join).isNone
      (lostData.mapM (decodeOne c rs shards size)).bind fun decoded =>
        let shards := (lostData.zip decoded).foldl (fun shards r => shards.set r.1 (some r.2)) shards
        encodeAgain c rs ((shards.take c.dataShards).map fun s => s.getD []) size

def shardAt (encoded : List Shard) (r : Nat × Option Shard) : Except RebuildError (Nat × Shard) :=
  match r.2.or encoded[r.1]? with
  | some b => .ok (r.1, b)
  | none => .error (.other ("no shard " ++ toString r.1 ++ " in the stripe"))

def checkRecorded (out : List (Nat × Shard)) :
    Except RebuildError (List (Nat × Shard)) :=
  match out.find? fun s => ((src.located.find? fun l => l.1 = s.1).bind Prod.snd).any fun recorded =>
      crc32c s.2 ≠ recorded with
  | some (p, _) => .error (.other ("position " ++ toString p ++
      " rebuilt differs from the shard its object records"))
  | none => .ok out

def rebuildLrc : Except RebuildError (List (Nat × Shard)) :=
  match newLrcBackend c with
  | .error e => .error (.other ("codec: " ++ e.message))
  | .ok () =>
    let start := (List.range c.total).map fun p => if p ∈ missing then none else src.atHand p
    let (shards, results) := localStage c src missing missing start
    -- For the positions their groups did not give, everything else that is there is read.
    let stripe := if results.all fun r => r.2.isSome then .ok []
      else wholeStripe c rs
        (readSlots src false (src.candidates.filter fun q => q < c.total ∧ q ∉ missing) shards).1
    stripe.bind fun encoded => (results.mapM (shardAt encoded)).bind (checkRecorded crc32c src)

end

/-- Every position not lost can be had, intact, and the checksums recorded are those of the shards first
written. -/
structure ShardSources.Intact (src : ShardSources) (crc32c : Shard → UInt32) (lost : Nat → Bool)
    (stripe : List Shard) : Prop where
  there : ∀ q < stripe.length, lost q = false → src.atHand q = stripe[q]? ∨
    src.atHand q = none ∧ src.knows q = true ∧ src.read q = stripe[q]?
  recorded : ∀ l ∈ src.located, ∀ r ∈ l.2, ∀ s ∈ stripe[l.1]?, r = crc32c s

/-- The slots while the stripe is read: those of `lost'` are empty, and each that is not lost can be
read. -/
structure Reading (src : ShardSources) (stripe : List Shard) (lost lost' : Nat → Bool) : Prop where
  stays : ∀ q, lost q = true → lost' q = true
  unread : ∀ q < stripe.length, lost q = false → lost' q = true → src.knows q = true ∧ src.read q = stripe[q]?

variable {c : LrcConfig} {rs : ReedSolomon} {src : ShardSources} {crc32c : Shard → UInt32}
  {data stripe : List Shard} {size p q : Nat} {lost lost' : Nat → Bool} {missing : List Nat}

theorem Reading.fetch (h : Reading src stripe lost lost') (hq : q < stripe.length)
    (hleft : lost q = false) (hempty : lost' q = true) : ∃ b, src.read q = some b ∧
      (lose lost' stripe).set q (some b) = lose (fun j => lost' j && j ≠ q) stripe ∧
      Reading src stripe lost fun j => lost' j && j ≠ q := by
  have hb := List.getElem?_eq_getElem hq
  refine ⟨stripe[q], (h.unread q hq hleft hempty).2.trans hb, set_lose hb, fun j hj => ?_,
    fun j hj hl hl' => h.unread j hj hl (Bool.and_eq_true_iff.1 hl').1⟩
  have hne : j ≠ q := by
    rintro rfl
    rw [hleft] at hj
    cases hj
  simp [h.stays j hj, hne]

theorem readSlots_spec (stop : Bool) : ∀ {qs : List Nat} {lost' : Nat → Bool},
    Reading src stripe lost lost' → (∀ q ∈ qs, q < stripe.length ∧ lost q = false) →
    ∃ lost'', readSlots src stop qs (lose lost' stripe) = (lose lost'' stripe, true) ∧
      Reading src stripe lost lost'' ∧ (∀ q ∈ qs, lost'' q = false) ∧ ∀ q, lost' q = false → lost'' q = false
  | [], lost', h, _ => ⟨lost', rfl, h, nofun, fun _ => id⟩
  | q :: qs, lost', h, hqs => by
    obtain ⟨hq, hleft⟩ := hqs q List.mem_cons_self
    have hrest := fun x hx => hqs x (List.mem_cons_of_mem q hx)
    rw [readSlots, join_lose, List.getElem?_eq_getElem hq]
    cases hl : lost' q with
    | false =>
      obtain ⟨lost'', heq, hr, hall, hmono⟩ := readSlots_spec stop h hrest
      exact ⟨lost'', heq, hr, List.forall_mem_cons.2 ⟨hmono q hl, hall⟩, hmono⟩
    | true =>
      obtain ⟨b, hb, hslots, h'⟩ := h.fetch hq hleft hl
      obtain ⟨lost'', heq, hr, hall, hmono⟩ := readSlots_spec stop h' hrest
      refine ⟨lost'', ?_, hr, List.forall_mem_cons.2 ⟨hmono q (by simp), hall⟩,
        fun x hx => hmono x (by simp [hx])⟩
      rw [hb, ← heq, ← hslots]
      rfl

theorem mem_lrcLocalSet {set : List Nat} (hc : c.Valid) (h : lrcLocalSet c p = some set) :
    (∀ q ∈ set, q < c.total) ∧ (p < c.dataShards → c.dataShards + c.groupOf p ∈ set) := by
  have hlt : ∀ g < c.localParityShards, ∀ q ∈ c.groupIndices g ++ [c.dataShards + g], q < c.total := by
    intro g hg q hq
    rw [total]
    rcases List.mem_append.1 hq with hq | hq
    · have := lt_of_groupOf hc ((mem_groupIndices hc).1 hq ▸ hg)
      omega
    · rw [List.mem_singleton.1 hq]
      omega
  unfold lrcLocalSet at h
  dsimp only at h
  split_ifs at h with h0 h1 h2
  · cases h
    refine ⟨fun q hq => hlt _ (groupOf_lt hc h1) q (List.mem_filter.1 hq).1, fun _ => ?_⟩
    refine List.mem_filter.2 ⟨List.mem_append_right _ (List.mem_singleton_self _), ?_⟩
    exact decide_eq_true (by omega)
  · cases h
    exact ⟨fun q hq => hlt (p - c.dataShards) (by omega) q (List.mem_filter.1 hq).1, fun hp => absurd hp h1⟩

theorem decodeLocal_parity {shards : Slots} (hp : c.dataShards ≤ p)
    (hempty : shards[p]?.join = none) : c.decodeLocal shards size p = none := by
  unfold decodeLocal localGroup
  by_cases hge : p ≥ c.dataShards + c.localParityShards
  · rw [if_pos hge]
  · rw [if_neg hge, if_neg (Nat.not_lt.2 hp)]
    dsimp only
    rw [Nat.add_sub_of_le hp, hempty, if_neg (fun h => nomatch h.2)]

theorem rebuildable_mono (hc : c.Valid) (hle : ∀ q, lost q = true → lost' q = true)
    (hp : c.rebuildable lost' p = true) : c.rebuildable lost p = true := by
  have hleft : ∀ q, lost' q = false → lost q = false := fun q hq =>
    Bool.eq_false_iff.2 fun hl => by simp [hle q hl] at hq
  rw [rebuildable_iff hc] at hp ⊢
  exact ⟨fun j hj hne => hleft j (hp.1 j hj hne), hleft _ hp.2⟩

variable (h : c.Encodes rs data size stripe) (hmissing : ∀ p, p ∈ missing ↔ p < c.total ∧ lost p = true)
include h hmissing

/-- What a local group gives is the shard, and it gives a data shard only with the rest of the group left. -/
theorem rebuildLocal_spec (hr : Reading src stripe lost lost') (hp : p ∈ missing) :
    ∃ lost'', (rebuildLocal c src missing p (lose lost' stripe)).1 = lose lost'' stripe ∧
      Reading src stripe lost lost'' ∧
      ∀ b, (rebuildLocal c src missing p (lose lost' stripe)).2 = some b →
        stripe[p]? = some b ∧ (p < c.dataShards → c.rebuildable lost p = true) := by
  unfold rebuildLocal
  split
  · exact ⟨lost', rfl, hr, nofun⟩
  rename_i set hset
  obtain ⟨hset, hall⟩ := filter_eq_some_iff.1 hset
  obtain ⟨hlt, hparity⟩ := mem_lrcLocalSet h.valid hset
  have hleft : ∀ q ∈ set, q < stripe.length ∧ lost q = false := fun q hq => by
    have hnot := (Bool.and_eq_true_iff.1 (List.all_eq_true.1 hall q hq)).1
    refine ⟨h.length ▸ hlt q hq, Bool.eq_false_iff.2 fun hl => ?_⟩
    exact of_decide_eq_true hnot ((hmissing q).2 ⟨hlt q hq, hl⟩)
  obtain ⟨lost'', heq, hr', hthere, -⟩ := readSlots_spec true hr hleft
  rw [heq]
  refine ⟨lost'', rfl, hr', fun b hb => ?_⟩
  dsimp only at hb
  rcases Nat.lt_or_ge p c.dataShards with hp' | hp'
  · -- The size is that of any shard of the stripe.
    obtain ⟨q, rest, rfl⟩ := List.exists_cons_of_ne_nil (List.ne_nil_of_mem (hparity hp'))
    have hq := (hleft q List.mem_cons_self).1
    have hslot : (lose lost'' stripe)[q]?.join = some stripe[q] := by
      rw [join_lose, hthere q List.mem_cons_self, List.getElem?_eq_getElem hq]
      rfl
    rw [List.findSome?_cons, hslot, map_some, getD_some,
      h.size_stripe _ (List.getElem_mem _), h.decodeLocal hp'] at hb
    rw [h.getElem?_data hp']
    split at hb
    · rename_i hgroup
      exact ⟨hb, fun _ => rebuildable_mono h.valid hr'.stays hgroup⟩
    · cases hb
  · rw [decodeLocal_parity hp' (by rw [join_lose, hr'.stays p ((hmissing p).1 hp).2]; rfl)] at hb
    cases hb

theorem localStage_spec : ∀ {ps : List Nat} {lost' : Nat → Bool}, Reading src stripe lost lost' →
    (∀ p ∈ ps, p ∈ missing) → ∃ lost'' results,
      localStage c src missing ps (lose lost' stripe) = (lose lost'' stripe, results) ∧
      Reading src stripe lost lost'' ∧ results.map Prod.fst = ps ∧
      ∀ r ∈ results, ∀ b, r.2 = some b →
        stripe[r.1]? = some b ∧ (r.1 < c.dataShards → c.rebuildable lost r.1 = true)
  | [], lost', hr, _ => ⟨lost', [], rfl, hr, rfl, nofun⟩
  | p :: ps, lost', hr, hps => by
    obtain ⟨lost₁, heq₁, hr₁, hright⟩ := rebuildLocal_spec h hmissing hr (hps p List.mem_cons_self)
    obtain ⟨lost₂, results, heq₂, hr₂, hpos, hall⟩ :=
      localStage_spec hr₁ fun q hq => hps q (List.mem_cons_of_mem p hq)
    refine ⟨lost₂, (p, _) :: results, ?_, hr₂, ?_, List.forall_mem_cons.2 ⟨hright, hall⟩⟩
    · rw [localStage]
      dsimp only
      rw [heq₁, heq₂]
    · rw [List.map_cons, hpos]

omit h hmissing

/-- What decoding one data shard at a time takes: of each shard lost the rest of its group, or `k` of
the data and global parity shards. -/
def decodesEach (c : LrcConfig) (lost : Nat → Bool) : Bool :=
  (List.range c.dataShards).all (fun q => !lost q || c.rebuildable lost q) ||
    c.dataShards ≤ (List.range c.dataShards).countP (fun i => !lost i) + c.globalLeft lost

theorem mapM_ok {ε α β : Type} {f : α → Except ε β} {g : α → Option β} : ∀ {l : List α},
    (∀ a ∈ l, ∃ b, g a = some b ∧ f a = .ok b) → l.mapM f = .ok (l.filterMap g)
  | [], _ => rfl
  | a :: l, h => by
    obtain ⟨b, hg, hf⟩ := h a List.mem_cons_self
    rw [List.mapM_cons, hf, List.filterMap_cons_some hg]
    have hrest := mapM_ok fun x hx => h x (List.mem_cons_of_mem a hx)
    show (l.mapM f).bind (fun bs => .ok (b :: bs)) = _
    rw [hrest]
    rfl

include h in
theorem decodeOne_ok (hs : ShardSize size) (hreach : decodesEach c lost = true)
    (hq : q < c.dataShards) (hlost : lost q = true) :
    ∃ b, stripe[q]? = some b ∧ decodeOne c rs (lose lost stripe) size q = .ok b := by
  obtain ⟨b, hb⟩ : ∃ b, data[q]? = some b := ⟨_, List.getElem?_eq_getElem (h.length_data ▸ hq)⟩
  refine ⟨b, (h.getElem?_data hq).trans hb, ?_⟩
  unfold decodeOne
  cases hr : c.rebuildable lost q with
  | true =>
    have hlocal : c.decodeLocal (lose lost stripe) size q = some b := by
      rw [h.decodeLocal hq, if_pos hr, hb]
    rw [decode, if_neg (by rw [length_lose, h.length]; simp)]
    simp [hlocal]
  | false =>
    have hstill : ∀ i ∈ [q], i < c.dataShards ∧ lost i = true ∧ c.rebuildable lost i = false :=
      fun i hi => List.mem_singleton.1 hi ▸ ⟨hq, hlost, hr⟩
    have hle := (Bool.or_eq_true_iff.1 hreach).resolve_left fun hall => by
      have := List.all_eq_true.1 hall q (List.mem_range.2 hq)
      rw [hlost, hr] at this
      cases this
    rw [h.decode hstill (by simp), h.decodeGlobal_ok hstill hs (of_decide_eq_true hle)]
    simp [hb]

include h in
theorem wholeStripe_ok (hs : ShardSize size) (hreach : decodesEach c lost = true)
    (hleft : c.dataShards ≤ present (lose lost stripe)) :
    wholeStripe c rs (lose lost stripe) = .ok stripe := by
  obtain ⟨first, hfirst, hfound⟩ := ErasureCodec.findSome_lose h.valid.dataShards_pos hleft
  have hlostData : (List.range c.dataShards).filter (fun q => ((lose lost stripe)[q]?.join).isNone) =
      c.dataLost lost := List.filter_congr fun q hq => by
    rw [join_lose, List.getElem?_eq_getElem (h.lt_length (List.mem_range.1 hq))]
    cases lost q <;> rfl
  have hdecoded : (c.dataLost lost).mapM (decodeOne c rs (lose lost stripe) size) =
      .ok ((c.dataLost lost).filterMap (stripe[·]?)) := mapM_ok fun q hq =>
    decodeOne_ok h hs hreach (mem_dataLost.1 hq).1 (mem_dataLost.1 hq).2
  have hback : ∀ i < c.dataShards, (lost i && decide (i ∉ c.dataLost lost)) = false := fun i hi => by
    cases hl : lost i <;> simp [mem_dataLost, hi, hl]
  have hdata : ((lose (fun j => lost j && j ∉ c.dataLost lost) stripe).take c.dataShards).map
      (fun s => s.getD []) = data := by
    refine List.ext_getElem? fun i => ?_
    rw [h.take_lose, List.getElem?_map, getElem?_lose]
    rcases Nat.lt_or_ge i c.dataShards with hi | hi
    · rw [hback i hi]
      cases data[i]? <;> rfl
    · rw [List.getElem?_eq_none (h.length_data.trans_le hi)]
      rfl
  have hencoded : encodeAgain c rs data size = .ok stripe := by
    have hsizes : data.zipIdx.find? (fun s => s.1.length ≠ size) = none :=
      List.find?_eq_none.2 fun s hs => by
        simp [h.size_data s.1 (List.fst_mem_of_mem_zipIdx hs)]
    rw [encodeAgain, hsizes, h.eq]
  unfold wholeStripe
  rw [if_neg (Nat.not_lt.2 hleft), hfound]
  dsimp only
  rw [h.size_stripe first hfirst, hlostData, hdecoded]
  dsimp only [Except.bind]
  rw [foldl_set_lose _ _ fun q hq => h.lt_length (mem_dataLost.1 hq).1, hdata, hencoded]

theorem mapM_error {ε α β : Type} {f : α → Except ε β} {a : α} {e : ε} : ∀ {l : List α}, a ∈ l →
    f a = .error e → ∃ e', l.mapM f = .error e'
  | x :: l, ha, hf => by
    rw [List.mapM_cons]
    cases hx : f x with
    | error e' => exact ⟨e', rfl⟩
    | ok b =>
      rcases List.mem_cons.1 ha with rfl | ha
      · rw [hf] at hx
        cases hx
      · obtain ⟨e', he'⟩ := mapM_error ha hf
        exact ⟨e', by rw [he']; rfl⟩

theorem not_decodesEach (h : decodesEach c lost = false) :
    (∃ q, q < c.dataShards ∧ lost q = true ∧ c.rebuildable lost q = false) ∧
      (List.range c.dataShards).countP (fun i => !lost i) + c.globalLeft lost < c.dataShards := by
  obtain ⟨hall, hfew⟩ := Bool.or_eq_false_iff.1 h
  obtain ⟨q, hq, hbad⟩ := List.all_eq_false.1 hall
  refine ⟨⟨q, List.mem_range.1 hq, ?_⟩, by simpa using hfew⟩
  cases hl : lost q <;> cases hr : c.rebuildable lost q <;> simp [hl, hr] at hbad ⊢

include h in
/-- A data shard that its group cannot give back stops the decoding of the stripe. -/
theorem wholeStripe_error (hreach : decodesEach c lost = false)
    (hleft : c.dataShards ≤ present (lose lost stripe)) :
    ∃ e, wholeStripe c rs (lose lost stripe) = .error e := by
  obtain ⟨⟨q, hq, hlost, hr⟩, hfew⟩ := not_decodesEach hreach
  obtain ⟨first, hfirst, hfound⟩ := ErasureCodec.findSome_lose h.valid.dataShards_pos hleft
  have hstill : ∀ i ∈ [q], i < c.dataShards ∧ lost i = true ∧ c.rebuildable lost i = false :=
    fun i hi => List.mem_singleton.1 hi ▸ ⟨hq, hlost, hr⟩
  have hone : ∃ e, decodeOne c rs (lose lost stripe) size q = .error e := by
    obtain ⟨e, he⟩ : ∃ e, c.decodeGlobal rs (lose lost data) (c.globalSlots rs data lost) size [q] =
        .error e := h.decodeGlobal_error hfew
    unfold decodeOne
    rw [h.decode hstill (by simp), he]
    exact ⟨_, rfl⟩
  obtain ⟨e, he⟩ := hone
  have hmem : q ∈ (List.range c.dataShards).filter fun q => ((lose lost stripe)[q]?.join).isNone := by
    rw [List.mem_filter, join_lose, hlost]
    exact ⟨List.mem_range.2 hq, rfl⟩
  obtain ⟨e', hdecoded⟩ := mapM_error hmem he
  unfold wholeStripe
  rw [if_neg (Nat.not_lt.2 hleft), hfound]
  dsimp only
  rw [h.size_stripe first hfirst, hdecoded]
  exact ⟨e', rfl⟩

theorem start_reading (hsrc : src.Intact crc32c lost stripe) (hlen : stripe.length = c.total)
    (hmissing : ∀ p, p ∈ missing ↔ p < c.total ∧ lost p = true) :
    ∃ lost', (List.range c.total).map (fun p => if p ∈ missing then none else src.atHand p) =
      lose lost' stripe ∧ Reading src stripe lost lost' := by
  refine ⟨fun q => lost q || (src.atHand q).isNone, List.ext_getElem? fun q => ?_,
    fun q hq => by simp [hq], fun q hq hl hl' => ?_⟩
  · rw [List.getElem?_map, getElem?_lose]
    rcases Nat.lt_or_ge q c.total with hq | hq
    · rw [List.getElem?_range hq, List.getElem?_eq_getElem (hlen ▸ hq)]
      cases hl : lost q with
      | true => simp [hmissing, hq, hl]
      | false =>
        rcases hsrc.there q (hlen ▸ hq) hl with hat | ⟨hat, -⟩
        · simp [hmissing, hl, hat, hlen ▸ hq]
        · simp [hmissing, hl, hat]
    · rw [List.getElem?_eq_none (by simpa using hq), List.getElem?_eq_none (hlen.trans_le hq)]
      rfl
  · refine (hsrc.there q hq hl).elim (fun hat => ?_) And.right
    simp [hl, hat, hq] at hl'

theorem readSlots_all (hmissing : ∀ p, p ∈ missing ↔ p < c.total ∧ lost p = true)
    (hlen : stripe.length = c.total) (hr : Reading src stripe lost lost') :
    (readSlots src false (src.candidates.filter fun q => q < c.total ∧ q ∉ missing)
      (lose lost' stripe)).1 = lose lost stripe := by
  have hqs : ∀ q ∈ src.candidates.filter (fun q => q < c.total ∧ q ∉ missing),
      q < stripe.length ∧ lost q = false := fun q hq => by
    obtain ⟨hlt, hnot⟩ := of_decide_eq_true (List.mem_filter.1 hq).2
    exact ⟨hlen ▸ hlt, Bool.eq_false_iff.2 fun hl => hnot ((hmissing q).2 ⟨hlt, hl⟩)⟩
  obtain ⟨lost'', hslots, hr', hthere, -⟩ := readSlots_spec false hr hqs
  rw [hslots]
  refine lose_congr fun q hq => ?_
  cases hl : lost q with
  | true => exact hr'.stays q hl
  | false =>
    refine Bool.eq_false_iff.2 fun hl' => ?_
    have hknown := of_decide_eq_true (hr'.unread q hq hl hl').1
    rw [hthere q (List.mem_filter.2 ⟨?_, by simp [hmissing, hl, ← hlen, hq]⟩)] at hl'
    · cases hl'
    · by_cases hin : q ∈ src.inPlace
      · exact List.mem_append_left _ hin
      · exact List.mem_append_right _ (List.mem_filter.2 ⟨hknown, by simpa using hin⟩)

theorem checkRecorded_ok (hsrc : src.Intact crc32c lost stripe) {out : List (Nat × Shard)}
    (hout : ∀ s ∈ out, stripe[s.1]? = some s.2) : checkRecorded crc32c src out = .ok out := by
  have hnone : out.find? (fun s => ((src.located.find? fun l => l.1 = s.1).bind Prod.snd).any
      fun recorded => crc32c s.2 ≠ recorded) = none := by
    refine List.find?_eq_none.2 fun s hs hbad => ?_
    obtain ⟨r, hr, hne⟩ := (any_eq_true _ _).1 hbad
    obtain ⟨l, hl, hr⟩ := bind_eq_some_iff.1 hr
    have hpos : l.1 = s.1 := by simpa using List.find?_some hl
    refine of_decide_eq_true hne (hsrc.recorded l (List.mem_of_find?_eq_some hl) r hr s.2 ?_).symm
    rw [hpos]
    exact hout s hs
  rw [checkRecorded, hnone]

/-- **What a read can decode, recovery rebuilds exactly where** each data shard lost has the rest of its group,
or `k` of the data and global parity shards are left. -/
theorem rebuilt_as_written_iff {codec : ErasureCodec} (hb : codec.backend = .lrc c) (hc : c.Valid)
    (hrs : codec.reedSolomon.Lawful c.dataShards c.globalParityShards) {bytes : List UInt8}
    (hmissing : ∀ p, p ∈ missing ↔ p < c.total ∧ lost p = true)
    (hsrc : src.Intact crc32c lost (codec.encode bytes))
    (hread : codec.decode (lose lost (codec.encode bytes)) bytes.length = .ok bytes) :
    (∃ out, rebuildLrc crc32c c codec.reedSolomon src missing = .ok out ∧
      ∀ p b, (p, b) ∈ out ↔ p ∈ missing ∧ (codec.encode bytes)[p]? = some b) ↔ decodesEach c lost = true := by
  have h := codec.encodes bytes hb hc hrs
  have hs : ShardSize _ := ErasureCodec.shardSize_shardSizeFor bytes.length codec.dataShards
  have hleft : c.dataShards ≤ present (lose lost (codec.encode bytes)) := by
    rw [present_lose, h.length]
    exact left_of_recoverable hc ((ErasureCodec.lrc_decodes_iff hb hc hrs).1 hread)
  generalize codec.encode bytes = stripe at *
  have hnew : newLrcBackend c = .ok () := by
    simp [newLrcBackend, hc.dataShards_pos.ne', hc.localParityShards_pos.ne', hc.groups]
  obtain ⟨lost₀, hstart, hr₀⟩ := start_reading hsrc h.length hmissing
  obtain ⟨lost₁, results, hlocal, hr₁, hpos, hall⟩ := localStage_spec h hmissing hr₀ fun p hp => hp
  rw [rebuildLrc, hnew]
  dsimp only
  rw [hstart, hlocal]
  dsimp only
  refine ⟨fun hout => by_contra fun hreach => ?_, fun hreach => ?_⟩
  · -- The group of some data shard gives nothing, and then decoding it stops the rebuild.
    rw [Bool.not_eq_true] at hreach
    obtain ⟨⟨q, hq, hlost, hr⟩, -⟩ := not_decodesEach hreach
    have hnone : ¬ results.all (fun r => r.2.isSome) = true := by
      intro hsome
      have hq' : q ∈ results.map Prod.fst := hpos ▸ (hmissing q).2 ⟨h.length ▸ h.lt_length hq, hlost⟩
      obtain ⟨r, hr', rfl⟩ := List.mem_map.1 hq'
      obtain ⟨b, hb⟩ := isSome_iff_exists.1 (List.all_eq_true.1 hsome r hr')
      rw [(hall r hr' b hb).2 hq] at hr
      cases hr
    obtain ⟨e, he⟩ := wholeStripe_error h hreach hleft
    obtain ⟨out, hout, -⟩ := hout
    rw [if_neg hnone, readSlots_all hmissing h.length hr₁, he] at hout
    cases hout
  -- What the groups did not give, the stripe does.
  obtain ⟨encoded, hencoded, hgiven⟩ : ∃ encoded, (if results.all (fun r => r.2.isSome) then .ok []
      else wholeStripe c codec.reedSolomon (readSlots src false (src.candidates.filter fun q =>
        q < c.total ∧ q ∉ missing) (lose lost₁ stripe)).1) = (.ok encoded : Except RebuildError _) ∧
      ∀ r ∈ results, r.2 = none → encoded[r.1]? = stripe[r.1]? := by
    split
    · rename_i hsome
      refine ⟨[], rfl, fun r hr hnone => ?_⟩
      have := List.all_eq_true.1 hsome r hr
      rw [hnone] at this
      cases this
    · rw [readSlots_all hmissing h.length hr₁, wholeStripe_ok h hs hreach hleft]
      exact ⟨stripe, rfl, fun _ _ _ => rfl⟩
  have hmapM : results.mapM (shardAt encoded) =
      .ok (results.filterMap fun r => stripe[r.1]?.map (r.1, ·)) := mapM_ok fun r hr => by
    have hlt := ((hmissing r.1).1 (hpos ▸ List.mem_map_of_mem hr)).1
    have hb := List.getElem?_eq_getElem (h.length.symm ▸ hlt)
    refine ⟨_, by rw [hb]; rfl, ?_⟩
    unfold shardAt
    cases hr2 : r.2 with
    | some b =>
      rw [(hall r hr b hr2).1] at hb
      cases hb
      rfl
    | none => rw [none_or, hgiven r hr hr2, hb]
  have hout : ∀ p b, (p, b) ∈ results.filterMap (fun r => stripe[r.1]?.map (r.1, ·)) ↔
      p ∈ missing ∧ stripe[p]? = some b := by
    intro p b
    rw [← hpos]
    simp only [List.mem_filterMap, map_eq_some_iff, Prod.mk.injEq, List.mem_map]
    constructor
    · rintro ⟨r, hr, x, hx, rfl, rfl⟩
      exact ⟨⟨r, hr, rfl⟩, hx⟩
    · rintro ⟨⟨r, hr, rfl⟩, hb⟩
      exact ⟨r, hr, b, hb, rfl, rfl⟩
  refine ⟨_, ?_, hout⟩
  rw [hencoded]
  dsimp only [Except.bind]
  rw [hmapM]
  exact checkRecorded_ok hsrc fun s hs => ((hout s.1 s.2).1 hs).2

def sampleCodec : ErasureCodec where
  mdsCode := ⟨fun _ _ _ => [], fun _ _ _ _ _ => .ok []⟩
  reedSolomon := xorCode
  backend := .lrc ⟨4, 2, 1⟩

def sampleSources : ShardSources where
  located := (List.range 7).map (·, some 0)
  atHand := fun _ => none
  inPlace := [1, 3]
  read := fun q => (sampleCodec.encode [1, 2, 3])[q]?

theorem sampleSources_recorded (stripe : List Shard) :
    ∀ l ∈ sampleSources.located, ∀ r ∈ l.2, ∀ s ∈ stripe[l.1]?, r = (fun _ => 0) s := by
  intro l hl r hr s _
  obtain ⟨q, -, rfl⟩ := List.mem_map.1 hl
  exact (some.inj hr).symm

/-- **A stripe that decodes and is not rebuilt**: a read puts the first shard back before it asks the global
code for the other, recovery does not. -/
theorem decodes_not_rebuilt : (∀ p, p ∈ [0, 2, 5] ↔ p < 7 ∧ decide (p ∈ [0, 2, 5]) = true) ∧
    sampleSources.Intact (fun _ => 0) (fun p => p ∈ [0, 2, 5]) (sampleCodec.encode [1, 2, 3]) ∧
    sampleCodec.decode (lose (fun p => p ∈ [0, 2, 5]) (sampleCodec.encode [1, 2, 3])) 3 = .ok [1, 2, 3] ∧
    rebuildLrc (fun _ => 0) ⟨4, 2, 1⟩ xorCode sampleSources [0, 2, 5] =
      .error (.other "decode: insufficient shards: have 3, need 4") := by
  refine ⟨fun p => ?_, ⟨by decide +kernel, sampleSources_recorded _⟩, by decide +kernel, by decide +kernel⟩
  simp only [List.mem_cons, List.not_mem_nil, or_false, decide_eq_true_eq]
  omega

theorem pair_rebuilt : ∃ out, rebuildLrc (fun _ => 0) ⟨4, 2, 1⟩ xorCode sampleSources [2, 5] = .ok out ∧
    ∀ p b, (p, b) ∈ out ↔ p ∈ [2, 5] ∧ (sampleCodec.encode [1, 2, 3])[p]? = some b := by
  have hmissing : ∀ p, p ∈ [2, 5] ↔
      p < (⟨4, 2, 1⟩ : LrcConfig).total ∧ decide (p ∈ [2, 5]) = true := fun p => by
    simp only [List.mem_cons, List.not_mem_nil, or_false, decide_eq_true_eq, total]
    omega
  have hread : sampleCodec.decode (lose (fun p => p ∈ [2, 5]) (sampleCodec.encode [1, 2, 3])) 3 =
      .ok [1, 2, 3] := by
    decide +kernel
  exact (rebuilt_as_written_iff rfl ⟨by decide, by decide, rfl⟩ (xorCode_lawful (by decide)) hmissing
    ⟨by decide +kernel, sampleSources_recorded _⟩ hread).2 (by decide +kernel)

end IoLake.Meta
