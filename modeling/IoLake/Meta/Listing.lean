import IoLake.Gateway.MetaCalls
import IoLake.Meta.ActingSets
import IoLake.Osd.KeyRuns
import IoLake.Osd.PgIndex

/-!
# What the members of a placement group list

Recovery sees a placement group through its members' listings: one entry for each key and each version, the
object it has or the delete that removed it.  A `Slot` is what one member has under one name; `listing` is
what it answers, and `recoveryPlan` what the metadata service makes of the answers.
-/

namespace IoLake.Meta

open Proto Osd Gateway ByteFormat List Option OrdMap KeyEntries

abbrev OsdId := Bytes

/-- A bucket, and an entry's name in it: the key, then for a version `\0` and its id. -/
abbrev EntryName := Bytes ×ₗ Bytes

namespace EntryName

def bucket (n : EntryName) : Bytes := (ofLex n).1

def split (n : EntryName) : Bytes × Bytes := (splitNul (ofLex n).2).getD ((ofLex n).2, [])

def cursor (n : EntryName) : Bytes := (ofLex n).1 ++ 0 :: (ofLex n).2

end EntryName

/-! ## Slots -/

/-- What a member has under one name: an object, and the stamp of the last delete it took; no object
is older than that delete. -/
@[ext] structure Slot where
  object : Option ObjectMeta
  tombstone : Nat
  newer : ∀ o, object = some o → tombstone < o.stamp
deriving DecidableEq

/-- A place in the order of a name's writes: stamp, a delete last, object id, update stamp. -/
abbrev EntryOrder := Nat ×ₗ (Bool ×ₗ (Bytes ×ₗ Nat))

def objectOrder (o : ObjectMeta) : EntryOrder :=
  toLex (o.stamp, toLex (false, toLex (o.objectId, o.updateStamp)))

def deleteOrder (stamp : Nat) : EntryOrder := toLex (stamp, toLex (true, toLex ([], 0)))

theorem objectOrder_le_iff {a b : ObjectMeta} :
    objectOrder a ≤ objectOrder b ↔ a.writeOrder ≤ b.writeOrder := by
  simp only [objectOrder, ObjectMeta.writeOrder, Prod.Lex.toLex_le_toLex, lt_self_iff_false,
    false_or, true_and]

theorem objectOrder_lt_iff {a b : ObjectMeta} :
    objectOrder a < objectOrder b ↔ a.writeOrder < b.writeOrder := by
  rw [← not_le, ← not_le, objectOrder_le_iff]

variable {stamp : Nat}

theorem objectOrder_lt_delete {o : ObjectMeta} : objectOrder o < deleteOrder stamp ↔ o.stamp ≤ stamp := by
  rw [objectOrder, deleteOrder, Prod.Lex.lt_iff]
  constructor
  · rintro (h | ⟨h, -⟩)
    · exact h.le
    · exact h.le
  · intro h
    rcases h.lt_or_eq with h | h
    · exact .inl h
    · exact .inr ⟨h, Prod.Lex.lt_iff.2 (.inl rfl)⟩

theorem deleteOrder_lt_object {o : ObjectMeta} : deleteOrder stamp < objectOrder o ↔ stamp < o.stamp := by
  rw [deleteOrder, objectOrder, Prod.Lex.lt_iff]
  constructor
  · rintro (h | ⟨-, h⟩)
    · exact h
    · rcases Prod.Lex.lt_iff.1 h with h | h
      · cases h
      · cases h.1
  · exact .inl

theorem deleteOrder_le {a b : Nat} (h : a ≤ b) : deleteOrder a ≤ deleteOrder b := by
  rw [deleteOrder, deleteOrder, Prod.Lex.le_iff]
  rcases h.lt_or_eq with h | h
  · exact .inl h
  · exact .inr ⟨h, le_rfl⟩

namespace Slot

def empty : Slot := ⟨none, 0, nofun⟩

instance : Inhabited Slot := ⟨empty⟩

def supersedes (s : Slot) (o : ObjectMeta) : Bool :=
  s.object.any (fun c => o.writeOrder < c.writeOrder) || o.stamp ≤ s.tombstone

def put (s : Slot) (o : ObjectMeta) : Slot :=
  if h : s.supersedes o then s
  else
    { object := some o
      tombstone := s.tombstone
      newer := fun c hc => by
        cases hc
        have := h
        simp only [supersedes, Bool.or_eq_true, decide_eq_true_eq, not_or, not_le] at this
        exact this.2 }

def heldStamp (s : Slot) : Nat := max (s.object.elim 0 (·.stamp)) s.tombstone

def delete (s : Slot) (stamp : Nat) : Slot :=
  if s.object.any (fun o => stamp < o.stamp) then s
  else ⟨none, max s.tombstone stamp, nofun⟩

def withdraw (s : Slot) (objectId : Bytes) : Slot :=
  if s.object.any (fun o => o.objectId == objectId) then
    ⟨none, s.tombstone, nofun⟩
  else s

def rank (s : Slot) : WithBot EntryOrder :=
  match s.object with
  | some o => objectOrder o
  | none => if s.tombstone = 0 then ⊥ else deleteOrder s.tombstone

variable {s : Slot} {o : ObjectMeta} {stamp : Nat}

theorem rank_object (h : s.object = some o) : s.rank = objectOrder o := by
  rw [rank, h]

theorem delete_le_rank (h : stamp ≤ s.tombstone) (hpos : stamp ≠ 0) :
    (deleteOrder stamp : WithBot EntryOrder) ≤ s.rank := by
  rw [rank]
  cases hs : s.object with
  | some c =>
    have hlt := h.trans_lt (s.newer c hs)
    exact WithBot.coe_le_coe.2 (deleteOrder_lt_object.2 hlt).le
  | none =>
    dsimp only
    rw [if_neg (by omega)]
    exact WithBot.coe_le_coe.2 (deleteOrder_le h)

theorem supersedes_iff : s.supersedes o = true ↔
    (∃ c, s.object = some c ∧ o.writeOrder < c.writeOrder) ∨ o.stamp ≤ s.tombstone := by
  cases h : s.object <;> simp [supersedes, h]

theorem put_of_supersedes (h : s.supersedes o = true) : s.put o = s := by
  rw [put, dif_pos h]

theorem put_object (h : s.supersedes o = false) : (s.put o).object = some o := by
  rw [put, dif_neg (by simp [h])]

@[simp] theorem put_tombstone : (s.put o).tombstone = s.tombstone := by
  rw [put]
  split <;> rfl

theorem order_le_put (h : o.stamp ≠ 0) : (objectOrder o : WithBot EntryOrder) ≤ (s.put o).rank := by
  cases hs : s.supersedes o with
  | true =>
    rw [put_of_supersedes hs]
    rcases supersedes_iff.1 hs with ⟨c, hc, hlt⟩ | hle
    · rw [rank_object hc]
      exact WithBot.coe_le_coe.2 (objectOrder_lt_iff.2 hlt).le
    · refine le_trans (WithBot.coe_le_coe.2 (objectOrder_lt_delete.2 hle).le) (delete_le_rank le_rfl ?_)
      omega
  | false => rw [rank_object (put_object hs)]

/-- **A stamped request never takes a slot back** in the order of the name's writes. -/
theorem rank_le_put : s.rank ≤ (s.put o).rank := by
  cases hs : s.supersedes o with
  | true => rw [put_of_supersedes hs]
  | false =>
    rw [rank_object (put_object hs), rank]
    have hnot : ¬ _ := fun h0 => Bool.false_ne_true (hs ▸ supersedes_iff.2 h0)
    rw [not_or, not_exists, not_le] at hnot
    cases hobj : s.object with
    | some c =>
      have hle := not_lt.1 fun h0 => hnot.1 c ⟨hobj, h0⟩
      exact WithBot.coe_le_coe.2 (objectOrder_le_iff.2 hle)
    | none =>
      dsimp only
      split_ifs
      · exact bot_le
      · exact WithBot.coe_le_coe.2 (deleteOrder_lt_object.2 hnot.2).le

theorem tombstone_le_delete : s.tombstone ≤ (s.delete stamp).tombstone := by
  rw [delete]
  split
  · exact le_rfl
  · exact le_max_left _ _

theorem delete_tombstone_lt {bound : Nat} (h : s.tombstone < bound) (hstamp : stamp < bound) :
    (s.delete stamp).tombstone < bound := by
  rw [delete]
  split
  · exact h
  · exact max_lt h hstamp

theorem rank_le_delete (h : stamp ≠ 0) : s.rank ≤ (s.delete stamp).rank := by
  rw [delete]
  split
  · exact le_rfl
  rename_i hnew
  have hright : (⟨none, max s.tombstone stamp, nofun⟩ : Slot).rank = deleteOrder (max s.tombstone stamp) := by
    rw [rank]
    dsimp only
    rw [if_neg (by omega)]
  rw [hright, rank]
  cases hs : s.object with
  | some c =>
    have hle : c.stamp ≤ stamp := by simpa [hs] using hnew
    exact WithBot.coe_le_coe.2 (objectOrder_lt_delete.2 (hle.trans (le_max_right _ _))).le
  | none =>
    dsimp only
    split_ifs
    · exact bot_le
    · exact WithBot.coe_le_coe.2 (deleteOrder_le (le_max_left _ _))

end Slot

section
variable {s s' : KeyEntries} {o : ObjectMeta} {uuid : Uuids}

def SlotOf (s : KeyEntries) (versionId : Bytes) (slot : Slot) : Prop :=
  slot.object = s.target versionId ∧ slot.tombstone = s.tombstone versionId

def recoveryPut (o : ObjectMeta) (pg : PgId) (versionId : Bytes) : PutObjectMetaRequest :=
  { bucket := o.bucket, key := o.key, object := some o, versionOnly := versionId != [],
    pg := some pg }

def recoveryDelete (bucket key versionId : Bytes) (stamp : Nat) (pg : PgId) : DeleteObjectMetaRequest :=
  { bucket, key, versionId, stamp, pg := some pg }

variable {slot : Slot}

theorem supersedes_eq (h : o.stamp ≠ 0) :
    slot.supersedes o = (Osd.supersedes slot.object o || decide (o.stamp ≤ slot.tombstone)) := by
  simp [Slot.supersedes, Osd.supersedes, h]

/-- A slot is what the OSD's handlers keep of a key, or of one of its versions. -/
theorem slotOf_put (hslot : SlotOf s [] slot) (hstamp : o.stamp ≠ 0)
    (hpool : o.pgPool ≠ []) {pg : PgId} {r : PutObjectMetaResponse}
    (h : putObjectMeta uuid s (recoveryPut o pg []) = .ok (s', r)) :
    SlotOf s' [] (slot.put o) ∧ r.superseded = slot.supersedes o := by
  have hpg : withPg o (some pg) = o := by simp [withPg, hpool]
  have hcond : (Osd.supersedes s.current o || s.deletedSince [] o) = slot.supersedes o := by
    rw [supersedes_eq hstamp, hslot.1, hslot.2]
    simp [target, deletedSince, hstamp]
  have hput : putCurrent s (recoveryPut o pg []) o = .ok (s', r) := by
    simpa [putObjectMeta, recoveryPut, hpg, takesVersionPath, olderReplica] using h
  rw [putCurrent, recoveryPut, hcond] at hput
  cases hs : slot.supersedes o with
  | true =>
    simp only [hs, Bool.not_false, Bool.true_and, ite_true, Except.ok.injEq, Prod.mk.injEq] at hput
    obtain ⟨rfl, rfl⟩ := hput
    exact ⟨by rwa [Slot.put_of_supersedes hs], rfl⟩
  | false =>
    simp only [hs, Bool.not_false, Bool.and_false, preconditionHolds, ite_true, Bool.not_true,
      Bool.false_eq_true, ite_false, Except.ok.injEq, Prod.mk.injEq] at hput
    obtain ⟨rfl, rfl⟩ := hput
    exact ⟨⟨Slot.put_object hs, Slot.put_tombstone.trans hslot.2⟩, rfl⟩

theorem slotOf_putVersion {versionId : Bytes}
    (hv : versionEntryId o.versionId = versionId) (hslot : SlotOf s versionId slot)
    (hstamp : o.stamp ≠ 0) (hpool : o.pgPool ≠ []) {pg : PgId} {r : PutObjectMetaResponse}
    (h : putObjectMeta uuid s (recoveryPut o pg versionId) = .ok (s', r)) :
    SlotOf s' versionId (slot.put o) ∧ r.superseded = slot.supersedes o := by
  have hne : versionId ≠ [] := by
    rw [← hv, versionEntryId]
    split
    · decide
    · assumption
  have hpg : withPg o (some pg) = o := by simp [withPg, hpool]
  have htarget : ∀ t : KeyEntries, t.target versionId = t.versions.get versionId := fun t => by
    rw [target, if_neg hne]
  have hcond : (Osd.supersedes (s.versions.get versionId) o || s.deletedSince versionId o) =
      slot.supersedes o := by
    rw [supersedes_eq hstamp, hslot.1, hslot.2, htarget]
    simp [deletedSince, hstamp]
  have hput : putVersionEntry s (recoveryPut o pg versionId) o = .ok (s', r) := by
    simpa [putObjectMeta, recoveryPut, hpg, takesVersionPath, hne] using h
  rw [putVersionEntry, hv, hcond] at hput
  cases hs : slot.supersedes o with
  | true =>
    rw [hs, if_pos rfl] at hput
    cases hput
    exact ⟨by rwa [Slot.put_of_supersedes hs], rfl⟩
  | false =>
    rw [hs, if_neg Bool.false_ne_true] at hput
    simp only [recoveryPut, preconditionHolds, ite_true, Bool.not_true, Bool.and_false,
      Bool.false_eq_true, ite_false, Except.ok.injEq, Prod.mk.injEq] at hput
    obtain ⟨rfl, rfl⟩ := hput
    refine ⟨⟨?_, Slot.put_tombstone.trans hslot.2⟩, rfl⟩
    rw [Slot.put_object hs, htarget, get_insert, if_pos rfl]

theorem slotOf_delete {bucket key versionId : Bytes} {pg : PgId}
    (hslot : SlotOf s versionId slot) (hstamp : stamp ≠ 0) :
    SlotOf (deleteObjectMeta uuid s (recoveryDelete bucket key versionId stamp pg)).1 versionId
      (slot.delete stamp) := by
  have hcond : (stamp ≠ 0 ∧ (s.target versionId).any (fun o => decide (stamp < o.stamp)) = true) ↔
      slot.object.any (fun o => decide (stamp < o.stamp)) = true := by
    rw [hslot.1, and_iff_right hstamp]
  have htombstone : ∀ pg, (s.putTombstone versionId stamp pg).tombstone versionId =
      max slot.tombstone stamp := fun pg => by
    rw [tombstone_putTombstone, if_pos rfl, hslot.2]
  rw [deleteObjectMeta, recoveryDelete, if_neg (by simp), Slot.delete]
  by_cases hnew : slot.object.any (fun o => decide (stamp < o.stamp)) = true
  · rw [if_pos hnew, if_pos (hcond.2 hnew)]
    exact hslot
  · rw [if_neg hnew, if_neg fun h0 => hnew (hcond.1 h0), if_neg hstamp]
    by_cases hv : versionId = []
    · rw [if_pos hv]
      refine ⟨?_, (htombstone _).symm⟩
      rw [target, if_pos hv]
    · rw [if_neg hv]
      refine ⟨?_, (htombstone _).symm⟩
      rw [target, if_neg hv]
      simp only [get_erase, if_true]

/-- What recovery sends a member about one name: an object, or a delete by its stamp. -/
def recoveryRequest (bucket key versionId : Bytes) (pg : PgId) : ObjectMeta ⊕ Nat → Request
  | .inl o => .put (recoveryPut o pg versionId)
  | .inr stamp => .delete (recoveryDelete bucket key versionId stamp pg)

def Slot.take (slot : Slot) : ObjectMeta ⊕ Nat → Slot
  | .inl o => slot.put o
  | .inr stamp => slot.delete stamp

def IsEntry (versionId : Bytes) : ObjectMeta ⊕ Nat → Prop
  | .inl o => o.stamp ≠ 0 ∧ o.pgPool ≠ [] ∧ (versionId ≠ [] → versionEntryId o.versionId = versionId)
  | .inr stamp => stamp ≠ 0

theorem recoveryPut_ok : ∃ p, putObjectMeta uuid s (recoveryPut o pg versionId) = .ok p := by
  unfold putObjectMeta recoveryPut
  dsimp only
  rw [if_neg Bool.false_ne_true]
  split
  · unfold putVersionEntry
    dsimp only
    split
    · exact ⟨_, rfl⟩
    · rw [if_neg (by simp [preconditionHolds])]
      exact ⟨_, rfl⟩
  · unfold putCurrent
    split
    · exact ⟨_, rfl⟩
    · rw [if_neg (by simp [preconditionHolds])]
      exact ⟨_, rfl⟩

theorem SlotOf.apply {slot : Slot} {r : ObjectMeta ⊕ Nat} (hr : IsEntry versionId r) (h : SlotOf s versionId slot) :
    SlotOf (s.apply uuid (recoveryRequest bucket key versionId pg r)) versionId (slot.take r) := by
  cases r with
  | inr stamp => exact slotOf_delete h hr
  | inl o =>
    obtain ⟨hstamp, hpool, hv⟩ := hr
    obtain ⟨⟨s', resp⟩, hok⟩ : ∃ p, putObjectMeta uuid s (recoveryPut o pg versionId) = .ok p := recoveryPut_ok
    rw [recoveryRequest, KeyEntries.apply, hok]
    by_cases hne : versionId = []
    · subst hne
      exact (slotOf_put h hstamp hpool hok).1
    · exact (slotOf_putVersion (hv hne) h hstamp hpool hok).1

/-- **A slot is what an OSD makes of recovery's requests**: after any of them about one name, of the key or of one
version, the OSD's entry and tombstone are those of the slot that took the same. -/
theorem slots_refine_entries (uuid : Uuids) (bucket key : Bytes) (pg : PgId) : ∀ (rs : List (ObjectMeta ⊕ Nat))
    (s : KeyEntries) (slot : Slot), (∀ r ∈ rs, IsEntry versionId r) → SlotOf s versionId slot →
      SlotOf (s.run uuid (rs.map (recoveryRequest bucket key versionId pg))) versionId (rs.foldl Slot.take slot)
  | [], _, _, _, h => h
  | r :: rs, _, _, hrs, h =>
    slots_refine_entries uuid bucket key pg rs _ _ (fun r' hr' => hrs r' (mem_cons_of_mem _ hr'))
      (h.apply (hrs r mem_cons_self))

theorem put_and_delete_refine :
    let rs : List (ObjectMeta ⊕ Nat) := [.inl { objectId := [1], pgPool := [2], stamp := 5 }, .inr 7]
    SlotOf (KeyEntries.run noUuids {} (rs.map (recoveryRequest [] [] [] ⟨[2], 0⟩))) [] (rs.foldl Slot.take .empty) :=
  slots_refine_entries noUuids [] [] _ _ {} .empty (by simp [IsEntry]) ⟨rfl, rfl⟩

end

/-! ## Listings -/

structure ShardId where
  objectId : Bytes
  stripeId : Nat
  position : Nat
deriving DecidableEq, Repr

/-- The id a stripe's shards are stored under: its own, else its object's. -/
def shardObject (object : ObjectMeta) (stripe : StripeMeta) : Bytes :=
  if stripe.objectId = [] then object.objectId else stripe.objectId

def shardId (object : ObjectMeta) (stripe : StripeMeta) (position : Nat) : ShardId :=
  ⟨shardObject object stripe, stripe.stripeId, position⟩

structure GroupCopy where
  slots : OrdMap EntryName Slot
  shards : List ShardId
deriving DecidableEq

namespace GroupCopy

def empty : GroupCopy := ⟨OrdMap.empty, []⟩

def slot (c : GroupCopy) (name : EntryName) : Slot := (c.slots.get name).getD Slot.empty

def setSlot (c : GroupCopy) (name : EntryName) (s : Slot) : GroupCopy :=
  { c with slots := c.slots.insert name s }

@[simp] theorem slot_setSlot (c : GroupCopy) (name name' : EntryName) (s : Slot) :
    (c.setSlot name s).slot name' = if name' = name then s else c.slot name' := by
  rw [slot, setSlot, get_insert]
  split <;> rfl

@[simp] theorem shards_setSlot (c : GroupCopy) (name : EntryName) (s : Slot) :
    (c.setSlot name s).shards = c.shards := rfl

end GroupCopy

structure ListedEntry where
  tombstone : Bool
  stamp : Nat
  objectId : Bytes
  updateStamp : Nat
  stripes : Nat
  positionsShort : Nat
  namedHere : Nat
  heldHere : Nat
  needed : Nat
  size : Nat
deriving DecidableEq, Repr

def ListedEntry.order (e : ListedEntry) : EntryOrder :=
  toLex (e.stamp, toLex (e.tombstone, toLex (e.objectId, e.updateStamp)))

def namedAt (node : OsdId) (stripe : StripeMeta) : List Nat :=
  ((stripe.shards.filter (fun l => l.nodeId == node)).map (·.position)).dedup

def heldAt (node : OsdId) (shards : List ShardId) (object : ObjectMeta) (stripe : StripeMeta) : List Nat :=
  (namedAt node stripe).filter (fun p => shardId object stripe p ∈ shards)

def objectListed (node : OsdId) (shards : List ShardId) (o : ObjectMeta) : ListedEntry where
  tombstone := false
  stamp := o.stamp
  objectId := o.objectId
  updateStamp := o.updateStamp
  stripes := (ownStripes o).length
  positionsShort := ((ownStripes o).map fun s =>
    s.ecK + s.ecM - (s.shards.map (·.position)).dedup.length).sum
  namedHere := ((ownStripes o).map fun s => (namedAt node s).length).sum
  heldHere := ((ownStripes o).map fun s => (heldAt node shards o s).length).sum
  needed := o.stripes.head?.elim 1 (fun s => max s.ecK 1)
  size := o.size

def deleteListed (stamp : Nat) : ListedEntry where
  tombstone := true
  stamp := stamp
  objectId := []
  updateStamp := 0
  stripes := 0
  positionsShort := 0
  namedHere := 0
  heldHere := 0
  needed := 0
  size := 0

def Slot.listed (node : OsdId) (shards : List ShardId) (s : Slot) : Option ListedEntry :=
  match s.object with
  | some o => some (objectListed node shards o)
  | none => if s.tombstone = 0 then none else some (deleteListed s.tombstone)

theorem Slot.listed_order (node : OsdId) (shards : List ShardId) (s : Slot) :
    ((s.listed node shards).map ListedEntry.order : WithBot EntryOrder) = s.rank := by
  rw [listed, rank]
  cases s.object with
  | some o => rfl
  | none =>
    dsimp only
    split_ifs <;> rfl

abbrev Listing := OrdMap EntryName ListedEntry

def listing (node : OsdId) (c : GroupCopy) : Listing :=
  c.slots.filterMapValues fun _ s => s.listed node c.shards

theorem get_listing (node : OsdId) (c : GroupCopy) (name : EntryName) :
    (listing node c).get name = (c.slot name).listed node c.shards := by
  rw [listing, get_filterMapValues, GroupCopy.slot]
  cases c.slots.get name <;> rfl

structure Newest where
  entry : ListedEntry
  holders : List OsdId
deriving DecidableEq, Repr

def mergeEntry (newest : Option Newest) (osd : OsdId) (entry : Option ListedEntry) : Option Newest :=
  match entry, newest with
  | none, newest => newest
  | some e, none => some ⟨e, [osd]⟩
  | some e, some n =>
    if n.entry.order < e.order then some ⟨e, [osd]⟩
    else if e.order = n.entry.order then some { n with holders := n.holders ++ [osd] }
    else some n

def newestAt (listed : List (OsdId × Listing)) (name : EntryName) : Option Newest :=
  listed.foldl (fun newest l => mergeEntry newest l.1 (l.2.get name)) none

variable {n : Newest}

section
variable {listed : List (OsdId × Listing)} {name : EntryName}

theorem newestAt_append (l : OsdId × Listing) :
    newestAt (listed ++ [l]) name = mergeEntry (newestAt listed name) l.1 (l.2.get name) := by
  simp [newestAt]

theorem newestAt_eq_none (h : newestAt listed name = none) {l : OsdId × Listing}
    (hl : l ∈ listed) : l.2.get name = none := by
  induction listed using reverseRecOn with
  | nil => cases hl
  | append_singleton listed last ih =>
    rw [newestAt_append] at h
    unfold mergeEntry at h
    split at h
    · rename_i hlast
      rcases mem_append.1 hl with hl | hl
      · exact ih h hl
      · rwa [mem_singleton.1 hl]
    · cases h
    · split_ifs at h

/-- The merge of the listings has the newest entry of each name. -/
theorem newestAt_spec (h : newestAt listed name = some n) : (∃ l ∈ listed, l.2.get name = some n.entry) ∧
      ∀ l ∈ listed, ∀ e, l.2.get name = some e → e.order ≤ n.entry.order := by
  induction listed using reverseRecOn generalizing n with
  | nil => cases h
  | append_singleton listed last ih =>
    rw [newestAt_append] at h
    simp only [mem_append, mem_singleton, or_imp, forall_and, forall_eq]
    unfold mergeEntry at h
    split at h
    · rename_i hlast
      obtain ⟨⟨l, hl, hentry⟩, hle⟩ := ih h
      exact ⟨⟨l, .inl hl, hentry⟩, hle, by simp [hlast]⟩
    · rename_i e hlast hnone
      cases h
      refine ⟨⟨last, .inr rfl, hlast⟩, fun l hl e' he' => ?_, by simp [hlast]⟩
      rw [newestAt_eq_none hnone hl] at he'
      cases he'
    · rename_i e n₀ hlast hn₀
      obtain ⟨⟨l, hl, hentry⟩, hle⟩ := ih hn₀
      split_ifs at h with hlt heq <;> cases h
      · exact ⟨⟨last, .inr rfl, hlast⟩, fun l hl e' he' => (hle l hl e' he').trans hlt.le, by simp [hlast]⟩
      · exact ⟨⟨l, .inl hl, hentry⟩, hle, by simp [hlast, heq]⟩
      · exact ⟨⟨l, .inl hl, hentry⟩, hle, by simpa [hlast] using hlt⟩

end

/-! ## The plan -/

inductive Standing where
  | behind
  | short
  | complete
  | gone
deriving DecidableEq, Repr

def standing (newest : ListedEntry) (entry : Option ListedEntry) : Standing :=
  if newest.tombstone then if entry.any (fun e => !e.tombstone) then .behind else .gone
  else
    match entry with
    | some e =>
      if e.order = newest.order then
        if e.namedHere < e.stripes ∨ e.heldHere < e.namedHere then .short else .complete
      else .behind
    | none => .behind

structure Work where
  name : EntryName
  newest : ListedEntry
  holders : List OsdId
  /-- The acting positions whose member has no copy of it or an older one; where it is a delete, an
  object. -/
  behind : List Nat
  spare : Int
deriving DecidableEq

def ListedEntry.copiesNeeded (e : ListedEntry) : Nat := if e.stripes = 0 then 1 else max e.needed 1

def workOf (listings : List (Option Listing)) (name : EntryName) (n : Newest) : Option Work :=
  let standings := listings.map fun l => l.map fun l => standing n.entry (l.get name)
  let behind := (range standings.length).filter (fun p => standings[p]? = some (some .behind))
  let complete := standings.count (some .complete)
  let short := decide (0 < n.entry.positionsShort) || standings.contains (some .short)
  if behind = [] ∧ short = false then none
  else
    some { name, newest := n.entry, holders := n.holders, behind
           spare := complete - n.entry.copiesNeeded }

structure Plan where
  work : List Work
  members : List (Option OsdId)
  strays : List (OsdId × EntryName × Bytes)
  /-- The listings it was made from: the acting members' that answered, then the strays'. -/
  listed : List (OsdId × Listing)

def strayIds (pg : PlacementGroup OsdId) : List OsdId :=
  (((pg.filling.map (·.from_)) ++ pg.up).insertionSort (· ≤ ·)).dedup.filter
    (fun id => id ∉ pg.acting)

def strayObjects (strays : List (OsdId × Listing)) : List (OsdId × EntryName × Bytes) :=
  strays.flatMap fun l => (l.2.entries.filter fun e => !e.2.tombstone && e.1.split.2 == []).map
    fun e => (l.1, e.1, e.2.objectId)

/-- The plan of a group whose members have `copies`, of which those `usable` that `answer` list. -/
def recoveryPlan (copies : OsdId → GroupCopy) (pg : PlacementGroup OsdId)
    (usable answer : OsdId → Bool) : Except String Plan :=
  let members := pg.acting.map fun id => if usable id && answer id then some id else none
  let listings := members.map fun m => m.map fun id => listing id (copies id)
  let answered := members.countP isSome
  let quorum := metaReadQuorum pg.acting.length
  if answered < quorum then
    .error (toString answered ++ " of " ++ toString pg.acting.length ++
      " members answered, a read needs " ++ toString quorum)
  else
    let strays := ((strayIds pg).filter (fun id => usable id && answer id)).map
      fun id => (id, listing id (copies id))
    let listed := (members.filterMap id).map (fun id => (id, listing id (copies id))) ++ strays
    let names := (listed.flatMap fun l => l.2.entries.map (·.1)).dedup
    let work := names.filterMap fun name => (newestAt listed name).bind (workOf listings name)
    .ok
      { work := work.insertionSort fun a b =>
          toLex (a.spare, a.name.cursor) ≤ toLex (b.spare, b.name.cursor)
        members, strays := strayObjects strays, listed }

variable {p : Nat}

section
variable {listings : List (Option Listing)} {name : EntryName} {n : Newest} {w : Work}

section
variable (h : workOf listings name n = some w)
include h

theorem name_of_workOf : w.name = name := by
  rw [workOf] at h
  split_ifs at h
  cases h
  rfl

theorem newest_of_workOf : w.newest = n.entry := by
  rw [workOf] at h
  split_ifs at h
  cases h
  rfl

theorem mem_behind : p ∈ w.behind ↔ ∃ l, listings[p]? = some (some l) ∧
      standing n.entry (l.get name) = .behind := by
  rw [workOf] at h
  split_ifs at h
  cases h
  rw [mem_filter, mem_range, length_map, decide_eq_true_iff, getElem?_map]
  constructor
  · rintro ⟨-, hp⟩
    obtain ⟨o, ho, hmap⟩ := map_eq_some_iff.1 hp
    obtain ⟨l, rfl, hl⟩ := map_eq_some_iff.1 hmap
    exact ⟨l, ho, hl⟩
  · rintro ⟨l, hl, hb⟩
    exact ⟨(List.getElem?_eq_some_iff.1 hl).1, by rw [hl, ← hb]; rfl⟩

end

theorem standing_of_workOf_none (h : workOf listings name n = none) {l : Listing}
    (hl : listings[p]? = some (some l)) :
    standing n.entry (l.get name) ≠ .behind ∧ standing n.entry (l.get name) ≠ .short := by
  rw [workOf] at h
  split_ifs at h with hnone
  obtain ⟨hbehind, hshort⟩ := hnone
  have hat : (listings.map fun l => l.map fun l => standing n.entry (l.get name))[p]? =
      some (some (standing n.entry (l.get name))) := by
    rw [getElem?_map, hl]
    rfl
  refine ⟨fun h0 => ?_, fun h0 => ?_⟩
  · rw [filter_eq_nil_iff] at hbehind
    refine hbehind p (List.mem_range.2 (List.getElem?_eq_some_iff.1 hat).1) ?_
    rw [hat, h0]
    exact decide_eq_true rfl
  · rw [Bool.or_eq_false_iff] at hshort
    refine Bool.false_ne_true (hshort.2.symm.trans ?_)
    rw [contains_iff_mem]
    exact mem_of_getElem? (h0 ▸ hat)

end

section
variable {copies : OsdId → GroupCopy} {pg : PlacementGroup OsdId} {usable answer : OsdId → Bool} {plan : Plan}
  {id : OsdId}

section
variable (h : recoveryPlan copies pg usable answer = .ok plan)
include h

theorem members_of_plan : plan.members = pg.acting.map fun id => if usable id && answer id then some id else none := by
  rw [recoveryPlan] at h
  dsimp only at h
  split_ifs at h
  cases h
  rfl

theorem listed_of_plan {l : OsdId × Listing} (hl : l ∈ plan.listed) : l.2 = listing l.1 (copies l.1) := by
  rw [recoveryPlan] at h
  dsimp only at h
  split_ifs at h
  cases h
  rcases mem_append.1 hl with hl | hl
  · obtain ⟨id, -, rfl⟩ := mem_map.1 hl
    rfl
  · obtain ⟨id, -, rfl⟩ := mem_map.1 hl
    rfl

theorem member_listed (hp : plan.members[p]? = some (some id)) : (id, listing id (copies id)) ∈ plan.listed := by
  have hmembers := members_of_plan h
  rw [recoveryPlan] at h
  dsimp only at h
  split_ifs at h
  cases h
  refine mem_append_left _ (mem_map.2 ⟨id, mem_filterMap.2 ⟨some id, ?_, rfl⟩, rfl⟩)
  exact mem_of_getElem? hp

theorem mem_work {name : EntryName} (hn : newestAt plan.listed name = some n) (w : Work) :
    (w ∈ plan.work ∧ w.name = name) ↔
      workOf (plan.members.map fun m => m.map fun id => listing id (copies id)) name n = some w := by
  rw [recoveryPlan] at h
  dsimp only at h
  split_ifs at h
  cases h
  dsimp only at hn ⊢
  obtain ⟨⟨l, hl, hentry⟩, -⟩ := newestAt_spec hn
  rw [mem_insertionSort, mem_filterMap]
  constructor
  · rintro ⟨⟨name', -, hw⟩, hname⟩
    obtain ⟨n', hn', hw'⟩ := bind_eq_some_iff.1 hw
    have hsame : name' = name := (name_of_workOf hw').symm.trans hname
    subst hsame
    rw [hn] at hn'
    cases hn'
    exact hw'
  · intro hw
    refine ⟨⟨name, ?_, by rw [hn]; exact hw⟩, name_of_workOf hw⟩
    rw [mem_dedup, mem_flatMap]
    exact ⟨l, hl, mem_map.2 ⟨_, mem_entries.2 hentry, rfl⟩⟩

theorem newest_of_mem_work {w : Work} (hw : w ∈ plan.work) : ∃ n, newestAt plan.listed w.name = some n ∧
      workOf (plan.members.map fun m => m.map fun id => listing id (copies id)) w.name n = some w := by
  rw [recoveryPlan] at h
  dsimp only at h
  split_ifs at h
  cases h
  rw [mem_insertionSort, mem_filterMap] at hw
  obtain ⟨name, -, hw⟩ := hw
  obtain ⟨n, hn, hw⟩ := bind_eq_some_iff.1 hw
  have hname := name_of_workOf hw
  subst hname
  exact ⟨n, hn, hw⟩

end

theorem listing_of_member (hp : plan.members[p]? = some (some id)) :
    (plan.members.map fun m => m.map fun id => listing id (copies id))[p]? =
      some (some (listing id (copies id))) := by
  rw [getElem?_map, hp]
  rfl

theorem acting_of_member (h : recoveryPlan copies pg usable answer = .ok plan)
    (hp : plan.members[p]? = some (some id)) : pg.acting[p]? = some id := by
  rw [members_of_plan h, getElem?_map] at hp
  obtain ⟨x, hx, hmap⟩ := map_eq_some_iff.1 hp
  split at hmap
  · cases hmap
    exact hx
  · cases hmap

theorem newest_stamp_ne_zero (h : recoveryPlan copies pg usable answer = .ok plan)
    {name : EntryName} (hn : newestAt plan.listed name = some n) : n.entry.stamp ≠ 0 := by
  obtain ⟨⟨l, hl, hentry⟩, -⟩ := newestAt_spec hn
  rw [listed_of_plan h hl, get_listing, Slot.listed] at hentry
  split at hentry
  · rename_i o ho
    have hpos := ((copies l.1).slot name).newer o ho
    rw [← some.inj hentry]
    exact Nat.ne_of_gt (Nat.zero_lt_of_lt hpos)
  · split_ifs at hentry with hzero
    rw [← some.inj hentry]
    exact hzero

end

end IoLake.Meta
