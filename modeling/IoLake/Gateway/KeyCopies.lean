import IoLake.Gateway.OneKey
import IoLake.Osd.KeyRuns

/-!
# The copies are the OSDs'

`Copy.handle` is what `put_object_meta` and `delete_object_meta` do to the current entry and the tombstone of
an unversioned key, for messages that carry a stamp (`copies_refine_entries`).
-/

namespace IoLake.Gateway.OneKey

open List Osd Proto KeyEntries

variable {B : Type}

/-- How records are stored: under ids in the order of the bytes, with their stamps. -/
structure StoredAs (ids : Nat → Bytes) (object : Rec B → ObjectMeta) : Prop where
  ne_nil : ∀ id, ids id ≠ []
  lt_iff : ∀ a b, ids a < ids b ↔ a < b
  objectId : ∀ r, (object r).objectId = ids r.id
  stamp : ∀ r, (object r).stamp = r.stamp
  updateStamp : ∀ r, (object r).updateStamp = r.update

def putRequest (ids : Nat → Bytes) (object : Rec B → ObjectMeta) (r : Rec B) (expected : Option Nat) :
    PutObjectMetaRequest where
  object := some (object r)
  expectedObjectId := expected.elim [] ids
  requireExisting := expected.isSome

/-- The request of a message about an unversioned key. -/
def Msg.request (ids : Nat → Bytes) (object : Rec B → ObjectMeta) : Msg B → Request
  | .put r expected => .put (putRequest ids object r expected)
  | .delete stamp => .delete { stamp := stamp }

def CopyOf (object : Rec B → ObjectMeta) (s : KeyEntries) (c : Copy B) : Prop :=
  s.current = c.current.map object ∧ s.tombstone [] = c.tombstone

variable {ids : Nat → Bytes} {object : Rec B → ObjectMeta} {s : KeyEntries} {c : Copy B}
  {r : Rec B}

theorem StoredAs.ids_inj (h : StoredAs ids object) {a b : Nat} : ids a = ids b ↔ a = b := by
  refine ⟨fun heq => ?_, congrArg ids⟩
  have hab := (h.lt_iff a b).not.1 (heq ▸ lt_irrefl _)
  have hba := (h.lt_iff b a).not.1 (heq ▸ lt_irrefl _)
  omega

theorem StoredAs.writeOrder_lt (h : StoredAs ids object) (a b : Rec B) :
    (object a).writeOrder < (object b).writeOrder ↔ a.before b = true := by
  simp [ObjectMeta.writeOrder, Prod.Lex.toLex_lt_toLex, Rec.before, h.objectId, h.stamp, h.updateStamp,
    h.lt_iff, h.ids_inj]

theorem CopyOf.put (hstored : StoredAs ids object) (h : CopyOf object s c) (uuid : Uuids) (hstamp : r.stamp ≠ 0)
    (expected : Option Nat) : CopyOf object (s.apply uuid ((Msg.put r expected).request ids object))
      (c.handle (.put r expected)).1 := by
  have hsuper : (supersedes s.current (object r) || s.deletedSince [] (object r)) =
      (c.current.any r.before || decide (r.stamp ≤ c.tombstone)) := by
    rw [supersedes, deletedSince, h.1, h.2, hstored.stamp, decide_eq_true hstamp, Bool.true_and, Bool.true_and,
      Option.any_map]
    congr 2
    funext b
    simp [hstored.writeOrder_lt r b]
  have hcond : preconditionHolds s.current (expected.elim [] ids) expected.isSome =
      !(expected.any fun e => decide (c.current.map Rec.id ≠ some e)) := by
    rw [h.1]
    cases expected with
    | none => simp [preconditionHolds]
    | some e =>
      cases c.current with
      | none => simp [preconditionHolds, hstored.ne_nil]
      | some b =>
        have hid : (ids b.id == ids e) = decide (b.id = e) := Bool.eq_iff_iff.2 (by simp [hstored.ids_inj])
        simp [preconditionHolds, hstored.ne_nil, hstored.objectId, hid]
  have hput : putObjectMeta uuid s (putRequest ids object r expected) =
      putCurrent s (putRequest ids object r expected) (object r) := rfl
  rw [Msg.request, KeyEntries.apply, hput, putCurrent, putRequest, hsuper, hcond, Copy.handle, Bool.not_false,
    Bool.true_and, Bool.not_not]
  by_cases hs : (c.current.any r.before || decide (r.stamp ≤ c.tombstone)) = true
  · rw [if_pos hs, if_pos hs]
    exact h
  · rw [if_neg hs, if_neg hs]
    by_cases he : (expected.any fun e => decide (c.current.map Rec.id ≠ some e)) = true
    · rw [if_pos he, if_pos he]
      exact h
    · rw [if_neg he, if_neg he]
      exact ⟨rfl, h.2⟩

theorem CopyOf.delete (hstored : StoredAs ids object) (h : CopyOf object s c) (uuid : Uuids) {stamp : Nat}
    (hstamp : stamp ≠ 0) : CopyOf object (s.apply uuid ((Msg.delete stamp : Msg B).request ids object))
      (c.handle (.delete stamp)).1 := by
  have hnewer : (s.target []).any (fun o => decide (stamp < o.stamp)) =
      c.current.any fun r => decide (stamp < r.stamp) := by
    rw [target, if_pos rfl, h.1, Option.any_map]
    simp only [hstored.stamp]
  rw [Msg.request, KeyEntries.apply, deleteObjectMeta, if_neg (by simp), Copy.handle]
  by_cases hn : (c.current.any fun r => decide (stamp < r.stamp)) = true
  · rw [if_pos ⟨hstamp, hnewer.trans hn⟩, if_pos hn]
    exact h
  · rw [if_neg fun hboth => hn (hnewer.symm.trans hboth.2), if_neg hn, if_neg hstamp, if_pos rfl]
    refine ⟨rfl, (tombstone_putTombstone _ _ _ _ _).trans ?_⟩
    rw [if_pos rfl, h.2]

theorem CopyOf.handle (hstored : StoredAs ids object) (h : CopyOf object s c) (uuid : Uuids) {m : Msg B}
    (hstamp : m.stamp ≠ 0) : CopyOf object (s.apply uuid (m.request ids object)) (c.handle m).1 := by
  cases m with
  | put r expected => exact CopyOf.put hstored h uuid hstamp expected
  | delete stamp => exact CopyOf.delete hstored h uuid hstamp

/-- **A copy is what an OSD keeps of an unversioned key**: after any stamped messages, the OSD's entry and
tombstone are those of the copy that handled the same. -/
theorem copies_refine_entries (hstored : StoredAs ids object) (uuid : Uuids) : ∀ (msgs : List (Msg B))
    (s : KeyEntries) (c : Copy B), (∀ m ∈ msgs, m.stamp ≠ 0) → CopyOf object s c →
      CopyOf object (s.run uuid (msgs.map (Msg.request ids object))) (msgs.foldl (fun c m => (c.handle m).1) c)
  | [], _, _, _, h => h
  | m :: msgs, _, _, hm, h =>
    copies_refine_entries hstored uuid msgs _ _ (fun m' hm' => hm m' (mem_cons_of_mem _ hm'))
      (CopyOf.handle hstored h uuid (hm m mem_cons_self))

end IoLake.Gateway.OneKey
