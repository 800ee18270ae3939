import IoLake.Gateway.MetaCalls

/-!
# Copies by reference (`gateway/src/s3/copy.rs`)

A copy registers itself as a referrer of the source's stripes before it writes the object that uses them.  Of
meta's registry only what it has under the copy's id is modelled, `held`.
-/

namespace IoLake.Gateway.CopyByReference

open Proto List

def META_MAX_OPS : Nat := 256

inductive Share where
  | ok | failedPrecondition | error
deriving DecidableEq

inductive Commit where
  | stored
  | unapplied
  | maybeStored

structure Calls where
  srcPlacement : Bool := true
  source : Option ObjectMeta
  encrypted : Bool := false
  asksSseC : Bool := false
  sseDecision : Option Bool := some false
  quota : Bool := true
  share : Nat → Share := fun _ => .ok
  still : Option ObjectMeta := source
  destPlacement : Bool := true
  versioning : Bool := true
  lock : Bool := true
  replacesTags : Bool := false
  taggingHeader : Bool := true
  commit : Commit := .stored

inductive Ending where
  | fallBack
  | refused
  | unapplied
  | maybeStored
  | stored
deriving DecidableEq

def stripeIds (source : ObjectMeta) : List Bytes :=
  (source.stripes.map (·.objectId)).dedup.insertionSort (· ≤ ·)

def backOutOf (source : ObjectMeta) (shared held : List Bytes) : List Bytes :=
  let targets := stripeTargets (source.stripes.filter fun s => s.objectId ∈ shared)
  held.filter fun id => id ∉ targets.map (·.objectId)

def shareBatches (share : Nat → Share) (ids : List Bytes) : Nat → Nat → List Bytes →
    List Bytes × Option (Nat × Share)
  | 0, _, held => (held, none)
  | n + 1, i, held =>
    match share i with
    | .ok => shareBatches share ids n (i + 1) (held ++ (ids.drop (i * META_MAX_OPS)).take META_MAX_OPS)
    | refused => (held, some (i, refused))

def destination (c : Calls) (source : ObjectMeta) (held : List Bytes) : List Bytes × Ending :=
  let backOut := backOutOf source (stripeIds source) held
  if stripeIds source ≠ [] ∧ ¬ c.still.any (·.objectId = source.objectId) then (backOut, .fallBack)
  else if !c.destPlacement || !c.versioning || !c.lock then (backOut, .refused)
  -- the one exit that does not back out
  else if c.replacesTags && !c.taggingHeader then (held, .refused)
  else
    match c.commit with
    | .stored => (held, .stored)
    | .unapplied => (backOut, .unapplied)
    | .maybeStored => (held, .maybeStored)

def applies (c : Calls) (source : ObjectMeta) : Bool :=
  c.srcPlacement && !source.isDeleteMarker && !c.encrypted && source.objectId ≠ [] && !c.asksSseC &&
    c.sseDecision = some false

def batches (ids : List Bytes) : Nat := (ids.length + META_MAX_OPS - 1) / META_MAX_OPS

def copyByReference (c : Calls) : List Bytes × Ending :=
  match c.source with
  | none => ([], .fallBack)
  | some source =>
    if !applies c source then ([], .fallBack)
    else if !c.quota then ([], .refused)
    else
      let ids := stripeIds source
      match shareBatches c.share ids (batches ids) 0 [] with
      | (held, none) => destination c source held
      | (held, some (i, refused)) =>
        let done := ids.take (i * META_MAX_OPS)
        (if done = [] then held else backOutOf source done held,
          if refused = .failedPrecondition then .fallBack else .refused)

def Written (s : StripeMeta) : Prop :=
  s.objectId ≠ [] ∧ (s.packId = s.objectId ∨ s.packId = [] ∧ ∃ l ∈ s.shards, l.nodeId ≠ [])

section
variable {source : ObjectMeta} (hwritten : ∀ s ∈ source.stripes, Written s)
include hwritten

theorem backOutOf_held (shared held : List Bytes) (hheld : held ⊆ shared) (hids : held ⊆ stripeIds source) :
    backOutOf source shared held = [] := by
  refine filter_eq_nil_iff.2 fun id hid => ?_
  have hmem := hids hid
  rw [stripeIds, mem_insertionSort, mem_dedup] at hmem
  obtain ⟨s, hs, rfl⟩ := mem_map.1 hmem
  obtain ⟨hne, hplace⟩ := hwritten s hs
  have htarget : ∃ t ∈ stripeTarget s, t.objectId = s.objectId ∧ (t.isPackMarker || t.nodeId != []) = true := by
    rcases hplace with hpack | ⟨hpack, l, hl, hnode⟩
    · rw [stripeTarget, if_neg (hpack ▸ hne)]
      exact ⟨_, mem_singleton_self _, hpack, rfl⟩
    · rw [stripeTarget, if_pos hpack]
      exact ⟨_, mem_map_of_mem hl, rfl, by simp [hnode]⟩
  obtain ⟨t, ht, hid', hkept⟩ := htarget
  have hlisted : t ∈ stripeTargets (source.stripes.filter fun s => s.objectId ∈ shared) := by
    simp only [stripeTargets, mem_eraseDups, mem_filter, mem_flatMap]
    exact ⟨⟨s, ⟨⟨hs, by simpa using hheld hid⟩, by simp [hne]⟩, ht⟩, hkept⟩
  simpa using ⟨t, hlisted, hid'⟩

end

/-- What is held when a batch is refused is what the copy then backs out of. -/
theorem shareBatches_held (share : Nat → Share) (ids : List Bytes) (n i : Nat) :
    (shareBatches share ids n i (ids.take (i * META_MAX_OPS))).1 = ids.take
      ((((shareBatches share ids n i (ids.take (i * META_MAX_OPS))).2.map (·.1)).getD (i + n)) * META_MAX_OPS) := by
  induction n generalizing i with
  | zero => rfl
  | succ n ih =>
    rw [shareBatches]
    split
    · rw [← take_add, ← Nat.succ_mul, ih, Nat.succ_add_eq_add_succ]
    · rfl

theorem shareBatches_none (share : Nat → Share) (ids held : List Bytes) (n i : Nat) :
    (shareBatches share ids n i held).2 = none ↔ ∀ j < n, share (i + j) = .ok := by
  induction n generalizing i held with
  | zero => simp [shareBatches]
  | succ n ih =>
    rw [shareBatches, Nat.forall_lt_succ_left, Nat.add_zero]
    split
    · rename_i hok
      simp [ih, hok, Nat.add_assoc, Nat.add_comm 1]
    · rename_i hrefused
      simpa using fun hok => absurd hok hrefused

theorem take_batches (ids : List Bytes) : ids.take ((0 + batches ids) * META_MAX_OPS) = ids := by
  refine take_of_length_le ?_
  unfold batches META_MAX_OPS
  omega

def ReachesTags (c : Calls) (source : ObjectMeta) : Prop :=
  applies c source = true ∧ c.quota = true ∧ (∀ i < batches (stripeIds source), c.share i = .ok) ∧
    c.still.any (·.objectId = source.objectId) = true ∧ (c.destPlacement && c.versioning && c.lock) = true

def oneStripe : ObjectMeta where
  objectId := [1]
  stripes := [{ objectId := [1], shards := [⟨0, [7]⟩] }]

end IoLake.Gateway.CopyByReference
