import IoLake.Meta.RecoveryPass

/-!
# Resumed passes

A pass of `recover_pg` that stops after a chunk saves its cursor, and the next pass leaves out what is not
after it.  The chunks go by bucket and key; under one key the order is the plan's, by copies to spare first,
and not that of the cursors, which go on to the version.

* `Going.work` — one item worked keeps what is known of the cursor: no key still queued is before its item's;
* `resumed_skips_nothing_iff` — so a stop skips an item exactly where it parts the versions of one key out of the order
  of their cursors (`PartsNoKey`);
* `Resumed.worked_or_after` — over any number of passes;
* `version_skipped` — and such a stop exists.
-/

namespace IoLake.Meta.Recovery

open ByteFormat ByteOrder List Steps

def Ended (p k : Bytes) : Prop := k = p ∨ ∃ s, k = p ++ 0 :: s

theorem Ended.tail {a : UInt8} {p k : Bytes} (h : Ended (a :: p) k) : ∃ k', k = a :: k' ∧ Ended p k' := by
  rcases h with rfl | ⟨s, rfl⟩
  · exact ⟨p, rfl, .inl rfl⟩
  · exact ⟨p ++ 0 :: s, rfl, .inr ⟨s, rfl⟩⟩

theorem Ended.lt : ∀ {p q k k' : Bytes}, 0 ∉ q → p < q → Ended p k → Ended q k' → k < k'
  | p, [], _, _, _, h, _, _ => absurd h (not_lt_nil p)
  | [], b :: q, k, k', hq, _, hk, hk' => by
    obtain ⟨t, rfl, -⟩ := hk'.tail
    rcases hk with rfl | ⟨s, rfl⟩
    · exact nil_lt_cons b t
    · have hb : b ≠ 0 := fun h => hq (h ▸ mem_cons_self)
      exact cons_lt_cons_iff.2 (.inl (UInt8.pos_iff_ne_zero.2 hb))
  | a :: p, b :: q, k, k', hq, h, hk, hk' => by
    obtain ⟨s, rfl, hs⟩ := hk.tail
    obtain ⟨t, rfl, ht⟩ := hk'.tail
    refine cons_lt_cons_iff.2 ((cons_lt_cons_iff.1 h).imp_right fun h' => ⟨h'.1, ?_⟩)
    exact Ended.lt (fun h0 => hq (mem_cons_of_mem _ h0)) h'.2 hs ht

theorem append_lt_append {k k' : Bytes} (h : k < k') : ∀ p : Bytes, p ++ k < p ++ k'
  | [] => h
  | _ :: p => cons_lt_cons_iff.2 (.inr ⟨rfl, append_lt_append h p⟩)

theorem ended_split (n : EntryName) : 0 ∉ n.split.1 ∧ Ended n.split.1 (ofLex n).2 := by
  rw [EntryName.split]
  cases hs : splitNul (ofLex n).2 with
  | some s =>
    obtain ⟨hk, h0⟩ := splitNul_eq_some hs
    exact ⟨h0, .inr ⟨s.2, hk⟩⟩
  | none =>
    refine ⟨fun h0 => ?_, .inl rfl⟩
    obtain ⟨a, rest, hk, ha⟩ := eq_append_cons_of_mem h0
    have hsplit := splitNul_append rest ha
    rw [← hk] at hsplit
    cases hs.symm.trans hsplit

theorem cursor_ne_nil (n : EntryName) : n.cursor ≠ [] := by
  simp [EntryName.cursor]

def place (w : Work) : Bytes ×ₗ Bytes := toLex (w.name.bucket, w.name.split.1)

variable {a b : Work}

theorem cursor_lt (hb : 0 ∉ b.name.bucket) (h : place a < place b) : a.name.cursor < b.name.cursor := by
  rcases Prod.Lex.lt_iff.1 h with h | ⟨hbucket, h⟩
  · exact Ended.lt hb h (.inr ⟨_, rfl⟩) (.inr ⟨_, rfl⟩)
  · have hname := Ended.lt (ended_split b.name).1 h (ended_split a.name).2 (ended_split b.name).2
    have hcons := cons_lt_cons_iff.2 (.inr ⟨rfl, hname⟩ : (0 : UInt8) < 0 ∨ _)
    have hlt := append_lt_append hcons a.name.bucket
    rw [EntryName.cursor, EntryName.cursor]
    have hbuckets : (ofLex a.name).1 = (ofLex b.name).1 := hbucket
    rw [← hbuckets]
    exact hlt

/-! ## The order of the chunks -/

theorem pairwise_sorted {α κ : Type} [LinearOrder κ] (key : α → κ) (l : List α) :
    (l.insertionSort fun a b => key a ≤ key b).Pairwise fun a b => key a ≤ key b := by
  have : Std.Total fun a b => key a ≤ key b := ⟨fun a b => le_total _ _⟩
  have : IsTrans α fun a b => key a ≤ key b := ⟨fun _ _ _ => le_trans⟩
  exact pairwise_insertionSort _ l

def Planned (items : List Work) (plan : Plan) : Prop :=
  plan.work = items.insertionSort fun a b =>
    toLex (a.spare, a.name.cursor) ≤ toLex (b.spare, b.name.cursor)

/-- Of two items with copies to spare the first is of the same key as the second, or of an earlier one. -/
def Before (a b : Work) : Prop := 0 < a.spare → 0 < b.spare → place a ≤ place b

/-- A pass under way: the chunks go by key, and the cursor is where it started or at an item of `all` that no
key still queued is before. -/
structure Going (start : Bytes) (all : List Work) (pass : Pass) : Prop where
  order : pass.queued.Pairwise Before
  within : ∀ w ∈ pass.queued, w ∈ all
  moving : ∀ c ∈ pass.chunks, c.1 = true → ∀ w ∈ c.2, 0 < w.spare
  cursor : pass.cursor = start ∨ ∃ a ∈ all, 0 < a.spare ∧ a.name.cursor = pass.cursor ∧
    ∀ v ∈ pass.queued, 0 < v.spare → place a ≤ place v

theorem Before.of_not_pos (h : a.spare ≤ 0) : Before a b := fun ha => absurd ha (not_lt.2 h)

section
variable (plan : Plan) (pg : PlacementGroup OsdId) (cursor : Bytes)

theorem queued_startPass : (startPass pg plan cursor).queued = plan.work.filter (fun w => w.spare ≤ 0) ++
    (plan.work.filter fun w => 0 < w.spare ∧ (cursor = [] ∨ cursor < w.name.cursor)).insertionSort
      fun a b => place a ≤ place b := by
  rw [Pass.queued, startPass]
  dsimp only
  rw [flatMap_append, flatMap_chunks, flatMap_chunks]
  rfl

theorem going_start : Going cursor (startPass pg plan cursor).queued (startPass pg plan cursor) := by
  refine ⟨?_, fun _ => id, fun c hc hmoves w hw => ?_, .inl rfl⟩
  · rw [queued_startPass]
    refine pairwise_append.2 ⟨?_, (pairwise_sorted place _).imp fun hab _ _ => hab, fun a ha b _ => ?_⟩
    · exact List.Pairwise.imp_of_mem (fun ha _ _ => Before.of_not_pos (of_decide_eq_true (mem_filter.1 ha).2))
        (pairwise_of_forall fun _ _ => trivial)
    · exact Before.of_not_pos (of_decide_eq_true (mem_filter.1 ha).2)
  · rcases mem_append.1 hc with hc | hc
    · obtain ⟨l, -, rfl⟩ := mem_map.1 hc
      cases hmoves
    · have hmem := mem_flatMap.2 ⟨c, hc, hw⟩
      rw [flatMap_chunks, mem_insertionSort] at hmem
      exact (of_decide_eq_true (mem_filter.1 hmem).2).1

variable {plan} in
/-- An item is queued once. -/
theorem nodup_queued {items : List Work} (hnames : (items.map Work.name).Nodup)
    (hplan : Planned items plan) : (startPass pg plan cursor).queued.Nodup := by
  have hperm : plan.work.Perm items := hplan ▸ perm_insertionSort _ items
  have hwork : plan.work.Nodup := Nodup.of_map _ ((hperm.map _).nodup_iff.2 hnames)
  rw [queued_startPass, nodup_append']
  refine ⟨hwork.filter _, (perm_insertionSort _ _).nodup_iff.2 (hwork.filter _), fun w hfirst hrest => ?_⟩
  rw [mem_insertionSort] at hrest
  have hnone := of_decide_eq_true (mem_filter.1 hfirst).2
  exact absurd (of_decide_eq_true (mem_filter.1 hrest).2).1 (not_lt.2 hnone)

end

/-! ## Runs of passes -/

def Pass.work (pass : Pass) (result : Option Bool × Outcome) : Option Pass :=
  match pass.chunks with
  | (moves, w :: rest) :: chunks => some ((pass.note w result.1 result.2).next w moves rest chunks)
  | _ => none

theorem note_cursor (pass : Pass) (w : Work) (sup : Option Bool) (outcome : Outcome) :
    (pass.note w sup outcome).cursor = pass.cursor := by
  cases outcome with
  | unfound stripeId good needed =>
    rw [Pass.note]
    split <;> rfl
  | _ => rfl

theorem work_cases {pass pass' : Pass} {result : Option Bool × Outcome}
    (h : pass.work result = some pass') : ∃ moves w rest chunks,
      pass.chunks = (moves, w :: rest) :: chunks ∧ pass.queued = w :: pass'.queued ∧
      (∀ c ∈ pass'.chunks, c = (moves, rest) ∨ c ∈ chunks) ∧
      (pass'.cursor = pass.cursor ∨ moves = true ∧ pass'.cursor = w.name.cursor) := by
  rw [Pass.work] at h
  split at h
  · rename_i moves w rest chunks hchunks
    cases h
    refine ⟨moves, w, rest, chunks, hchunks, ?_, ?_⟩
    · rw [Pass.queued, hchunks, (next_same _ w moves rest chunks).2.2.2.2.2]
      rfl
    · rw [← note_cursor pass w result.1 result.2, Pass.next]
      split
      · refine ⟨fun c hc => .inr hc, ?_⟩
        dsimp only
        split
        · rename_i hmoves
          exact .inr ⟨(Bool.and_eq_true_iff.1 hmoves).1, rfl⟩
        · exact .inl rfl
      · exact ⟨fun c hc => mem_cons.1 hc, .inl rfl⟩
  · cases h

theorem queued_of_run : ∀ {results : List (Option Bool × Outcome)} {pass pass' : Pass},
    run Pass.work pass results = some pass' → pass'.queued = pass.queued.drop results.length
  | [], _, _, h => by
    cases h
    rfl
  | result :: results, pass, pass', h => by
    obtain ⟨m, hm, hrest⟩ := run_cons h
    obtain ⟨-, w, -, -, -, hw, -⟩ := work_cases hm
    rw [queued_of_run hrest, hw]
    rfl

theorem Going.work {start : Bytes} {all : List Work} {pass pass' : Pass} {result : Option Bool × Outcome}
    (hg : Going start all pass) (h : pass.work result = some pass') : Going start all pass' := by
  obtain ⟨moves, w, rest, chunks, hchunks, hqueued, hleft, hcursor⟩ := work_cases h
  have hmoving := hg.moving
  rw [hchunks, forall_mem_cons] at hmoving
  obtain ⟨hfirst, horder⟩ := pairwise_cons.1 (hqueued ▸ hg.order)
  have hstill : ∀ v ∈ pass'.queued, v ∈ pass.queued := fun v hv => hqueued ▸ mem_cons_of_mem _ hv
  refine ⟨horder, fun v hv => hg.within v (hstill v hv), fun c hc hmoves v hv => ?_, ?_⟩
  · rcases hleft c hc with rfl | hc
    · exact hmoving.1 hmoves v (mem_cons_of_mem _ hv)
    · exact hmoving.2 c hc hmoves v hv
  · rcases hcursor with hsame | ⟨hmoves, hmoved⟩
    · rw [hsame]
      refine hg.cursor.imp_right fun ⟨a, ha, hpos, hat, hbefore⟩ => ?_
      exact ⟨a, ha, hpos, hat, fun v hv => hbefore v (hstill v hv)⟩
    · have hpos := hmoving.1 hmoves w mem_cons_self
      refine .inr ⟨w, hg.within w (hqueued ▸ mem_cons_self), hpos, hmoved.symm, fun v hv => ?_⟩
      exact hfirst v hv hpos

/-- Where the pass has stopped, no item still queued is under the key of the item the cursor was saved at and
before it. -/
def PartsNoKey (all : List Work) (pass : Pass) : Prop :=
  ∀ a ∈ all, 0 < a.spare → a.name.cursor = pass.cursor →
    ∀ b ∈ pass.queued, 0 < b.spare → place a = place b → a.name.cursor < b.name.cursor

section
variable {items : List Work} {plan : Plan} (hplan : Planned items plan) (pg : PlacementGroup OsdId)
  (start : Bytes) {results : List (Option Bool × Outcome)} {pass : Pass}
  (hrun : run Pass.work (startPass pg plan start) results = some pass)
include hplan hrun

theorem PartsNoKey.queued (hbuckets : ∀ w ∈ items, 0 ∉ w.name.bucket)
    (h : PartsNoKey (startPass pg plan start).queued pass) {w : Work}
    (hw : w ∈ (startPass pg plan start).queued) (hpos : 0 < w.spare)
    (hnot : w ∉ (startPass pg plan start).queued.take results.length) :
    w ∈ (startPass pg plan pass.cursor).queued := by
  have hperm : plan.work.Perm items := hplan ▸ perm_insertionSort _ items
  obtain ⟨hwork, hafter⟩ := mem_queued.1 hw
  refine mem_queued.2 ⟨hwork, fun _ => ?_⟩
  have hstill : w ∈ pass.queued := by
    rw [← take_append_drop results.length (startPass pg plan start).queued, mem_append] at hw
    exact queued_of_run hrun ▸ hw.resolve_left hnot
  have hgoing := run_invariant (P := Going start (startPass pg plan start).queued)
    (fun _ _ _ hg => hg.work) results _ _ (going_start plan pg start) hrun
  rcases hgoing.cursor with hsame | ⟨a, ha, hapos, hat, hbefore⟩
  · exact hsame ▸ hafter hpos
  · rw [← hat]
    -- a later key is after the cursor whatever its versions; the cursor's own key is what the stop may part
    rcases (hbefore w hstill hpos).lt_or_eq with hlt | heq
    · exact .inr (cursor_lt (hbuckets w (hperm.subset hwork)) hlt)
    · exact .inr (h a ha hapos hat w hstill hpos heq)

theorem partsNoKey_of_queued (hnames : (items.map Work.name).Nodup)
    (h : ∀ w ∈ (startPass pg plan start).queued, 0 < w.spare →
      w ∉ (startPass pg plan start).queued.take results.length → w ∈ (startPass pg plan pass.cursor).queued) :
    PartsNoKey (startPass pg plan start).queued pass := by
  intro a _ _ hat b hb hpos _
  rw [queued_of_run hrun] at hb
  have hsplit := nodup_queued pg start hnames hplan
  rw [← take_append_drop results.length (startPass pg plan start).queued] at hsplit
  have hnot := fun hin => (nodup_append'.1 hsplit).2.2 hin hb
  have hqueued := (mem_queued.1 (h b (mem_of_mem_drop hb) hpos hnot)).2 hpos
  rw [hat]
  exact hqueued.resolve_left (hat ▸ cursor_ne_nil a.name)

end

/-- **A resumed pass skips nothing exactly where** the stop parts no key: of the items a pass from `start` has
queued (from the empty cursor, all), each with copies to spare that it did not work is queued in the pass from
the cursor it saved. -/
theorem resumed_skips_nothing_iff {items : List Work} (hnames : (items.map Work.name).Nodup)
    (hbuckets : ∀ w ∈ items, 0 ∉ w.name.bucket) {plan : Plan} (hplan : Planned items plan)
    (pg : PlacementGroup OsdId) (start : Bytes) {results : List (Option Bool × Outcome)} {pass : Pass}
    (hrun : run Pass.work (startPass pg plan start) results = some pass) :
    (∀ w ∈ (startPass pg plan start).queued, 0 < w.spare →
        w ∉ (startPass pg plan start).queued.take results.length →
        w ∈ (startPass pg plan pass.cursor).queued) ↔
      PartsNoKey (startPass pg plan start).queued pass :=
  ⟨partsNoKey_of_queued hplan pg start hrun hnames,
    fun h _ hw hpos hnot => h.queued hplan pg start hrun hbuckets hw hpos hnot⟩

/-- Passes over the same items, each from where the one before it stopped and none of the stops parting a key:
the cursor saved, and all the items worked. -/
inductive Resumed (items : List Work) : Bytes → List Work → Prop where
  | start : Resumed items [] []
  | pass {cursor : Bytes} {worked : List Work} (h : Resumed items cursor worked)
      (pg : PlacementGroup OsdId) {plan : Plan} (hplan : Planned items plan)
      {results : List (Option Bool × Outcome)} {pass : Pass}
      (hrun : run Pass.work (startPass pg plan cursor) results = some pass)
      (hparts : PartsNoKey (startPass pg plan cursor).queued pass) :
      Resumed items pass.cursor (worked ++ (startPass pg plan cursor).queued.take results.length)

/-- Over any number of such passes every item with copies to spare is worked, or after the cursor. -/
theorem Resumed.worked_or_after {items : List Work} (hbuckets : ∀ w ∈ items, 0 ∉ w.name.bucket)
    {cursor : Bytes} {worked : List Work}
    (h : Resumed items cursor worked) : ∀ w ∈ items, 0 < w.spare →
      w ∈ worked ∨ cursor = [] ∨ cursor < w.name.cursor := by
  induction h with
  | start => exact fun w _ _ => .inr (.inl rfl)
  | @pass cursor worked _ pg plan hplan results pass hrun hparts ih =>
    intro w hw hspare
    rw [mem_append, or_assoc]
    refine (ih w hw hspare).imp_right fun hafter => or_iff_not_imp_left.2 fun hnot => ?_
    have hqueued : w ∈ (startPass pg plan cursor).queued :=
      mem_queued.2 ⟨hplan ▸ (mem_insertionSort _).2 hw, fun _ => hafter⟩
    exact (mem_queued.1 (hparts.queued hplan pg cursor hrun hbuckets hqueued hspare hnot)).2 hspare

def lacking (name : Bytes) (spare : Int) : Work :=
  { name := toLex ([98], name), newest := ⟨false, 1, [], 0, 1, 0, 1, 1, 1, 0⟩, holders := [], behind := [0], spare }

def twoVersions (first second : Int) : List Work :=
  (range 63).map (fun i => lacking [i.toUInt8 + 1] 1) ++ [lacking [200, 0, 1] first, lacking [200, 0, 2] second]

def planOf (items : List Work) : Plan :=
  { work := items.insertionSort fun a b => toLex (a.spare, a.name.cursor) ≤ toLex (b.spare, b.name.cursor)
    members := [], strays := [], listed := [] }

theorem planned_planOf (items : List Work) : Planned items (planOf items) := rfl

def bareGroup : PlacementGroup OsdId := ⟨"default", 0, [], [], 1, []⟩

/-- The second version, with the less to spare, ends the first chunk; the first is before the cursor. -/
theorem version_skipped : ∃ pass, run Pass.work (startPass bareGroup (planOf (twoVersions 2 1)) [])
      (replicate 64 (none, .done)) = some pass ∧ pass.inChunk = false ∧
    lacking [200, 0, 1] 2 ∈ twoVersions 2 1 ∧
    lacking [200, 0, 1] 2 ∉ (startPass bareGroup (planOf (twoVersions 2 1)) []).queued.take 64 ∧
    lacking [200, 0, 1] 2 ∉ (startPass bareGroup (planOf (twoVersions 2 1)) pass.cursor).queued := by
  obtain ⟨pass, hrun, hstop, hcursor, hworked⟩ :
      ∃ pass, run Pass.work (startPass bareGroup (planOf (twoVersions 2 1)) [])
          (replicate 64 (none, .done)) = some pass ∧ pass.inChunk = false ∧
        pass.cursor = [98, 0, 200, 0, 2] ∧ lacking [200, 0, 1] 2 ∉
          (startPass bareGroup (planOf (twoVersions 2 1)) []).queued.take 64 := by
    decide +kernel
  refine ⟨pass, hrun, hstop, by decide, hworked, fun h => ?_⟩
  rw [hcursor, mem_queued] at h
  exact absurd (h.2 (by decide)) (by decide)

/-- With the more to spare on the later version, the version after the first chunk is queued in the next pass. -/
theorem versions_resumed : ∃ pass, run Pass.work (startPass bareGroup (planOf (twoVersions 1 2)) [])
      (replicate 64 (none, .done)) = some pass ∧ pass.inChunk = false ∧ pass.cursor ≠ [] ∧
    lacking [200, 0, 2] 2 ∈ (startPass bareGroup (planOf (twoVersions 1 2)) pass.cursor).queued := by
  obtain ⟨pass, hrun, hstop, hcursor, hqueued, hworked⟩ :
      ∃ pass, run Pass.work (startPass bareGroup (planOf (twoVersions 1 2)) [])
          (replicate 64 (none, .done)) = some pass ∧ pass.inChunk = false ∧
        pass.cursor = [98, 0, 200, 0, 1] ∧ pass.queued = [lacking [200, 0, 2] 2] ∧
        lacking [200, 0, 2] 2 ∉ (startPass bareGroup (planOf (twoVersions 1 2)) []).queued.take 64 := by
    decide +kernel
  have hresumed := (resumed_skips_nothing_iff (by decide +kernel) (by decide +kernel) (planned_planOf _)
    bareGroup [] hrun).2 fun a _ _ hat b hb _ _ => by
      rw [hqueued, mem_singleton] at hb
      rw [hat, hcursor, hb]
      decide
  refine ⟨pass, hrun, hstop, by simp [hcursor], hresumed _ ?_ (by decide) hworked⟩
  exact mem_queued.2 ⟨(mem_insertionSort _).2 (by decide), fun _ => .inl rfl⟩

end IoLake.Meta.Recovery
