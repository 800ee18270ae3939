import IoLake.Meta.StripeRefs

/-!
# Runs of shares and releases

The invariant relates the registry's rows to a history of takes, drops and frees (`Inv`, over
`SharedHold`).  In a careful run the second reading of the map finds what the first did.

* `freed_after_last_user`: a stripe or pack is freed when no object holds it, and none takes it afterwards.
* `registry_lists_holders`: the row of a stripe names every holder.
* `shared_while_released`: otherwise a stripe may be shared after it was answered freeable.
-/

namespace IoLake.Meta.StripeRefs

open Proto MetaStore SharedHold List OrdMap Steps

/-! ## What a run keeps -/

/-- What a call under way has read of the registry, and has answered. -/
structure RunningOk (rows : Tables) (log : List (Entry Bytes Bytes)) (r : Running) : Prop where
  packs : ∀ f ∈ r.found, f.pack = none → packRecord rows f.id = none
  batch : ∀ found, r.stage.looked = some found → r.todo.head? = some (found.map Found.id)
  shares : ∀ owner sharer ids, r.call = .share owner sharer ids → r.todo = [ids]
  ready : ∀ found ops, r.stage = .ready found ops → ∃ p, plan r.call found = .ok p ∧ ops = p.ops Change.found
  committed : ∀ found, r.stage = .committed found → ∀ e ∈ effects r.call found, e ∈ log
  held : ∀ owner sharer ids found, r.call = .share owner sharer ids → r.stage = .committed found →
    ∀ f ∈ found, sharer ∈ holders log f.id
  freeable : ∀ id ∈ r.freeable, .free id ∈ log
  freedPacks : ∀ p ∈ r.freedPacks, .free p.1 ∈ log
  shared : r.stage = .answered .shared → ∀ owner sharer ids, r.call = .share owner sharer ids →
    ∀ id ∈ ids, .take id sharer ∈ log
  released : ∀ free packs, r.stage = .answered (.released free packs) →
    (∀ id ∈ free, .free id ∈ log) ∧ ∀ p ∈ packs, .free p.1 ∈ log

structure Inv (s : State) : Prop where
  registry : Registry s.rows s.log
  calls : ∀ r ∈ s.calls, RunningOk s.rows s.log r

variable {rows rows' : Tables} {log log' : List (Entry Bytes Bytes)} {found : List Found} {r : Running}
  {s s' : State}

theorem RunningOk.mono (h : RunningOk rows log r)
    (hpacks : ∀ f ∈ r.found, packRecord rows f.id = none → packRecord rows' f.id = none)
    (hlog : ∀ e ∈ log, e ∈ log')
    (hheld : ∀ owner sharer ids, r.call = .share owner sharer ids → ∀ f ∈ r.found,
      sharer ∈ holders log f.id → sharer ∈ holders log' f.id) : RunningOk rows' log' r where
  packs := fun f hf hnone => hpacks f hf (h.packs f hf hnone)
  batch := h.batch
  shares := h.shares
  ready := h.ready
  committed := fun found hst e he => hlog e (h.committed found hst e he)
  held := fun owner sharer ids found hcall hst f hf => by
    have hmem : f ∈ r.found := by
      rw [Running.found, hst]
      exact hf
    exact hheld owner sharer ids hcall f hmem (h.held owner sharer ids found hcall hst f hf)
  freeable := fun id hid => hlog _ (h.freeable id hid)
  freedPacks := fun p hp => hlog _ (h.freedPacks p hp)
  shared := fun hst owner sharer ids hcall id hid => hlog _ (h.shared hst owner sharer ids hcall id hid)
  released := fun free packs hst => by
    obtain ⟨hfree, hpacks⟩ := h.released free packs hst
    exact ⟨fun id hid => hlog _ (hfree id hid), fun p hp => hlog _ (hpacks p hp)⟩

variable {c : Call} {p : Plan} {id : Bytes} {i : Nat} {e : Event} {st : Stage}

theorem RunningOk.unread {todo : List (List Bytes)} {attempt : Nat}
    {free : List Bytes} {packs : List (Bytes × StripeMeta)} (hlooked : st.looked = none)
    (hshares : ∀ owner sharer ids, c = .share owner sharer ids → todo = [ids])
    (hfree : ∀ id ∈ free, .free id ∈ log) (hpacks : ∀ p ∈ packs, .free p.1 ∈ log)
    (hshared : st = .answered .shared → ∀ owner sharer ids, c = .share owner sharer ids →
      ∀ id ∈ ids, .take id sharer ∈ log) (hreleased : ∀ free packs, st = .answered (.released free packs) →
      (∀ id ∈ free, .free id ∈ log) ∧ ∀ p ∈ packs, .free p.1 ∈ log) :
    RunningOk rows log ⟨c, todo, attempt, st, free, packs⟩ where
  packs := fun f hf => by
    rw [Running.found, hlooked] at hf
    cases hf
  batch := fun found hsome => by
    rw [hlooked] at hsome
    cases hsome
  shares := hshares
  ready := fun found ops hst => by
    subst hst
    cases hlooked
  committed := fun found hst => by
    subst hst
    cases hlooked
  held := fun _ _ _ found _ hst => by
    subst hst
    cases hlooked
  freeable := hfree
  freedPacks := hpacks
  shared := hshared
  released := hreleased

theorem RunningOk.refused (h : RunningOk rows log r) (st : Status) :
    RunningOk rows log { r with stage := .answered (.refused st) } :=
  .unread rfl h.shares h.freeable h.freedPacks nofun nofun

theorem RunningOk.conflict (h : RunningOk rows log r) : RunningOk rows log r.conflict := by
  unfold Running.conflict
  split
  · exact h.refused _
  · split
    · exact .unread rfl h.shares h.freeable h.freedPacks nofun nofun
    · exact h.refused _

theorem RunningOk.look (h : RunningOk rows log r) (hlook : st.looked = some found)
    (hpacks : ∀ f ∈ found, f.pack = none → packRecord rows f.id = none)
    (hbatch : r.todo.head? = some (found.map Found.id)) (hready : ∀ ops, st = .ready found ops →
      ∃ p, plan r.call found = .ok p ∧ ops = p.ops Change.found)
    (hcommitted : st = .committed found → (∀ e ∈ effects r.call found, e ∈ log) ∧
      ∀ owner sharer ids, r.call = .share owner sharer ids → ∀ f ∈ found, sharer ∈ holders log f.id) :
    RunningOk rows log { r with stage := st } where
  packs := fun f hf => by
    rw [Running.found, hlook] at hf
    exact hpacks f hf
  batch := fun found' (hfound : st.looked = some found') => by
    cases hlook.symm.trans hfound
    exact hbatch
  shares := h.shares
  ready := fun found' ops (hst : st = .ready found' ops) => by
    subst hst
    cases hlook
    exact hready ops rfl
  committed := fun found' (hst : st = .committed found') => by
    subst hst
    cases hlook
    exact (hcommitted rfl).1
  held := fun owner sharer ids found' hcall (hst : st = .committed found') => by
    subst hst
    cases hlook
    exact (hcommitted rfl).2 owner sharer ids hcall
  freeable := h.freeable
  freedPacks := h.freedPacks
  shared := fun (hst : st = _) => by
    subst hst
    cases hlook
  released := fun _ _ (hst : st = _) => by
    subst hst
    cases hlook

theorem RunningOk.started {todo : List (List Bytes)} (hlooked : st.looked = none)
    (hshares : ∀ owner sharer ids, c = .share owner sharer ids → todo = [ids])
    (hshared : st ≠ .answered .shared)
    (hreleased : ∀ free packs, st = .answered (.released free packs) → free = [] ∧ packs = []) :
    RunningOk rows log ⟨c, todo, 0, st, [], []⟩ := by
  refine .unread hlooked hshares ?_ ?_ (fun heq => absurd heq hshared) fun free packs heq => ?_
  · exact nofun
  · exact nofun
  · obtain ⟨rfl, rfl⟩ := hreleased free packs heq
    exact ⟨nofun, nofun⟩

theorem RunningOk.start (c : Call) : RunningOk rows log c.start := by
  cases c with
  | share owner sharer ids =>
    have hshares : ∀ owner' sharer' ids', Call.share owner sharer ids = .share owner' sharer' ids' →
        [ids] = [ids'] := by
      intro owner' sharer' ids' heq
      cases heq
      rfl
    unfold Call.start
    dsimp only
    split
    · exact .started rfl hshares nofun nofun
    · split
      · exact .started rfl hshares nofun nofun
      · exact .started rfl hshares nofun nofun
  | release referrer ids =>
    unfold Call.start
    dsimp only
    split
    · refine .started rfl nofun nofun fun _ _ heq => ?_
      cases heq
      exact ⟨rfl, rfl⟩
    · exact .started rfl nofun nofun nofun
  | sealPack packId referrers stripe =>
    unfold Call.start
    dsimp only
    split
    · exact .started rfl nofun nofun nofun
    · exact .started rfl nofun nofun nofun

theorem holdRestoredFrees_subset (restored : Option Nat) (free : List Bytes)
    (packs : List (Bytes × StripeMeta)) : (∀ id ∈ (holdRestoredFrees restored free packs).1, id ∈ free) ∧
      ∀ p ∈ (holdRestoredFrees restored free packs).2, p ∈ packs := by
  cases restored with
  | none => exact ⟨fun _ h => h, fun _ h => h⟩
  | some before => exact ⟨fun _ h => mem_of_mem_filter h, fun _ h => mem_of_mem_filter h⟩

theorem RunningOk.settle (h : RunningOk rows log r) (restored : Option Nat)
    (hbatch : r.todo.head? = some (found.map Found.id))
    (heffects : ∀ e ∈ effects r.call found, e ∈ log) : RunningOk rows log (r.settle restored found) := by
  unfold Running.settle
  split
  · rename_i owner sharer ids hcall
    refine .unread rfl h.shares h.freeable h.freedPacks (fun _ owner' sharer' ids' hcall' id hid => ?_)
      nofun
    rw [h.shares _ _ _ hcall'] at hbatch
    have hids : ids' = found.map Found.id := Option.some.inj hbatch
    rw [hids] at hid
    obtain ⟨f, hf, rfl⟩ := mem_map.1 hid
    rw [hcall'] at heffects
    exact heffects _ (mem_map_of_mem hf)
  · exact .unread rfl h.shares h.freeable h.freedPacks nofun nofun
  · rename_i referrer ids hcall
    have hshares : ∀ (todo : List (List Bytes)) owner sharer ids',
        r.call = .share owner sharer ids' → todo = [ids'] := by
      intro todo owner sharer ids' hcall'
      rw [hcall] at hcall'
      cases hcall'
    obtain ⟨hsubFree, hsubPacks⟩ := holdRestoredFrees_subset restored
      (StripeRefs.freeable referrer found) (StripeRefs.freedPacks referrer found)
    have hlogged : ∀ id ∈ StripeRefs.freeable referrer found ++
        (releasePacks referrer found).map PackChange.id, .free id ∈ log := by
      intro id hid
      refine heffects _ ?_
      rw [hcall]
      exact mem_append_right _ (mem_map_of_mem hid)
    have hfree : ∀ id ∈ r.freeable ++ (holdRestoredFrees restored (StripeRefs.freeable referrer found)
        (StripeRefs.freedPacks referrer found)).1, .free id ∈ log := by
      intro id hid
      rcases mem_append.1 hid with hid | hid
      · exact h.freeable id hid
      · exact hlogged id (mem_append_left _ (hsubFree id hid))
    have hpacks : ∀ p ∈ r.freedPacks ++ (holdRestoredFrees restored
        (StripeRefs.freeable referrer found) (StripeRefs.freedPacks referrer found)).2,
        .free p.1 ∈ log := by
      intro p hp
      rcases mem_append.1 hp with hp | hp
      · exact h.freedPacks p hp
      · obtain ⟨c, hc, hstripe⟩ := mem_filterMap.1 (hsubPacks p hp)
        obtain ⟨stripe, -, rfl⟩ := Option.map_eq_some_iff.1 hstripe
        exact hlogged c.id (mem_append_right _ (mem_map_of_mem hc))
    dsimp only
    split
    · refine .unread rfl (hshares _) h.freeable h.freedPacks (nofun)
        fun free packs heq => ?_
      cases heq
      exact ⟨hfree, hpacks⟩
    · exact .unread rfl (hshares _) hfree hpacks nofun nofun

/-! ## One step -/

theorem plan_found (h : plan c found = .ok p) {change : Change}
    (hchange : change ∈ p.changes) : ∃ f ∈ found, f.id = change.id ∧ f.refs = change.found := by
  unfold plan at h
  split at h
  · split at h
    · cases h
    · rename_i changes hchanges
      cases h
      obtain ⟨f, hf, r, -, rfl⟩ := (shareChanges_ok hchanges).2 change hchange
      exact ⟨f, hf, rfl, rfl⟩
  · cases h
    obtain ⟨f, hf, r, -, -, rfl⟩ := mem_releaseChanges.1 hchange
    exact ⟨f, hf, rfl, rfl⟩
  · split at h
    · cases h
      cases hchange
    · rename_i f rest
      split at h
      · cases h
      · rename_i old new hseal
        cases h
        rw [mem_singleton.1 hchange]
        exact ⟨f, mem_cons_self, rfl, sealRecord_ok hseal⟩

theorem plan_packs_nil (h : plan c found = .ok p) (hnil : p.changes = []) : p.packs = [] := by
  unfold plan at h
  split at h
  · split at h
    · cases h
    · cases h
      rfl
  · cases h
    refine eq_nil_iff_forall_not_mem.2 fun pack hpack => ?_
    obtain ⟨f, hf, record, -, hlast, -⟩ := mem_releasePacks.1 hpack
    obtain ⟨r, hr, hmem, -⟩ := Found.last_iff.1 hlast
    have hchange := mem_releaseChanges.2 ⟨f, hf, r, hr, hmem, rfl⟩
    dsimp only at hnil
    rw [hnil] at hchange
    cases hchange
  · split at h
    · cases h
      rfl
    · split at h
      · cases h
      · cases h
        cases hnil

theorem Inv.effect (hi : Inv s) (hplan : plan c found = .ok p)
    (hexpected : Expected s.rows p) (hcare : TakesCare s found c)
    (hpacks : ∀ f ∈ found, f.pack = none → packRecord s.rows f.id = none) :
    Inv { s with rows := written s.rows p, log := s.log ++ effects c found } := by
  have hothers : (∀ r ∈ s.calls, ∀ owner sharer ids, r.call = .share owner sharer ids →
      ∀ f ∈ r.found, sharer ∈ holders s.log f.id → sharer ∈ holders (s.log ++ effects c found) f.id) →
      ∀ r ∈ s.calls, RunningOk (written s.rows p) (s.log ++ effects c found) r := by
    intro hheld r hr
    refine (hi.calls r hr).mono ?_ ?_ (hheld r hr)
    · exact fun f _ hnone => packRecord_written_none hexpected hnone
    · exact fun e he => mem_append_left _ he
  cases c with
  | share owner sharer ids =>
    refine ⟨?_, hothers fun _ _ _ _ _ _ _ _ hmem => mem_holders_takes.2 (.inl hmem)⟩
    simp only [plan] at hplan
    split at hplan
    · cases hplan
    · rename_i changes hchanges
      cases hplan
      exact (hi.registry.share hchanges hexpected hcare hpacks).1
  | release referrer ids =>
    cases hplan
    refine ⟨hi.registry.release hexpected (fun f hf => (hcare f hf).1) hpacks ids,
      hothers fun r hr owner sharer ids' hcall g hg hmem => ?_⟩
    rw [effects, ← append_assoc, holders_frees, mem_holders_drops]
    refine ⟨hmem, fun f hf hid heq => ?_⟩
    subst heq
    -- The referrer has no share of the stripe under way.
    have hno := (hcare f hf).2 r hr
    rw [Running.sharing, hcall] at hno
    simp only [decide_true, Bool.true_and, any_eq_false, decide_eq_true_eq] at hno
    exact hno g hg hid.symm
  | sealPack packId referrers stripe =>
    cases found with
    | nil =>
      cases hplan
      rw [effects, append_nil] at hothers ⊢
      exact ⟨hi.registry, hothers fun _ _ _ _ _ _ _ _ hmem => hmem⟩
    | cons f rest =>
      refine ⟨?_, hothers fun _ _ _ _ _ _ _ _ hmem => mem_holders_takes.2 (.inl hmem)⟩
      unfold plan at hplan
      dsimp only at hplan
      split at hplan
      · cases hplan
      · cases hplan
        exact hi.registry.sealPack hexpected

theorem Inv.setPack (hi : Inv s) {new : Option PackRecord}
    (hrefs : ∀ id', refsOf rows' id' = refsOf s.rows id')
    (hpack : ∀ id', packRecord rows' id' = if id' = id then new else packRecord s.rows id')
    (hfits : Fits (refsOf s.rows id) new (holders s.log id) (.free id ∈ s.log))
    (hnew : ∀ r ∈ s.calls, ∀ f ∈ r.found, f.id = id → packRecord s.rows id = none → new = none) :
    Inv { s with rows := rows' } := by
  refine ⟨.of_fits hi.registry.sound fun id' => ?_, fun r hr => ?_⟩
  · rw [hrefs, hpack]
    split
    · rename_i hid
      exact hid ▸ hfits
    · exact hi.registry.fits id'
  · refine (hi.calls r hr).mono (fun f hf hnone => ?_) (fun _ he => he) fun _ _ _ _ _ _ h => h
    rw [hpack]
    split
    · rename_i hid
      exact hnew r hr f hf hid (hid ▸ hnone)
    · exact hnone

theorem Inv.set (hi : Inv s) (hr : RunningOk s.rows s.log r) : Inv (s.set i r) := by
  refine ⟨hi.registry, fun x hx => ?_⟩
  rcases mem_or_eq_of_mem_set hx with hx | rfl
  · exact hi.calls x hx
  · exact hr

/-- What a step adds to the record, and **the shares it answers `Ok`: none of their stripes is
freed**. -/
structure Answers (s s' : State) : Prop where
  log : s.log <+: s'.log
  shared : ∀ (i : Nat) (r : Running) owner sharer ids, s'.calls[i]? = some r →
    r.call = .share owner sharer ids → r.stage = .answered .shared →
      s.calls[i]? = some r ∨ ∀ id ∈ ids, .free id ∉ s'.log

theorem Answers.same (hlog : s.log <+: s'.log) (hcalls : s'.calls = s.calls) : Answers s s' :=
  ⟨hlog, fun _ _ _ _ _ hr _ _ => .inl (hcalls ▸ hr)⟩

theorem Answers.set (hlog : s.log <+: s'.log) (hcalls : s'.calls = s.calls)
    (hr : r.stage = .answered .shared → ∀ owner sharer ids, r.call = .share owner sharer ids →
      ∀ id ∈ ids, .free id ∉ s'.log) : Answers s (s'.set i r) := by
  refine ⟨hlog, fun j x owner sharer ids hx hcall hst => ?_⟩
  rw [State.set, getElem?_set] at hx
  split at hx
  · split at hx
    · cases hx
      exact .inr (hr hst owner sharer ids hcall)
    · cases hx
  · exact .inl (hcalls ▸ hx)

theorem settle_call (r : Running) (restored : Option Nat) (found : List Found) :
    (r.settle restored found).call = r.call := by
  unfold Running.settle
  split
  · rfl
  · rfl
  · dsimp only
    split <;> rfl

theorem Inv.settle {s₀ : State} (hi : Inv s) (hr : RunningOk s.rows s.log r) (restored : Option Nat)
    (hbatch : r.todo.head? = some (found.map Found.id)) (heffects : ∀ e ∈ effects r.call found, e ∈ s.log)
    (hheld : ∀ owner sharer ids, r.call = .share owner sharer ids → ∀ f ∈ found, sharer ∈ holders s.log f.id)
    (hlog : s₀.log <+: s.log) (hcalls : s.calls = s₀.calls) :
    Inv (s.set i (r.settle restored found)) ∧ Answers s₀ (s.set i (r.settle restored found)) := by
  refine ⟨hi.set (hr.settle restored hbatch heffects), .set hlog hcalls ?_⟩
  intro _ owner sharer ids hcall id hid hfree
  rw [settle_call] at hcall
  rw [hr.shares owner sharer ids hcall] at hbatch
  have hids : ids = found.map Found.id := Option.some.inj hbatch
  rw [hids] at hid
  obtain ⟨f, hf, rfl⟩ := mem_map.1 hid
  have hheld := hheld owner sharer ids hcall f hf
  rw [(hi.registry.freed f.id hfree).2.2] at hheld
  cases hheld

theorem sharer_holds {owner sharer : Bytes} {ids : List Bytes} (hcall : c = .share owner sharer ids)
    (log : List (Entry Bytes Bytes)) : ∀ f ∈ found, sharer ∈ holders (log ++ effects c found) f.id := by
  subst hcall
  intro f hf
  exact mem_holders_takes.2 (.inr ⟨f, hf, rfl, rfl⟩)

theorem Inv.read (hi : Inv s) {restored : Option Nat} (hr : s.calls[i]? = some r)
    (hcare : Careful s (.read i restored)) (h : readCall s i restored r = some s') :
    Inv s' ∧ Answers s s' := by
  have hok := hi.calls r (mem_of_getElem? hr)
  unfold readCall at h
  split at h
  · rename_i batch rest hst htodo
    have hbatch : r.todo.head? = some ((look s batch).map Found.id) := by
      simp [htodo, look, Function.comp_def]
    have hpacks : ∀ f ∈ look s batch, f.pack = none → packRecord s.rows f.id = none := by
      intro f hf hnone
      obtain ⟨id, -, rfl⟩ := mem_map.1 hf
      exact hnone
    dsimp only at h
    split at h
    · cases h
      exact ⟨hi.set (hok.refused _), .set prefix_rfl rfl (by simp)⟩
    · rename_i p hplan
      split at h
      · -- Nothing to change: the call takes effect as it is read.
        rename_i hnil
        cases h
        have hops : p.ops Change.found = [] := by
          rw [Plan.ops, hnil, plan_packs_nil hplan hnil]
          rfl
        have hcare := hcare r hr batch (by rw [htodo]; rfl) p (by rw [hplan]; rfl) hnil
        have heffect := hi.effect hplan (fun op hop => absurd (hops ▸ hop) not_mem_nil) hcare hpacks
        rw [written, hops] at heffect
        exact heffect.settle (heffect.calls r (mem_of_getElem? hr)) restored hbatch
          (fun e he => mem_append_right _ he) (fun _ _ _ hcall => sharer_holds hcall s.log)
          (prefix_append _ _) rfl
      · split at h
        · cases h
          refine ⟨hi.set (hok.look rfl hpacks hbatch (fun ops hst => ?_) (by simp)),
            .set prefix_rfl rfl (by simp)⟩
          cases hst
          exact ⟨p, hplan, rfl⟩
        · cases h
          exact ⟨hi.set (hok.look rfl hpacks hbatch (by simp) (by simp)), .set prefix_rfl rfl (by simp)⟩
  · cases h

theorem Inv.expect (hi : Inv s) (hr : s.calls[i]? = some r)
    (hcare : Careful s (.expect i)) (h : expectCall s i r = some s') : Inv s' ∧ Answers s s' := by
  have hok := hi.calls r (mem_of_getElem? hr)
  unfold expectCall at h
  split at h
  · rename_i found hst
    have hlooked : r.stage.looked = some found := by
      rw [hst]
      rfl
    have hfound : r.found = found := by
      rw [Running.found, hlooked]
      rfl
    split at h
    · rename_i p hplan
      cases h
      -- The map has not changed since it was read.
      have hsame : (p.ops fun c => s.map.get c.id) = p.ops Change.found := by
        rw [Plan.ops, Plan.ops]
        congr 1
        refine map_congr_left fun c hc => ?_
        obtain ⟨f, hf, hid, hrefs⟩ := plan_found hplan hc
        have hget := hcare r hr f (hfound ▸ hf)
        rw [hid, hrefs] at hget
        rw [hget]
      refine ⟨hi.set (hok.look rfl (hfound ▸ hok.packs) (hok.batch found hlooked)
        (fun ops hready => ?_) nofun), .set prefix_rfl rfl nofun⟩
      cases hready
      exact ⟨p, hplan, hsame⟩
    · cases h
  · cases h

theorem conflict_not_shared (r : Running) : r.conflict.stage ≠ .answered .shared := by
  unfold Running.conflict
  split
  · exact nofun
  · split
    · exact nofun
    · exact nofun

theorem Inv.commit (hi : Inv s) (hr : s.calls[i]? = some r)
    (hcare : Careful s (.commit i)) (h : commitCall s i r = some s') : Inv s' ∧ Answers s s' := by
  have hmem := mem_of_getElem? hr
  have hok := hi.calls r hmem
  unfold commitCall at h
  split at h
  · rename_i found ops hst
    have hlooked : r.stage.looked = some found := by
      rw [hst]
      rfl
    have hfound : r.found = found := by
      rw [Running.found, hlooked]
      rfl
    split at h
    · rename_i rows hrows
      cases h
      obtain ⟨p, hplan, rfl⟩ := hok.ready found ops hst
      obtain ⟨hexpected, rfl⟩ := CompareAndSet.apply_eq_some.1 hrows
      have hcare : TakesCare s found r.call := by
        have := hcare r hr
        rw [hst, hfound] at this
        exact this (by rw [Stage.ops, hrows]; rfl)
      have heffect := hi.effect hplan hexpected hcare (hfound ▸ hok.packs)
      have hok' := heffect.calls r hmem
      exact ⟨heffect.set (hok'.look rfl (hfound ▸ hok'.packs) (hok'.batch found hlooked) nofun
        fun _ => ⟨fun e he => mem_append_right _ he, fun _ _ _ hcall => sharer_holds hcall s.log⟩),
        .set (prefix_append _ _) rfl nofun⟩
    · cases h
      exact ⟨hi.set hok.conflict, .set prefix_rfl rfl fun hst => absurd hst (conflict_not_shared r)⟩
  · cases h

theorem Inv.mirror (hi : Inv s) {restored : Option Nat} (hr : s.calls[i]? = some r)
    (h : mirrorCall s i restored r = some s') : Inv s' ∧ Answers s s' := by
  have hok := hi.calls r (mem_of_getElem? hr)
  unfold mirrorCall at h
  split at h
  · rename_i found hst
    split at h
    · cases h
      apply Inv.settle
      · exact ⟨hi.registry, hi.calls⟩
      · exact hok
      · exact hok.batch found (by rw [hst]; rfl)
      · exact hok.committed found hst
      · exact fun owner sharer ids hcall => hok.held owner sharer ids found hcall hst
      · exact prefix_rfl
      · rfl
    · cases h
  · cases h

theorem fresh_spec (h : s.fresh id = true) :
    refsOf s.rows id = none ∧ packRecord s.rows id = none ∧ holders s.log id = [] ∧
      .free id ∉ s.log ∧ ∀ r ∈ s.calls, ∀ f ∈ r.found, f.id ≠ id := by
  obtain ⟨hrefs, hpack, hlog, hcalls⟩ := of_decide_eq_true h
  have hnone : refsOf s.rows id = none := by rw [refsOf, hrefs]
  have hnopack : packRecord s.rows id = none := by rw [packRecord, hpack]
  exact ⟨hnone, hnopack, holders_of_unnamed hlog, fun hfree => hlog _ hfree rfl, hcalls⟩

theorem Inv.write (hi : Inv s) {object : Bytes} (hfresh : s.fresh id = true) :
    Inv { s with log := s.log ++ [.take id object] } := by
  obtain ⟨hrefs, hpack, hnobody, hnotfree, -⟩ := fresh_spec hfresh
  have hlog : s.log ++ [.take id object] = s.log ++ [object].map fun o => .take id o := rfl
  rw [hlog]
  refine ⟨.of_fits (hi.registry.sound.takes fun _ _ => hnotfree) fun id' => ?_, fun r hr => ?_⟩
  · by_cases hid : id' = id
    · subst hid
      rw [hrefs, hpack]
      refine ⟨nofun, fun _ _ => ⟨object, fun o ho => ?_⟩, nofun,
        fun hfree => absurd (free_mem_takes.1 hfree) hnotfree⟩
      rcases mem_holders_takes.1 ho with ho | ⟨o', ho', -, rfl⟩
      · rw [hnobody] at ho
        cases ho
      · exact mem_singleton.1 ho'
    · refine (hi.registry.fits id').grow (fun o ho => .inl ?_) free_mem_takes.1
      exact (mem_holders_takes.1 ho).resolve_right fun ⟨_, _, heq, _⟩ => hid heq.symm
  · exact (hi.calls r hr).mono (fun _ _ h => h) (fun e he => mem_append_left _ he)
      fun _ _ _ _ f _ hmem => mem_holders_takes.2 (.inl hmem)

theorem refsOf_insert_pack (rows : Tables) (id id' : Bytes) (row : Row) :
    refsOf (rows.insert (packRow id) row) id' = refsOf rows id' := by
  rw [refsOf, refsOf, get_insert, if_neg (refsRow_ne id' id)]

theorem packRecord_insert (rows : Tables) (id id' : Bytes) (record : PackRecord) :
    packRecord (rows.insert (packRow id) (.pack record)) id' =
      if id' = id then some record else packRecord rows id' := by
  rw [packRecord, packRecord, get_insert]
  by_cases hid : id' = id
  · rw [if_pos hid, hid, if_pos rfl]
  · rw [if_neg hid, if_neg fun h => hid (packRow_inj h)]

theorem Inv.intendPack (hi : Inv s) {record : PackRecord} (hfresh : s.fresh id = true) :
    Inv { s with rows := s.rows.insert (packRow id) (.pack record) } := by
  obtain ⟨hrefs, -, hnobody, hnotfree, hcalls⟩ := fresh_spec hfresh
  refine hi.setPack (refsOf_insert_pack s.rows id · _) (packRecord_insert s.rows id · record) ?_
    fun r hr f hf hid => absurd hid (hcalls r hr f hf)
  rw [hrefs, hnobody]
  exact ⟨nofun, nofun, fun _ _ _ => rfl, fun hf => absurd hf hnotfree⟩

theorem packRecord_erase (rows : Tables) (id id' : Bytes) :
    packRecord (rows.erase (packRow id)) id' = if id' = id then none else packRecord rows id' := by
  rw [packRecord, packRecord, get_erase]
  by_cases hid : id' = id
  · rw [if_pos hid, hid, if_pos rfl]
  · rw [if_neg hid, if_neg fun h => hid (packRow_inj h)]

theorem Registry.fits_setPack {old : PackRecord} (h : Registry rows log)
    (hold : packRecord rows id = some old) (new : Option PackRecord) :
    Fits (refsOf rows id) new (holders log id) (.free id ∈ log) :=
  (hold ▸ h.fits id).setPack new

theorem Inv.abortPack (hi : Inv s) {record : PackRecord} (hrecord : packRecord s.rows id = some record) :
    Inv { s with rows := s.rows.erase (packRow id) } := by
  refine hi.setPack (fun id' => ?_) (packRecord_erase s.rows id) (hi.registry.fits_setPack hrecord none)
    fun _ _ _ _ _ _ => rfl
  rw [refsOf, refsOf, get_erase, if_neg (refsRow_ne id' id)]

theorem Inv.movePackShard (hi : Inv s) {old new : PackRecord} (hold : packRecord s.rows id = some old) :
    Inv { s with rows := s.rows.insert (packRow id) (.pack new) } := by
  refine hi.setPack (refsOf_insert_pack s.rows id · _) (packRecord_insert s.rows id · new)
    (hi.registry.fits_setPack hold (some new)) fun _ _ _ _ _ hnone => ?_
  rw [hold] at hnone
  cases hnone

theorem start_not_shared (c : Call) : c.start.stage ≠ .answered .shared := by
  unfold Call.start
  split
  · split_ifs <;> exact nofun
  · split <;> exact nofun
  · split_ifs <;> exact nofun

theorem Inv.step (hi : Inv s) (hcare : Careful s e) (h : step s e = some s') : Inv s' ∧ Answers s s' := by
  cases e with
  | write id object =>
    simp only [StripeRefs.step] at h
    split at h
    · rename_i hfresh
      cases h
      exact ⟨hi.write hfresh, .same (prefix_append _ _) rfl⟩
    · cases h
  | intendPack id stripe =>
    simp only [StripeRefs.step] at h
    split at h
    · rename_i hfresh
      cases h
      exact ⟨hi.intendPack hfresh.2, .same prefix_rfl rfl⟩
    · cases h
  | abortPack id =>
    simp only [StripeRefs.step] at h
    split at h
    · rename_i record hrecord
      split at h
      · cases h
      · cases h
        exact ⟨hi.abortPack hrecord, .same prefix_rfl rfl⟩
    · cases h
  | movePackShard id stripe =>
    obtain ⟨record, hrecord, rfl⟩ := Option.map_eq_some_iff.1 h
    exact ⟨hi.movePackShard hrecord, .same prefix_rfl rfl⟩
  | call c =>
    cases h
    refine ⟨⟨hi.registry, fun r hr => ?_⟩, prefix_rfl, fun i r owner sharer ids hr _ hst => ?_⟩
    · rcases mem_append.1 hr with hr | hr
      · exact hi.calls r hr
      · rw [mem_singleton.1 hr]
        exact .start c
    · rw [getElem?_append] at hr
      split at hr
      · exact .inl hr
      · rw [mem_singleton.1 (mem_of_getElem? hr)] at hst
        exact absurd hst (start_not_shared c)
  | read i restored =>
    obtain ⟨r, hr, h⟩ := Option.bind_eq_some_iff.1 h
    exact hi.read hr hcare h
  | expect i =>
    obtain ⟨r, hr, h⟩ := Option.bind_eq_some_iff.1 h
    exact hi.expect hr hcare h
  | commit i =>
    obtain ⟨r, hr, h⟩ := Option.bind_eq_some_iff.1 h
    exact hi.commit hr hcare h
  | mirror i restored =>
    obtain ⟨r, hr, h⟩ := Option.bind_eq_some_iff.1 h
    exact hi.mirror hr h

def State.empty : State := ⟨OrdMap.empty, OrdMap.empty, [], []⟩

theorem Inv.empty : Inv State.empty := by
  have hrefs : ∀ id, refsOf (OrdMap.empty : Tables) id = none := by
    intro id
    rw [refsOf, get_empty]
  have hpacks : ∀ id, packRecord (OrdMap.empty : Tables) id = none := by
    intro id
    rw [packRecord, get_empty]
  refine ⟨⟨Sound.nil, fun id r hr => ?_, fun id _ _ => ⟨[], by simp [State.empty, holders]⟩,
    fun id record hrecord => ?_, by simp [State.empty]⟩, by simp [State.empty]⟩
  · rw [State.empty, hrefs] at hr
    cases hr
  · rw [State.empty, hpacks] at hrecord
    cases hrecord

theorem Inv.run {events : List Event} (hi : Inv s) (hcare : Steps.Along StripeRefs.step Careful s events)
    (hrun : run StripeRefs.step s events = some s') : Inv s' :=
  run_invariant_along (fun _ _ _ hi hcare h => (Inv.step hi hcare h).1) events s s' hi hcare hrun

/-- **A shared stripe is freed only after its last user**, in runs whose steps are all careful: a stripe or
pack is freed when no object holds it, and no object takes it afterwards; and a share answered `Ok` has taken
its stripes. -/
theorem freed_after_last_user {events₁ events₂ : List Event} {s₁ s : State}
    (hrun₁ : Steps.run step State.empty events₁ = some s₁)
    (hcare₁ : Steps.Along step Careful State.empty events₁)
    (hrun₂ : Steps.run step s₁ events₂ = some s) (hcare₂ : Steps.Along step Careful s₁ events₂) :
    (∀ (i : Nat) (id : Bytes), s.log[i]? = some (Entry.free id) → holders (s.log.take i) id = [] ∧
      ∀ (j : Nat) (o : Bytes), i < j → s.log[j]? ≠ some (Entry.take id o)) ∧
    (∀ r ∈ s.calls, ∀ free packs, r.stage = .answered (.released free packs) →
      (∀ id ∈ free, .free id ∈ s.log) ∧ ∀ p ∈ packs, .free p.1 ∈ s.log) ∧
    (∀ r ∈ s.calls, ∀ owner sharer ids, r.call = .share owner sharer ids →
      r.stage = .answered .shared → ∀ id ∈ ids, .take id sharer ∈ s.log) ∧
    ∀ id, .free id ∈ s₁.log → ∀ (i : Nat) (r : Running) owner sharer ids, s.calls[i]? = some r →
      r.call = .share owner sharer ids → r.stage = .answered .shared → id ∈ ids → s₁.calls[i]? = some r := by
  have hi₁ := Inv.empty.run hcare₁ hrun₁
  have hi := hi₁.run hcare₂ hrun₂
  refine ⟨fun i id hfree => ⟨hi.registry.sound i _ hfree, fun j o hij htake => ?_⟩,
    fun r hr => (hi.calls r hr).released, fun r hr owner sharer ids hcall hst =>
      (hi.calls r hr).shared hst owner sharer ids hcall, fun id hfree => ?_⟩
  · refine hi.registry.sound j _ htake (mem_iff_getElem?.2 ⟨i, ?_⟩)
    rw [getElem?_take, if_pos hij]
    exact hfree
  · have hlater := run_invariant_along (P := Careful) (I := fun s => Inv s ∧ .free id ∈ s.log ∧
        ∀ (i : Nat) (r : Running) owner sharer ids, s.calls[i]? = some r →
          r.call = .share owner sharer ids → r.stage = .answered .shared → id ∈ ids →
          s₁.calls[i]? = some r) ?_ events₂ s₁ s
        ⟨hi₁, hfree, fun i r _ _ _ hr _ _ _ => hr⟩ hcare₂ hrun₂
    · exact hlater.2.2
    · rintro s e s' ⟨hi, hfree, hold⟩ hcare h
      obtain ⟨hi', hanswers⟩ := hi.step hcare h
      have hfree' := hanswers.log.subset hfree
      refine ⟨hi', hfree', fun i r owner sharer ids hr hcall hst hid => ?_⟩
      rcases hanswers.shared i r owner sharer ids hr hcall hst with hr | hno
      · exact hold i r owner sharer ids hr hcall hst hid
      · exact absurd hfree' (hno id hid)

/-- The object `[1]` wrote the stripe `[9]`.  A share of it with `[2]` reads the registry; the writer releases
it; the share goes on. -/
def overtakenShare : List Event :=
  [.write [9] [1], .call (.share [1] [2] [[9]]), .call (.release [1] [[9]]), .read 0 none,
    .read 1 none, .expect 0, .commit 0, .mirror 0 none]

/-- **A stripe is answered freeable, and then shared**: the release commits nothing. -/
theorem shared_while_released : ∃ s₁ s, Steps.run step State.empty (overtakenShare.take 5) = some s₁ ∧
      Steps.run step s₁ (overtakenShare.drop 5) = some s ∧
      (s₁.calls.map Running.stage)[1]? = some (.answered (.released [[9]] [])) ∧
      (s.calls.map Running.stage)[0]? = some (.answered .shared) ∧ holders s.log [9] = [[2]] := by
  simp only [exists_and_left]
  decide +kernel

def sharedThenReleased : List Event :=
  [.write [9] [1], .call (.share [1] [2] [[9]]), .read 0 none, .expect 0, .commit 0, .mirror 0 none,
    .call (.release [1] [[9]]), .read 1 none, .expect 1, .commit 1, .mirror 1 none,
    .call (.release [2] [[9]]), .read 2 none, .expect 2, .commit 2, .mirror 2 none]

theorem sharedThenReleased_freed : ∃ s, Steps.run step State.empty sharedThenReleased = some s ∧
      (s.calls.map Running.stage)[2]? = some (.answered (.released [[9]] [])) ∧ .free [9] ∈ s.log ∧
      ∀ i : Nat, s.log[i]? = some (Entry.free [9]) → holders (s.log.take i) [9] = [] := by
  obtain ⟨s, hrun, hanswer⟩ : ∃ s, run step State.empty sharedThenReleased = some s ∧
      (s.calls.map Running.stage)[2]? = some (.answered (.released [[9]] [])) := by
    decide +kernel
  have hcare : Steps.Along step Careful State.empty sharedThenReleased := by decide +kernel
  have hend : run step s [] = some s := rfl
  obtain ⟨hnobody, hreleased, -⟩ := freed_after_last_user hrun hcare hend trivial
  refine ⟨s, hrun, hanswer, ?_, fun i hfree => (hnobody i [9] hfree).1⟩
  rw [getElem?_map] at hanswer
  obtain ⟨r, hr, hst⟩ := Option.map_eq_some_iff.1 hanswer
  exact (hreleased r (mem_of_getElem? hr) [[9]] [] hst).1 [9] mem_cons_self

/-- **The registry lists every object that holds a stripe**, in careful runs; a stripe without an entry is held by
one object at most. -/
theorem registry_lists_holders {events : List Event} {s : State}
    (hrun : Steps.run step State.empty events = some s) (hcare : Steps.Along step Careful State.empty events)
    (id : Bytes) : (∀ r, refsOf s.rows id = some r → holders s.log id ⊆ r) ∧
      (refsOf s.rows id = none → ∀ o ∈ holders s.log id, ∀ o' ∈ holders s.log id, o = o') := by
  have hreg := (Inv.empty.run hcare hrun).registry
  refine ⟨fun r hr => hreg.listed id r hr, fun hnone o ho o' ho' => ?_⟩
  cases hpack : packRecord s.rows id with
  | none =>
    obtain ⟨w, hw⟩ := hreg.writer id hnone hpack
    rw [hw o ho, hw o' ho']
  | some record =>
    rw [hreg.unsealed id record hpack hnone] at ho
    cases ho

theorem sharer_listed : ∃ s, Steps.run step State.empty (sharedThenReleased.take 6) = some s ∧
    holders s.log [9] = [[1], [2]] ∧ ∃ r, refsOf s.rows [9] = some r ∧ holders s.log [9] ⊆ r := by
  obtain ⟨s, hrun, hheld, r, hr⟩ : ∃ s, run step State.empty (sharedThenReleased.take 6) = some s ∧
      holders s.log [9] = [[1], [2]] ∧ ∃ r, refsOf s.rows [9] = some r := ⟨_, rfl, rfl, _, rfl⟩
  exact ⟨s, hrun, hheld, r, hr, (registry_lists_holders hrun (by decide +kernel) [9]).1 r hr⟩

end IoLake.Meta.StripeRefs
