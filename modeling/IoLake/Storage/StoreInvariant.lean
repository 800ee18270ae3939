import IoLake.Storage.Store

/-!
# The invariant of a metadata store

What carries every acknowledged operation over crashes and failed checkpoints, in five parts, with the lemmas
of what each kind of step does to them.
-/

namespace IoLake.Storage

open ChangeLog List DiskIndex

def LogEntry.changes (e : LogEntry) : List Change := e.op.changes

def applyLog (log : List LogEntry) : OrdMap Bytes Bytes :=
  applyChanges (log.flatMap LogEntry.changes) OrdMap.empty

def opsOf (log : List LogEntry) : List MetadataOp := log.map LogEntry.op

theorem applyLog_append (a b : List LogEntry) :
    applyLog (a ++ b) = applyChanges (b.flatMap LogEntry.changes) (applyLog a) := by
  unfold applyLog
  rw [flatMap_append, applyChanges_append]

theorem applyLog_replay (log : List LogEntry) {c m : Nat} (h : c ≤ m) :
    applyChanges ((log.drop c).flatMap LogEntry.changes) (applyLog (log.take m)) = applyLog log := by
  have hm : log.take c ++ (log.drop c).take (m - c) = log.take m := by
    rw [← take_add, show c + (m - c) = m by omega]
  have hd : (log.drop c).take (m - c) ++ log.drop m = log.drop c := by
    rw [show log.drop m = (log.drop c).drop (m - c) by
      rw [drop_drop, show c + (m - c) = m by omega], take_append_drop]
  have key := applyChanges_replay ((log.take c).flatMap LogEntry.changes)
    (((log.drop c).take (m - c)).flatMap LogEntry.changes) ((log.drop m).flatMap LogEntry.changes)
    OrdMap.empty
  simp only [← flatMap_append] at key
  rw [hd, hm, take_append_drop] at key
  exact key

theorem getElem?_append_some {α : Type} {l l' : List α} {i : Nat} {a : α} (h : l[i]? = some a) :
    (l ++ l')[i]? = some a := by
  rw [List.getElem?_append_left (List.getElem?_eq_some_iff.1 h).1, h]

/-- The log: started operations at most once each, every acknowledged one at its LSN. -/
structure LogInv (log : List LogEntry) (started : List Started) (acked : List Ack)
    (durable : Nat) : Prop where
  ids : (log.map LogEntry.id).Nodup
  known : ∀ e ∈ log, ∃ st, started[e.id]? = some st ∧ st.op = e.op
  flat : ∀ st ∈ started, st.op.flat = true
  safe : durable ≤ log.length
  placed : ∀ a ∈ acked, 1 ≤ a.lsn ∧ a.lsn ≤ durable ∧ ∃ e, log[a.lsn - 1]? = some e ∧ e.id = a.id
  before : ∀ st ∈ started, st.ackedBefore ≤ acked.length
  order : ∀ q e st, log[q]? = some e → started[e.id]? = some st → ∀ a ∈ acked.take st.ackedBefore, a.lsn ≤ q

variable {id : Nat} {op : MetadataOp}

namespace LogInv

variable {log : List LogEntry} {started : List Started} {acked : List Ack} {durable : Nat}
  (h : LogInv log started acked durable)

include h

theorem start (hf : op.flat = true) : LogInv log (started ++ [⟨op, acked.length⟩]) acked durable where
  __ := h
  known e he := by
    obtain ⟨st, hst, hop⟩ := h.known e he
    exact ⟨st, getElem?_append_some hst, hop⟩
  flat := List.forall_mem_append.2 ⟨h.flat, by simpa using hf⟩
  before := List.forall_mem_append.2 ⟨h.before, by simp⟩
  order q e st hq hst a ha := by
    obtain ⟨st', hst', -⟩ := h.known e (List.mem_of_getElem? hq)
    have hlt := (List.getElem?_eq_some_iff.1 hst').1
    rw [List.getElem?_append_left hlt] at hst
    exact h.order q e st hq hst a ha

theorem write {st : Started} (hst : started[id]? = some st) (hfresh : ∀ e ∈ log, e.id ≠ id) :
    LogInv (log ++ [⟨id, st.op⟩]) started acked durable where
  ids := by simpa [nodup_append, h.ids] using hfresh
  known := forall_mem_append.2 ⟨h.known, by simpa using ⟨st, hst, rfl⟩⟩
  flat := h.flat
  safe := by
    have := h.safe
    simp only [length_append, length_singleton]
    omega
  placed a ha := by
    obtain ⟨h₁, h₂, e, he, hid⟩ := h.placed a ha
    exact ⟨h₁, h₂, e, getElem?_append_some he, hid⟩
  before := h.before
  order q e st' hq hst' a ha := by
    by_cases hlt : q < log.length
    · rw [getElem?_append_left hlt] at hq
      exact h.order q e st' hq hst' a ha
    · have := (h.placed a (mem_of_mem_take ha)).2.1
      have := h.safe
      omega

theorem sync {durable' : Nat} (hle : durable ≤ durable')
    (hlen : durable' ≤ log.length) : LogInv log started acked durable' :=
  { h with
    safe := hlen
    placed := fun a ha => by
      obtain ⟨h₁, h₂, he⟩ := h.placed a ha
      exact ⟨h₁, h₂.trans hle, he⟩ }

theorem ack {id lsn : Nat} {e : LogEntry} (h₁ : 1 ≤ lsn) (h₂ : lsn ≤ durable)
    (he : log[lsn - 1]? = some e) (hid : e.id = id) : LogInv log started (acked ++ [⟨id, lsn⟩]) durable where
  __ := h
  placed := forall_mem_append.2 ⟨h.placed, by simpa using ⟨h₁, h₂, e, he, hid⟩⟩
  before st hst := by
    have := h.before st hst
    simp only [length_append, length_singleton]
    omega
  order q e st hq hst a ha := by
    have hb := h.before st (mem_of_getElem? hst)
    rw [take_append_of_le_length hb] at ha
    exact h.order q e st hq hst a ha

theorem crash {k : Nat} (hk : durable ≤ k) : LogInv (log.take k) started acked (log.take k).length where
  ids := by
    rw [List.map_take]
    exact h.ids.sublist (List.take_sublist _ _)
  known e he := h.known e (List.mem_of_mem_take he)
  flat := h.flat
  safe := le_rfl
  placed a ha := by
    obtain ⟨h₁, h₂, e, he, hid⟩ := h.placed a ha
    have hlen := (List.getElem?_eq_some_iff.1 he).1
    refine ⟨h₁, by rw [List.length_take]; omega, e, ?_, hid⟩
    rw [List.getElem?_take_of_lt (by omega)]
    exact he
  before := h.before
  order q e st hq hst a ha := by
    have hlt := (List.getElem?_eq_some_iff.1 hq).1
    rw [List.length_take] at hlt
    rw [List.getElem?_take_of_lt (by omega)] at hq
    exact h.order q e st hq hst a ha

end LogInv

/-! ## Writers under way -/

variable {x : Writer} {writers : List Writer}

theorem findWriter_some (h : findWriter writers id = some x) : x ∈ writers ∧ x.id = id :=
  ⟨mem_of_find?_eq_some h, by simpa using find?_some h⟩

theorem mem_setStage {s : Stage} {y : Writer} (h : y ∈ setStage writers id s) :
    ∃ x ∈ writers, y.id = x.id ∧ y.op = x.op ∧ (x.id = id ∧ y.stage = s ∨ x.id ≠ id ∧ y = x) := by
  obtain ⟨x, hx, rfl⟩ := mem_map.1 h
  refine ⟨x, hx, ?_⟩
  split
  · rename_i hid
    exact ⟨rfl, rfl, .inl ⟨hid, rfl⟩⟩
  · rename_i hid
    exact ⟨rfl, rfl, .inr ⟨hid, rfl⟩⟩

theorem mem_setStage_of_ne {s : Stage} (hx : x ∈ writers) (hne : x.id ≠ id) : x ∈ setStage writers id s :=
  mem_map.2 ⟨x, hx, if_neg hne⟩

theorem mem_dropWriter : x ∈ dropWriter writers id ↔ x ∈ writers ∧ x.id ≠ id := by
  simp [dropWriter]

structure WriterInv (log : List LogEntry) (started : List Started) (synced : Nat)
    (writers : List Writer) : Prop where
  ids : (writers.map Writer.id).Nodup
  disjoint : writers.Pairwise (fun x y => disjointKeys x.op y.op = true ∧ disjointKeys y.op x.op = true)
  known : ∀ x ∈ writers, ∃ st, started[x.id]? = some st ∧ st.op = x.op
  fresh : ∀ x ∈ writers, x.stage = .started → ∀ e ∈ log, e.id ≠ x.id
  placed : ∀ x ∈ writers, ∀ lsn, x.stage = .written lsn ∨ x.stage = .applied lsn →
    1 ≤ lsn ∧ log[lsn - 1]? = some ⟨x.id, x.op⟩
  applied : ∀ x ∈ writers, ∀ lsn, x.stage = .applied lsn → lsn ≤ synced

variable {synced' : Nat}

namespace WriterInv

variable {log : List LogEntry} {started : List Started} {synced : Nat} {writers : List Writer}

theorem nil : WriterInv log started synced [] := by
  constructor <;> simp

theorem setStage_ids (writers : List Writer) (id : Nat) (s : Stage) :
    (setStage writers id s).map Writer.id = writers.map Writer.id := by
  unfold setStage
  rw [map_map]
  refine map_congr_left fun x _ => ?_
  simp only [Function.comp_apply]
  split <;> rfl

variable (h : WriterInv log started synced writers)
include h

theorem eq_of_id {x y : Writer} (hx : x ∈ writers) (hy : y ∈ writers) (hid : x.id = y.id) : x = y :=
  inj_on_of_nodup_map h.ids hx hy hid

theorem apart {x y : Writer} (hx : x ∈ writers) (hy : y ∈ writers) (hne : x ≠ y) :
    disjointKeys x.op y.op = true ∧ disjointKeys y.op x.op = true := by
  have hsymm : Std.Symm (fun x y : Writer =>
      disjointKeys x.op y.op = true ∧ disjointKeys y.op x.op = true) := ⟨fun _ _ h => h.symm⟩
  exact h.disjoint.forall hx hy hne

theorem start (hknown : ∀ e ∈ log, e.id < started.length) (n : Nat)
    (hd : writers.all (fun x => disjointKeys x.op op && disjointKeys op x.op) = true) :
    WriterInv log (started ++ [⟨op, n⟩]) synced (writers ++ [⟨started.length, op, .started⟩]) where
  ids := by
    have hlt : ∀ x ∈ writers, x.id ≠ started.length := fun x hx => by
      obtain ⟨st, hst, -⟩ := h.known x hx
      exact (List.getElem?_eq_some_iff.1 hst).1.ne
    simpa [nodup_append, h.ids] using hlt
  disjoint := by
    refine pairwise_append.2 ⟨h.disjoint, by simp, fun x hx y hy => ?_⟩
    have := all_eq_true.1 hd x hx
    rw [mem_singleton.1 hy]
    simpa using this
  known := by
    refine forall_mem_append.2 ⟨fun x hx => ?_, by simp⟩
    obtain ⟨st, hst, hop⟩ := h.known x hx
    exact ⟨st, getElem?_append_some hst, hop⟩
  fresh := forall_mem_append.2 ⟨h.fresh, by simpa using fun e he => (hknown e he).ne⟩
  placed := forall_mem_append.2 ⟨h.placed, by simp⟩
  applied := forall_mem_append.2 ⟨h.applied, by simp⟩

theorem drop (id : Nat) : WriterInv log started synced (dropWriter writers id) where
  ids := h.ids.sublist (filter_sublist.map _)
  disjoint := h.disjoint.sublist filter_sublist
  known x hx := h.known x (mem_dropWriter.1 hx).1
  fresh x hx := h.fresh x (mem_dropWriter.1 hx).1
  placed x hx := h.placed x (mem_dropWriter.1 hx).1
  applied x hx := h.applied x (mem_dropWriter.1 hx).1

theorem grow (hgone : ∀ x ∈ writers, x.id ≠ id) : WriterInv (log ++ [⟨id, op⟩]) started synced writers where
  __ := h
  fresh x hx hs :=
    forall_mem_append.2 ⟨h.fresh x hx hs, by simpa using (hgone x hx).symm⟩
  placed x hx lsn hs := by
    obtain ⟨h₁, h₂⟩ := h.placed x hx lsn hs
    exact ⟨h₁, getElem?_append_some h₂⟩

theorem setStage_disjoint (id : Nat) (s : Stage) : (setStage writers id s).Pairwise
      (fun x y => disjointKeys x.op y.op = true ∧ disjointKeys y.op x.op = true) := by
  refine pairwise_map.2 (h.disjoint.imp fun {x y} hxy => ?_)
  have hx : (if x.id = id then { x with stage := s } else x).op = x.op := by split <;> rfl
  have hy : (if y.id = id then { y with stage := s } else y).op = y.op := by split <;> rfl
  rw [hx, hy]
  exact hxy

theorem stage (hx : x ∈ writers) {s : Stage}
    {new : List LogEntry} (hnew : ∀ e ∈ new, e.id = x.id) (hstarted : s ≠ .started)
    (hplaced : ∀ lsn, s = .written lsn ∨ s = .applied lsn →
      1 ≤ lsn ∧ (log ++ new)[lsn - 1]? = some ⟨x.id, x.op⟩)
    (happlied : ∀ lsn, s = .applied lsn → lsn ≤ synced) :
    WriterInv (log ++ new) started synced (setStage writers x.id s) where
  ids := by rw [setStage_ids]; exact h.ids
  disjoint := h.setStage_disjoint _ _
  known y hy := by
    obtain ⟨z, hz, hid, hop, -⟩ := mem_setStage hy
    rw [hid, hop]
    exact h.known z hz
  fresh y hy hs e he := by
    obtain ⟨z, hz, hid, hop, ⟨-, hstage⟩ | ⟨hne, rfl⟩⟩ := mem_setStage hy
    · exact absurd (hstage.symm.trans hs) hstarted
    · rcases mem_append.1 he with he | he
      · exact h.fresh y hz hs e he
      · exact hnew e he ▸ hne.symm
  placed y hy lsn hs := by
    obtain ⟨z, hz, hid, hop, ⟨hzid, hstage⟩ | ⟨hne, rfl⟩⟩ := mem_setStage hy
    · rw [hstage] at hs
      obtain rfl := h.eq_of_id hz hx hzid
      rw [hid, hop]
      exact hplaced lsn hs
    · obtain ⟨h₁, h₂⟩ := h.placed y hz lsn hs
      exact ⟨h₁, getElem?_append_some h₂⟩
  applied y hy lsn hs := by
    obtain ⟨z, hz, hid, hop, ⟨-, hstage⟩ | ⟨hne, rfl⟩⟩ := mem_setStage hy
    · exact happlied lsn (hstage.symm.trans hs)
    · exact h.applied y hz lsn hs

theorem write (hx : x ∈ writers) : WriterInv (log ++ [⟨x.id, x.op⟩]) started synced
      (setStage writers x.id (.written (log.length + 1))) := by
  refine h.stage hx (fun e he => ?_) nofun (fun lsn hs => ?_) nofun
  · rw [mem_singleton.1 he]
  · obtain rfl : log.length + 1 = lsn := by simpa using hs
    exact ⟨by omega, by simp⟩

theorem apply (hx : x ∈ writers) {lsn : Nat} (hs : x.stage = .written lsn) (hle : lsn ≤ synced) :
    WriterInv log started synced (setStage writers x.id (.applied lsn)) := by
  have hplaced := h.placed x hx lsn (.inl hs)
  rw [← append_nil log] at hplaced ⊢
  refine h.stage hx nofun nofun (fun l hl => ?_) fun l hl => ?_
  · obtain rfl : lsn = l := by simpa using hl
    exact hplaced
  · cases hl
    exact hle

theorem sync (hle : synced ≤ synced') : WriterInv log started synced' writers :=
  { h with applied := fun x hx lsn hs => (h.applied x hx lsn hs).trans hle }

end WriterInv

/-! ## The view -/

theorem not_touches_of_disjointKeys {a b : MetadataOp} (h : disjointKeys a b = true) {k : Bytes}
    (ha : Touches a.changes k) : ¬ Touches b.changes k := by
  rintro ⟨c', hc', hk'⟩
  obtain ⟨c, hc, hk⟩ := ha
  have := all_eq_true.1 (all_eq_true.1 h c hc) c' hc'
  simp only [ne_eq, decide_eq_true_eq] at this
  exact this (hk.trans hk'.symm)

/-- The view lacks exactly the records of `pend`, written and not applied: every unsynced record is one, and
until the log fails each has a writer that will apply it. -/
structure Pending (log : List LogEntry) (synced : Nat) (view : OrdMap Bytes Bytes)
    (writers : List Writer) (failed : Bool) (pend : List LogEntry) : Prop where
  makes : applyChanges (pend.flatMap LogEntry.changes) view = applyLog log
  ids : (pend.map LogEntry.id).Nodup
  disjoint : pend.Pairwise (fun a b => disjointKeys a.op b.op = true ∧ disjointKeys b.op a.op = true)
  written : ∀ x ∈ writers, ∀ lsn, x.stage = .written lsn → (⟨x.id, x.op⟩ : LogEntry) ∈ pend
  owned : failed = false → ∀ e ∈ pend, ∃ x ∈ writers, x.id = e.id ∧ x.op = e.op ∧
    ∃ lsn, x.stage = .written lsn
  unsynced : ∀ q e, synced ≤ q → log[q]? = some e → e ∈ pend

/-- The view is the log but for the records written and not applied. -/
def ViewInv (log : List LogEntry) (synced : Nat) (view : OrdMap Bytes Bytes)
    (writers : List Writer) (failed : Bool) : Prop :=
  ∃ pend, Pending log synced view writers failed pend

namespace ViewInv

variable {log : List LogEntry} {synced : Nat} {view : OrdMap Bytes Bytes} {writers : List Writer} {failed : Bool}

theorem nil (h : view = applyLog log) (hs : log.length ≤ synced) : ViewInv log synced view [] failed := by
  refine ⟨[], ⟨h, List.nodup_nil, List.Pairwise.nil, by simp, by simp, fun q e hq he => ?_⟩⟩
  have := (List.getElem?_eq_some_iff.1 he).1
  omega

section
variable (h : ViewInv log synced view writers failed)
include h

theorem sync (hle : synced ≤ synced') : ViewInv log synced' view writers failed := by
  obtain ⟨pend, hp⟩ := h
  exact ⟨pend, { hp with unsynced := fun q e hq he => hp.unsynced q e (hle.trans hq) he }⟩

theorem start (hs : x.stage = .started) : ViewInv log synced view (writers ++ [x]) failed := by
  obtain ⟨pend, hp⟩ := h
  refine ⟨pend, { hp with written := ?_, owned := fun hf e he => ?_ }⟩
  · exact forall_mem_append.2 ⟨hp.written, by simp [hs]⟩
  · obtain ⟨y, hy, hrest⟩ := hp.owned hf e he
    exact ⟨y, mem_append_left _ hy, hrest⟩

theorem drop (hids : ∀ y ∈ writers, y.id = x.id → y = x) (hs : ∀ lsn, x.stage ≠ .written lsn) :
    ViewInv log synced view (dropWriter writers x.id) failed := by
  obtain ⟨pend, hp⟩ := h
  refine ⟨pend, { hp with written := fun y hy => ?_, owned := fun hf e he => ?_ }⟩
  · exact hp.written y (mem_dropWriter.1 hy).1
  · obtain ⟨y, hy, hid, hop, lsn, hl⟩ := hp.owned hf e he
    refine ⟨y, mem_dropWriter.2 ⟨hy, fun hxy => ?_⟩, hid, hop, lsn, hl⟩
    rw [hids y hy hxy] at hl
    exact hs lsn hl

theorem fail : ViewInv log synced view writers true := by
  obtain ⟨pend, hp⟩ := h
  exact ⟨pend, { hp with owned := nofun }⟩

end

theorem dropFailed (h : ViewInv log synced view writers true) (id : Nat) :
    ViewInv log synced view (dropWriter writers id) true := by
  obtain ⟨pend, hp⟩ := h
  exact ⟨pend, { hp with
    written := fun y hy => hp.written y (mem_dropWriter.1 hy).1
    owned := nofun }⟩

variable {started : List Started}

theorem write (h : ViewInv log synced view writers false)
    (hw : WriterInv log started synced writers) (hx : x ∈ writers) (hs : x.stage = .started) (lsn : Nat) :
    ViewInv (log ++ [⟨x.id, x.op⟩]) synced view (setStage writers x.id (.written lsn)) false := by
  obtain ⟨pend, hp⟩ := h
  -- every record pending is of another writer
  have hother : ∀ e ∈ pend, ∃ y ∈ writers, y ≠ x ∧ y.id = e.id ∧ y.op = e.op ∧ ∃ l, y.stage = .written l := by
    intro e he
    obtain ⟨y, hy, hid, hop, l, hl⟩ := hp.owned rfl e he
    have hne : y ≠ x := by
      rintro rfl
      rw [hs] at hl
      cases hl
    exact ⟨y, hy, hne, hid, hop, l, hl⟩
  have hpd : ∀ e ∈ pend, disjointKeys e.op x.op = true ∧ disjointKeys x.op e.op = true := by
    intro e he
    obtain ⟨y, hy, hne, -, hop, -⟩ := hother e he
    rw [← hop]
    exact hw.apart hy hx hne
  refine ⟨pend ++ [⟨x.id, x.op⟩], ⟨?_, ?_, ?_, ?_, ?_, ?_⟩⟩
  · rw [flatMap_append, applyChanges_append, hp.makes, applyLog_append]
  · have hids : ∀ e ∈ pend, e.id ≠ x.id := fun e he heq => by
      obtain ⟨y, hy, hne, hid, -⟩ := hother e he
      exact hne (hw.eq_of_id hy hx (hid.trans heq))
    simpa [nodup_append, hp.ids] using hids
  · refine pairwise_append.2 ⟨hp.disjoint, by simp, fun e he b hb => ?_⟩
    rw [mem_singleton.1 hb]
    exact hpd e he
  · intro y hy l hl
    obtain ⟨z, hz, hid, hop, ⟨hzid, -⟩ | ⟨hne, rfl⟩⟩ := mem_setStage hy
    · obtain rfl := hw.eq_of_id hz hx hzid
      rw [hid, hop]
      exact mem_append_right _ mem_cons_self
    · exact mem_append_left _ (hp.written y hz l hl)
  · refine fun _ => forall_mem_append.2 ⟨fun e he => ?_, fun e he => ?_⟩
    · obtain ⟨y, hy, hne, hid, hop, l, hl⟩ := hother e he
      exact ⟨y, mem_setStage_of_ne hy (fun h => hne (hw.eq_of_id hy hx h)), hid, hop, l, hl⟩
    · rw [mem_singleton.1 he]
      exact ⟨{ x with stage := .written lsn }, mem_map.2 ⟨x, hx, if_pos rfl⟩, rfl, rfl, lsn, rfl⟩
  · intro q e hq he
    rw [getElem?_append] at he
    split at he
    · exact mem_append_left _ (hp.unsynced q e hq he)
    · exact mem_append_right _ (mem_of_getElem? he)

theorem writeFailed (h : ViewInv log synced view writers false)
    (hw : WriterInv log started synced writers) (hx : x ∈ writers) (hs : x.stage = .started) :
    ViewInv (log ++ [⟨x.id, x.op⟩]) synced view (dropWriter writers x.id) true := by
  obtain ⟨pend, hp⟩ := h.write hw hx hs 0
  refine ⟨pend, { hp with written := fun y hy l hl => ?_, owned := nofun }⟩
  obtain ⟨hy, hne⟩ := mem_dropWriter.1 hy
  exact hp.written y (mem_setStage_of_ne hy hne) l hl

theorem apply (h : ViewInv log synced view writers failed)
    (hw : WriterInv log started synced writers) (hlog : (log.map LogEntry.id).Nodup)
    (hx : x ∈ writers) {lsn : Nat} (hs : x.stage = .written lsn) (hle : lsn ≤ synced) :
    ViewInv log synced (applyChanges x.op.changes view) (setStage writers x.id (.applied lsn)) failed := by
  obtain ⟨pend, hp⟩ := h
  obtain ⟨l₁, l₂, hsplit⟩ := append_of_mem (hp.written x hx lsn hs)
  have hids := hp.ids
  have hdis := hp.disjoint
  have hmakes := hp.makes
  rw [hsplit] at hids hdis hmakes
  have hgone : ∀ e ∈ l₁ ++ l₂, e.id ≠ x.id := by
    rw [map_append, map_cons] at hids
    have := (nodup_middle.1 hids)
    rw [nodup_cons, ← map_append] at this
    exact fun e he heq => this.1 (mem_map.2 ⟨e, he, heq⟩)
  have hsub : (l₁ ++ l₂).Sublist (l₁ ++ (⟨x.id, x.op⟩ : LogEntry) :: l₂) :=
    List.Sublist.append (List.Sublist.refl _) (sublist_cons_self _ _)
  have hkept : ∀ e ∈ pend, e ≠ ⟨x.id, x.op⟩ → e ∈ l₁ ++ l₂ := by
    intro e he hne
    rw [hsplit, mem_append, mem_cons] at he
    exact mem_append.2 (he.imp_right (·.resolve_left hne))
  refine ⟨l₁ ++ l₂, ⟨?_, hids.sublist (hsub.map _), hdis.sublist hsub, ?_, ?_, ?_⟩⟩
  · have hcomm : ∀ k, Touches (l₁.flatMap LogEntry.changes) k → ¬ Touches x.op.changes k := by
      rintro k ⟨c, hc, hk⟩
      obtain ⟨e, he, hce⟩ := mem_flatMap.1 hc
      have hd := ((pairwise_append.1 hdis).2.2 e he _ mem_cons_self).1
      exact not_touches_of_disjointKeys hd ⟨c, hce, hk⟩
    rw [← hmakes, flatMap_append, flatMap_append, applyChanges_append,
      applyChanges_append, flatMap_cons, applyChanges_append, applyChanges_commute hcomm]
    rfl
  · intro y hy l hl
    obtain ⟨z, hz, hid, hop, ⟨-, hstage⟩ | ⟨hne, rfl⟩⟩ := mem_setStage hy
    · rw [hstage] at hl
      cases hl
    · exact hkept _ (hp.written y hz l hl) fun heq => hne (congrArg LogEntry.id heq)
  · intro hf e he
    obtain ⟨y, hy, hid, hrest⟩ := hp.owned hf e (hsplit ▸ hsub.subset he)
    exact ⟨y, mem_setStage_of_ne hy (hid ▸ hgone e he), hid, hrest⟩
  · intro q e hq he
    refine hkept e (hp.unsynced q e hq he) ?_
    rintro rfl
    -- the applied record is synced, so it stands elsewhere in the log
    obtain ⟨h₁, h₂⟩ := hw.placed x hx lsn (.inl hs)
    have hq' := (List.getElem?_eq_some_iff.1 he).1
    have hsame : (log.map LogEntry.id)[q]? = (log.map LogEntry.id)[lsn - 1]? := by
      rw [getElem?_map, getElem?_map, he, h₂]
    have := (getElem?_inj (by simpa using hq') hlog).1 hsame
    omega

theorem quiet (h : ViewInv log synced view writers false)
    (hq : writers.any Writer.holdsGate = false) : view = applyLog log ∧ log.length ≤ synced := by
  obtain ⟨pend, hp⟩ := h
  have hnil : pend = [] := by
    refine eq_nil_iff_forall_not_mem.2 fun e he => ?_
    obtain ⟨x, hx, -, -, l, hl⟩ := hp.owned rfl e he
    have := any_eq_false.1 hq x hx
    simp [Writer.holdsGate, hl] at this
  subst hnil
  refine ⟨hp.makes, ?_⟩
  by_contra hlt
  have hlt' : synced < log.length := by omega
  have := hp.unsynced synced _ le_rfl (getElem?_eq_getElem hlt')
  cases this

end ViewInv

/-! ## The log file -/

/-- The file holds the operations after some LSN at or before the index's label. -/
def HoldsFrom (ops : List MetadataOp) (label : Nat) (records : List Record) : Prop :=
  ∃ base, base ≤ label ∧ records = recordsFrom (base + 1) (ops.drop base)

/-- The log file holds the records after some LSN at or before the index's label, as does a file a rename may
bring back. -/
structure WalInv (ops : List MetadataOp) (wal : Wal) (syncing : Option Nat) (ck : Checkpoint)
    (replaced : Option WalFile) (label : Nat) : Prop where
  synced_le : wal.syncedLsn ≤ ops.length
  label_le : label ≤ wal.syncedLsn
  written_le : wal.writtenLsn ≤ ops.length
  next : wal.failed = false → wal.nextLsn = ops.length + 1 ∧ wal.writtenLsn = ops.length
  syncing_le : ∀ c, syncing = some c → c ≤ ops.length
  file : ∃ base, base ≤ label ∧ wal.log.records = recordsFrom (base + 1) (ops.drop base) ∧
    ∀ m, ck.mark = some m → m.file = wal.file → base + m.offset = m.lsn
  old : ∀ f, replaced = some f → HoldsFrom ops label f.records
  held : replaced.isSome → wal.failed = true ∨ ck = .renamed
  cut : ∀ m, (ck = .flushed m ∨ ∃ first, ck = .copied m first) → m.lsn ≤ label

theorem recordsFrom_concat {ops : List MetadataOp} {base : Nat} (h : base ≤ ops.length) (op : MetadataOp) :
    recordsFrom (base + 1) ((ops ++ [op]).drop base) =
      recordsFrom (base + 1) (ops.drop base) ++ [⟨ops.length + 1, op⟩] := by
  rw [drop_append_of_le_length h, recordsFrom_append, length_drop,
    show base + 1 + (ops.length - base) = ops.length + 1 by omega]
  rfl

namespace WalInv

variable {ops : List MetadataOp} {wal : Wal} {syncing : Option Nat} {ck : Checkpoint}
  {replaced : Option WalFile} {label : Nat}

theorem dirSync (h : WalInv ops wal syncing .renamed replaced label) (ok : Bool) :
    WalInv ops (wal.dirSynced ok) syncing .idle (if ok then none else replaced) label := by
  have hcut : ∀ m : WalMark, (Checkpoint.idle = .flushed m ∨ ∃ first, Checkpoint.idle = .copied m first) →
      m.lsn ≤ label := by
    rintro m (hm | ⟨_, hm⟩) <;> cases hm
  obtain ⟨base, hb, hr, -⟩ := h.file
  cases ok with
  | true =>
    exact ⟨max_le h.synced_le h.written_le, h.label_le.trans (le_max_left _ _), h.written_le,
      h.next, h.syncing_le, ⟨base, hb, hr, nofun⟩, by simp, by simp, hcut⟩
  | false =>
    exact ⟨h.synced_le, h.label_le, h.written_le, nofun, h.syncing_le,
      ⟨base, hb, hr, nofun⟩, h.old, fun _ => .inl rfl, hcut⟩

variable (h : WalInv ops wal syncing ck replaced label)
include h

variable {wal' : Wal}

theorem grow (hf : wal.failed = false) (hck : ck.holdsLocks = false) (op : MetadataOp)
    (hrec : wal'.log.records = wal.log.records ++ [⟨wal.nextLsn, op⟩])
    (hfile : wal'.file = wal.file) (hsynced : wal'.syncedLsn = wal.syncedLsn)
    (hnext : wal'.failed = false → wal'.nextLsn = wal.nextLsn + 1)
    (hwritten : wal'.writtenLsn = wal.nextLsn ∨ wal'.failed = true ∧ wal'.writtenLsn = wal.writtenLsn) :
    WalInv (ops ++ [op]) wal' syncing ck replaced label := by
  obtain ⟨hn, hw⟩ := h.next hf
  have hlen : (ops ++ [op]).length = ops.length + 1 := by simp
  have hsync := h.synced_le
  have hlab := h.label_le
  have hren : replaced.isSome → ck = .renamed := fun hsome =>
    (h.held hsome).resolve_left (by simp [hf])
  refine ⟨by omega, by omega, ?_, ?_, ?_, ?_, ?_, ?_, h.cut⟩
  · rcases hwritten with hwr | ⟨-, hwr⟩ <;> omega
  · intro hf'
    have := hnext hf'
    rcases hwritten with hwr | ⟨hfail, -⟩
    · exact ⟨by omega, by omega⟩
    · rw [hf'] at hfail
      cases hfail
  · intro c hc
    have := h.syncing_le c hc
    omega
  · obtain ⟨base, hb, hr, hm⟩ := h.file
    refine ⟨base, hb, ?_, fun m hmk hmf => hm m hmk (hmf.trans hfile)⟩
    rw [hrec, hr, recordsFrom_concat (by omega), hn]
  · intro f hfr
    rw [hren (by simp [hfr])] at hck
    cases hck
  · exact fun hsome => .inr (hren hsome)

theorem keep (hrec : wal'.log.records = wal.log.records) (hfile : wal'.file = wal.file)
    (hsynced : wal'.syncedLsn = wal.syncedLsn) (hwritten : wal'.writtenLsn = wal.writtenLsn)
    (hnext : wal'.nextLsn = wal.nextLsn) (hfailed : wal.failed = true → wal'.failed = true) :
    WalInv ops wal' syncing ck replaced label := by
  refine ⟨hsynced ▸ h.synced_le, hsynced ▸ h.label_le, hwritten ▸ h.written_le, ?_, h.syncing_le,
    ?_, h.old, ?_, h.cut⟩
  · intro hf
    cases hwf : wal.failed with
    | true => rw [hfailed hwf] at hf; cases hf
    | false =>
      rw [hnext, hwritten]
      exact h.next hwf
  · obtain ⟨base, hb, hr, hm⟩ := h.file
    exact ⟨base, hb, hrec ▸ hr, fun m hmk hmf => hm m hmk (hmf.trans hfile)⟩
  · intro hsome
    exact (h.held hsome).imp_left hfailed

theorem sync {c : Nat} (hc : c ≤ ops.length) :
    WalInv ops { wal with syncedLsn := max wal.syncedLsn c } none ck replaced label :=
  { h with
    synced_le := max_le h.synced_le hc
    label_le := h.label_le.trans (le_max_left _ _)
    syncing_le := by simp }

theorem checkpoint {ck' : Checkpoint} {label' : Nat}
    (hmark : ∀ m, ck'.mark = some m → ck.mark = some m) (hlab : label ≤ label')
    (hsync : label' ≤ wal.syncedLsn) (hren : ck = .renamed → ck' = .renamed)
    (hcut : ∀ m, (ck' = .flushed m ∨ ∃ first, ck' = .copied m first) → m.lsn ≤ label') :
    WalInv ops wal syncing ck' replaced label' where
  __ := h
  label_le := hsync
  file := by
    obtain ⟨base, hb, hr, hm⟩ := h.file
    exact ⟨base, hb.trans hlab, hr, fun m hmk => hm m (hmark m hmk)⟩
  old f hf := by
    obtain ⟨base, hb, hr⟩ := h.old f hf
    exact ⟨base, hb.trans hlab, hr⟩
  held hsome := (h.held hsome).imp_right hren
  cut := hcut

theorem mark {m : WalMark} (hm : wal.mark = .ok m) (hck : ck = .ready) :
    wal.failed = false ∧ m.lsn = ops.length ∧ WalInv ops wal syncing (.marked m) replaced label := by
  unfold Wal.mark at hm
  split at hm
  · cases hm
  · rename_i hf
    rw [Bool.not_eq_true] at hf
    obtain rfl := Except.ok.inj hm
    obtain ⟨hn, -⟩ := h.next hf
    have hlsn : wal.currentLsn = ops.length := by
      unfold Wal.currentLsn
      omega
    refine ⟨hf, hlsn, { h with file := ?_, held := ?_, cut := ?_ }⟩
    · obtain ⟨base, hb, hr, -⟩ := h.file
      refine ⟨base, hb, hr, fun m hmk _ => ?_⟩
      obtain rfl := Option.some.inj hmk
      have := h.label_le
      have := h.synced_le
      simp only [hr, length_recordsFrom, length_drop]
      omega
    · intro hsome
      rcases h.held hsome with hfail | hren
      · exact .inl hfail
      · rw [hck] at hren
        cases hren
    · rintro m' (hm' | ⟨_, hm'⟩) <;> cases hm'

theorem rename {m : WalMark} {first : Nat} (hck : ck = .copied m first)
    (ht : wal.truncateSecond m first = .ok wal') :
    WalInv ops wal' syncing .renamed (some wal.log) label ∧ wal'.syncedLsn = wal.syncedLsn ∧
      wal'.failed = wal.failed := by
  unfold Wal.truncateSecond at ht
  split at ht
  · cases ht
  · split at ht
    · cases ht
    · rename_i hstale
      obtain rfl := Except.ok.inj ht
      obtain ⟨base, hb, hr, hm⟩ := h.file
      have hbase : base + m.offset = m.lsn :=
        hm m (by rw [hck]; rfl) (by by_contra hne; exact hstale (.inl hne))
      refine ⟨{ h with file := ?_, old := ?_, held := ?_, cut := ?_ }, rfl, rfl⟩
      · refine ⟨m.lsn, h.cut m (.inr ⟨first, hck⟩), ?_, nofun⟩
        simp only [hr, recordsFrom_drop, drop_drop]
        rw [show base + 1 + m.offset = m.lsn + 1 by omega, hbase]
      · rintro f hf
        obtain rfl := Option.some.inj hf
        exact ⟨base, hb, hr⟩
      · exact fun _ => .inr rfl
      · rintro m' (hm' | ⟨_, hm'⟩) <;> cases hm'

end WalInv

/-- The index file is the log through some LSN at or past its label, and all of that is synced. -/
structure IndexInv (log : List LogEntry) (index : DiskIndex) (synced : Nat) (ck : Checkpoint) :
    Prop where
  file : ∃ m, index.checkpointLsn ≤ m ∧ m ≤ synced ∧ index.db.map = applyLog (log.take m)
  frozen : ∀ z, index.frozen = some z → ∃ m, index.checkpointLsn ≤ m ∧ m ≤ synced ∧
    applyChanges z.map.entries index.db.map = applyLog (log.take m)
  marked : ∀ mk, ck = .marked mk → ∃ z, index.frozen = some z ∧ index.checkpointLsn ≤ mk.lsn ∧
    mk.lsn ≤ synced ∧ applyChanges z.map.entries index.db.map = applyLog (log.take mk.lsn)
  ready : ck = .ready → index.frozen = none

namespace IndexInv

variable {log : List LogEntry} {index : DiskIndex} {synced : Nat} {ck : Checkpoint}
  (h : IndexInv log index synced ck)

include h

theorem later {log' : List LogEntry} (hle : synced ≤ synced')
    (htake : ∀ m ≤ synced, log'.take m = log.take m) : IndexInv log' index synced' ck where
  file := by
    obtain ⟨m, h₁, h₂, h₃⟩ := h.file
    exact ⟨m, h₁, h₂.trans hle, by rw [htake m h₂]; exact h₃⟩
  frozen z hz := by
    obtain ⟨m, h₁, h₂, h₃⟩ := h.frozen z hz
    exact ⟨m, h₁, h₂.trans hle, by rw [htake m h₂]; exact h₃⟩
  marked mk hmk := by
    obtain ⟨z, hz, h₁, h₂, h₃⟩ := h.marked mk hmk
    exact ⟨z, hz, h₁, h₂.trans hle, by rw [htake _ h₂]; exact h₃⟩
  ready := h.ready

theorem sync (hle : synced ≤ synced') : IndexInv log index synced' ck :=
  h.later hle fun _ _ => rfl

theorem grow (hle : synced ≤ log.length) (e : LogEntry) : IndexInv (log ++ [e]) index synced ck :=
  h.later le_rfl fun _ hm => take_append_of_le_length (hm.trans hle)

theorem active (l : List Change) : IndexInv log (index.applyAll l) synced ck where
  file := by
    simp only [checkpointLsn, applyAll_db]
    exact h.file
  frozen z hz := by
    rw [applyAll_frozen] at hz
    simp only [checkpointLsn, applyAll_db]
    exact h.frozen z hz
  marked mk hmk := by
    simp only [checkpointLsn, applyAll_db, applyAll_frozen]
    exact h.marked mk hmk
  ready hck := (applyAll_frozen _ _).trans (h.ready hck)

theorem checkpoint {ck' : Checkpoint} (hmark : ∀ m, ck' ≠ .marked m)
    (hready : ck' = .ready → index.frozen = none) : IndexInv log index synced ck' :=
  { h with marked := fun mk hmk => absurd hmk (hmark mk), ready := hready }

theorem freeze (hck : ck = .ready) {mk : WalMark}
    (hview : index.view = applyLog log) (hmk : mk.lsn = log.length) (hs : log.length ≤ synced)
    (hlab : index.checkpointLsn ≤ log.length) : IndexInv log index.freeze.1 synced (.marked mk) := by
  have hnone := h.ready hck
  have hf : index.freeze.1 = { index with active := Memtable.empty, frozen := some index.active } := by
    unfold DiskIndex.freeze
    rw [hnone]
  have hz : applyChanges index.active.map.entries index.db.map = applyLog log := by
    rw [← hview, view_eq, hnone]
    rfl
  rw [hf]
  refine ⟨h.file, ?_, ?_, nofun⟩
  · rintro z hzs
    obtain rfl := Option.some.inj hzs
    exact ⟨log.length, hlab, hs, by rw [take_length]; exact hz⟩
  · rintro mk' hmk'
    obtain rfl := Checkpoint.marked.inj hmk'
    exact ⟨index.active, rfl, hmk ▸ hlab, hmk ▸ hs, by rw [hmk, take_length]; exact hz⟩

/-- However a flush of a memtable ends, the file and what is left frozen are the log through LSNs past the
label. -/
theorem flush {z : Memtable} (hz : index.frozen = some z) {lsn m : Nat} (hlsn : lsn ≤ m) (hm : m ≤ synced)
    (hmap : applyChanges z.map.entries index.db.map = applyLog (log.take m)) (c : DiskIndex.Commit) :
    IndexInv log (index.flushFrozen lsn c).1 synced .idle ∧
      ((index.flushFrozen lsn c).2 = true → (index.flushFrozen lsn c).1.frozen = none ∧
        (index.flushFrozen lsn c).1.checkpointLsn = lsn) ∧ ((index.flushFrozen lsn c).1.checkpointLsn = lsn ∨
        (index.flushFrozen lsn c).1.checkpointLsn = index.checkpointLsn) := by
  have hflushed : (flushed index.db z lsn).map = applyLog (log.take m) :=
    (map_flushed _ _ _).trans hmap
  unfold flushFrozen
  rw [hz]
  cases c with
  | done =>
    refine ⟨⟨⟨m, hlsn, hm, hflushed⟩, by simp, nofun, nofun⟩, fun _ => ⟨rfl, rfl⟩, .inl rfl⟩
  | refused =>
    exact ⟨h.checkpoint nofun nofun, nofun, .inr rfl⟩
  | unanswered =>
    refine ⟨⟨⟨m, hlsn, hm, hflushed⟩, ?_, nofun, nofun⟩, nofun, .inl rfl⟩
    intro z' hz'
    obtain rfl : z = z' := Option.some.inj hz'
    refine ⟨m, hlsn, hm, ?_⟩
    show applyChanges z.map.entries (flushed index.db z lsn).map = _
    rw [map_flushed, applyChanges_absorb (fun k h => h), hmap]

end IndexInv

end IoLake.Storage
