import IoLake.Lib.Steps
import IoLake.Storage.WalBytes

/-!
# Runs of the metadata log over its bytes (`storage/src/metadata/wal.rs`)

`MetadataWal` is the open log with its file's bytes; `World` adds what an observer of a run knows.  A step
takes the locks the code takes: an append is one step under `writer`, a sync is two around the `fdatasync`, a
truncation is its first pass, its second and the sync of the directory.  A crash keeps every byte a successful
sync covered and any prefix of the rest.
-/

namespace IoLake.Storage.LogBytes

open Framing List

/-! ## The open log -/

structure Mark where
  lsn : Nat
  offset : Nat
  file : Nat
  deriving DecidableEq, Repr

/-- Complete; out of space after `wrote` bytes, which are then cut off again if that can be done; or failed
otherwise. -/
inductive WriteOutcome where
  | complete
  | noRoom (wrote : Nat) (cut : Bool)
  | failed (wrote : Nat)
  deriving DecidableEq, Repr

structure MetadataWal where
  log : Bytes
  size : Nat
  nextLsn : Nat
  writtenLsn : Nat
  syncedLsn : Nat
  file : Nat
  failed : Bool
  deriving DecidableEq, Repr

namespace MetadataWal

def withFile (log : Bytes) (last : Nat) : MetadataWal :=
  ⟨log, log.length, last + 1, last, last, 0, false⟩

def cutBack (log : Bytes) (start : Nat) (ok : Bool) : Option Bytes :=
  if log.length < start then none else if ok then some (log.take start) else none

/-- `append` as far as `writer` is held: the LSN of the record, if it was written. -/
def append (crc : Crc) (w : MetadataWal) (data : Bytes) (o : WriteOutcome) : MetadataWal × Option Nat :=
  if 2 ^ 32 ≤ data.length ∨ w.failed then (w, none)
  else
    let bytes := WalRecord.toBytes crc ⟨w.nextLsn, data⟩
    match o with
    | .complete =>
      ({ w with log := w.log ++ bytes, size := w.size + bytes.length, nextLsn := w.nextLsn + 1,
                writtenLsn := w.nextLsn }, some w.nextLsn)
    | .failed wrote => ({ w with log := w.log ++ bytes.take wrote, failed := true }, none)
    | .noRoom wrote cut =>
      match cutBack (w.log ++ bytes.take wrote) w.size cut with
      | some log => ({ w with log := log }, none)
      | none => ({ w with log := w.log ++ bytes.take wrote, failed := true }, none)

def mark (w : MetadataWal) : Mark := ⟨w.nextLsn - 1, w.log.length, w.file⟩

def stale (w : MetadataWal) (m : Mark) (least : Nat) : Bool :=
  decide (m.file ≠ w.file) || decide (w.log.length < least)

def advancePast (w : MetadataWal) (lsn : Nat) : MetadataWal :=
  { w with nextLsn := max w.nextLsn (lsn + 1), writtenLsn := max w.writtenLsn lsn
           syncedLsn := max w.syncedLsn lsn }

end MetadataWal

/-! ## Runs -/

inductive Stage where
  | written (lsn : Nat)
  | acked (lsn : Nat)
  | refused
  deriving DecidableEq, Repr

structure Call where
  data : Bytes
  stage : Stage
  deriving DecidableEq, Repr

/-- Between its passes, with what the first copied; or renamed, with the locks held until the directory is
synced. -/
inductive Truncation where
  | idle
  | copied (m : Mark) (first : Nat) (new : Bytes)
  | renamed
  deriving DecidableEq, Repr

structure World where
  wal : MetadataWal
  durable : Nat
  calls : List Call
  marks : List Mark
  syncing : Option (Nat × Nat)
  truncation : Truncation
  /-- The file a rename replaced while the directory is not synced, and how much of it was durable: a
  power cut can bring it back. -/
  replaced : Option (Bytes × Nat)
  cut : Nat
  deriving DecidableEq, Repr

def World.opened (crc : Crc) (rs : List WalRecord) : World :=
  let log := encode (WalRecord.toBytes crc) rs
  ⟨MetadataWal.withFile log (lastLsn 0 rs), log.length,
    rs.map (fun r => ⟨r.data, .acked r.lsn⟩), [], none, .idle, none, 0⟩

inductive Event where
  | append (data : Bytes) (o : WriteOutcome)
  | ack (i : Nat)
  | refuse (i : Nat)
  | syncStart
  | syncEnd (ok : Bool)
  | mark
  | truncateFirst (i : Nat)
  /-- The copy, its sync or the rename failed: the old file is left as the log. -/
  | truncateAbort
  | truncateSecond
  | dirSync (ok : Bool)
  | advancePast (lsn : Nat)
  deriving DecidableEq, Repr

/-- `truncate_through`'s second pass, `writer` and `sync_handle` held. -/
def truncateSecond (w : World) (m : Mark) (first : Nat) (new : Bytes) : World :=
  if w.wal.failed || w.wal.stale m first then { w with truncation := .idle }
  else
    let kept := new ++ w.wal.log.drop first
    { w with
      wal := { w.wal with log := kept, size := kept.length, file := w.wal.file + 1 }
      durable := kept.length
      truncation := .renamed
      replaced := some (w.wal.log, w.durable)
      cut := m.lsn }

def dirSynced (w : World) (ok : Bool) : World :=
  if ok then
    { w with wal := { w.wal with syncedLsn := max w.wal.syncedLsn w.wal.writtenLsn }
             truncation := .idle, replaced := none }
  else { w with wal := { w.wal with failed := true }, truncation := .idle }

def synced (w : World) (covered len : Nat) (ok : Bool) : World :=
  if ok then
    { w with wal := { w.wal with syncedLsn := max w.wal.syncedLsn covered }
             durable := max w.durable len, syncing := none }
  else { w with wal := { w.wal with failed := true }, syncing := none }

/-- One step of a log that syncs on each write, or does not.  An LSN is a `u64`: nothing is numbered past it. -/
def step (crc : Crc) (syncOnWrite : Bool) (w : World) : Event → Option World
  | .append data o =>
    if w.truncation = .renamed ∨ 2 ^ 64 ≤ w.wal.nextLsn + 1 then none
    else
      match w.wal.append crc data o with
      | (wal, some lsn) => some { w with wal := wal, calls := w.calls ++ [⟨data, .written lsn⟩] }
      | (wal, none) => some { w with wal := wal, calls := w.calls ++ [⟨data, .refused⟩] }
  | .ack i =>
    match w.calls[i]? with
    | some ⟨data, .written lsn⟩ =>
      if syncOnWrite = false ∨ lsn ≤ w.wal.syncedLsn then
        some { w with calls := w.calls.set i ⟨data, .acked lsn⟩ }
      else none
    | _ => none
  | .refuse i =>
    match w.calls[i]? with
    | some ⟨data, .written lsn⟩ =>
      if syncOnWrite ∧ w.wal.failed ∧ w.wal.syncedLsn < lsn then
        some { w with calls := w.calls.set i ⟨data, .refused⟩ }
      else none
    | _ => none
  | .syncStart =>
    if w.truncation = .renamed ∨ w.wal.failed ∨ w.syncing.isSome then none
    else some { w with syncing := some (w.wal.writtenLsn, w.wal.log.length) }
  | .syncEnd ok =>
    match w.syncing with
    | some (covered, len) => some (synced w covered len ok)
    | none => none
  | .mark =>
    if w.truncation = .renamed ∨ w.wal.failed then none
    else some { w with wal := { w.wal with size := w.wal.log.length }
                       marks := w.marks ++ [w.wal.mark] }
  | .truncateFirst i =>
    match w.truncation, w.marks[i]? with
    | .idle, some m =>
      if w.wal.failed || w.wal.stale m m.offset then none
      else some { w with
        wal := { w.wal with size := w.wal.log.length }
        truncation := .copied m w.wal.log.length (w.wal.log.drop m.offset) }
    | _, _ => none
  | .truncateAbort =>
    match w.truncation with
    | .copied _ _ _ => some { w with truncation := .idle }
    | _ => none
  | .truncateSecond =>
    match w.truncation, w.syncing with
    | .copied m first new, none => some (truncateSecond w m first new)
    | _, _ => none
  | .dirSync ok => if w.truncation = .renamed then some (dirSynced w ok) else none
  | .advancePast lsn =>
    if w.truncation = .renamed ∨ 2 ^ 64 ≤ lsn + 1 then none
    else some { w with wal := w.wal.advancePast lsn }

/-- What a crash leaves of the log's file (or of the one it replaced, where that rename may be
undone): at least the bytes a sync covered. -/
def crash (w : World) (old : Bool) (n : Nat) : Option Bytes :=
  match (if old then w.replaced else some (w.wal.log, w.durable)) with
  | some (file, durable) => if durable ≤ n then some (file.take n) else none
  | none => none

/-- `MetadataWal::open`: the log scanned (nothing replayed), a torn tail cut off. -/
def openWal (crc : Crc) (file : Bytes) : Except OpenError MetadataWal :=
  (scanWal crc (fun _ => some ()) (2 ^ 64 - 1) file).map fun s =>
    MetadataWal.withFile (file.take s.endPos) s.lastLsn

def advancesSafely (w : World) : Event → Bool
  | .advancePast lsn => decide (lsn ≤ w.wal.syncedLsn) || w.wal.log.isEmpty
  | _ => true

def Event.fails : Event → Bool
  | .append data (.failed _) => decide (data.length < 2 ^ 32)
  | .syncEnd false => true
  | .dirSync false => true
  | _ => false

/-! ## The invariant -/

abbrev enc (crc : Crc) : WalRecord → Bytes := WalRecord.toBytes crc

def FileIs (crc : Crc) (wal : MetadataWal) (rs : List WalRecord) : Prop :=
  wal.log = encode (enc crc) rs ∨
    wal.failed = true ∧ ∃ r t, wal.log = encode (enc crc) rs ++ t ∧ t <+: enc crc r ∧ Consecutive (rs ++ [r])

/-- The mark is between the records up to its LSN and those after. -/
def MarkAt (crc : Crc) (rs : List WalRecord) (m : Mark) : Prop :=
  ∃ a b, rs = a ++ b ∧ (encode (enc crc) a).length = m.offset ∧ (∀ r ∈ a, r.lsn ≤ m.lsn) ∧
    ∀ r ∈ b, m.lsn < r.lsn

structure LogHolds (crc : Crc) (wal : MetadataWal) (rs : List WalRecord) : Prop where
  consecutive : Consecutive rs
  file : FileIs crc wal rs
  size : wal.failed = false → wal.size = wal.log.length
  last : wal.failed = false → rs ≠ [] → lastLsn 0 rs + 1 = wal.nextLsn
  below : ∀ r ∈ rs, r.lsn < wal.nextLsn
  written : wal.writtenLsn + 1 = wal.nextLsn
  synced : wal.syncedLsn ≤ wal.writtenLsn

structure SyncHolds (crc : Crc) (w : World) (rs : List WalRecord) : Prop where
  durable : Covers (enc crc) WalRecord.lsn rs w.durable w.wal.syncedLsn
  syncing : ∀ c l, w.syncing = some (c, l) → Covers (enc crc) WalRecord.lsn rs l c ∧ c ≤ w.wal.writtenLsn
  renamed : w.truncation = .renamed → (encode (enc crc) rs).length ≤ w.durable

structure MarksHold (crc : Crc) (w : World) (rs : List WalRecord) : Prop where
  cut : w.cut < w.wal.nextLsn
  marks : ∀ m ∈ w.marks, m.file ≤ w.wal.file ∧ m.lsn < w.wal.nextLsn ∧
    (m.file = w.wal.file → w.cut ≤ m.lsn ∧ MarkAt crc rs m)
  copied : ∀ m first new, w.truncation = .copied m first new →
    m ∈ w.marks ∧ m.offset ≤ first ∧ first ≤ (encode (enc crc) rs).length ∧
      new = (w.wal.log.take first).drop m.offset

/-- Appends written after the last truncation's mark are among the records; acknowledged ones are
synced. -/
structure CallsHold (w : World) (rs : List WalRecord) : Prop where
  written : ∀ c ∈ w.calls, ∀ lsn, c.stage = .written lsn ∨ c.stage = .acked lsn →
    w.cut < lsn → (⟨lsn, c.data⟩ : WalRecord) ∈ rs
  acked : ∀ c ∈ w.calls, ∀ lsn, c.stage = .acked lsn → lsn ≤ w.wal.syncedLsn

/-- The file a rename replaced still holds every synced record the new one does. -/
structure ReplacedHolds (crc : Crc) (w : World) (rs : List WalRecord) : Prop where
  held : ∀ f d, w.replaced = some (f, d) → ∃ old upto, f = encode (enc crc) old ∧
    Consecutive old ∧ Covers (enc crc) WalRecord.lsn old d upto ∧
    ∀ r ∈ rs, r.lsn ≤ w.wal.syncedLsn → r ∈ old ∧ r.lsn ≤ upto
  still : w.replaced ≠ none → w.syncing = none ∧ (w.wal.failed = true ∨ w.truncation = .renamed)

structure Inv (crc : Crc) (w : World) (rs : List WalRecord) : Prop where
  log : LogHolds crc w.wal rs
  sync : SyncHolds crc w rs
  marks : MarksHold crc w rs
  calls : CallsHold w rs
  replaced : ReplacedHolds crc w rs

theorem ReplacedHolds.of_none {crc : Crc} {w : World} {rs : List WalRecord} (h : w.replaced = none) :
    ReplacedHolds crc w rs :=
  ⟨fun _ _ hfd => (nomatch h.symm.trans hfd), fun hne => absurd h hne⟩

theorem ReplacedHolds.eq_none {crc : Crc} {w : World} {rs : List WalRecord} (h : ReplacedHolds crc w rs)
    (hf : w.wal.failed = false) (hr : w.truncation ≠ .renamed) : w.replaced = none := by
  by_contra hne
  rcases (h.still hne).2 with hfail | hren
  · cases hf.symm.trans hfail
  · exact hr hren

/-! ## Appends -/

variable {crc : Crc}

variable {wal : MetadataWal} {rs : List WalRecord} {data : Bytes} {i lsn n : Nat} {m : Mark}
  {w w' : World} {e : Event}

theorem LogHolds.log_eq (h : LogHolds crc wal rs)
    (hf : wal.failed = false) : wal.log = encode (enc crc) rs := by
  rcases h.file with hlog | ⟨hfail, -⟩
  · exact hlog
  · rw [hf] at hfail
    cases hfail

theorem append_cases {wal' : MetadataWal} {o : WriteOutcome} {lsn : Option Nat}
    (hsize : wal.failed = false → wal.size = wal.log.length) (h : wal.append crc data o = (wal', lsn)) :
    (lsn = some wal.nextLsn ∧ wal.failed = false ∧ data.length < 2 ^ 32 ∧
      wal' = { wal with log := wal.log ++ enc crc ⟨wal.nextLsn, data⟩
                        size := wal.size + (enc crc ⟨wal.nextLsn, data⟩).length
                        nextLsn := wal.nextLsn + 1, writtenLsn := wal.nextLsn }) ∨
    (lsn = none ∧ wal' = wal) ∨
    (lsn = none ∧ wal.failed = false ∧ data.length < 2 ^ 32 ∧ ∃ t, t <+: enc crc ⟨wal.nextLsn, data⟩ ∧
      wal' = { wal with log := wal.log ++ t, failed := true }) := by
  unfold MetadataWal.append at h
  split_ifs at h with hr
  · cases h
    exact .inr (.inl ⟨rfl, rfl⟩)
  · rw [not_or, Nat.not_le, Bool.not_eq_true] at hr
    cases o with
    | complete =>
      cases h
      exact .inl ⟨rfl, hr.2, hr.1, rfl⟩
    | failed wrote =>
      cases h
      exact .inr (.inr ⟨rfl, hr.2, hr.1, _, take_prefix _ _, rfl⟩)
    | noRoom wrote cut =>
      dsimp only at h
      unfold MetadataWal.cutBack at h
      rw [if_neg (by rw [hsize hr.2, length_append]; omega)] at h
      cases cut with
      | true =>
        -- the file ends where it ended before
        have hcut : ∀ x, (wal.log ++ x).take wal.size = wal.log :=
          fun x => take_left' (hsize hr.2).symm
        rw [if_pos rfl, hcut] at h
        cases h
        exact .inr (.inl ⟨rfl, rfl⟩)
      | false =>
        rw [if_neg (by simp)] at h
        cases h
        exact .inr (.inr ⟨rfl, hr.2, hr.1, _, take_prefix _ _, rfl⟩)

section
variable (h : LogHolds crc wal rs)
include h

theorem LogHolds.nextLsn_pos : 0 < wal.nextLsn := by
  have := h.written
  omega

theorem LogHolds.next (hf : wal.failed = false) (hd : data.length < 2 ^ 32)
    (hlt : wal.nextLsn + 1 < 2 ^ 64) : Consecutive (rs ++ [⟨wal.nextLsn, data⟩]) :=
  h.consecutive.concat hd h.nextLsn_pos hlt (h.last hf)

theorem LogHolds.append (hf : wal.failed = false) (hd : data.length < 2 ^ 32)
    (hlt : wal.nextLsn + 1 < 2 ^ 64) : LogHolds crc { wal with
      log := wal.log ++ enc crc ⟨wal.nextLsn, data⟩
      size := wal.size + (enc crc ⟨wal.nextLsn, data⟩).length
      nextLsn := wal.nextLsn + 1, writtenLsn := wal.nextLsn } (rs ++ [⟨wal.nextLsn, data⟩]) where
  consecutive := h.next hf hd hlt
  file := .inl (by simp [h.log_eq hf])
  size _ := by rw [h.size hf, length_append]
  last _ _ := by rw [lastLsn_concat]
  below r hr := by
    rcases mem_append.1 hr with hr | hr
    · exact Nat.lt_succ_of_lt (h.below r hr)
    · rw [mem_singleton.1 hr]
      exact Nat.lt_succ_self _
  written := rfl
  synced := by
    have := h.synced
    have := h.written
    dsimp only
    omega

theorem LogHolds.fail {r : WalRecord} {t : Bytes} (hf : wal.failed = false) (ht : t <+: enc crc r)
    (hr : Consecutive (rs ++ [r])) : LogHolds crc { wal with log := wal.log ++ t, failed := true } rs :=
  { h with file := .inr ⟨rfl, r, t, by rw [h.log_eq hf], ht, hr⟩, size := nofun, last := nofun }

theorem LogHolds.failed : LogHolds crc { wal with failed := true } rs :=
  { h with file := h.file.imp_right fun hpart => ⟨rfl, hpart.2⟩, size := nofun, last := nofun }

end

theorem MarkAt.concat {r : WalRecord} (h : MarkAt crc rs m)
    (hr : m.lsn < r.lsn) : MarkAt crc (rs ++ [r]) m := by
  obtain ⟨a, b, rfl, hoff, ha, hb⟩ := h
  refine ⟨a, b ++ [r], append_assoc _ _ _, hoff, ha, ?_⟩
  intro x hx
  rcases mem_append.1 hx with hx | hx
  · exact hb x hx
  · rw [mem_singleton.1 hx]
    exact hr

theorem CallsHold.refused (h : CallsHold w rs) (data : Bytes) (hs : wal.syncedLsn = w.wal.syncedLsn) :
    CallsHold { w with wal := wal, calls := w.calls ++ [⟨data, .refused⟩] } rs where
  written c hc lsn hst hcut := by
    rcases mem_append.1 hc with hc | hc
    · exact h.written c hc lsn hst hcut
    · rw [mem_singleton.1 hc] at hst
      rcases hst with hst | hst <;> cases hst
  acked c hc lsn hst := by
    rcases mem_append.1 hc with hc | hc
    · have := h.acked c hc lsn hst
      dsimp only
      omega
    · rw [mem_singleton.1 hc] at hst
      cases hst

theorem take_drop_append {log : Bytes} {first off : Nat} (hle : first ≤ log.length) (x : Bytes) :
    ((log ++ x).take first).drop off = (log.take first).drop off := by
  rw [take_append_of_le_length hle]

theorem Inv.append {o : WriteOutcome}
    (h : Inv crc w rs) (hs : step crc true w (.append data o) = some w') : ∃ rs', Inv crc w' rs' := by
  unfold step at hs
  dsimp only at hs
  split_ifs at hs with hlock
  rw [not_or, Nat.not_le] at hlock
  have hlen : (encode (enc crc) rs).length ≤ w.wal.log.length := by
    rcases h.log.file with hlog | ⟨-, r, t, hlog, -, -⟩
    · rw [hlog]
    · rw [hlog, length_append]
      omega
  have hsyn := h.log.synced
  have hwr := h.log.written
  cases happ : w.wal.append crc data o with
  | mk wal lsn =>
  rw [happ] at hs
  rcases append_cases h.log.size happ with ⟨rfl, hf, hd, rfl⟩ | ⟨rfl, rfl⟩ | ⟨rfl, hf, hd, t, ht, rfl⟩
  · -- a record more
    cases hs
    refine ⟨rs ++ [⟨w.wal.nextLsn, data⟩], h.log.append hf hd hlock.2, ?_, ?_, ?_, ?_⟩
    · refine ⟨h.sync.durable.concat (by dsimp only; omega), fun c l hc => ?_, fun hr => absurd hr hlock.1⟩
      obtain ⟨hcov, hle⟩ := h.sync.syncing c l hc
      exact ⟨hcov.concat (by dsimp only; omega), by dsimp only; omega⟩
    · refine ⟨Nat.lt_succ_of_lt h.marks.cut, fun m hm => ?_, fun m first new ht => ?_⟩
      · obtain ⟨hfile, hlsn, hat⟩ := h.marks.marks m hm
        exact ⟨hfile, Nat.lt_succ_of_lt hlsn, fun he => ⟨(hat he).1, (hat he).2.concat hlsn⟩⟩
      · obtain ⟨hm, hoff, hfirst, hnew⟩ := h.marks.copied m first new ht
        refine ⟨hm, hoff, by rw [encode_append, length_append]; omega, ?_⟩
        rw [hnew, take_drop_append (by omega)]
    · refine ⟨fun c hc lsn hst hcut => ?_, fun c hc lsn hst => ?_⟩
      · rcases mem_append.1 hc with hc | hc
        · exact mem_append_left _ (h.calls.written c hc lsn hst hcut)
        · obtain rfl := mem_singleton.1 hc
          rcases hst with hst | hst <;> cases hst
          exact mem_append_right _ mem_cons_self
      · rcases mem_append.1 hc with hc | hc
        · exact h.calls.acked c hc lsn hst
        · obtain rfl := mem_singleton.1 hc
          cases hst
    · exact .of_none (h.replaced.eq_none hf hlock.1)
  · -- refused, or cut off again
    cases hs
    exact ⟨rs, h.log, { h.sync with }, { h.marks with }, h.calls.refused data rfl, { h.replaced with }⟩
  · -- part of a record is left, and the log has failed
    cases hs
    refine ⟨rs, h.log.fail hf ht (h.log.next hf hd hlock.2), { h.sync with },
      ⟨h.marks.cut, h.marks.marks, fun m first new htr => ?_⟩, h.calls.refused data rfl,
      ⟨h.replaced.held, fun hne => ⟨(h.replaced.still hne).1, .inl rfl⟩⟩⟩
    obtain ⟨hm, hoff, hfirst, hnew⟩ := h.marks.copied m first new htr
    refine ⟨hm, hoff, hfirst, ?_⟩
    rw [hnew, take_drop_append (by omega)]

theorem Inv.answer (h : Inv crc w rs) (hi : w.calls[i]? = some ⟨data, .written lsn⟩) {s : Stage}
    (hs : s = .refused ∨ s = .acked lsn ∧ lsn ≤ w.wal.syncedLsn) :
    Inv crc { w with calls := w.calls.set i ⟨data, s⟩ } rs := by
  have hmem : (⟨data, .written lsn⟩ : Call) ∈ w.calls := mem_of_getElem? hi
  refine ⟨h.log, { h.sync with }, { h.marks with }, ?_, { h.replaced with }⟩
  refine ⟨fun c hc l hst hcut => ?_, fun c hc l hst => ?_⟩
  · rcases mem_or_eq_of_mem_set hc with hc | rfl
    · exact h.calls.written c hc l hst hcut
    · rcases hs with rfl | ⟨rfl, -⟩
      · rcases hst with hst | hst <;> cases hst
      · rcases hst with hst | hst <;> cases hst
        exact h.calls.written _ hmem _ (.inl rfl) hcut
  · rcases mem_or_eq_of_mem_set hc with hc | rfl
    · exact h.calls.acked c hc l hst
    · rcases hs with rfl | ⟨rfl, hle⟩
      · cases hst
      · cases hst
        exact hle

theorem Inv.syncStart (h : Inv crc w rs)
    (hlock : ¬ (w.truncation = .renamed ∨ w.wal.failed = true ∨ w.syncing.isSome = true)) :
    Inv crc { w with syncing := some (w.wal.writtenLsn, w.wal.log.length) } rs := by
  rw [not_or, not_or, Bool.not_eq_true] at hlock
  refine ⟨h.log, ⟨h.sync.durable, fun c l hc => ?_, h.sync.renamed⟩, { h.marks with },
    { h.calls with }, .of_none (h.replaced.eq_none hlock.2.1 hlock.1)⟩
  cases hc
  refine ⟨Covers.all _ ?_, le_rfl⟩
  rw [h.log.log_eq hlock.2.1]

theorem LogHolds.sync (h : LogHolds crc wal rs) {covered : Nat} (hle : covered ≤ wal.writtenLsn) :
    LogHolds crc { wal with syncedLsn := max wal.syncedLsn covered } rs :=
  { h with synced := max_le h.synced hle }

theorem Inv.syncEnd (h : Inv crc w rs) {covered len : Nat}
    (hs : w.syncing = some (covered, len)) (ok : Bool) : Inv crc (synced w covered len ok) rs := by
  obtain ⟨hcov, hle⟩ := h.sync.syncing covered len hs
  have hno : w.replaced = none := by
    by_contra hne
    rw [(h.replaced.still hne).1] at hs
    cases hs
  unfold synced
  cases ok with
  | true =>
    rw [if_pos rfl]
    refine ⟨h.log.sync hle, ⟨?_, nofun, ?_⟩, { h.marks with },
      ⟨h.calls.written, fun c hc l hst => ?_⟩, .of_none hno⟩
    · -- each record was covered before or is by this sync
      intro a r b hrs hr
      by_cases hr' : r.lsn ≤ w.wal.syncedLsn
      · exact (h.sync.durable a r b hrs hr').trans (le_max_left _ _)
      · dsimp only at hr
        exact (hcov a r b hrs (by omega)).trans (le_max_right _ _)
    · exact fun hr => (h.sync.renamed hr).trans (le_max_left _ _)
    · exact (h.calls.acked c hc l hst).trans (le_max_left _ _)
  | false =>
    rw [if_neg (by simp)]
    exact ⟨h.log.failed, ⟨h.sync.durable, nofun, h.sync.renamed⟩, { h.marks with }, { h.calls with },
      .of_none hno⟩

theorem LogHolds.sized (h : LogHolds crc wal rs) : LogHolds crc { wal with size := wal.log.length } rs :=
  { h with size := fun _ => rfl }

theorem Inv.mark (h : Inv crc w rs) (hf : w.wal.failed = false) :
    Inv crc { w with wal := { w.wal with size := w.wal.log.length }
                     marks := w.marks ++ [w.wal.mark] } rs := by
  have hpos := h.log.nextLsn_pos
  have hcut := h.marks.cut
  refine ⟨h.log.sized, { h.sync with }, ⟨hcut, fun m hm => ?_, fun m first new ht => ?_⟩,
    { h.calls with }, { h.replaced with }⟩
  · rcases mem_append.1 hm with hm | hm
    · exact h.marks.marks m hm
    · obtain rfl := mem_singleton.1 hm
      refine ⟨le_rfl, by dsimp only [MetadataWal.mark]; omega, fun _ =>
        ⟨by dsimp only [MetadataWal.mark]; omega, rs, [], by simp, ?_, ?_, nofun⟩⟩
      · rw [MetadataWal.mark, h.log.log_eq hf]
      · intro r hr
        have := h.log.below r hr
        dsimp only [MetadataWal.mark]
        omega
  · obtain ⟨hm, hrest⟩ := h.marks.copied m first new ht
    exact ⟨mem_append_left _ hm, hrest⟩

theorem MetadataWal.of_not_stale (h : ¬ (wal.failed || wal.stale m n) = true) :
    wal.failed = false ∧ m.file = wal.file ∧ n ≤ wal.log.length := by
  rw [Bool.or_eq_true, not_or, Bool.not_eq_true, MetadataWal.stale, Bool.or_eq_true, not_or,
    decide_eq_true_eq, decide_eq_true_eq, not_not, Nat.not_lt] at h
  exact h

theorem Inv.truncateFirst (h : Inv crc w rs) (hidle : w.truncation = .idle) (hm : w.marks[i]? = some m)
    (hok : ¬ (w.wal.failed || w.wal.stale m m.offset) = true) :
    Inv crc { w with wal := { w.wal with size := w.wal.log.length }
                     truncation := .copied m w.wal.log.length (w.wal.log.drop m.offset) } rs := by
  obtain ⟨hf, -, hoff⟩ := MetadataWal.of_not_stale hok
  refine ⟨h.log.sized, ⟨h.sync.durable, h.sync.syncing, nofun⟩,
    ⟨h.marks.cut, h.marks.marks, fun m' first new ht => ?_⟩,
    { h.calls with }, .of_none (h.replaced.eq_none hf (by rw [hidle]; nofun))⟩
  cases ht
  refine ⟨mem_of_getElem? hm, hoff, ?_, by rw [take_length]⟩
  rw [h.log.log_eq hf]

theorem Inv.idle (h : Inv crc w rs)
    (hne : w.truncation ≠ .renamed) : Inv crc { w with truncation := .idle } rs :=
  ⟨h.log, ⟨h.sync.durable, h.sync.syncing, nofun⟩, ⟨h.marks.cut, h.marks.marks, nofun⟩,
    { h.calls with }, ⟨h.replaced.held, fun hr =>
      ⟨(h.replaced.still hr).1, .inl ((h.replaced.still hr).2.resolve_right hne)⟩⟩⟩

theorem Inv.truncateSecond (h : Inv crc w rs)
    {first : Nat} {new : Bytes} (ht : w.truncation = .copied m first new) (hs : w.syncing = none) :
    ∃ rs', Inv crc (truncateSecond w m first new) rs' := by
  unfold LogBytes.truncateSecond
  split_ifs with hok
  · exact ⟨rs, h.idle (by rw [ht]; nofun)⟩
  obtain ⟨hf, hfile, hlen⟩ := MetadataWal.of_not_stale hok
  obtain ⟨hm, hoff, -, hnew⟩ := h.marks.copied m first new ht
  obtain ⟨-, hml, hat⟩ := h.marks.marks m hm
  obtain ⟨hle, a, b, rfl, hoff', ha, hb⟩ := hat hfile
  have hlog := h.log.log_eq hf
  have hl := h.log
  have hkept : new ++ w.wal.log.drop first = encode (enc crc) b := by
    have hsplit : w.wal.log.drop m.offset = encode (enc crc) b := by
      rw [hlog, encode_append, ← hoff', drop_left]
    rw [hnew, ← hsplit, ← drop_append_of_le_length (by rw [length_take]; omega), take_append_drop]
  refine ⟨b, ⟨hl.consecutive.right, .inl hkept, fun _ => rfl, fun _ hne => ?_, fun r hr =>
      hl.below r (mem_append_right _ hr), hl.written, hl.synced⟩, ⟨?_, ?_, fun _ => by rw [hkept]⟩, ⟨hml, ?_, nofun⟩,
    ⟨?_, h.calls.acked⟩, ⟨?_, fun _ => ⟨hs, .inr rfl⟩⟩⟩
  · rw [← lastLsn_append 0 hne]
    exact hl.last hf (fun hnil => hne (append_eq_nil_iff.1 hnil).2)
  · exact Covers.all _ (by rw [hkept])
  · intro c l hc
    rw [hs] at hc
    cases hc
  · intro x hx
    obtain ⟨hxf, hxl, -⟩ := h.marks.marks x hx
    exact ⟨Nat.le_succ_of_le hxf, hxl, fun he => by dsimp only at he; omega⟩
  · -- what was written after the mark is in the part kept
    intro c hc lsn hst hcut
    have hin := h.calls.written c hc lsn hst (by dsimp only at hcut; omega)
    rcases mem_append.1 hin with hin | hin
    · have := ha _ hin
      dsimp only at this hcut
      omega
    · exact hin
  · rintro f d ⟨⟩
    exact ⟨a ++ b, w.wal.syncedLsn, hlog, hl.consecutive, h.sync.durable, fun r hr hle =>
      ⟨mem_append_right _ hr, hle⟩⟩

theorem Inv.dirSync (h : Inv crc w rs)
    (hr : w.truncation = .renamed) (ok : Bool) : Inv crc (dirSynced w ok) rs := by
  unfold dirSynced
  cases ok with
  | true =>
    rw [if_pos rfl]
    exact ⟨h.log.sync le_rfl, ⟨Covers.all _ (h.sync.renamed hr), h.sync.syncing, nofun⟩,
      ⟨h.marks.cut, h.marks.marks, nofun⟩,
      ⟨h.calls.written, fun c hc l hst => (h.calls.acked c hc l hst).trans (le_max_left _ _)⟩, .of_none rfl⟩
  | false =>
    rw [if_neg (by simp)]
    exact ⟨h.log.failed, ⟨h.sync.durable, h.sync.syncing, nofun⟩, ⟨h.marks.cut, h.marks.marks, nofun⟩,
      { h.calls with }, ⟨h.replaced.held, fun hne => ⟨(h.replaced.still hne).1, .inl rfl⟩⟩⟩

theorem FileIs.eq_nil (h : FileIs crc wal rs) (hlog : wal.log = []) : rs = [] := by
  have hnil : encode (enc crc) rs = [] := by
    rcases h with h | ⟨-, r, t, h, -, -⟩
    · exact h.symm.trans hlog
    · exact (append_eq_nil_iff.1 (h.symm.trans hlog)).1
  cases rs with
  | nil => rfl
  | cons r rs =>
    have := congrArg length hnil
    rw [encode_cons, length_append, length_toBytes, length_nil] at this
    omega

theorem Inv.advancePast (h : Inv crc w rs) (hsafe : lsn ≤ w.wal.syncedLsn ∨ w.wal.log = []) :
    Inv crc { w with wal := w.wal.advancePast lsn } rs := by
  have hl := h.log
  have hsyn := hl.synced
  have hwr := hl.written
  rcases hsafe with hle | hnil
  · -- nothing changes
    have hsame : w.wal.advancePast lsn = w.wal := by
      unfold MetadataWal.advancePast
      rw [max_eq_left (by omega), max_eq_left (by omega), max_eq_left hle]
    rw [hsame]
    exact h
  · obtain rfl := hl.file.eq_nil hnil
    refine ⟨⟨hl.consecutive, hl.file, hl.size, fun _ hne => absurd rfl hne, nofun, ?_, ?_⟩,
      ⟨Covers.all _ (by simp), fun c l hc => ⟨Covers.all _ (by simp), ?_⟩, h.sync.renamed⟩,
      ⟨?_, fun m hm => ?_, h.marks.copied⟩, ⟨h.calls.written, fun c hc l hst => ?_⟩,
      ⟨fun f d hfd => ?_, h.replaced.still⟩⟩
    · dsimp only [MetadataWal.advancePast]
      omega
    · dsimp only [MetadataWal.advancePast]
      omega
    · exact (h.sync.syncing c l hc).2.trans (le_max_left _ _)
    · exact h.marks.cut.trans_le (le_max_left _ _)
    · obtain ⟨hfile, hlsn, hat⟩ := h.marks.marks m hm
      exact ⟨hfile, hlsn.trans_le (le_max_left _ _), hat⟩
    · exact (h.calls.acked c hc l hst).trans (le_max_left _ _)
    · obtain ⟨old, upto, hf, hc, hcov, -⟩ := h.replaced.held f d hfd
      exact ⟨old, upto, hf, hc, hcov, nofun⟩

theorem Inv.step (h : Inv crc w rs)
    (hsafe : advancesSafely w e = true) (hs : LogBytes.step crc true w e = some w') :
    ∃ rs', Inv crc w' rs' := by
  cases e with
  | append data o => exact h.append hs
  | ack i =>
    simp only [LogBytes.step] at hs
    split at hs
    · rename_i data lsn hi
      split at hs
      · rename_i hok
        cases hs
        exact ⟨rs, h.answer hi (.inr ⟨rfl, hok.resolve_left nofun⟩)⟩
      · cases hs
    · cases hs
  | refuse i =>
    simp only [LogBytes.step] at hs
    split at hs
    · rename_i data lsn hi
      split_ifs at hs
      cases hs
      exact ⟨rs, h.answer hi (.inl rfl)⟩
    · cases hs
  | syncStart =>
    simp only [LogBytes.step] at hs
    split_ifs at hs with hlock
    cases hs
    exact ⟨rs, h.syncStart hlock⟩
  | syncEnd ok =>
    simp only [LogBytes.step] at hs
    split at hs
    · rename_i covered len hsync
      cases hs
      exact ⟨rs, h.syncEnd hsync ok⟩
    · cases hs
  | mark =>
    simp only [LogBytes.step] at hs
    split_ifs at hs with hlock
    cases hs
    rw [not_or, Bool.not_eq_true] at hlock
    exact ⟨rs, h.mark hlock.2⟩
  | truncateFirst i =>
    simp only [LogBytes.step] at hs
    split at hs
    · rename_i m hidle hm
      split_ifs at hs with hok
      cases hs
      exact ⟨rs, h.truncateFirst hidle hm hok⟩
    · cases hs
  | truncateAbort =>
    simp only [LogBytes.step] at hs
    split at hs
    · rename_i m first new ht
      cases hs
      exact ⟨rs, h.idle (by rw [ht]; nofun)⟩
    · cases hs
  | truncateSecond =>
    simp only [LogBytes.step] at hs
    split at hs
    · rename_i m first new ht hsync
      cases hs
      exact h.truncateSecond ht hsync
    · cases hs
  | dirSync ok =>
    simp only [LogBytes.step] at hs
    split_ifs at hs with hr
    cases hs
    exact ⟨rs, h.dirSync hr ok⟩
  | advancePast lsn =>
    simp only [LogBytes.step] at hs
    split_ifs at hs
    cases hs
    simp only [advancesSafely, Bool.or_eq_true, decide_eq_true_eq, List.isEmpty_iff] at hsafe
    exact ⟨rs, h.advancePast hsafe⟩

theorem Inv.opened (hc : Consecutive rs) : Inv crc (World.opened crc rs) rs := by
  refine ⟨⟨hc, .inl rfl, fun _ => rfl, fun _ _ => rfl, fun r hr => ?_, rfl, le_rfl⟩,
    ⟨Covers.all _ le_rfl, nofun, nofun⟩, ⟨Nat.succ_pos _, nofun, nofun⟩,
    ⟨fun c hcall lsn hst _ => ?_, fun c hcall lsn hst => ?_⟩, .of_none rfl⟩
  · exact Nat.lt_succ_of_le (le_lastLsn 0 hc r hr)
  · obtain ⟨r, hr, rfl⟩ := mem_map.1 hcall
    rcases hst with hst | hst <;> cases hst
    exact hr
  · obtain ⟨r, hr, rfl⟩ := mem_map.1 hcall
    cases hst
    exact le_lastLsn 0 hc r hr

theorem run_inv {rs₀ : List WalRecord} (h₀ : Consecutive rs₀) {es : List Event}
    (hrun : Steps.run (step crc true) (World.opened crc rs₀) es = some w)
    (hadv : Steps.Along (step crc true) (fun w e => advancesSafely w e = true)
      (World.opened crc rs₀) es) : ∃ rs, Inv crc w rs :=
  Steps.run_invariant_along (I := fun w => ∃ rs, Inv crc w rs)
    (fun _ _ _ ⟨_, hi⟩ hc hs => hi.step hc hs) es _ _ ⟨rs₀, Inv.opened h₀⟩ hadv hrun

theorem exists_kept (crc : Crc) {all : List WalRecord} (hc : Consecutive all) (n : Nat) :
    ∃ rs t, (encode (enc crc) all).take n = encode (enc crc) rs ++ t ∧ Consecutive rs ∧
      nextRecord crc t = none ∧
      ∀ a r b, all = a ++ r :: b → (encode (enc crc) (a ++ [r])).length ≤ n → r ∈ rs := by
  obtain ⟨rs, lost, t, rfl, htake, htorn, hfit⟩ := exists_cut (enc crc) all n
  refine ⟨rs, t, htake, hc.left, nextRecord_of_torn crc hc.right.fits htorn, ?_⟩
  intro a r b hall hlen
  have hpre := hfit (a ++ [r]) b (by rw [hall, append_assoc, singleton_append]) hlen
  exact hpre.subset (mem_append_right _ mem_cons_self)

theorem Inv.crash (h : Inv crc w rs) {old : Bool} {file : Bytes} (hc : crash w old n = some file) :
    ∃ all n', file = (encode (enc crc) all).take n' ∧ Consecutive all ∧ ∀ r ∈ rs, r.lsn ≤ w.wal.syncedLsn →
        ∃ a b, all = a ++ r :: b ∧ (encode (enc crc) (a ++ [r])).length ≤ n' := by
  unfold LogBytes.crash at hc
  cases old with
  | true =>
    simp only [if_true] at hc
    split at hc
    · rename_i f d hrep
      split_ifs at hc with hd
      cases hc
      obtain ⟨all, upto, rfl, hall, hcov, hin⟩ := h.replaced.held f d hrep
      refine ⟨all, n, rfl, hall, fun r hr hle => ?_⟩
      obtain ⟨hmem, hup⟩ := hin r hr hle
      obtain ⟨a, b, rfl⟩ := append_of_mem hmem
      exact ⟨a, b, rfl, (hcov a r b rfl hup).trans hd⟩
    · cases hc
  | false =>
    simp only [Bool.false_eq_true, if_false] at hc
    split_ifs at hc with hd
    cases hc
    rcases h.log.file with hlog | ⟨-, r', t, hlog, ht, hall⟩
    · refine ⟨rs, n, by rw [hlog], h.log.consecutive, fun r hr hle => ?_⟩
      obtain ⟨a, b, rfl⟩ := append_of_mem hr
      exact ⟨a, b, rfl, (h.sync.durable a r b rfl hle).trans hd⟩
    · -- what a failed write left is cut from the record it was writing
      obtain ⟨u, hu⟩ := ht
      have hpre : w.wal.log = (encode (enc crc) (rs ++ [r'])).take w.wal.log.length := by
        rw [encode_append, encode_cons, encode_nil, append_nil, ← hu, ← append_assoc, ← hlog, take_left]
      refine ⟨rs ++ [r'], min n w.wal.log.length, ?_, hall, fun r hr hle => ?_⟩
      · rw [← take_take, ← hpre]
      · obtain ⟨a, b, rfl⟩ := append_of_mem hr
        have hend := (h.sync.durable a r b rfl hle).trans hd
        refine ⟨a, b ++ [r'], by rw [append_assoc, cons_append], le_min hend ?_⟩
        rw [hlog, append_cons a r b]
        simp only [encode_append, length_append]
        omega

theorem openWal_encode {t : Bytes} (hc : Consecutive rs) (ht : nextRecord crc t = none) :
    (¬ HoldsWhole crc (lastLsn 0 rs) t → openWal crc (encode (enc crc) rs ++ t) =
        .ok (MetadataWal.withFile (encode (enc crc) rs) (lastLsn 0 rs))) ∧
    (HoldsWhole crc (lastLsn 0 rs) t → ∃ found pos, openWal crc (encode (enc crc) rs ++ t) =
        .error (.damaged (encode (enc crc) rs).length (lastLsn 0 rs) found pos)) := by
  have hlt : ∀ r ∈ rs, r.lsn < 2 ^ 64 - 1 := fun r hr => by
    have := hc.room r hr
    omega
  have hrep : replay (fun _ => some ()) (2 ^ 64 - 1) rs = .ok [] := replay_of_lt _ hlt
  have hfrom : ∀ r ∈ rs.head?, r.lsn ≤ 2 ^ 64 - 1 :=
    fun r hr => Nat.le_of_lt (hlt r (mem_of_mem_head? hr))
  constructor
  · intro hh
    rw [openWal, scanWal_encode crc _ _ hc hfrom ht hh, hrep]
    simp only [Except.map, take_left]
  · intro hh
    obtain ⟨found, pos, hscan⟩ := scanWal_damaged crc (fun _ => some ()) _ hc hfrom ht hh hrep
    exact ⟨found, pos, by rw [openWal, hscan]; rfl⟩

/-- The log has failed, and no call after the first `n` is anything but refused. -/
structure Stopped (n : Nat) (w : World) : Prop where
  failed : w.wal.failed = true
  calls : ∀ i c, n ≤ i → w.calls[i]? = some c → c.stage = .refused

theorem Stopped.answer (h : Stopped n w) (hi : w.calls[i]? = some ⟨data, .written lsn⟩) (s : Stage) :
    Stopped n { w with calls := w.calls.set i ⟨data, s⟩ } := by
  refine ⟨h.failed, fun j c hj hc => ?_⟩
  by_cases hij : i = j
  · subst hij
    cases h.calls i _ hj hi
  · rw [getElem?_set_ne hij] at hc
    exact h.calls j c hj hc

theorem Stopped.step (h : Stopped n w) (hs : LogBytes.step crc true w e = some w') : Stopped n w' := by
  have hf := h.failed
  cases e with
  | append data o =>
    simp only [LogBytes.step] at hs
    split_ifs at hs
    have happ : w.wal.append crc data o = (w.wal, none) := by
      rw [MetadataWal.append, if_pos (.inr hf)]
    rw [happ] at hs
    cases hs
    refine ⟨hf, fun i c hi hc => ?_⟩
    by_cases hlt : i < w.calls.length
    · rw [getElem?_append_left hlt] at hc
      exact h.calls i c hi hc
    · have hmem := mem_of_getElem? (getElem?_append_right (Nat.not_lt.1 hlt) ▸ hc)
      rw [mem_singleton.1 hmem]
  | ack i =>
    simp only [LogBytes.step] at hs
    split at hs
    · rename_i data lsn hi
      split at hs
      · cases hs
        exact h.answer hi _
      · cases hs
    · cases hs
  | refuse i =>
    simp only [LogBytes.step] at hs
    split at hs
    · rename_i data lsn hi
      split_ifs at hs
      cases hs
      exact h.answer hi _
    · cases hs
  | syncStart =>
    simp only [LogBytes.step] at hs
    rw [if_pos (.inr (.inl hf))] at hs
    cases hs
  | syncEnd ok =>
    simp only [LogBytes.step] at hs
    split at hs
    · cases hs
      unfold synced
      split_ifs
      · exact ⟨hf, h.calls⟩
      · exact ⟨rfl, h.calls⟩
    · cases hs
  | mark =>
    simp only [LogBytes.step] at hs
    rw [if_pos (.inr hf)] at hs
    cases hs
  | truncateFirst i =>
    simp only [LogBytes.step] at hs
    split at hs
    · rw [hf, Bool.true_or, if_pos rfl] at hs
      cases hs
    · cases hs
  | truncateAbort =>
    simp only [LogBytes.step] at hs
    split at hs
    · cases hs
      exact ⟨hf, h.calls⟩
    · cases hs
  | truncateSecond =>
    simp only [LogBytes.step] at hs
    split at hs
    · cases hs
      unfold LogBytes.truncateSecond
      rw [hf, Bool.true_or, if_pos rfl]
      exact ⟨hf, h.calls⟩
    · cases hs
  | dirSync ok =>
    simp only [LogBytes.step] at hs
    split_ifs at hs
    cases hs
    unfold dirSynced
    split_ifs
    · exact ⟨hf, h.calls⟩
    · exact ⟨rfl, h.calls⟩
  | advancePast lsn =>
    simp only [LogBytes.step] at hs
    split_ifs at hs
    cases hs
    exact ⟨hf, h.calls⟩

theorem failed_of_fails (he : e.fails = true)
    (hs : LogBytes.step crc true w e = some w') : w'.wal.failed = true := by
  cases e with
  | append data o =>
    cases o with
    | failed wrote =>
      have hd : data.length < 2 ^ 32 := of_decide_eq_true he
      simp only [LogBytes.step] at hs
      split_ifs at hs
      unfold MetadataWal.append at hs
      split_ifs at hs with hr
      · cases hs
        exact hr.resolve_left (by omega)
      · cases hs
        rfl
    | complete | noRoom wrote cut => cases he
  | syncEnd ok =>
    cases ok with
    | true => cases he
    | false =>
      simp only [LogBytes.step] at hs
      split at hs
      · cases hs
        rfl
      · cases hs
  | dirSync ok =>
    cases ok with
    | true => cases he
    | false =>
      simp only [LogBytes.step] at hs
      split_ifs at hs
      cases hs
      rfl
  | _ => cases he

theorem no_ack_after_failure {s₀ w₁ : World} {es₁ es₂ : List Event}
    (he : e.fails = true) (h₁ : Steps.run (step crc true) s₀ (es₁ ++ [e]) = some w₁)
    (h : Steps.run (step crc true) s₀ (es₁ ++ e :: es₂) = some w) {c : Call}
    (hi : w.calls[i]? = some c) (hst : c.stage = .acked lsn) : i < w₁.calls.length := by
  have hrest : Steps.run (step crc true) w₁ es₂ = some w := by
    rw [append_cons, Steps.run_append, h₁] at h
    exact h
  rw [Steps.run_append] at h₁
  obtain ⟨m, -, hm⟩ := Option.bind_eq_some_iff.1 h₁
  obtain ⟨m', hstep, hnil⟩ := Steps.run_cons hm
  cases hnil
  have hstop : Stopped w₁.calls.length w := by
    refine Steps.run_invariant (fun _ _ _ hp hs => hp.step hs) es₂ w₁ w
      ⟨failed_of_fails he hstep, fun j c hj hc => ?_⟩ hrest
    rw [getElem?_eq_none hj] at hc
    cases hc
  by_contra hlt
  have := hstop.calls i c (Nat.not_lt.1 hlt) hi
  rw [hst] at this
  cases this

/-- In every run whose `advance_past` calls are on a log without records or at an LSN already synced, **what a
crash leaves is consecutive records, every acknowledged one after the last truncation's mark among them, and
part of one more; the open reads exactly those, unless that part holds the bytes of a whole record, and no
append made after a failed sync or write is acknowledged.** -/
theorem reopened_log_keeps_acked (crc : Crc) {rs₀ : List WalRecord} (h₀ : Consecutive rs₀)
    {es : List Event} {w : World} (hrun : Steps.run (step crc true) (World.opened crc rs₀) es = some w)
    (hadv : Steps.Along (step crc true) (fun w e => advancesSafely w e = true) (World.opened crc rs₀) es) :
    (∀ old n file, crash w old n = some file → ∃ rs t, file = encode (enc crc) rs ++ t ∧ Consecutive rs ∧
        (∀ c ∈ w.calls, ∀ lsn, c.stage = .acked lsn → w.cut < lsn → (⟨lsn, c.data⟩ : WalRecord) ∈ rs) ∧
        records crc file.length file = rs ∧ (¬ HoldsWhole crc (lastLsn 0 rs) t → openWal crc file =
          .ok (MetadataWal.withFile (encode (enc crc) rs) (lastLsn 0 rs))) ∧
        (HoldsWhole crc (lastLsn 0 rs) t → ∃ found pos, openWal crc file =
          .error (.damaged (encode (enc crc) rs).length (lastLsn 0 rs) found pos))) ∧
    ∀ es₁ e es₂ w₁, es = es₁ ++ e :: es₂ → e.fails = true →
      Steps.run (step crc true) (World.opened crc rs₀) (es₁ ++ [e]) = some w₁ →
      ∀ i c lsn, w.calls[i]? = some c → c.stage = .acked lsn → i < w₁.calls.length := by
  constructor
  · intro old n file hcrash
    obtain ⟨rs', hinv⟩ := run_inv h₀ hrun hadv
    obtain ⟨all, n', rfl, hall, hsynced⟩ := hinv.crash hcrash
    obtain ⟨rs, t, htake, hc, ht, hfit⟩ := exists_kept crc hall n'
    obtain ⟨hopen, hdamaged⟩ := openWal_encode hc ht
    rw [htake]
    refine ⟨rs, t, rfl, hc, ?_, records_encode crc ht rs _ hc.fits le_rfl, hopen, hdamaged⟩
    intro c hcall lsn hst hcut
    have hin := hinv.calls.written c hcall lsn (.inr hst) hcut
    obtain ⟨a, b, hab, hlen⟩ := hsynced _ hin (hinv.calls.acked c hcall lsn hst)
    exact hfit a _ b hab hlen
  · rintro es₁ e es₂ w₁ rfl he h₁ i c lsn hi hst
    exact no_ack_after_failure he h₁ hrun hi hst

/-- Two records acknowledged, the log cut through the first, a third append out of space and a fourth torn. -/
def cutRun : List Event :=
  [.append [1] .complete, .mark, .append [2] .complete, .syncStart, .syncEnd true, .ack 0, .ack 1,
    .truncateFirst 0, .append [3] (.noRoom 5 true), .truncateSecond, .dirSync true,
    .append [4] (.failed 7), .append [5] .complete]

theorem cutRun_facts : ∃ w, Steps.run (step crc32c true) (World.opened crc32c []) cutRun = some w ∧
    Steps.Along (step crc32c true) (fun w e => advancesSafely w e = true) (World.opened crc32c []) cutRun ∧
    w.cut = 1 ∧ (⟨[2], .acked 2⟩ : Call) ∈ w.calls ∧
    crash w false 25 = some (WalRecord.toBytes crc32c ⟨2, [2]⟩ ++ [0x4C, 0x41, 0x57, 0x4D]) :=
  ⟨_, rfl, by decide +kernel, rfl, by decide +kernel, by decide +kernel⟩

theorem cutRun_reopens : ∃ w rs t, Steps.run (step crc32c true) (World.opened crc32c []) cutRun = some w ∧
    crash w false 25 = some (encode (enc crc32c) rs ++ t) ∧ (⟨2, [2]⟩ : WalRecord) ∈ rs ∧
    ∀ i c lsn, w.calls[i]? = some c → c.stage = .acked lsn → i < 4 := by
  obtain ⟨w, hrun, hadv, hcut, hcall, hcrash⟩ := cutRun_facts
  obtain ⟨hkept, hstop⟩ := reopened_log_keeps_acked crc32c Consecutive.nil hrun hadv
  obtain ⟨rs, t, hfile, -, hacked, -⟩ := hkept false 25 _ hcrash
  exact ⟨w, rs, t, hrun, hfile ▸ hcrash, hacked _ hcall 2 rfl (by rw [hcut]; decide),
    hstop (cutRun.take 11) (.append [4] (.failed 7)) [.append [5] .complete] _ rfl rfl rfl⟩

def putBytes (value : Bytes) : Bytes :=
  [0x08, 0x01, 0x12, 0x01, 0x6B, 0x1A, UInt8.ofNat value.length] ++ value

/-- Where each condition is missing: a torn record whose value holds the bytes of a record is damage; an LSN
skipped by `advance_past` is one missing; without `sync_on_write` an acknowledged record is lost; and the sync
of a truncation's copy may fail without stopping the log. -/
theorem log_refused_or_lost : (∃ w, Steps.run (step crc32c true) (World.opened crc32c [])
        [.append (putBytes (WalRecord.toBytes crc32c ⟨1, []⟩)) .complete] = some w ∧
      (crash w false 45).map (openWal crc32c) = some (.error (.damaged 0 0 1 23))) ∧
    (∃ w, Steps.run (step crc32c true) (World.opened crc32c [])
        [.append [] .complete, .syncStart, .syncEnd true, .ack 0, .advancePast 5,
          .append [] .complete, .syncStart, .syncEnd true, .ack 1] = some w ∧
      w.calls = [⟨[], .acked 1⟩, ⟨[], .acked 6⟩] ∧
      (crash w false 40).map (openWal crc32c) = some (.error (.skips 6 20 1))) ∧
    (∃ w, Steps.run (step crc32c false) (World.opened crc32c [])
        [.append [] .complete, .ack 0] = some w ∧ w.calls = [⟨[], .acked 1⟩] ∧ crash w false 0 = some []) ∧
    ∃ w, Steps.run (step crc32c true) (World.opened crc32c [])
        [.append [] .complete, .mark, .truncateFirst 0, .truncateAbort, .append [] .complete,
          .syncStart, .syncEnd true, .ack 1] = some w ∧ (⟨[], .acked 2⟩ : Call) ∈ w.calls :=
  ⟨⟨_, rfl, by decide +kernel⟩, ⟨_, rfl, rfl, by decide +kernel⟩, ⟨_, rfl, rfl, rfl⟩,
    ⟨_, rfl, by decide +kernel⟩⟩

end IoLake.Storage.LogBytes
