import IoLake.Common.LogTail
import IoLake.Lib.ByteFormat
import IoLake.Lib.Framing
import IoLake.Storage.DiskIndex

/-!
# The metadata log's bytes (`storage/src/metadata/wal.rs`, `common/src/log_tail.rs`)

A record is a header (magic, LSN, length), its data and a checksum over both.
-/

namespace IoLake.Storage.LogBytes

open ByteFormat Framing List Option

/-! ## Records -/

def WAL_MAGIC : Nat := 0x4D57414C
abbrev RECORD_HEADER_SIZE : Nat := 16
abbrev RECORD_OVERHEAD : Nat := RECORD_HEADER_SIZE + 4

structure WalRecord where
  lsn : Nat
  data : Bytes
  deriving DecidableEq, Repr

/-- The checksum, `crc32c::crc32c`. -/
abbrev Crc := Bytes → UInt32

def crc32cByte (c : UInt32) (b : UInt8) : UInt32 :=
  (range 8).foldl (fun c _ => if c &&& 1 = 1 then (c >>> 1) ^^^ 0x82F63B78 else c >>> 1)
    (c ^^^ b.toUInt32)

/-- CRC-32C, which the crate computes.  No result below depends on which checksum it is. -/
def crc32c : Crc := fun b => ~~~ (b.foldl crc32cByte 0xFFFFFFFF)

example : crc32c [0x31, 0x32, 0x33, 0x34, 0x35, 0x36, 0x37, 0x38, 0x39] = 0xE3069283 := by
  decide +kernel

def recordHeader (lsn len : Nat) : Bytes := toLE 4 WAL_MAGIC ++ toLE 8 lsn ++ toLE 4 len

def WalRecord.body (r : WalRecord) : Bytes := recordHeader r.lsn r.data.length ++ r.data

def WalRecord.toBytes (crc : Crc) (r : WalRecord) : Bytes := r.body ++ toLE 4 (crc r.body).toNat

def WalRecord.fromBytes (crc : Crc) (data : Bytes) : Except Error (WalRecord × Nat) :=
  if data.length < RECORD_HEADER_SIZE + 4 then .error (.storage "WAL record too small")
  else if fromLE (data.take 4) ≠ WAL_MAGIC then .error (.storage "invalid WAL magic")
  else
    let lsn := fromLE ((data.drop 4).take 8)
    let dataLen := fromLE ((data.drop 12).take 4)
    let totalSize := RECORD_HEADER_SIZE + dataLen + 4
    if data.length < totalSize then .error (.storage "WAL record truncated")
    else if (crc (data.take (RECORD_HEADER_SIZE + dataLen))).toNat ≠
        fromLE ((data.drop (RECORD_HEADER_SIZE + dataLen)).take 4) then
      .error (.storage "WAL record CRC mismatch")
    else .ok (⟨lsn, (data.drop RECORD_HEADER_SIZE).take dataLen⟩, totalSize)

def nextRecord (crc : Crc) (rest : Bytes) : Option (WalRecord × Nat) :=
  if rest.length < RECORD_HEADER_SIZE then none
  else if fromLE (rest.take 4) ≠ WAL_MAGIC then none
  else
    let total := RECORD_HEADER_SIZE + fromLE ((rest.drop 12).take 4) + 4
    -- a corrupt length must not ask for more than the file holds
    if rest.length < total then none
    else (WalRecord.fromBytes crc (rest.take total)).toOption

/-- `Records`: the whole records in order, up to the first that is torn or corrupt. -/
def records (crc : Crc) : Nat → Bytes → List WalRecord
  | 0, _ => []
  | fuel + 1, rest =>
    match nextRecord crc rest with
    | none => []
    | some (record, size) => record :: records crc fuel (rest.drop size)

structure WalRecord.Fits (r : WalRecord) : Prop where
  lsn_lt : r.lsn < 2 ^ 64
  data_lt : r.data.length < 2 ^ 32

variable (lsn len : Nat)

@[simp] theorem length_recordHeader : (recordHeader lsn len).length = 16 := by
  simp [recordHeader]

@[simp] theorem length_body (r : WalRecord) : r.body.length = 16 + r.data.length := by
  simp [WalRecord.body]

@[simp] theorem length_toBytes (crc : Crc) (r : WalRecord) :
    (r.toBytes crc).length = 16 + r.data.length + 4 := by
  simp [WalRecord.toBytes]

theorem take_header (l : Bytes) : (recordHeader lsn len ++ l).take 4 = toLE 4 WAL_MAGIC := by
  rw [recordHeader, append_assoc, append_assoc]
  exact take_left' (length_toLE _ _)

theorem lsn_header (l : Bytes) : ((recordHeader lsn len ++ l).drop 4).take 8 = toLE 8 lsn := by
  rw [recordHeader, append_assoc, append_assoc, drop_left' (length_toLE _ _)]
  exact take_left' (length_toLE _ _)

theorem len_header (l : Bytes) : ((recordHeader lsn len ++ l).drop 12).take 4 = toLE 4 len := by
  have h12 : (toLE 4 WAL_MAGIC ++ toLE 8 lsn).length = 12 := by simp
  rw [recordHeader, append_assoc, drop_left' h12]
  exact take_left' (length_toLE _ _)

theorem fromLE_magic : fromLE (toLE 4 WAL_MAGIC) = WAL_MAGIC :=
  fromLE_toLE_of_lt (by decide)

theorem eq_header {l : Bytes} (hlen : 16 ≤ l.length) (hmagic : fromLE (l.take 4) = WAL_MAGIC) :
    l.take 16 = recordHeader (fromLE ((l.drop 4).take 8)) (fromLE ((l.drop 12).take 4)) := by
  have h4 : (l.take 4).length = 4 := by rw [length_take]; omega
  have h8 : ((l.drop 4).take 8).length = 8 := by rw [length_take, length_drop]; omega
  have h12 : ((l.drop 12).take 4).length = 4 := by rw [length_take, length_drop]; omega
  have e4 := toLE_fromLE (l.take 4)
  have e8 := toLE_fromLE ((l.drop 4).take 8)
  have e12 := toLE_fromLE ((l.drop 12).take 4)
  rw [h4, hmagic] at e4
  rw [h8] at e8
  rw [h12] at e12
  rw [recordHeader, e4, e8, e12, show (16 : Nat) = 12 + 4 from rfl, take_add,
    show (12 : Nat) = 4 + 8 from rfl, take_add]

variable {r : WalRecord} {a b : List WalRecord} {t : Bytes}

section Read

variable (crc : Crc)

theorem fromBytes_toBytes (hr : r.Fits) :
    WalRecord.fromBytes crc (r.toBytes crc) = .ok (r, (r.toBytes crc).length) := by
  have hbytes : r.toBytes crc =
      recordHeader r.lsn r.data.length ++ (r.data ++ toLE 4 (crc r.body).toNat) := by
    rw [WalRecord.toBytes, WalRecord.body, append_assoc]
  have hmagic : fromLE ((r.toBytes crc).take 4) = WAL_MAGIC := by
    rw [hbytes, take_header, fromLE_magic]
  have hlsn : fromLE (((r.toBytes crc).drop 4).take 8) = r.lsn := by
    have := hr.lsn_lt
    rw [hbytes, lsn_header, fromLE_toLE_of_lt (by omega)]
  have hlen : fromLE (((r.toBytes crc).drop 12).take 4) = r.data.length := by
    have := hr.data_lt
    rw [hbytes, len_header, fromLE_toLE_of_lt (by omega)]
  have hbody : (r.toBytes crc).take (16 + r.data.length) = r.body :=
    take_left' (length_body r)
  have hcrc : fromLE (((r.toBytes crc).drop (16 + r.data.length)).take 4) = (crc r.body).toNat := by
    rw [WalRecord.toBytes, drop_left' (length_body r), take_of_length_le (by simp),
      fromLE_toLE_of_lt (crc r.body).toNat_lt]
  have hdata : ((r.toBytes crc).drop 16).take r.data.length = r.data := by
    rw [hbytes, drop_left' (length_recordHeader _ _)]
    exact take_left' rfl
  unfold WalRecord.fromBytes
  simp only [RECORD_HEADER_SIZE, hmagic, hlsn, hlen, hbody, hcrc, hdata, length_toBytes]
  rw [if_neg (by omega), if_neg (by simp), if_neg (by omega), if_neg (by simp)]

/-- What is read as a record **is the bytes of that record.** -/
theorem fromBytes_eq_ok {b : Bytes} {n : Nat} (h : WalRecord.fromBytes crc b = .ok (r, n)) :
    b.take n = r.toBytes crc ∧ n = (r.toBytes crc).length ∧ n ≤ b.length ∧ r.Fits := by
  unfold WalRecord.fromBytes at h
  dsimp only at h
  split_ifs at h with h₁ h₂ h₃ h₄
  cases h
  rw [not_not] at h₂ h₄
  simp only [RECORD_HEADER_SIZE] at h₁ h₃ h₄ ⊢
  have hlt₈ := fromLE_lt ((b.drop 4).take 8)
  have hlt₄ := fromLE_lt ((b.drop 12).take 4)
  have hl₈ : ((b.drop 4).take 8).length = 8 := by rw [length_take, length_drop]; omega
  have hl₄ : ((b.drop 12).take 4).length = 4 := by rw [length_take, length_drop]; omega
  rw [hl₈] at hlt₈
  rw [hl₄] at hlt₄
  have hhead := eq_header (l := b) (by omega) h₂
  generalize hlsn : fromLE ((b.drop 4).take 8) = lsn at *
  generalize hlen : fromLE ((b.drop 12).take 4) = len at *
  have hdata : ((b.drop 16).take len).length = len := by
    rw [length_take, length_drop]
    omega
  have hbody : (WalRecord.mk lsn ((b.drop 16).take len)).body = b.take (16 + len) := by
    rw [WalRecord.body, hdata, ← hhead, take_add]
  have hstored : ((b.drop (16 + len)).take 4).length = 4 := by
    rw [length_take, length_drop]
    omega
  have hcrc : toLE 4 (crc (b.take (16 + len))).toNat = (b.drop (16 + len)).take 4 := by
    have := toLE_fromLE ((b.drop (16 + len)).take 4)
    rwa [hstored, ← h₄] at this
  refine ⟨?_, ?_, by omega, ⟨by dsimp only; omega, by rw [hdata]; omega⟩⟩
  · rw [WalRecord.toBytes, hbody, hcrc, ← take_add]
  · rw [length_toBytes, hdata]

/-- A whole record is read back whatever follows it, and a proper part of one is never taken for a record,
whatever the checksum. -/
theorem nextRecord_toBytes (hr : r.Fits) (rest : Bytes) :
    nextRecord crc (r.toBytes crc ++ rest) = some (r, (r.toBytes crc).length) := by
  have hbytes : r.toBytes crc ++ rest =
      recordHeader r.lsn r.data.length ++ (r.data ++ toLE 4 (crc r.body).toNat ++ rest) := by
    rw [WalRecord.toBytes, WalRecord.body, append_assoc, append_assoc, append_assoc]
  have hmagic : fromLE ((r.toBytes crc ++ rest).take 4) = WAL_MAGIC := by
    rw [hbytes, take_header, fromLE_magic]
  have hlen : fromLE (((r.toBytes crc ++ rest).drop 12).take 4) = r.data.length := by
    have := hr.data_lt
    rw [hbytes, len_header, fromLE_toLE_of_lt (by omega)]
  have htake : (r.toBytes crc ++ rest).take (16 + r.data.length + 4) = r.toBytes crc :=
    take_left' (length_toBytes crc r)
  unfold nextRecord
  simp only [RECORD_HEADER_SIZE, hmagic, hlen, htake, fromBytes_toBytes crc hr, length_append, length_toBytes]
  rw [if_neg (by omega), if_neg (by simp), if_neg (by omega)]
  rfl

theorem nextRecord_torn (hr : r.Fits) (ht : t <+: r.toBytes crc)
    (hlt : t.length < (r.toBytes crc).length) : nextRecord crc t = none := by
  unfold nextRecord
  dsimp only
  split_ifs with h₁ h₂ h₃
  · rfl
  · rfl
  · rfl
  · -- its header is the record's: the length asks for more than there is
    exfalso
    simp only [RECORD_HEADER_SIZE] at h₁ h₃
    obtain ⟨u, hu⟩ := ht
    have hhead : t.take 16 = recordHeader r.lsn r.data.length := by
      have := congrArg (take 16) hu
      rw [take_append_of_le_length (by omega), WalRecord.toBytes, WalRecord.body,
        append_assoc, take_left' (length_recordHeader _ _)] at this
      exact this
    have hlen : fromLE ((t.drop 12).take 4) = r.data.length := by
      have hsplit : t = recordHeader r.lsn r.data.length ++ t.drop 16 := by
        rw [← hhead, take_append_drop]
      have := hr.data_lt
      rw [hsplit, len_header, fromLE_toLE_of_lt (by omega)]
    rw [length_toBytes] at hlt
    omega

theorem nextRecord_nil : nextRecord crc [] = none := by
  simp [nextRecord, RECORD_HEADER_SIZE]

end Read

/-! ## A whole record after a bad one -/

def candidate {β : Type} (probeLen : Nat) (probe : Nat → Bytes → Option Nat)
    (whole : Bytes → Option β) (pos : Nat) (rest : Bytes) : Option β :=
  match probe pos (rest.take probeLen) with
  | none => none
  | some recordLen =>
    if recordLen = 0 ∨ rest.length < recordLen then none else whole (rest.take recordLen)

/-- `whole_record_after`: every offset from `pos` on is a candidate. -/
def wholeRecordAfter {β : Type} (probeLen : Nat) (probe : Nat → Bytes → Option Nat)
    (whole : Bytes → Option β) : Nat → Bytes → Option (Nat × β)
  | _, [] => none
  | pos, b :: rest =>
    match candidate probeLen probe whole pos (b :: rest) with
    | some found => some (pos, found)
    | none => wholeRecordAfter probeLen probe whole (pos + 1) rest

section Windows

open Common

variable {β : Type} (src : Bytes) (probeLen : Nat) (probe : Nat → Bytes → Option Nat) (whole : Bytes → Option β)

theorem candidate_isSome_eq (pos : Nat) : (candidate probeLen probe whole pos (src.drop pos)).isSome =
    LogTail.isRecord src src.length probeLen probe (fun _ b => (whole b).isSome) pos := by
  have hhead : (src.drop pos).take (min probeLen (src.length - pos)) = (src.drop pos).take probeLen := by
    rw [← length_drop, ← take_eq_take_min]
  rw [candidate, LogTail.isRecord, hhead]
  cases probe pos ((src.drop pos).take probeLen) with
  | none => rfl
  | some n =>
    rw [length_drop]
    by_cases hn : n = 0 ∨ src.length - pos < n
    · have hnot : ¬ (0 < n ∧ n ≤ src.length - pos) := by omega
      simp [hn, hnot]
    · have hok : 0 < n ∧ n ≤ src.length - pos := by omega
      simp [hn, hok]

theorem wholeRecordAfter_eq_find : ∀ (k pos : Nat), src.length - pos = k →
    (wholeRecordAfter probeLen probe whole pos (src.drop pos)).map Prod.fst =
      (range' pos k).find? (LogTail.isRecord src src.length probeLen probe fun _ b => (whole b).isSome)
  | 0, pos, hk => by
    rw [drop_eq_nil_of_le (by omega)]
    rfl
  | k + 1, pos, hk => by
    have hcons := drop_eq_getElem_cons (l := src) (i := pos) (by omega)
    have hcand := candidate_isSome_eq src probeLen probe whole pos
    rw [range'_succ, find?_cons, ← hcand, hcons, wholeRecordAfter, ← hcons]
    cases candidate probeLen probe whole pos (src.drop pos) with
    | some found => rfl
    | none => exact wholeRecordAfter_eq_find k (pos + 1) (by omega)

/-- **The search of an open is the search by windows**, for a log no longer than the machine's integers. -/
theorem wholeRecordAfter_eq_windows (hprobe : LogTail.WINDOW + probeLen ≤ LogTail.MAX)
    (hmax : src.length ≤ LogTail.MAX) {bad : Nat} (hbad : bad < src.length) :
    LogTail.wholeRecordAfter src src.length probeLen probe (fun _ b => (whole b).isSome) bad =
      .ok ((wholeRecordAfter probeLen probe whole (bad + 1) (src.drop (bad + 1))).map Prod.fst) := by
  rw [LogTail.wholeRecordAfter, LogTail.windows_eq probe _ le_rfl hprobe,
    wholeRecordAfter_eq_find src probeLen probe whole _ _ rfl, Nat.min_eq_left (by omega)]

end Windows

/-- The probe of `scan_wal`: records after a bad one number on from the last whole one. -/
def probe (lastLsn len pos : Nat) (head : Bytes) : Option Nat :=
  if head.length < RECORD_HEADER_SIZE ∨ fromLE (head.take 4) ≠ WAL_MAGIC then none
  else
    let lsn := fromLE ((head.drop 4).take 8)
    let most := min (2 ^ 64 - 1) (lastLsn + ((len - pos) / RECORD_OVERHEAD + 1))
    if 0 < lastLsn ∧ (lsn ≤ lastLsn ∨ most < lsn) then none
    else some (RECORD_OVERHEAD + fromLE ((head.drop 12).take 4))

def wholeLsn (crc : Crc) (b : Bytes) : Option Nat :=
  (WalRecord.fromBytes crc b).toOption.map (fun r => r.1.lsn)

def Plausible (lastLsn left : Nat) (r : WalRecord) : Prop :=
  lastLsn = 0 ∨ (lastLsn < r.lsn ∧ r.lsn ≤ lastLsn + left / RECORD_OVERHEAD + 1)

def StartsWhole (crc : Crc) (lastLsn : Nat) (rest : Bytes) : Prop :=
  ∃ r : WalRecord, r.Fits ∧ r.toBytes crc <+: rest ∧ Plausible lastLsn rest.length r

theorem take_toBytes (crc : Crc) (r : WalRecord) (u : Bytes) :
    (r.toBytes crc ++ u).take 16 = recordHeader r.lsn r.data.length ++ [] := by
  rw [WalRecord.toBytes, WalRecord.body, append_assoc, append_assoc, take_left' (length_recordHeader _ _), append_nil]

theorem candidate_isSome (crc : Crc) (lastLsn len pos : Nat) (rest : Bytes) (hlen : len = pos + rest.length) :
    (candidate RECORD_HEADER_SIZE (probe lastLsn len) (wholeLsn crc) pos rest).isSome ↔
      StartsWhole crc lastLsn rest := by
  have hleft : len - pos = rest.length := by omega
  constructor
  · intro h
    unfold candidate at h
    split at h
    · cases h
    · rename_i n hn
      split_ifs at h with h₁
      · exact absurd h (by simp)
      obtain ⟨lsn, hlsn⟩ := isSome_iff_exists.1 h
      obtain ⟨⟨r, m⟩, hr, rfl⟩ := map_eq_some_iff.1 hlsn
      have hok : WalRecord.fromBytes crc (rest.take n) = .ok (r, m) := by
        cases hf : WalRecord.fromBytes crc (rest.take n) with
        | error e => rw [hf] at hr; cases hr
        | ok x => rw [hf] at hr; cases hr; rfl
      obtain ⟨htake, hm, hle, hfits⟩ := fromBytes_eq_ok crc hok
      have hpre : r.toBytes crc <+: rest := by
        rw [← htake]
        exact (List.take_prefix _ _).trans (List.take_prefix _ _)
      refine ⟨r, hfits, hpre, ?_⟩
      -- the header the probe saw is the record's
      obtain ⟨u, hu⟩ := hpre
      have hlsn : fromLE (((rest.take 16).drop 4).take 8) = r.lsn := by
        rw [← hu, take_toBytes, lsn_header]
        exact fromLE_toLE_of_lt hfits.lsn_lt
      unfold probe at hn
      dsimp only [RECORD_HEADER_SIZE] at hn
      split_ifs at hn with h₂ h₃
      rw [hlsn, hleft] at h₃
      unfold Plausible
      omega
  · rintro ⟨r, hfits, ⟨u, hu⟩, hp⟩
    have hlsn_lt := hfits.lsn_lt
    have hdata_lt := hfits.data_lt
    have hhead : rest.take 16 = recordHeader r.lsn r.data.length ++ [] := by rw [← hu, take_toBytes]
    have hsize : rest.length = 16 + r.data.length + 4 + u.length := by
      rw [← hu, length_append, length_toBytes]
    have hprobe : probe lastLsn len pos (rest.take 16) = some (16 + r.data.length + 4) := by
      unfold probe
      dsimp only [RECORD_HEADER_SIZE]
      rw [hhead, take_header, lsn_header, len_header, fromLE_magic, fromLE_toLE_of_lt hlsn_lt,
        fromLE_toLE_of_lt hdata_lt, if_neg (by simp), if_neg]
      · simp only [RECORD_OVERHEAD, RECORD_HEADER_SIZE, some.injEq]
        omega
      · rw [hleft]
        unfold Plausible at hp
        omega
    have hwhole : rest.take (16 + r.data.length + 4) = r.toBytes crc := by
      rw [← hu]
      exact take_left' (length_toBytes crc r)
    unfold candidate
    simp only [RECORD_HEADER_SIZE, hprobe, hwhole]
    rw [if_neg (by omega), wholeLsn, fromBytes_toBytes crc hfits]
    rfl

theorem wholeRecordAfter_isSome (crc : Crc) (lastLsn len : Nat) : ∀ (rest : Bytes) (pos : Nat),
    len = pos + rest.length →
    ((wholeRecordAfter RECORD_HEADER_SIZE (probe lastLsn len) (wholeLsn crc) pos rest).isSome ↔
      ∃ a b, rest = a ++ b ∧ StartsWhole crc lastLsn b)
  | [], pos, _ => by
    simp only [wholeRecordAfter, isSome_none, Bool.false_eq_true, false_iff]
    rintro ⟨a, b, hab, r, -, hpre, -⟩
    have hb : b = [] := (append_eq_nil_iff.1 hab.symm).2
    have := hpre.length_le
    rw [hb, length_toBytes, length_nil] at this
    omega
  | x :: rest, pos, hlen => by
    have ih := wholeRecordAfter_isSome crc lastLsn len rest (pos + 1) (by simp at hlen ⊢; omega)
    have hc := candidate_isSome crc lastLsn len pos (x :: rest) hlen
    unfold wholeRecordAfter
    cases hcand : candidate RECORD_HEADER_SIZE (probe lastLsn len) (wholeLsn crc) pos (x :: rest) with
    | some found =>
      rw [hcand] at hc
      simp only [isSome_some, true_iff] at hc ⊢
      exact ⟨[], x :: rest, rfl, hc⟩
    | none =>
      rw [hcand] at hc
      simp only [isSome_none, Bool.false_eq_true, false_iff] at hc
      simp only [ih]
      constructor
      · rintro ⟨a, b, rfl, hb⟩
        exact ⟨x :: a, b, rfl, hb⟩
      · rintro ⟨a, b, hab, hb⟩
        cases a with
        | nil => exact absurd (by rw [nil_append] at hab; rw [hab]; exact hb) hc
        | cons y a => exact ⟨a, b, (cons.inj hab).2, hb⟩

/-- The torn tail holds, anywhere after its first byte, the bytes of a whole record that may follow. -/
def HoldsWhole (crc : Crc) (lastLsn : Nat) (t : Bytes) : Prop :=
  ∃ a b, a ≠ [] ∧ t = a ++ b ∧ StartsWhole crc lastLsn b

theorem holdsWhole_iff (crc : Crc) (lastLsn pos : Nat) (t : Bytes) : HoldsWhole crc lastLsn t ↔
      (wholeRecordAfter RECORD_HEADER_SIZE (probe lastLsn (pos + t.length)) (wholeLsn crc) (pos + 1)
        (t.drop 1)).isSome := by
  cases t with
  | nil =>
    simp only [drop_nil, wholeRecordAfter, isSome_none, Bool.false_eq_true, iff_false]
    rintro ⟨a, b, ha, hab, -⟩
    exact ha (append_eq_nil_iff.1 hab.symm).1
  | cons x t =>
    rw [drop_succ_cons, drop_zero, wholeRecordAfter_isSome crc lastLsn _ t (pos + 1) (by simp; omega)]
    constructor
    · rintro ⟨a, b, ha, hab, hb⟩
      cases a with
      | nil => exact absurd rfl ha
      | cons y a => exact ⟨a, b, (cons.inj hab).2, hb⟩
    · rintro ⟨a, b, rfl, hb⟩
      exact ⟨x :: a, b, by simp, rfl, hb⟩

inductive OpenError where
  | startsAfter (lsn fromLsn : Nat)
  | skips (lsn pos lastLsn : Nat)
  | undecodable (lsn : Nat)
  | damaged (endPos lastLsn found pos : Nat)
  deriving DecidableEq, Repr

def OpenError.message (path : String) : OpenError → String
  | .startsAfter lsn fromLsn => refusing
      s!"it starts at record {lsn}, but the index needs it from {fromLsn}: records are missing"
  | .skips lsn pos lastLsn => refusing
      s!"record {lsn} at byte {pos} follows record {lastLsn}: records are missing"
  | .undecodable lsn =>
      s!"metadata log {path}: record {lsn} is intact but doesn't decode (written by a newer " ++
        "release?); refusing to start rather than drop it"
  | .damaged endPos lastLsn found pos => refusing <|
      s!"the record at byte {endPos} (after record {lastLsn}) is damaged, and record {found} " ++
        s!"follows it whole at byte {pos}: damage, not a torn append"
where
  refusing (what : String) : String :=
    s!"metadata log {path}: {what}; refusing to open rather than drop or misplace " ++ "acknowledged changes"

structure Scanned (α : Type) where
  lastLsn : Nat
  endPos : Nat
  entries : List (Nat × α)
  deriving DecidableEq, Repr

section Scan

variable {α : Type} (crc : Crc) (decode : Bytes → Option α) (fromLsn : Nat)

def scanLoop : Nat → Nat → Nat → Bytes → Except OpenError (Scanned α × Bytes)
  | 0, lastLsn, pos, rest => .ok (⟨lastLsn, pos, []⟩, rest)
  | fuel + 1, lastLsn, pos, rest =>
    match nextRecord crc rest with
    | none => .ok (⟨lastLsn, pos, []⟩, rest)
    | some (record, size) =>
      if lastLsn = 0 ∧ fromLsn < record.lsn then .error (.startsAfter record.lsn fromLsn)
      else if lastLsn ≠ 0 ∧ record.lsn ≠ lastLsn + 1 then .error (.skips record.lsn pos lastLsn)
      else if fromLsn ≤ record.lsn then
        match decode record.data with
        | none => .error (.undecodable record.lsn)
        | some op =>
          (scanLoop fuel record.lsn (pos + size) (rest.drop size)).map fun s =>
            (⟨s.1.lastLsn, s.1.endPos, (record.lsn, op) :: s.1.entries⟩, s.2)
      else scanLoop fuel record.lsn (pos + size) (rest.drop size)

/-- The scan of an open: records that follow on from one another, then a torn tail that is cut off, unless
it holds a whole record. -/
def scanWal (file : Bytes) : Except OpenError (Scanned α) :=
  match scanLoop crc decode fromLsn file.length 0 0 file with
  | .error e => .error e
  | .ok (s, rest) =>
    match wholeRecordAfter RECORD_HEADER_SIZE (probe s.lastLsn file.length) (wholeLsn crc)
        (s.endPos + 1) (rest.drop 1) with
    | some (pos, found) => .error (.damaged s.endPos s.lastLsn found pos)
    | none => .ok s

end Scan

/-! ### The scan of consecutive records -/

structure Consecutive (rs : List WalRecord) : Prop where
  fits : ∀ r ∈ rs, r.Fits
  pos : ∀ r ∈ rs, 0 < r.lsn
  room : ∀ r ∈ rs, r.lsn + 1 < 2 ^ 64
  chain : rs.IsChain (fun a b => b.lsn = a.lsn + 1)

theorem Consecutive.nil : Consecutive [] := ⟨nofun, nofun, nofun, .nil⟩

theorem Consecutive.tail {rs : List WalRecord} (h : Consecutive (r :: rs)) : Consecutive rs :=
  ⟨fun x hx => h.fits x (mem_cons_of_mem _ hx), fun x hx => h.pos x (mem_cons_of_mem _ hx),
    fun x hx => h.room x (mem_cons_of_mem _ hx), h.chain.tail⟩

theorem Consecutive.left (h : Consecutive (a ++ b)) : Consecutive a :=
  ⟨fun x hx => h.fits x (mem_append_left _ hx), fun x hx => h.pos x (mem_append_left _ hx),
    fun x hx => h.room x (mem_append_left _ hx), h.chain.left_of_append⟩

theorem Consecutive.right (h : Consecutive (a ++ b)) : Consecutive b :=
  ⟨fun x hx => h.fits x (mem_append_right _ hx), fun x hx => h.pos x (mem_append_right _ hx),
    fun x hx => h.room x (mem_append_right _ hx), h.chain.right_of_append⟩

def lastLsn (last : Nat) (rs : List WalRecord) : Nat := (rs.getLast?.map WalRecord.lsn).getD last

variable (last : Nat)

@[simp] theorem lastLsn_cons (r : WalRecord) (rs : List WalRecord) :
    lastLsn last (r :: rs) = lastLsn r.lsn rs := by
  cases rs with
  | nil => rfl
  | cons x rs =>
    have hlast : (x :: rs).getLast? = some _ := getLast?_eq_some_getLast (by simp)
    simp [lastLsn, getLast?_cons_cons, hlast]

@[simp] theorem lastLsn_concat (rs : List WalRecord) (r : WalRecord) : lastLsn last (rs ++ [r]) = r.lsn := by
  simp [lastLsn]

theorem lastLsn_append (hb : b ≠ []) : lastLsn last (a ++ b) = lastLsn last b := by
  obtain ⟨b', r, rfl⟩ := (eq_nil_or_concat b).resolve_left hb
  rw [concat_eq_append, ← append_assoc, lastLsn_concat, lastLsn_concat]

theorem le_lastLsn : ∀ {rs : List WalRecord} (last : Nat), Consecutive rs → ∀ r ∈ rs, r.lsn ≤ lastLsn last rs
  | [], _, _, r, hr => nomatch hr
  | [x], _, _, r, hr => by
    rw [mem_singleton.1 hr]
    rfl
  | x :: y :: rs, last, h, r, hr => by
    have ih := le_lastLsn x.lsn h.tail
    rw [lastLsn_cons]
    rcases mem_cons.1 hr with rfl | hr
    · have hnext : y.lsn = r.lsn + 1 := h.chain.rel_head? rfl
      have := ih y mem_cons_self
      omega
    · exact ih r hr

theorem Consecutive.concat {rs : List WalRecord} (h : Consecutive rs)
    (hdata : r.data.length < 2 ^ 32) (hpos : 0 < r.lsn) (hroom : r.lsn + 1 < 2 ^ 64)
    (hlast : rs ≠ [] → lastLsn 0 rs + 1 = r.lsn) : Consecutive (rs ++ [r]) := by
  have both : ∀ {P : WalRecord → Prop}, (∀ x ∈ rs, P x) → P r → ∀ x ∈ rs ++ [r], P x := by
    intro P hrs hr x hx
    rcases mem_append.1 hx with hx | hx
    · exact hrs x hx
    · rw [mem_singleton.1 hx]
      exact hr
  refine ⟨both h.fits ⟨by omega, hdata⟩, both h.pos hpos, both h.room hroom,
    isChain_append.2 ⟨h.chain, isChain_singleton _, ?_⟩⟩
  · intro x hx y hy
    obtain rfl : r = y := by simpa using hy
    have hne : rs ≠ [] := by
      rintro rfl
      cases hx
    rw [← hlast hne, lastLsn, hx]
    rfl

def replay {α : Type} (decode : Bytes → Option α) (fromLsn : Nat) :
    List WalRecord → Except OpenError (List (Nat × α))
  | [] => .ok []
  | r :: rs =>
    if fromLsn ≤ r.lsn then
      match decode r.data with
      | none => .error (.undecodable r.lsn)
      | some op => (replay decode fromLsn rs).map ((r.lsn, op) :: ·)
    else replay decode fromLsn rs

section Encoded

variable {α : Type} (crc : Crc) (decode : Bytes → Option α) (fromLsn : Nat)

theorem scanLoop_encode (ht : nextRecord crc t = none) :
    ∀ (rs : List WalRecord) (fuel last pos : Nat), Consecutive rs →
    (∀ r ∈ rs.head?, if last = 0 then r.lsn ≤ fromLsn else r.lsn = last + 1) →
    (encode (WalRecord.toBytes crc) rs ++ t).length ≤ fuel →
    scanLoop crc decode fromLsn fuel last pos (encode (WalRecord.toBytes crc) rs ++ t) =
      (replay decode fromLsn rs).map fun es =>
        (⟨lastLsn last rs, pos + (encode (WalRecord.toBytes crc) rs).length, es⟩, t)
  | [], fuel, last, pos, _, _, hfuel => by
    cases fuel with
    | zero => rfl
    | succ fuel =>
      rw [encode_nil, nil_append, scanLoop, ht]
      rfl
  | r :: rs, fuel, last, pos, hc, hhead, hfuel => by
    have hr := hc.fits r mem_cons_self
    have hpos := hc.pos r mem_cons_self
    have hfirst := hhead r (by simp)
    rw [encode_cons, append_assoc, length_append, length_toBytes] at hfuel
    obtain ⟨fuel, rfl⟩ : ∃ k, fuel = k + 1 := ⟨fuel - 1, by omega⟩
    have hnext : ∀ x ∈ rs.head?, if r.lsn = 0 then x.lsn ≤ fromLsn else x.lsn = r.lsn + 1 := by
      intro x hx
      rw [if_neg (by omega)]
      exact hc.chain.rel_head? hx
    have ih := scanLoop_encode ht rs fuel r.lsn (pos + (r.toBytes crc).length) hc.tail hnext
      (by omega)
    rw [encode_cons, append_assoc, scanLoop, nextRecord_toBytes crc hr]
    have h₁ : ¬ (last = 0 ∧ fromLsn < r.lsn) := by
      rintro ⟨h0, hlt⟩
      rw [if_pos h0] at hfirst
      omega
    have h₂ : ¬ (last ≠ 0 ∧ r.lsn ≠ last + 1) := by
      rintro ⟨h0, hne⟩
      rw [if_neg h0] at hfirst
      exact hne hfirst
    simp only [if_neg h₁, if_neg h₂, drop_left, ih, replay, lastLsn_cons, length_append, Nat.add_assoc]
    split_ifs with hfrom
    · cases decode r.data with
      | none => rfl
      | some op => cases replay decode fromLsn rs <;> rfl
    · rfl

theorem nextRecord_of_torn {lost : List WalRecord} (hfits : ∀ r ∈ lost, r.Fits)
    (h : Torn (WalRecord.toBytes crc) lost t) : nextRecord crc t = none := by
  rcases h with rfl | ⟨r, l, rfl, hpre, hlt⟩
  · exact nextRecord_nil crc
  · exact nextRecord_torn crc (hfits r mem_cons_self) hpre hlt

theorem records_encode (ht : nextRecord crc t = none) :
    ∀ (rs : List WalRecord) (fuel : Nat), (∀ r ∈ rs, r.Fits) →
    (encode (WalRecord.toBytes crc) rs ++ t).length ≤ fuel →
    records crc fuel (encode (WalRecord.toBytes crc) rs ++ t) = rs
  | [], fuel, _, _ => by
    cases fuel with
    | zero => rfl
    | succ fuel => rw [encode_nil, nil_append, records, ht]
  | r :: rs, fuel, hfits, hfuel => by
    rw [encode_cons, append_assoc, length_append, length_toBytes] at hfuel
    obtain ⟨fuel, rfl⟩ : ∃ k, fuel = k + 1 := ⟨fuel - 1, by omega⟩
    have ih := records_encode ht rs fuel (fun x hx => hfits x (mem_cons_of_mem _ hx)) (by omega)
    rw [encode_cons, append_assoc, records, nextRecord_toBytes crc (hfits r mem_cons_self)]
    simp only [drop_left, ih]

variable {rs : List WalRecord} {t : Bytes}

/-- The scan of consecutive records and a torn tail: **all of them, or, exactly where the tail holds a whole
record, a refusal.** -/
theorem scanWal_encode (hc : Consecutive rs) (hfrom : ∀ r ∈ rs.head?, r.lsn ≤ fromLsn)
    (ht : nextRecord crc t = none) (hh : ¬ HoldsWhole crc (lastLsn 0 rs) t) :
    scanWal crc decode fromLsn (encode (WalRecord.toBytes crc) rs ++ t) =
      (replay decode fromLsn rs).map fun es =>
        ⟨lastLsn 0 rs, (encode (WalRecord.toBytes crc) rs).length, es⟩ := by
  have hloop := scanLoop_encode crc decode fromLsn ht rs _ 0 0 hc
    (fun r hr => by rw [if_pos rfl]; exact hfrom r hr) le_rfl
  rw [holdsWhole_iff crc _ (encode (WalRecord.toBytes crc) rs).length, not_isSome_iff_eq_none,
    ← length_append] at hh
  rw [scanWal, hloop, Nat.zero_add]
  cases replay decode fromLsn rs with
  | error e => rfl
  | ok es =>
    simp only [Except.map]
    rw [hh]

theorem scanWal_damaged (hc : Consecutive rs) (hfrom : ∀ r ∈ rs.head?, r.lsn ≤ fromLsn)
    (ht : nextRecord crc t = none) (hh : HoldsWhole crc (lastLsn 0 rs) t)
    {es : List (Nat × α)} (hes : replay decode fromLsn rs = .ok es) :
    ∃ found pos, scanWal crc decode fromLsn (encode (WalRecord.toBytes crc) rs ++ t) =
      .error (.damaged (encode (WalRecord.toBytes crc) rs).length (lastLsn 0 rs) found pos) := by
  have hloop := scanLoop_encode crc decode fromLsn ht rs _ 0 0 hc
    (fun r hr => by rw [if_pos rfl]; exact hfrom r hr) le_rfl
  rw [holdsWhole_iff crc _ (encode (WalRecord.toBytes crc) rs).length, ← length_append] at hh
  obtain ⟨⟨pos, found⟩, hsome⟩ := isSome_iff_exists.1 hh
  refine ⟨found, pos, ?_⟩
  rw [scanWal, hloop, hes, Nat.zero_add]
  simp only [Except.map]
  rw [hsome]

theorem scanWal_startsAfter (hr : r.Fits) (rest : Bytes) (hlt : fromLsn < r.lsn) :
    scanWal crc decode fromLsn (r.toBytes crc ++ rest) = .error (.startsAfter r.lsn fromLsn) := by
  obtain ⟨fuel, hfuel⟩ : ∃ k, (r.toBytes crc ++ rest).length = k + 1 :=
    ⟨_, (Nat.succ_pred_eq_of_pos (by rw [length_append, length_toBytes]; omega)).symm⟩
  have hloop : scanLoop crc decode fromLsn (fuel + 1) 0 0 (r.toBytes crc ++ rest) =
      .error (.startsAfter r.lsn fromLsn) := by
    rw [scanLoop, nextRecord_toBytes crc hr]
    exact if_pos ⟨rfl, hlt⟩
  rw [scanWal, hfuel, hloop]

theorem replay_of_lt {fromLsn : Nat} : ∀ {rs : List WalRecord}, (∀ r ∈ rs, r.lsn < fromLsn) →
    replay decode fromLsn rs = .ok []
  | [], _ => rfl
  | r :: rs, h => by
    rw [replay, if_neg (Nat.not_le.2 (h r mem_cons_self))]
    exact replay_of_lt fun x hx => h x (mem_cons_of_mem _ hx)

end Encoded

end IoLake.Storage.LogBytes
