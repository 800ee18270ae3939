import IoLake.Lib.Totals
import IoLake.Osd.PgNames

/-!
# What a summary counts

A summary without its highest stamp is a sum over entries: five counters, which add, and a digest, which adds
by exclusive or.  These sums cancel, so that a summary from which an entry is taken out is the sum without it
(`Summary.counts_sub`), and a recount is the total over the rows of the store (`recount_counts`).
-/

namespace IoLake.Osd

open IoLake.Storage OrdMap List Function

/-! ## Sums of entries -/

@[ext] structure Counts where
  objects : Nat
  tombstones : Nat
  stripes : Nat
  positionsShort : Nat
  namedHere : Nat
  digest : BitVec 128
  deriving DecidableEq

namespace Counts

instance : Zero Counts := ⟨⟨0, 0, 0, 0, 0, 0⟩⟩

instance : Add Counts := ⟨fun a b =>
  ⟨a.objects + b.objects, a.tombstones + b.tombstones, a.stripes + b.stripes,
    a.positionsShort + b.positionsShort, a.namedHere + b.namedHere, a.digest ^^^ b.digest⟩⟩

@[simp] theorem objects_zero : (0 : Counts).objects = 0 := rfl
@[simp] theorem tombstones_zero : (0 : Counts).tombstones = 0 := rfl
@[simp] theorem stripes_zero : (0 : Counts).stripes = 0 := rfl
@[simp] theorem positionsShort_zero : (0 : Counts).positionsShort = 0 := rfl
@[simp] theorem namedHere_zero : (0 : Counts).namedHere = 0 := rfl
@[simp] theorem digest_zero : (0 : Counts).digest = 0#128 := rfl
variable (a b : Counts)

@[simp] theorem objects_add : (a + b).objects = a.objects + b.objects := rfl
@[simp] theorem tombstones_add : (a + b).tombstones = a.tombstones + b.tombstones := rfl
@[simp] theorem stripes_add : (a + b).stripes = a.stripes + b.stripes := rfl
@[simp] theorem positionsShort_add : (a + b).positionsShort = a.positionsShort + b.positionsShort := rfl
@[simp] theorem namedHere_add : (a + b).namedHere = a.namedHere + b.namedHere := rfl
@[simp] theorem digest_add : (a + b).digest = a.digest ^^^ b.digest := rfl

theorem xor_left_cancel {w : Nat} {a b c : BitVec w} (h : a ^^^ b = a ^^^ c) : b = c := by
  have := congrArg (a ^^^ ·) h
  simpa [← BitVec.xor_assoc] using this

instance : AddCancelCommMonoid Counts where
  add_assoc a b c := by ext1 <;> simp [Nat.add_assoc, BitVec.xor_assoc]
  zero_add a := by ext1 <;> simp
  add_zero a := by ext1 <;> simp
  add_comm a b := by ext1 <;> simp [Nat.add_comm, BitVec.xor_comm]
  nsmul := nsmulRec
  add_left_cancel a b c h := by
    have h₁ := congrArg objects h
    have h₂ := congrArg tombstones h
    have h₃ := congrArg stripes h
    have h₄ := congrArg positionsShort h
    have h₅ := congrArg namedHere h
    have h₆ := congrArg digest h
    ext1
    · exact Nat.add_left_cancel h₁
    · exact Nat.add_left_cancel h₂
    · exact Nat.add_left_cancel h₃
    · exact Nat.add_left_cancel h₄
    · exact Nat.add_left_cancel h₅
    · exact xor_left_cancel h₆

def of (env : PgEnv) (e : PgEntry) : Counts :=
  if e.tombstone then ⟨0, 1, 0, 0, 0, entryHash env e⟩
  else ⟨1, 0, e.stripes.toNat, e.positionsShort.toNat, e.namedHere.toNat, entryHash env e⟩

/-- An entry is an object or a tombstone, so a sum of some entries is not zero. -/
theorem of_pos (env : PgEnv) (e : PgEntry) : 0 < (of env e).objects + (of env e).tombstones := by
  unfold of
  split <;> simp

theorem sum_eq_zero : ∀ {l : List Counts}, (∀ c ∈ l, c = 0 ∨ 0 < c.objects + c.tombstones) →
    l.sum.objects = 0 → l.sum.tombstones = 0 → l.sum = 0
  | [], _, _, _ => rfl
  | c :: l, h, ho, ht => by
    rw [sum_cons, objects_add] at ho
    rw [sum_cons, tombstones_add] at ht
    have hc : c = 0 := by
      rcases h c mem_cons_self with hc | hc
      · exact hc
      · omega
    have hl := sum_eq_zero (fun c' hc' => h c' (mem_cons_of_mem _ hc')) (by omega) (by omega)
    rw [sum_cons, hc, hl, zero_add]

end Counts

variable {env : PgEnv}

namespace Summary

/-- A summary without its highest stamp. -/
def counts (s : Summary) : Counts :=
  ⟨s.objects, s.tombstones, s.stripes, s.positionsShort, s.namedHere, s.digest⟩

@[simp] theorem counts_default : ({} : Summary).counts = 0 := rfl

/-- The summary's own operations, the last **exact where it does not take out more than was put in.** -/
theorem counts_add (env : PgEnv) (s : Summary) (e : PgEntry) :
    (s.add env e).counts = s.counts + Counts.of env e := by
  unfold add Counts.of
  cases e.tombstone <;> rfl

theorem counts_sub {s : Summary} {e : PgEntry} {t : Counts}
    (h : s.counts = t + Counts.of env e) : (s.sub env e).counts = t := by
  have h₁ := congrArg Counts.objects h
  have h₂ := congrArg Counts.tombstones h
  have h₃ := congrArg Counts.stripes h
  have h₄ := congrArg Counts.positionsShort h
  have h₅ := congrArg Counts.namedHere h
  have h₆ := congrArg Counts.digest h
  unfold Counts.of at h₁ h₂ h₃ h₄ h₅ h₆
  unfold sub
  cases he : e.tombstone <;> simp only [he, if_true, if_false, counts, Counts.objects_add,
    Counts.tombstones_add, Counts.stripes_add, Counts.positionsShort_add, Counts.namedHere_add,
    Counts.digest_add, Bool.false_eq_true] at h₁ h₂ h₃ h₄ h₅ h₆ ⊢ <;>
  · ext1
    · dsimp only
      omega
    · dsimp only
      omega
    · dsimp only
      omega
    · dsimp only
      omega
    · dsimp only
      omega
    · simp [h₆]

end Summary

namespace Sums

def counts (sums : Sums) (pg : PgId) : Counts := ((sums pg).getD {}).counts

def entryCounts (env : PgEnv) (pg : PgId) (ix : Indexed) : Counts :=
  if ix.pg = pg then Counts.of env ix.entry else 0

theorem counts_add (env : PgEnv) (sums : Sums) (ix : Indexed) (pg : PgId) :
    (sums.add env ix).counts pg = sums.counts pg + entryCounts env pg ix := by
  unfold counts add entryCounts
  by_cases h : ix.pg = pg
  · subst h
    rw [update_self, if_pos rfl]
    exact Summary.counts_add _ _ _
  · rw [update_of_ne (Ne.symm h), if_neg h, add_zero]

theorem counts_sub {sums : Sums} {ix : Indexed} {T : PgId → Counts}
    (h : ∀ pg, sums.counts pg = T pg + entryCounts env pg ix)
    (hT : (T ix.pg).objects = 0 → (T ix.pg).tombstones = 0 → T ix.pg = 0) (pg : PgId) :
    (sums.sub env ix).counts pg = T pg := by
  have hpg := h ix.pg
  rw [entryCounts, if_pos rfl] at hpg
  cases hs : sums ix.pg with
  | none =>
    -- the entry counts for something
    rw [counts, hs] at hpg
    have ho := congrArg Counts.objects hpg
    have ht := congrArg Counts.tombstones hpg
    simp only [Option.getD_none, Summary.counts_default, Counts.objects_zero, Counts.objects_add,
      Counts.tombstones_zero, Counts.tombstones_add] at ho ht
    have := Counts.of_pos env ix.entry
    omega
  | some s =>
    rw [counts, hs] at hpg
    have hsub : (s.sub env ix.entry).counts = T ix.pg := Summary.counts_sub hpg
    have hsums : sums.sub env ix = update sums ix.pg
        (if (s.sub env ix.entry).isEmpty then none else some (s.sub env ix.entry)) := by
      simp only [sub, hs]
    rw [hsums]
    by_cases heq : ix.pg = pg
    · subst heq
      unfold counts
      rw [update_self]
      split
      · rename_i hempty
        simp only [Summary.isEmpty, Bool.and_eq_true, beq_iff_eq] at hempty
        have ho : (T ix.pg).objects = 0 := by rw [← hsub]; exact hempty.1
        have ht : (T ix.pg).tombstones = 0 := by rw [← hsub]; exact hempty.2
        rw [hT ho ht]
        rfl
      · exact hsub
    · unfold counts
      rw [update_of_ne (Ne.symm heq)]
      have := h pg
      rwa [entryCounts, if_neg heq, add_zero] at this

end Sums

/-! ## What a row weighs -/

/-- What a stored row weighs in a group's summary. -/
def pgWeight (env : PgEnv) (pg : PgId) (k v : Bytes) : Counts :=
  (rowEntry env (k, v)).elim 0 (Sums.entryCounts env pg)

theorem isPrefixOf_of_parse {k : Bytes} {r : PgId × Bytes × Bytes × Bytes}
    (h : parseEntryKey k = some r) : PG_PREFIX.isPrefixOf k = true := by
  unfold parseEntryKey at h
  split at h
  · rfl
  · cases h

theorem pgWeight_of_not {pg : PgId} {k : Bytes} (v : Bytes)
    (h : PG_PREFIX.isPrefixOf k = false) : pgWeight env pg k v = 0 := by
  have hnone : parseEntryKey k = none := by
    cases hp : parseEntryKey k with
    | none => rfl
    | some r =>
      rw [isPrefixOf_of_parse hp] at h
      cases h
  simp [pgWeight, rowEntry, hnone]

theorem pgWeight_zero_or_pos (env : PgEnv) (pg : PgId) (k v : Bytes) :
    pgWeight env pg k v = 0 ∨ 0 < (pgWeight env pg k v).objects + (pgWeight env pg k v).tombstones := by
  unfold pgWeight
  cases rowEntry env (k, v) with
  | none => exact .inl rfl
  | some ix =>
    by_cases h : ix.pg = pg
    · have hof : Sums.entryCounts env pg ix = Counts.of env ix.entry := if_pos h
      rw [Option.elim_some, hof]
      exact .inr (Counts.of_pos _ _)
    · exact .inl (if_neg h)

theorem total_pgWeight_eq_zero {pg : PgId} {P : Bytes → Bool} {m : OrdMap Bytes Bytes}
    (ho : (total (pgWeight env pg) P m).objects = 0)
    (ht : (total (pgWeight env pg) P m).tombstones = 0) : total (pgWeight env pg) P m = 0 := by
  refine Counts.sum_eq_zero (fun c hc => ?_) ho ht
  obtain ⟨e, -, rfl⟩ := mem_map.1 hc
  unfold weigh
  split
  · exact pgWeight_zero_or_pos _ _ _ _
  · exact .inl rfl

theorem counts_countEntry (env : PgEnv) (sums : Sums) (row : Bytes × Bytes) (pg : PgId) :
    (countEntry env sums row).counts pg = sums.counts pg + pgWeight env pg row.1 row.2 := by
  unfold countEntry pgWeight
  cases rowEntry env row with
  | none => exact (add_zero _).symm
  | some ix => exact Sums.counts_add _ _ _ _

theorem counts_foldl (env : PgEnv) (pg : PgId) : ∀ (rows : List (Bytes × Bytes)) (sums : Sums),
    (rows.foldl (countEntry env) sums).counts pg =
      sums.counts pg + (rows.map (fun row => pgWeight env pg row.1 row.2)).sum
  | [], sums => by simp
  | row :: rows, sums => by
    rw [foldl_cons, counts_foldl env pg rows, counts_countEntry, map_cons, sum_cons, add_assoc]

/-- **A recount counts each stored entry of the group once.** -/
theorem recount_counts (env : PgEnv) (store : OrdMap Bytes Bytes) (pg : PgId) :
    (recount env store).counts pg = total (pgWeight env pg) (fun _ => true) store := by
  unfold recount
  rw [counts_foldl]
  have hnone : Sums.counts (fun _ => none) pg = 0 := rfl
  rw [hnone, zero_add]
  refine (sum_map_filter (f := fun row => pgWeight env pg row.1 row.2) fun row _ h => ?_).trans ?_
  · exact pgWeight_of_not _ h
  · simp [total, weigh]

def storedEntry (env : PgEnv) (e : PgEntry) : Bytes :=
  env.encodeEntry { e with bucket := [], key := [], versionId := [] }

theorem pgWeight_stored (henv : env.Lawful) {n : Name} {ix : Indexed} (hn : n.Valid)
    (hpg : ix.pg.Valid) (hix : n.Is ix.entry) (pg : PgId) :
    pgWeight env pg (n.keyIn ix.pg) (storedEntry env ix.entry) = Sums.entryCounts env pg ix := by
  have hrow : rowEntry env (n.keyIn ix.pg, storedEntry env ix.entry) = some ix := by
    unfold rowEntry storedEntry
    rw [parseEntryKey_keyIn hn hpg, henv.decode_encode _ rfl rfl rfl]
    obtain ⟨hb, hk, hv⟩ := hix
    simp [← hb, ← hk, ← hv]
  rw [pgWeight, hrow]
  rfl

end IoLake.Osd
