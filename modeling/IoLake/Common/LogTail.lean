import Mathlib

/-!
# The search for a whole record

A log's bytes after a bad record are searched for a whole one, a window at a time, with room after it for the
header of its last candidate; a record that runs past what was read is read by itself.
-/

namespace IoLake.Common.LogTail

open List

abbrev Bytes := List UInt8

/-- A read past the end of the source, or a sum past what the machine's integers hold. -/
inductive Fault
  | unexpectedEof
  | overflow
deriving DecidableEq

def readExactAt (src : Bytes) (n offset : Nat) : Except Fault Bytes :=
  if offset + n ≤ src.length then .ok ((src.drop offset).take n) else .error .unexpectedEof

def WINDOW : Nat := 2 ^ 20

def MAX : Nat := 2 ^ 64 - 1

section Search

variable (src : Bytes) (len probeLen : Nat) (probe : Nat → Bytes → Option Nat) (whole : Nat → Bytes → Bool)

/-- Whether the candidate at `i` of a window is a whole record. -/
def candidate (window : Bytes) (start i : Nat) : Except Fault Bool :=
  match probe (start + i) ((window.drop i).take probeLen) with
  | none => .ok false
  | some n =>
    if n = 0 ∨ len - (start + i) < n then .ok false
    else if i + n ≤ window.length then .ok (whole (start + i) ((window.drop i).take n))
    else (readExactAt src n (start + i)).map (whole (start + i))

def search (window : Bytes) (start : Nat) : List Nat → Except Fault (Option Nat)
  | [] => .ok none
  | i :: is => do
    if ← candidate src len probeLen probe whole window start i then return some (start + i)
    search window start is

def windows (start : Nat) : Except Fault (Option Nat) :=
  if start < len then
    if MAX < WINDOW + probeLen then .error .overflow
    else do
      let window ← readExactAt src (min (len - start) (WINDOW + probeLen)) start
      match ← search src len probeLen probe whole window start (range (min (len - start) WINDOW)) with
      | some found => return some found
      | none => windows (start + min (len - start) WINDOW)
  else .ok none
termination_by len - start
decreasing_by
  have : 0 < WINDOW := by decide
  omega

def wholeRecordAfter (bad : Nat) : Except Fault (Option Nat) :=
  windows src len probeLen probe whole (min (bad + 1) MAX)

/-- A whole record starts at an offset, by the bytes themselves. -/
def isRecord (offset : Nat) : Bool :=
  match probe offset ((src.drop offset).take (min probeLen (len - offset))) with
  | none => false
  | some n => decide (0 < n ∧ n ≤ len - offset) && whole offset ((src.drop offset).take n)

variable {src len} (hlen : len ≤ src.length)
include hlen

theorem candidate_eq {start i : Nat} (hi : i < min (len - start) WINDOW) :
    candidate src len probeLen probe whole
      ((src.drop start).take (min (len - start) (WINDOW + probeLen))) start i =
      .ok (isRecord src len probeLen probe whole (start + i)) := by
  have hhead : (((src.drop start).take (min (len - start) (WINDOW + probeLen))).drop i).take probeLen =
      (src.drop (start + i)).take (min probeLen (len - (start + i))) := by
    rw [drop_take, drop_drop, take_take]
    congr 1
    omega
  have hlength : ((src.drop start).take (min (len - start) (WINDOW + probeLen))).length =
      min (len - start) (WINDOW + probeLen) := by
    simp
    omega
  unfold candidate isRecord
  rw [hhead]
  cases probe (start + i) ((src.drop (start + i)).take (min probeLen (len - (start + i)))) with
  | none => rfl
  | some n =>
    by_cases hn : n = 0 ∨ len - (start + i) < n
    · simp [hn]
      omega
    · have hok : 0 < n ∧ n ≤ len - (start + i) := by omega
      simp only [if_neg hn, decide_eq_true hok, Bool.true_and, hlength]
      split
      · rw [drop_take, drop_drop, take_take, Nat.min_eq_left (by omega)]
      · rw [readExactAt, if_pos (by omega)]
        rfl

theorem search_eq {start : Nat} (is : List Nat) (his : ∀ i ∈ is, i < min (len - start) WINDOW) :
    search src len probeLen probe whole
      ((src.drop start).take (min (len - start) (WINDOW + probeLen))) start is =
      .ok ((is.map (start + ·)).find? (isRecord src len probeLen probe whole)) := by
  induction is with
  | nil => rfl
  | cons i is ih =>
    rw [search, candidate_eq probeLen probe whole hlen (his i mem_cons_self), map_cons, find?_cons]
    cases isRecord src len probeLen probe whole (start + i) with
    | true => rfl
    | false => exact ih fun j hj => his j (mem_cons_of_mem _ hj)

variable {probeLen} (hprobe : WINDOW + probeLen ≤ MAX)
include hprobe

theorem windows_eq (start : Nat) : windows src len probeLen probe whole start =
    .ok ((range' start (len - start)).find? (isRecord src len probeLen probe whole)) := by
  have hwindow : 0 < WINDOW := by decide
  induction hk : len - start using Nat.strong_induction_on generalizing start with
  | _ k ih =>
    rw [windows]
    split
    · rw [if_neg (by omega), readExactAt, if_pos (by omega)]
      have hsearch := search_eq probeLen probe whole hlen (range (min (len - start) WINDOW))
        fun i hi => mem_range.1 hi
      simp only [bind, Except.bind, hsearch]
      have hsplit : range' start k = (range (min (len - start) WINDOW)).map (start + ·) ++
          range' (start + min (len - start) WINDOW) (len - (start + min (len - start) WINDOW)) := by
        rw [← range'_eq_map_range, range'_append_1]
        congr 1
        omega
      rw [hsplit, find?_append]
      cases ((range (min (len - start) WINDOW)).map (start + ·)).find?
        (isRecord src len probeLen probe whole) with
      | some found => rfl
      | none => exact ih _ (by omega) _ rfl
    · have hk0 : k = 0 := by omega
      subst hk0
      rfl

/-- **The record found is the first whole one after the bad one**, and none is found where there is none. -/
theorem wholeRecordAfter_iff (hmax : len ≤ MAX) (bad : Nat) :
    (∀ found, wholeRecordAfter src len probeLen probe whole bad = .ok (some found) ↔
      IsLeast {offset | bad < offset ∧ offset < len ∧
        isRecord src len probeLen probe whole offset = true} found) ∧
    (wholeRecordAfter src len probeLen probe whole bad = .ok none ↔
      ∀ offset, bad < offset → offset < len → isRecord src len probeLen probe whole offset = false) := by
  rw [wholeRecordAfter, windows_eq probe whole hlen hprobe, Except.ok.injEq, find?_range'_eq_none]
  constructor
  · intro found
    rw [Except.ok.injEq, find?_range'_eq_some, mem_range'_1]
    constructor
    · rintro ⟨hrecord, hfound, hfirst⟩
      refine ⟨⟨by omega, by omega, hrecord⟩, fun offset hoffset => ?_⟩
      by_contra hlt
      have hnot := hfirst offset (by have := hoffset.1; omega) (by omega)
      rw [hoffset.2.2] at hnot
      cases hnot
    · rintro ⟨⟨hbad, hlt, hrecord⟩, hleast⟩
      refine ⟨hrecord, by omega, fun offset hoffset hbefore => ?_⟩
      rw [Bool.not_eq_true']
      by_contra hnot
      have : found ≤ offset := hleast ⟨by omega, by omega, by simpa using hnot⟩
      omega
  · constructor
    · intro h offset hbad hlt
      simpa using h offset (by omega) (by omega)
    · intro h offset hbad hlt
      simpa using h offset (by omega) (by omega)

end Search

/-- A header longer than any integer of the machine. -/
theorem overflows :
    wholeRecordAfter [0, 0, 0] 3 MAX (fun _ _ => none) (fun _ _ => false) 0 = .error .overflow := by
  rw [wholeRecordAfter, windows]
  rfl

/-- One byte that is a record, after a bad one. -/
theorem second_byte_found : wholeRecordAfter [0, 1] 2 1 (fun _ head => head.head?.map UInt8.toNat)
    (fun _ record => record = [1]) 0 = .ok (some 1) := by
  refine ((wholeRecordAfter_iff _ _ (by decide) (by decide) (by decide) 0).1 1).2 ⟨by decide, ?_⟩
  intro offset hoffset
  exact hoffset.1

end IoLake.Common.LogTail
