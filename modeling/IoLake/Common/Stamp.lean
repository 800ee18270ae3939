import IoLake.Lib.Steps

/-!
# Stamps (`common/src/stamp.rs`)

A stamp is a hybrid logical clock value: wall-clock milliseconds in the high 48 bits and a counter in
the low 16.
-/

namespace IoLake.Common

open List

/-! ## The model -/

abbrev U64 := Fin (2 ^ 64)

def COUNTER_BITS : Nat := 16

def COUNTER_MASK : Nat := 2 ^ COUNTER_BITS - 1

def millis (stamp : Nat) : Nat := stamp / 2 ^ COUNTER_BITS

/-- A reading of the wall clock: the milliseconds since the epoch, none before it, and the offset a test
adds. -/
structure Wall where
  elapsed : Option Nat := none
  testOffsetMs : Int := 0

def wallMillis (w : Wall) : Nat :=
  let now := w.elapsed.elim 0 fun ms => if ms < 2 ^ 64 then ms else (2 ^ 64 - 1) / 2 ^ COUNTER_BITS
  min (now + w.testOffsetMs).toNat (2 ^ 64 - 1)

def nextAfter (last : Nat) (w : Wall) (seen : Nat) : Nat :=
  let wall := wallMillis w * 2 ^ COUNTER_BITS % 2 ^ 64
  let floor := max last seen
  if wall > floor then wall
  else if floor % 2 ^ COUNTER_BITS < COUNTER_MASK then (floor + 1) % 2 ^ 64
  else (millis floor + 1) * 2 ^ COUNTER_BITS % 2 ^ 64

inductive Call where
  | now (w : Wall)
  | nextAfter (w : Wall) (seen : U64)
  | observe (seen : U64)

/-- What a call leaves behind: a stamp issued to follow `seen`, or one observed. -/
inductive Entry where
  | issued (seen stamp : Nat)
  | observed (seen : Nat)
deriving DecidableEq, Repr

def Entry.stamp : Entry → Nat
  | .issued _ stamp => stamp
  | .observed seen => seen

/-- A clock and its history, the latest first. -/
structure Clock where
  last : Nat := 0
  history : List Entry := []

def issue (c : Clock) (w : Wall) (seen : Nat) : Clock :=
  ⟨nextAfter c.last w seen, .issued seen (nextAfter c.last w seen) :: c.history⟩

def step (c : Clock) : Call → Option Clock
  | .now w => some (issue c w 0)
  | .nextAfter w seen => some (issue c w seen)
  | .observe seen => some ⟨max c.last seen, .observed seen :: c.history⟩

def Room (c : Clock) : Call → Prop
  | .now _ => c.last < 2 ^ 64 - 1
  | .nextAfter _ seen => max c.last seen < 2 ^ 64 - 1
  | .observe _ => True

theorem lt_nextAfter {last seen : Nat} (h : max last seen < 2 ^ 64 - 1) (w : Wall) :
    max last seen < nextAfter last w seen := by
  unfold nextAfter COUNTER_MASK COUNTER_BITS millis COUNTER_BITS
  dsimp only
  split
  · assumption
  · -- with the counter full, the milliseconds are not
    split <;> omega

structure Inv (c : Clock) : Prop where
  le_last : ∀ e ∈ c.history, e.stamp ≤ c.last
  above : ∀ seen stamp, .issued seen stamp ∈ c.history → seen < stamp
  ordered : c.history.Pairwise fun later earlier =>
    ∀ seen stamp, later = .issued seen stamp → earlier.stamp < stamp

theorem Inv.issue {c : Clock} (h : Inv c) {seen : Nat} (hroom : max c.last seen < 2 ^ 64 - 1) (w : Wall) :
    Inv (issue c w seen) := by
  obtain ⟨hlast, hseen⟩ := max_lt_iff.1 (lt_nextAfter hroom w)
  refine ⟨forall_mem_cons.2 ⟨le_rfl, fun e he => ?_⟩, fun s t hmem => ?_,
    pairwise_cons.2 ⟨fun e he s t heq => ?_, h.ordered⟩⟩
  · exact (h.le_last e he).trans hlast.le
  · rcases mem_cons.1 hmem with heq | hmem
    · cases heq
      exact hseen
    · exact h.above s t hmem
  · cases heq
    exact (h.le_last e he).trans_lt hlast

theorem Inv.step (c : Clock) (e : Call) (c' : Clock) (h : Inv c) (hroom : Room c e)
    (hs : step c e = some c') : Inv c' := by
  cases e with
  | now w =>
    cases hs
    exact h.issue (by simpa [Room] using hroom) w
  | nextAfter w seen =>
    cases hs
    exact h.issue hroom w
  | observe seen =>
    cases hs
    refine ⟨forall_mem_cons.2 ⟨le_max_right _ _, fun e he => ?_⟩, fun s t hmem => ?_, ?_⟩
    · exact (h.le_last e he).trans (le_max_left _ _)
    · exact h.above s t (by simpa using hmem)
    · exact pairwise_cons.2 ⟨nofun, h.ordered⟩

/-- **Each stamp is above what it was asked to follow and every stamp issued or observed before it**, while
none of those is the greatest there is. -/
theorem stamps_increase (calls : List Call) (c : Clock) (hrun : Steps.run step {} calls = some c)
    (hroom : Steps.Along step Room {} calls) : (∀ seen stamp, .issued seen stamp ∈ c.history → seen < stamp) ∧
      c.history.Pairwise fun later earlier =>
        ∀ seen stamp, later = .issued seen stamp → earlier.stamp < stamp := by
  have hinv : Inv c := Steps.run_invariant_along Inv.step calls {} c
    ⟨nofun, nofun, List.Pairwise.nil⟩ hroom hrun
  exact ⟨hinv.above, hinv.ordered⟩

/-- A stamp after one whose counter is full. -/
theorem stamp_crosses_millisecond : ∃ c, Steps.run step {} [.observe 65535, .now {}] = some c ∧
    c.history = [.issued 0 65536, .observed 65535] ∧ c.history.Pairwise fun later earlier =>
      ∀ seen stamp, later = .issued seen stamp → earlier.stamp < stamp :=
  ⟨_, rfl, by decide, (stamps_increase [.observe 65535, .now {}] _ rfl
    ⟨trivial, (by decide : 65535 < 2 ^ 64 - 1), trivial⟩).2⟩

/-- **The stamp after the greatest is 0**: the milliseconds are shifted out. -/
theorem last_stamp_wraps : (Steps.run step {} [.observe (2 ^ 64 - 1), .now {}]).map (·.history) =
    some [.issued 0 0, .observed (2 ^ 64 - 1)] := by
  decide

end IoLake.Common
