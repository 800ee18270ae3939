import Mathlib

/-!
# Last writer wins, with deletes

Writes are ranked by a linear order, and each has a time, monotone in its rank.  A delete has a time only.
What is left, in whatever order they came, is the highest write if it is later than every delete, and else
nothing.
-/

namespace LastWriter

variable {α ρ τ : Type} [LinearOrder ρ] [LinearOrder τ]

/-- `r` is what writes `W` and deletes `D` leave. -/
def Wins (rank : α → ρ) (time : α → τ) (W : Set α) (D : Set τ) : Option α → Prop
  | some c => c ∈ W ∧ (∀ o ∈ W, rank o ≤ rank c) ∧ ∀ d ∈ D, d < time c
  | none => ∀ o ∈ W, ∃ d ∈ D, time o ≤ d

variable {rank : α → ρ} {time : α → τ} {W : Set α} {D : Set τ}

theorem Wins.empty : Wins rank time (∅ : Set α) (∅ : Set τ) none := fun _ h => h.elim

theorem Wins.congr {W' : Set α} {D' : Set τ} {r : Option α} (h : Wins rank time W D r)
    (hW : W = W') (hD : D = D') : Wins rank time W' D' r := hW ▸ hD ▸ h

/-- Where equal rank means equal write, **the winner is determined by the two sets**. -/
theorem Wins.unique {r r' : Option α} (hinj : ∀ a ∈ W, ∀ b ∈ W, rank a = rank b → a = b)
    (h : Wins rank time W D r) (h' : Wins rank time W D r') : r = r' := by
  cases r with
  | none =>
    cases r' with
    | none => rfl
    | some c =>
      obtain ⟨d, hd, hle⟩ := h c h'.1
      exact absurd (h'.2.2 d hd) (not_lt.2 hle)
  | some c =>
    cases r' with
    | none =>
      obtain ⟨d, hd, hle⟩ := h' c h.1
      exact absurd (h.2.2 d hd) (not_lt.2 hle)
    | some c' =>
      exact congrArg some (hinj c h.1 c' h'.1 (le_antisymm (h'.2.1 c h.1) (h.2.1 c' h'.1)))

/-! ## One more write -/

variable {c o : α} {d : τ}

theorem Wins.write_lower (h : Wins rank time W D (some c)) (ho : rank o < rank c) :
    Wins rank time (insert o W) D (some c) := by
  refine ⟨Set.mem_insert_of_mem _ h.1, ?_, h.2.2⟩
  intro p hp
  rcases Set.mem_insert_iff.1 hp with rfl | hp
  · exact ho.le
  · exact h.2.1 p hp

theorem Wins.write_higher (hmono : ∀ a b, rank a ≤ rank b → time a ≤ time b)
    (h : Wins rank time W D (some c)) (ho : rank c ≤ rank o) : Wins rank time (insert o W) D (some o) := by
  refine ⟨Set.mem_insert _ _, ?_, fun d hd => (h.2.2 d hd).trans_le (hmono c o ho)⟩
  intro p hp
  rcases Set.mem_insert_iff.1 hp with rfl | hp
  · exact le_rfl
  · exact (h.2.1 p hp).trans ho

theorem Wins.write_deleted (h : Wins rank time W D none) (hd : d ∈ D)
    (ho : time o ≤ d) : Wins rank time (insert o W) D none := by
  intro p hp
  rcases Set.mem_insert_iff.1 hp with rfl | hp
  · exact ⟨d, hd, ho⟩
  · exact h p hp

theorem Wins.write_first (hmono : ∀ a b, rank a ≤ rank b → time a ≤ time b)
    (h : Wins rank time W D none) (ho : ∀ d ∈ D, d < time o) : Wins rank time (insert o W) D (some o) := by
  refine ⟨Set.mem_insert _ _, ?_, ho⟩
  intro p hp
  rcases Set.mem_insert_iff.1 hp with rfl | hp
  · exact le_rfl
  · obtain ⟨d, hd, hle⟩ := h p hp
    by_contra hlt
    exact absurd (hmono o p (not_le.1 hlt).le) (not_le.2 (hle.trans_lt (ho d hd)))

/-! ## One more delete -/

theorem Wins.delete_older (h : Wins rank time W D (some c)) (hd : d < time c) :
    Wins rank time W (insert d D) (some c) := by
  refine ⟨h.1, h.2.1, ?_⟩
  intro d' hd'
  rcases Set.mem_insert_iff.1 hd' with rfl | hd'
  · exact hd
  · exact h.2.2 d' hd'

theorem Wins.delete_newer (hmono : ∀ a b, rank a ≤ rank b → time a ≤ time b)
    (h : Wins rank time W D (some c)) (hd : time c ≤ d) : Wins rank time W (insert d D) none :=
  fun o ho => ⟨d, Set.mem_insert _ _, (hmono o c (h.2.1 o ho)).trans hd⟩

theorem Wins.delete_none (h : Wins rank time W D none) : Wins rank time W (insert d D) none := fun o ho =>
  let ⟨d', hd', hle⟩ := h o ho
  ⟨d', Set.mem_insert_of_mem _ hd', hle⟩

end LastWriter
