import Mathlib

/-!
# A cell that events overwrite

For one cell, an event either leaves the value or replaces it: `effect e` is what it puts there, if
anything.  What a queue of events leaves is the last value put, or the one before.
-/

namespace Overwrites

open List

variable {E X Y : Type}

/-- What is in the cell once every event of the queue is handled. -/
def settled (effect : E → Option X) (queue : List E) (x : X) : X :=
  queue.foldl (fun x e => (effect e).getD x) x

variable {effect : E → Option X}

@[simp] theorem settled_nil (x : X) : settled effect [] x = x := rfl

@[simp] theorem settled_cons (e : E) (queue : List E) (x : X) :
    settled effect (e :: queue) x = settled effect queue ((effect e).getD x) := rfl

theorem settled_append (queue queue' : List E) (x : X) :
    settled effect (queue ++ queue') x = settled effect queue' (settled effect queue x) :=
  foldl_append

variable {queue : List E}

/-- Once an event of the queue writes the cell, the value before is forgotten. -/
theorem settled_of_some {x y : X} (h : ∃ e ∈ queue, (effect e).isSome) :
    settled effect queue x = settled effect queue y := by
  induction queue generalizing x y with
  | nil =>
    obtain ⟨e, he, -⟩ := h
    cases he
  | cons e queue ih =>
    rw [settled_cons, settled_cons]
    cases hv : effect e with
    | some v => rfl
    | none =>
      apply ih
      obtain ⟨e', he', hsome⟩ := h
      rcases mem_cons.1 he' with rfl | he'
      · rw [hv] at hsome
        cases hsome
      · exact ⟨e', he', hsome⟩

theorem settled_const {y : X} (h : ∀ e ∈ queue, ∀ v ∈ effect e, v = y) : settled effect queue y = y := by
  induction queue with
  | nil => rfl
  | cons e queue ih =>
    have hfirst : (effect e).getD y = y := by
      cases hv : effect e with
      | none => rfl
      | some v => exact h e mem_cons_self v hv
    rw [settled_cons, hfirst]
    exact ih fun e' he' => h e' (mem_cons_of_mem _ he')

theorem settled_none {x : X} (h : ∀ e ∈ queue, effect e = none) : settled effect queue x = x := by
  apply settled_const
  intro e he v hv
  rw [h e he] at hv
  cases hv

/-- Two cells that the same events overwrite in step. -/
theorem settled_map {effect' : E → Option Y} (f : X → Y) {x : X}
    (h : ∀ e ∈ queue, effect' e = (effect e).map f) :
    settled effect' queue (f x) = f (settled effect queue x) := by
  induction queue generalizing x with
  | nil => rfl
  | cons e queue ih =>
    have hfirst : (effect' e).getD (f x) = f ((effect e).getD x) := by
      rw [h e mem_cons_self]
      cases effect e <;> rfl
    rw [settled_cons, settled_cons, hfirst]
    exact ih fun e' he' => h e' (mem_cons_of_mem _ he')

end Overwrites
