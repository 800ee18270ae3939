import Mathlib

/-!
# Resources held by several holders

Any number of holders take a resource and let it go; once nobody holds it it may be freed.
-/

namespace SharedHold

open List

inductive Entry (R O : Type) where
  | take (r : R) (o : O)
  | drop (r : R) (o : O)
  | free (r : R)
deriving DecidableEq, Repr

variable {R O : Type} [DecidableEq R] [DecidableEq O]

/-- What an entry makes of the holders of `r`. -/
def after (r : R) (held : List O) : Entry R O → List O
  | .take r' o => if r' = r then held ++ [o] else held
  | .drop r' o => if r' = r then held.filter (· ≠ o) else held
  | .free _ => held

def holders (l : List (Entry R O)) (r : R) : List O := l.foldl (after r) []

theorem holders_concat (l : List (Entry R O)) (e : Entry R O) (r : R) :
    holders (l ++ [e]) r = after r (holders l r) e := by
  rw [holders, holders, foldl_append]
  rfl

def Entry.resource : Entry R O → R
  | .take r _ | .drop r _ | .free r => r

variable {r : R} {es l : List (Entry R O)} {o : O}

theorem holders_of_unnamed (h : ∀ e ∈ l, e.resource ≠ r) : holders l r = [] := by
  have hkept : ∀ (l : List (Entry R O)) (held : List O), (∀ e ∈ l, e.resource ≠ r) →
      l.foldl (after r) held = held := by
    intro l
    induction l with
    | nil => exact fun _ _ => rfl
    | cons e l ih =>
      intro held hl
      have he : after r held e = held := by
        have hne := hl e mem_cons_self
        cases e with
        | take r' o | drop r' o => exact if_neg hne
        | free r' => rfl
      rw [foldl_cons, he]
      exact ih held fun e he => hl e (mem_cons_of_mem _ he)
  exact hkept l [] h

/-- The others, when `o` lets go; none when it was the last. -/
def left (o : O) (r : List O) : Option (List O) :=
  match r.filter (· ≠ o) with
  | [] => none
  | rest => some rest

theorem left_eq_none {r : List O} (h : left o r = none) : ∀ o' ∈ r, o' = o := by
  intro o' ho'
  unfold left at h
  split at h
  · rename_i hnil
    by_contra hne
    have hmem : o' ∈ r.filter (· ≠ o) := mem_filter.2 ⟨ho', decide_eq_true hne⟩
    rw [hnil] at hmem
    cases hmem
  · cases h

theorem left_eq_some {r r' : List O} (h : left o r = some r') :
    (∀ o', o' ∈ r' ↔ o' ∈ r ∧ o' ≠ o) ∧ r' ≠ [] := by
  unfold left at h
  split at h
  · cases h
  · rename_i rest hrest
    rw [← Option.some.inj h]
    refine ⟨fun o' => ?_, hrest⟩
    rw [mem_filter, decide_eq_true_eq]

section
variable {α : Type} {xs : List α} {f : α → R} {g : α → O}

theorem mem_holders_takes : o ∈ holders (l ++ xs.map fun x => .take (f x) (g x)) r ↔
    o ∈ holders l r ∨ ∃ x ∈ xs, f x = r ∧ g x = o := by
  induction xs generalizing l with
  | nil => simp
  | cons x xs ih =>
    rw [map_cons, append_cons, ih, holders_concat, after]
    by_cases hr : f x = r
    · simp only [hr, if_true, mem_append, mem_singleton, exists_mem_cons_iff, true_and,
        or_assoc, eq_comm (a := o)]
    · simp [hr]

theorem mem_holders_drops : o ∈ holders (l ++ xs.map fun x => .drop (f x) (g x)) r ↔
    o ∈ holders l r ∧ ∀ x ∈ xs, f x = r → g x ≠ o := by
  induction xs generalizing l with
  | nil => simp
  | cons x xs ih =>
    rw [map_cons, append_cons, ih, holders_concat, after]
    by_cases hr : f x = r
    · simp only [hr, if_true, mem_filter, decide_eq_true_eq, forall_mem_cons, true_implies,
        and_assoc, ne_comm (a := o)]
    · simp [hr]

theorem holders_frees {xs : List R} : holders (l ++ xs.map .free) r = holders l r := by
  induction xs generalizing l with
  | nil => simp
  | cons x xs ih =>
    rw [map_cons, append_cons, ih, holders_concat]
    rfl

omit [DecidableEq R] [DecidableEq O] in
theorem free_mem_takes : .free r ∈ l ++ xs.map (fun x => .take (f x) (g x)) ↔ .free r ∈ l := by
  simp

omit [DecidableEq R] [DecidableEq O] in
theorem free_mem_drops : .free r ∈ l ++ xs.map (fun x => .drop (f x) (g x)) ↔ .free r ∈ l := by
  simp

end

/-- What an entry asks of those before it. -/
def Allowed (l : List (Entry R O)) : Entry R O → Prop
  | .take r _ => .free r ∉ l
  | .drop _ _ => True
  | .free r => holders l r = []

/-- Freed when nobody holds it, and never taken once it is freed. -/
def Sound (l : List (Entry R O)) : Prop := ∀ i e, l[i]? = some e → Allowed (l.take i) e

theorem Sound.nil : Sound ([] : List (Entry R O)) := by
  intro i e h
  cases h

theorem Sound.append (h : Sound l)
    (hes : ∀ i e, es[i]? = some e → Allowed (l ++ es.take i) e) : Sound (l ++ es) := by
  intro i e hi
  rw [getElem?_append] at hi
  split at hi
  · rename_i hlt
    rw [take_append_of_le_length (Nat.le_of_lt hlt)]
    exact h i e hi
  · rename_i hle
    rw [take_append, take_of_length_le (Nat.le_of_not_lt hle)]
    exact hes _ e hi

section
variable {α : Type} {xs : List α} {f : α → R} {g : α → O}

theorem Sound.takes (h : Sound l) (hes : ∀ x ∈ xs, .free (f x) ∉ l) :
    Sound (l ++ xs.map fun x => .take (f x) (g x)) := by
  refine h.append fun i e he => ?_
  obtain ⟨x, hx, rfl⟩ := mem_map.1 (mem_of_getElem? he)
  rw [← map_take]
  exact fun hfree => hes x hx (free_mem_takes.1 hfree)

theorem Sound.drops (h : Sound l) : Sound (l ++ xs.map fun x => .drop (f x) (g x)) := by
  refine h.append fun i e he => ?_
  obtain ⟨x, -, rfl⟩ := mem_map.1 (mem_of_getElem? he)
  trivial

theorem Sound.frees {xs : List R} (h : Sound l) (hes : ∀ x ∈ xs, holders l x = []) :
    Sound (l ++ xs.map .free) := by
  refine h.append fun i e he => ?_
  obtain ⟨x, hx, rfl⟩ := mem_map.1 (mem_of_getElem? he)
  rw [← map_take]
  exact holders_frees.trans (hes x hx)

end

end SharedHold
