import Mathlib

/-!
# What a computation that may fail yields

`Yields P x`: if `x` succeeds, then with a value that has `P`.  One rule for each way such a computation is
put together.
-/

variable {ε α β : Type}

def Yields (P : α → Prop) (x : Except ε α) : Prop := ∀ a, x = .ok a → P a

namespace Yields

variable {P : α → Prop} {Q : β → Prop}

theorem ok {a : α} (h : P a) : Yields P (.ok a : Except ε α) := by
  intro b hb
  cases hb
  exact h

theorem pure {a : α} (h : P a) : Yields P (Pure.pure a : Except ε α) := ok h

theorem error (e : ε) : Yields P (.error e : Except ε α) := by
  intro a h
  cases h

theorem any (x : Except ε α) : Yields (fun _ => True) x := fun _ _ => trivial

theorem bind {x : Except ε α} {f : α → Except ε β} (hx : Yields P x) (hf : ∀ a, P a → Yields Q (f a)) :
    Yields Q (x >>= f) := by
  intro b hb
  cases x with
  | error e => cases hb
  | ok a => exact hf a (hx a rfl) b hb

theorem ite {c : Prop} [Decidable c] {x y : Except ε α} (hx : c → Yields P x) (hy : ¬ c → Yields P y) :
    Yields P (if c then x else y) := by
  split
  · exact hx ‹c›
  · exact hy ‹¬ c›

theorem mapM {f : α → Except ε β} {R : α → β → Prop} : ∀ {l : List α}, (∀ a ∈ l, Yields (R a) (f a)) →
    Yields (fun bs => List.Forall₂ R l bs) (l.mapM f) := by
  intro l
  induction l with
  | nil =>
    intro _
    exact pure .nil
  | cons a l ih =>
    intro h
    rw [List.mapM_cons]
    refine bind (h a List.mem_cons_self) fun b hb => ?_
    refine bind (ih fun x hx => h x (List.mem_cons_of_mem _ hx)) fun bs hbs => ?_
    exact pure (.cons hb hbs)

end Yields
