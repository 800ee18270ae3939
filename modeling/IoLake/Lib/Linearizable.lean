import Mathlib

/-!
# Calls that take effect at one moment

Concurrent calls are *linearizable* where each takes effect at one moment between its start and its answer.
The effects in the order of their moments are a sequential history that agrees with real time.
-/

namespace Linearizable

open List

variable {S O : Type}

/-- An operation and the moment it took effect, by the call that made it. -/
structure Effect (O : Type) where
  moment : Nat
  call : Nat
  op : O
deriving DecidableEq, Repr

/-- One after another, all before the moment `now`. -/
structure Ordered (now : Nat) (l : List (Effect O)) : Prop where
  ascending : l.Pairwise fun a b => a.moment < b.moment
  past : ∀ e ∈ l, e.moment < now

theorem Ordered.nil (now : Nat) : Ordered (O := O) now [] :=
  ⟨List.Pairwise.nil, nofun⟩

variable {now : Nat} {l : List (Effect O)}

theorem Ordered.later (h : Ordered now l) : Ordered (now + 1) l :=
  ⟨h.ascending, fun e he => Nat.lt_succ_of_lt (h.past e he)⟩

theorem Ordered.concat (h : Ordered now l) {e : Effect O}
    (he : e.moment = now) : Ordered (now + 1) (l ++ [e]) := by
  refine ⟨pairwise_append.2 ⟨h.ascending, pairwise_singleton _ _, fun a ha b hb => ?_⟩, fun a ha => ?_⟩
  · rw [mem_singleton.1 hb, he]
    exact h.past a ha
  · rcases mem_append.1 ha with ha | ha
    · exact Nat.lt_succ_of_lt (h.past a ha)
    · rw [mem_singleton.1 ha, he]
      exact Nat.lt_succ_self now

theorem Ordered.index_lt (h : Ordered now l) {i j : Nat}
    {a b : Effect O} (ha : l[i]? = some a) (hb : l[j]? = some b) (hlt : a.moment < b.moment) : i < j := by
  obtain ⟨hi, rfl⟩ := List.getElem?_eq_some_iff.1 ha
  obtain ⟨hj, rfl⟩ := List.getElem?_eq_some_iff.1 hb
  rcases Nat.lt_trichotomy i j with hij | rfl | hij
  · exact hij
  · exact absurd hlt (Nat.lt_irrefl _)
  · have := pairwise_iff_getElem.1 h.ascending j i hj hi hij
    omega

variable (next : S → O → S) (ok : S → O → Prop)

/-- What the operations leave of the object. -/
def replay (s : S) (l : List O) : S := l.foldl next s

/-- Each operation's condition holds of what those before it left. -/
def Legal : S → List O → Prop
  | _, [] => True
  | s, o :: l => ok s o ∧ Legal (next s o) l

instance decidableLegal [∀ s o, Decidable (ok s o)] : ∀ (s : S) (l : List O), Decidable (Legal next ok s l)
  | _, [] => .isTrue trivial
  | s, o :: l =>
    have := decidableLegal (next s o) l
    inferInstanceAs (Decidable (ok s o ∧ Legal next ok (next s o) l))

variable {next ok}

theorem Legal.concat : ∀ {l : List O} {s : S} {o : O}, Legal next ok s l →
    ok (replay next s l) o → Legal next ok s (l ++ [o])
  | [], _, _, _, ho => ⟨ho, trivial⟩
  | _ :: _, _, _, h, ho => ⟨h.1, Legal.concat h.2 ho⟩

theorem replay_concat (s : S) (l : List O) (o : O) : replay next s (l ++ [o]) = next (replay next s l) o := by
  rw [replay, replay, foldl_append]
  rfl

/-- What the effects before one left, its condition holds of. -/
theorem Legal.holds : ∀ {l : List O} {s : S}, Legal next ok s l → ∀ {i : Nat} {o : O},
    l[i]? = some o → ok (replay next s (l.take i)) o
  | o :: l, s, h, 0, o', ho => by
    cases ho
    exact h.1
  | o :: l, s, h, i + 1, o', ho => by
    rw [getElem?_cons_succ] at ho
    exact Legal.holds h.2 ho

end Linearizable
