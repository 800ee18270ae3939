import Mathlib

/-!
# Runs of a step function

A system is a function `step : S → E → Option S`: what event `e` makes of state `s`, or `none` where
`e` cannot happen in `s`.  A run takes a list of events in turn.
-/

namespace Steps

open List

variable {S E : Type}

/-- Take each event in turn. -/
def run (step : S → E → Option S) : S → List E → Option S
  | s, [] => some s
  | s, e :: es =>
    match step s e with
    | some s' => run step s' es
    | none => none

variable {step : S → E → Option S}

theorem run_cons {s s' : S} {e : E} {es : List E} (h : run step s (e :: es) = some s') :
    ∃ m, step s e = some m ∧ run step m es = some s' := by
  unfold run at h
  split at h
  · rename_i m hm
    exact ⟨m, hm, h⟩
  · cases h

theorem run_append : ∀ (es es' : List E) (s : S),
    run step s (es ++ es') = (run step s es).bind (fun m => run step m es')
  | [], _, _ => rfl
  | e :: es, es', s => by
    rw [cons_append, run, run]
    split
    · exact run_append es es' _
    · rfl

/-- What every step preserves, every run preserves. -/
theorem run_invariant {P : S → Prop} (hstep : ∀ s e s', P s → step s e = some s' → P s') :
    ∀ (es : List E) (s s' : S), P s → run step s es = some s' → P s'
  | [], s, s', hs, h => by
    cases h
    exact hs
  | e :: es, s, s', hs, h => by
    obtain ⟨m, hm, hr⟩ := run_cons h
    exact run_invariant hstep es m s' (hstep s e m hs hm) hr

/-- Every step of the run meets `P`, a condition on the state before it and the event. -/
def Along (step : S → E → Option S) (P : S → E → Prop) : S → List E → Prop
  | _, [] => True
  | s, e :: es => P s e ∧
    match step s e with
    | some s' => Along step P s' es
    | none => True

instance decidableAlong {P : S → E → Prop} [∀ s e, Decidable (P s e)] :
    ∀ (s : S) (es : List E), Decidable (Along step P s es)
  | _, [] => .isTrue trivial
  | s, e :: es =>
    match hs : step s e with
    | some s' =>
      have := decidableAlong (P := P) s' es
      decidable_of_iff (P s e ∧ Along step P s' es) (by simp only [Along, hs])
    | none => decidable_of_iff (P s e) (by simp only [Along, hs, and_true])

variable {P Q : S → E → Prop}

theorem Along.tail {s s' : S} {e : E} {es : List E} (h : Along step P s (e :: es))
    (hs : step s e = some s') : Along step P s' es := by
  have := h.2
  rwa [hs] at this

theorem Along.append {es' : List E} : ∀ {es : List E} {s m : S}, Along step P s (es ++ es') →
    run step s es = some m → Along step P s es ∧ Along step P m es'
  | [], s, m, h, hr => by
    cases hr
    exact ⟨trivial, h⟩
  | e :: es, s, m, h, hr => by
    obtain ⟨s', hs', hr'⟩ := run_cons hr
    have ih := Along.append (h.tail hs') hr'
    refine ⟨⟨h.1, ?_⟩, ih.2⟩
    rw [hs']
    exact ih.1

theorem Along.and : ∀ {es : List E} {s : S}, Along step P s es →
    Along step Q s es → Along step (fun s e => P s e ∧ Q s e) s es
  | [], _, _, _ => trivial
  | e :: es, s, h, h' => by
    refine ⟨⟨h.1, h'.1⟩, ?_⟩
    split
    · rename_i s' hs
      exact Along.and (h.tail hs) (h'.tail hs)
    · trivial

theorem Along.of_forall {Q : E → Prop} : ∀ {es : List E} {s : S}, (∀ e ∈ es, Q e) →
    Along step (fun _ e => Q e) s es
  | [], _, _ => trivial
  | e :: es, s, h => by
    refine ⟨h e mem_cons_self, ?_⟩
    split
    · exact Along.of_forall fun e' he' => h e' (mem_cons_of_mem _ he')
    · trivial

/-- The same of runs whose steps all meet a condition (`Along`). -/
theorem run_invariant_along {I : S → Prop} (hstep : ∀ s e s', I s → P s e → step s e = some s' → I s') :
    ∀ (es : List E) (s s' : S), I s → Along step P s es → run step s es = some s' → I s'
  | [], s, s', hs, _, h => by
    cases h
    exact hs
  | e :: es, s, s', hs, ha, h => by
    obtain ⟨m, hm, hr⟩ := run_cons h
    exact run_invariant_along hstep es m s' (hstep s e m hs ha.1 hm) (ha.tail hm) hr

/-! ## Lists of components -/

/-- What became of the members of a list: one was changed at its place, or one more came. -/
inductive Changed {α : Type} (R : Nat → α → α → Prop) (N : α → Prop) (l : List α) : List α → Prop where
  | same : Changed R N l l
  | place (c : Nat) (f : α → α) (hf : ∀ a, l[c]? = some a → R c a (f a)) : Changed R N l (l.modify c f)
  | one (a : α) (ha : N a) : Changed R N l (l ++ [a])

namespace Changed

variable {α : Type} {R : Nat → α → α → Prop} {N : α → Prop} {l l' : List α}

variable {c : Nat}

theorem set {a b : α} (ha : l[c]? = some a) (hR : R c a b) : Changed R N l (l.set c b) := by
  rw [set_eq_modify]
  refine .place c _ (fun a' ha' => ?_)
  rw [ha] at ha'
  cases ha'
  exact hR

theorem back (h : Changed R N l l') (hrefl : ∀ c a, R c a a) {b : α}
    (hb : l'[c]? = some b) : (∃ a, l[c]? = some a ∧ R c a b) ∨ (c = l.length ∧ N b) := by
  cases h with
  | same => exact .inl ⟨b, hb, hrefl c b⟩
  | place c' f hf =>
    rw [getElem?_modify] at hb
    obtain ⟨a, ha, rfl⟩ := Option.map_eq_some_iff.1 hb
    refine .inl ⟨a, ha, ?_⟩
    split
    · rename_i hc
      subst hc
      exact hf a ha
    · exact hrefl c a
  | one a ha =>
    rw [getElem?_append] at hb
    split at hb
    · exact .inl ⟨b, hb, hrefl c b⟩
    · have hlt := (List.getElem?_eq_some_iff.1 hb).1
      have hc : c - l.length = 0 := by simpa using hlt
      rw [hc] at hb
      cases hb
      exact .inr ⟨by omega, ha⟩

theorem fwd (h : Changed R N l l') (hrefl : ∀ c a, R c a a) {a : α} (ha : l[c]? = some a) :
    ∃ b, l'[c]? = some b ∧ R c a b := by
  cases h with
  | same => exact ⟨a, ha, hrefl c a⟩
  | place c' f hf =>
    rw [getElem?_modify, ha]
    by_cases hc : c' = c
    · subst hc
      exact ⟨f a, by simp, hf a ha⟩
    · exact ⟨a, by simp [hc], hrefl c a⟩
  | one b hb =>
    exact ⟨a, by rw [List.getElem?_append_left (List.getElem?_eq_some_iff.1 ha).1, ha], hrefl c a⟩

end Changed

end Steps
