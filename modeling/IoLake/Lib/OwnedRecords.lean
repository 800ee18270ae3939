import IoLake.Lib.SharedHold

/-!
# Records that name a resource, and a registry of its owners

Each record names a resource and the owner it holds it as.  A registry lists the owners of the resources that
several records name.  Records are added, shared and dropped one at a time.
-/

namespace OwnedRecords

open SharedHold Function List Option

variable {K X O : Type}

/-- The registry and the records agree. -/
structure Consistent (recs : K → Option (X × O)) (refs : X → Option (List O)) : Prop where
  listed : ∀ x r, refs x = some r → ∀ o, o ∈ r ↔ ∃ k, recs k = some (x, o)
  nonempty : ∀ x r, refs x = some r → r ≠ []
  /-- Without an entry, one record names it at most. -/
  single : ∀ x k k' o o', refs x = none → recs k = some (x, o) → recs k' = some (x, o') → k = k'
  /-- An owner holds a resource through one record. -/
  distinct : ∀ x o k k', recs k = some (x, o) → recs k' = some (x, o) → k = k'

/-- The entry once `o` lets go. -/
def released [DecidableEq O] (refs : X → Option (List O)) (x : X) (o : O) : Option (List O) :=
  (refs x).bind (left o)

/-- The entry once `o'` holds the resource beside `o`. -/
def shared (refs : X → Option (List O)) (x : X) (o o' : O) : Option (List O) :=
  some ((refs x).getD [o] ++ [o'])

variable {recs : K → Option (X × O)} {refs : X → Option (List O)}

variable {x : X}

theorem update_some {β : Type} [DecidableEq K] {f : K → Option β} {k k' : K} {v : Option β} {y : β}
    (h : update f k v k' = some y) : (k' = k ∧ v = some y) ∨ (k' ≠ k ∧ f k' = some y) := by
  by_cases hk : k' = k
  · rw [hk, update_self] at h
    exact .inl ⟨hk, h⟩
  · rw [update_of_ne hk] at h
    exact .inr ⟨hk, h⟩

theorem update_some_of_ne {β : Type} [DecidableEq K] {f : K → Option β} {k k' : K} {v : Option β} {y : β}
    (hk : f k ≠ some y) (h : f k' = some y) : update f k v k' = some y := by
  rw [update_of_ne]
  · exact h
  · rintro rfl
    exact hk h

section
variable (h : Consistent recs refs)
include h

/-- Each keeps the registry in step with the records. -/
theorem Consistent.add [DecidableEq K] {k : K} (hk : recs k = none)
    (hrefs : refs x = none) (hx : ∀ k o, recs k ≠ some (x, o)) (o : O) :
    Consistent (update recs k (some (x, o))) refs := by
  have hold : ∀ {k' x' o'}, update recs k (some (x, o)) k' = some (x', o') →
      (k' = k ∧ x' = x) ∨ (x' ≠ x ∧ recs k' = some (x', o')) := by
    intro k' x' o' hrec
    rcases update_some hrec with ⟨hkk, heq⟩ | ⟨-, hrec⟩
    · cases heq
      exact .inl ⟨hkk, rfl⟩
    · exact .inr ⟨fun heq => hx k' o' (heq ▸ hrec), hrec⟩
  have hone : ∀ {x' k₁ k₂ o₁ o₂}, update recs k (some (x, o)) k₁ = some (x', o₁) →
      update recs k (some (x, o)) k₂ = some (x', o₂) →
      (recs k₁ = some (x', o₁) → recs k₂ = some (x', o₂) → k₁ = k₂) → k₁ = k₂ := by
    intro x' k₁ k₂ o₁ o₂ h₁ h₂ hrest
    rcases hold h₁ with ⟨rfl, rfl⟩ | ⟨hne, h₁⟩
    · rcases hold h₂ with ⟨rfl, -⟩ | ⟨hne, -⟩
      · rfl
      · exact absurd rfl hne
    · rcases hold h₂ with ⟨-, heq⟩ | ⟨-, h₂⟩
      · exact absurd heq hne
      · exact hrest h₁ h₂
  refine ⟨fun x' r hr o' => ?_, h.nonempty, fun x' k₁ k₂ o₁ o₂ hnone h₁ h₂ => ?_, fun x' o' k₁ k₂ h₁ h₂ => ?_⟩
  · have hne : x' ≠ x := by
      rintro rfl
      rw [hrefs] at hr
      cases hr
    rw [h.listed x' r hr o']
    constructor
    · rintro ⟨k', hrec⟩
      exact ⟨k', update_some_of_ne (by simp [hk]) hrec⟩
    · rintro ⟨k', hrec⟩
      rcases hold hrec with ⟨-, heq⟩ | ⟨-, hrec⟩
      · exact absurd heq hne
      · exact ⟨k', hrec⟩
  · exact hone h₁ h₂ (h.single x' k₁ k₂ o₁ o₂ hnone)
  · exact hone h₁ h₂ (h.distinct x' o' k₁ k₂)

theorem Consistent.mem_getD_iff {k : K} {o : O} (hk : recs k = some (x, o)) (o' : O) :
    o' ∈ (refs x).getD [o] ↔ ∃ k', recs k' = some (x, o') := by
  cases hr : refs x with
  | none =>
    rw [getD_none, mem_singleton]
    constructor
    · rintro rfl
      exact ⟨k, hk⟩
    · rintro ⟨k', hk'⟩
      have hkk := h.single x k' k o' o hr hk' hk
      subst hkk
      rw [hk] at hk'
      cases hk'
      rfl
  | some r => exact h.listed x r hr o'

theorem Consistent.share [DecidableEq K] [DecidableEq X] {k k' : K} {x : X}
    {o o' : O} (hk : recs k = some (x, o)) (hk' : recs k' = none) (ho' : ∀ k, recs k ≠ some (x, o')) :
    Consistent (update recs k' (some (x, o'))) (update refs x (shared refs x o o')) := by
  have hold : ∀ {j y p}, update recs k' (some (x, o')) j = some (y, p) →
      (j = k' ∧ y = x ∧ p = o') ∨ recs j = some (y, p) := by
    intro j y p hrec
    rcases update_some hrec with ⟨hj, heq⟩ | ⟨-, hrec⟩
    · cases heq
      exact .inl ⟨hj, rfl, rfl⟩
    · exact .inr hrec
  have hkept : ∀ {j y p}, recs j = some (y, p) →
      update recs k' (some (x, o')) j = some (y, p) := update_some_of_ne (by simp [hk'])
  refine ⟨fun y r hr p => ?_, fun y r hr => ?_, fun y k₁ k₂ o₁ o₂ hnone h₁ h₂ => ?_,
    fun y p k₁ k₂ h₁ h₂ => ?_⟩
  · by_cases hy : y = x
    · subst hy
      rw [update_self] at hr
      cases hr
      rw [mem_append, mem_singleton, h.mem_getD_iff hk p]
      constructor
      · rintro (⟨j, hj⟩ | rfl)
        · exact ⟨j, hkept hj⟩
        · exact ⟨k', update_self ..⟩
      · rintro ⟨j, hj⟩
        rcases hold hj with ⟨-, -, rfl⟩ | hj
        · exact .inr rfl
        · exact .inl ⟨j, hj⟩
    · rw [update_of_ne hy] at hr
      rw [h.listed y r hr p]
      constructor
      · rintro ⟨j, hj⟩
        exact ⟨j, hkept hj⟩
      · rintro ⟨j, hj⟩
        rcases hold hj with ⟨-, heq, -⟩ | hj
        · exact absurd heq hy
        · exact ⟨j, hj⟩
  · by_cases hy : y = x
    · subst hy
      rw [update_self] at hr
      cases hr
      simp
    · rw [update_of_ne hy] at hr
      exact h.nonempty y r hr
  · by_cases hy : y = x
    · subst hy
      rw [update_self] at hnone
      cases hnone
    · rw [update_of_ne hy] at hnone
      rcases hold h₁ with ⟨-, heq, -⟩ | h₁
      · exact absurd heq hy
      · rcases hold h₂ with ⟨-, heq, -⟩ | h₂
        · exact absurd heq hy
        · exact h.single y k₁ k₂ o₁ o₂ hnone h₁ h₂
  · rcases hold h₁ with ⟨rfl, rfl, rfl⟩ | h₁
    · rcases hold h₂ with ⟨rfl, -, -⟩ | h₂
      · rfl
      · exact absurd h₂ (ho' k₂)
    · rcases hold h₂ with ⟨-, heq, hpo⟩ | h₂
      · rw [heq, hpo] at h₁
        exact absurd h₁ (ho' k₁)
      · exact h.distinct y p k₁ k₂ h₁ h₂

/-- A resource is free after a drop when no other record names it. -/
theorem Consistent.free_iff [DecidableEq O] {k : K} {o : O} (hk : recs k = some (x, o)) :
    released refs x o = none ↔ ∀ k' o', k' ≠ k → recs k' ≠ some (x, o') := by
  rw [released]
  cases hr : refs x with
  | none =>
    refine ⟨fun _ k' o' hne hrec => hne (h.single x k' k o' o hr hrec hk), fun _ => rfl⟩
  | some r =>
    rw [bind_some]
    constructor
    · intro hleft k' o' hne hrec
      have ho' := left_eq_none hleft o' ((h.listed x r hr o').2 ⟨k', hrec⟩)
      subst ho'
      exact hne (h.distinct x o' k' k hrec hk)
    · intro hnone
      cases hleft : left o r with
      | none => rfl
      | some r' =>
        obtain ⟨hmem, hne⟩ := left_eq_some hleft
        obtain ⟨o', ho'⟩ := exists_mem_of_ne_nil r' hne
        obtain ⟨hin, hoo⟩ := (hmem o').1 ho'
        obtain ⟨k', hk'⟩ := (h.listed x r hr o').1 hin
        refine absurd hk' (hnone k' o' ?_)
        rintro rfl
        rw [hk] at hk'
        cases hk'
        exact hoo rfl

theorem Consistent.drop [DecidableEq K] [DecidableEq X] [DecidableEq O]
    {k : K} {x : X} {o : O} (hk : recs k = some (x, o)) :
    Consistent (update recs k none) (update refs x (released refs x o)) := by
  have hold : ∀ {j y p}, update recs k none j = some (y, p) → j ≠ k ∧ recs j = some (y, p) := by
    intro j y p hrec
    rcases update_some hrec with ⟨-, heq⟩ | hrec
    · cases heq
    · exact hrec
  refine ⟨fun y r hr p => ?_, fun y r hr => ?_, fun y k₁ k₂ o₁ o₂ hnone h₁ h₂ => ?_,
    fun y p k₁ k₂ h₁ h₂ => h.distinct y p k₁ k₂ (hold h₁).2 (hold h₂).2⟩
  · by_cases hy : y = x
    · subst hy
      rw [update_self, released] at hr
      obtain ⟨old, hwas, hleft⟩ := bind_eq_some_iff.1 hr
      rw [(left_eq_some hleft).1, h.listed y old hwas]
      constructor
      · rintro ⟨⟨j, hj⟩, hne⟩
        exact ⟨j, update_some_of_ne (by simpa [hk] using Ne.symm hne) hj⟩
      · rintro ⟨j, hj⟩
        obtain ⟨hne, hj⟩ := hold hj
        refine ⟨⟨j, hj⟩, ?_⟩
        rintro rfl
        exact hne (h.distinct y p j k hj hk)
    · rw [update_of_ne hy] at hr
      rw [h.listed y r hr p]
      constructor
      · rintro ⟨j, hj⟩
        exact ⟨j, update_some_of_ne (by simp [hk, Ne.symm hy]) hj⟩
      · rintro ⟨j, hj⟩
        exact ⟨j, (hold hj).2⟩
  · by_cases hy : y = x
    · subst hy
      rw [update_self, released] at hr
      obtain ⟨old, -, hleft⟩ := bind_eq_some_iff.1 hr
      exact (left_eq_some hleft).2
    · rw [update_of_ne hy] at hr
      exact h.nonempty y r hr
  · by_cases hy : y = x
    · subst hy
      rw [update_self] at hnone
      obtain ⟨hne, h₁⟩ := hold h₁
      exact absurd h₁ ((h.free_iff hk).1 hnone k₁ o₁ hne)
    · rw [update_of_ne hy] at hnone
      exact h.single y k₁ k₂ o₁ o₂ hnone (hold h₁).2 (hold h₂).2

end

end OwnedRecords
