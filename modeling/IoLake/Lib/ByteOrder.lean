import Mathlib

/-!
# Byte strings in lexicographic order
-/

instance byteLinearOrder : LinearOrder UInt8 where
  le_refl := UInt8.le_refl
  le_trans _ _ _ := UInt8.le_trans
  le_antisymm _ _ := UInt8.le_antisymm
  le_total := UInt8.le_total
  lt_iff_le_not_ge a b := by
    simp only [UInt8.lt_iff_toNat_lt, UInt8.le_iff_toNat_le]
    omega
  toDecidableLE := inferInstance

/-- A byte string: a key, a value, a name. -/
abbrev Bytes := List UInt8

instance bytesLawfulBEq : LawfulBEq Bytes := inferInstance

namespace ByteOrder

open List

variable {α : Type} [LinearOrder α]

theorem cons_le_cons_iff {a b : α} {l l' : List α} : a :: l ≤ b :: l' ↔ a < b ∨ a = b ∧ l ≤ l' := by
  rw [← not_lt, ← not_lt (a := l'), cons_lt_cons_iff]
  rcases lt_trichotomy a b with h | rfl | h
  · simp [h, lt_asymm h, h.ne']
  · simp
  · simp [h, lt_asymm h, h.ne']

theorem nil_le (l : List α) : [] ≤ l := not_lt.1 (not_lt_nil l)

theorem not_cons_le_nil (a : α) (l : List α) : ¬ a :: l ≤ [] := not_le.2 (nil_lt_cons a l)

/-- Every key under a prefix is at or after the prefix itself. -/
theorem le_of_isPrefix : ∀ {p k : List α}, p <+: k → p ≤ k
  | [], k, _ => nil_le k
  | a :: p, [], h => absurd h (by simp)
  | a :: p, b :: k, h => by
    obtain ⟨rfl, ht⟩ := cons_prefix_cons.1 h
    exact cons_le_cons_iff.2 (.inr ⟨rfl, le_of_isPrefix ht⟩)

/-- The keys under a prefix are an interval. -/
theorem isPrefix_of_between : ∀ {p k k' : List α}, p ≤ k → k ≤ k' → p <+: k' → p <+: k
  | [], k, _, _, _, _ => ⟨k, rfl⟩
  | a :: p, [], _, h, _, _ => absurd h (not_cons_le_nil a p)
  | a :: p, b :: k, [], _, h, _ => absurd h (not_cons_le_nil b k)
  | a :: p, b :: k, c :: k', h₁, h₂, h₃ => by
    obtain ⟨rfl, hp⟩ := cons_prefix_cons.1 h₃
    rcases cons_le_cons_iff.1 h₁ with hab | ⟨rfl, hpk⟩
    · rcases cons_le_cons_iff.1 h₂ with hba | ⟨rfl, -⟩
      · exact absurd hba (lt_asymm hab)
      · exact absurd hab (lt_irrefl _)
    · rcases cons_le_cons_iff.1 h₂ with haa | ⟨-, hkk⟩
      · exact absurd haa (lt_irrefl _)
      · exact cons_prefix_cons.2 ⟨rfl, isPrefix_of_between hpk hkk hp⟩

/-- On a list ordered by `R`, walking while a predicate holds finds every element that satisfies it, when
the predicate is closed downwards along `R`. -/
theorem takeWhile_eq_filter {β : Type} {R : β → β → Prop} {p : β → Bool} : ∀ {l : List β},
    l.Pairwise R → (∀ a ∈ l, ∀ b ∈ l, R a b → p b = true → p a = true) → l.takeWhile p = l.filter p
  | [], _, _ => rfl
  | a :: l, hl, hp => by
    have hc := pairwise_cons.1 hl
    cases ha : p a with
    | true =>
      rw [takeWhile_cons_of_pos ha, filter_cons_of_pos ha, takeWhile_eq_filter hc.2 fun x hx y hy =>
          hp x (mem_cons_of_mem _ hx) y (mem_cons_of_mem _ hy)]
    | false =>
      rw [takeWhile_cons_of_neg (by simp [ha]), filter_cons_of_neg (by simp [ha])]
      symm
      rw [filter_eq_nil_iff]
      intro b hb hpb
      have := hp a mem_cons_self b (mem_cons_of_mem _ hb) (hc.1 b hb) hpb
      rw [ha] at this
      cases this

end ByteOrder
