import Mathlib

/-!
# Frames one after another, and a cut anywhere in them
-/

namespace Framing

open List

variable {R B : Type} (enc : R → List B)

def encode (rs : List R) : List B := rs.flatMap enc

@[simp] theorem encode_nil : encode enc [] = [] := rfl

@[simp] theorem encode_cons (r : R) (rs : List R) : encode enc (r :: rs) = enc r ++ encode enc rs := rfl

@[simp] theorem encode_append (a b : List R) : encode enc (a ++ b) = encode enc a ++ encode enc b := by
  simp [encode]

/-- `t` is a part of the frame that comes next, and not all of it. -/
def Torn (lost : List R) (t : List B) : Prop :=
  t = [] ∨ ∃ r l, lost = r :: l ∧ t <+: enc r ∧ t.length < (enc r).length

/-- **Any prefix is some of the frames, whole, and a proper part of the next one**; every leading run of
frames that fits in it is kept. -/
theorem exists_cut : ∀ (rs : List R) (n : Nat), ∃ kept lost t, rs = kept ++ lost ∧
    (encode enc rs).take n = encode enc kept ++ t ∧ Torn enc lost t ∧
    ∀ a b, rs = a ++ b → (encode enc a).length ≤ n → a <+: kept
  | [], n => ⟨[], [], [], rfl, by simp, .inl rfl, fun a b h _ =>
      (append_eq_nil_iff.1 h.symm).1 ▸ nil_prefix⟩
  | r :: rs, n => by
    by_cases hn : (enc r).length ≤ n
    · -- the first frame fits: the cut is in the rest
      obtain ⟨kept, lost, t, hrs, htake, htorn, hfit⟩ := exists_cut rs (n - (enc r).length)
      refine ⟨r :: kept, lost, t, by rw [hrs, cons_append], ?_, htorn, ?_⟩
      · rw [encode_cons, take_append, take_of_length_le hn, htake, encode_cons, append_assoc]
      · intro a b hab hlen
        cases a with
        | nil => exact nil_prefix
        | cons x a =>
          obtain ⟨rfl, hab'⟩ := cons.inj hab
          rw [encode_cons, length_append] at hlen
          exact cons_prefix_cons.2 ⟨rfl, hfit a b hab' (by omega)⟩
    · refine ⟨[], r :: rs, (enc r).take n, rfl, ?_, .inr ⟨r, rs, rfl, take_prefix _ _, ?_⟩, ?_⟩
      · rw [encode_cons, take_append_of_le_length (by omega), encode_nil, nil_append]
      · rw [length_take]
        omega
      · intro a b hab hlen
        cases a with
        | nil => exact prefix_rfl
        | cons x a =>
          obtain ⟨rfl, -⟩ := cons.inj hab
          rw [encode_cons, length_append] at hlen
          omega

/-! ## What a length covers -/

variable (number : R → Nat)

/-- The frames numbered up to `upto` all end within the first `len` of the file. -/
def Covers (rs : List R) (len upto : Nat) : Prop :=
  ∀ a r b, rs = a ++ r :: b → number r ≤ upto → (encode enc (a ++ [r])).length ≤ len

variable {enc number}

theorem Covers.all {rs : List R} {len : Nat} (upto : Nat) (h : (encode enc rs).length ≤ len) :
    Covers enc number rs len upto := by
  intro a r b hrs _
  have hsplit : encode enc rs = encode enc (a ++ [r]) ++ encode enc b := by
    rw [hrs, ← encode_append, append_assoc, singleton_append]
  rw [hsplit, length_append] at h
  omega

theorem Covers.concat {rs : List R} {r : R} {len upto : Nat} (h : Covers enc number rs len upto)
    (hr : upto < number r) : Covers enc number (rs ++ [r]) len upto := by
  intro a x b hrs hx
  rcases eq_nil_or_concat b with rfl | ⟨b', y, rfl⟩
  · -- the last frame is the one added
    have hlast : r = x := (append_inj' hrs rfl).2 |> singleton_inj.1
    subst hlast
    omega
  · rw [concat_eq_append, ← cons_append, ← append_assoc] at hrs
    exact h a x b' (append_inj' hrs rfl).1 hx

end Framing
