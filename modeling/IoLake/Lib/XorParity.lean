import Mathlib

/-!
# XOR parity

The parity of a list of byte strings: their bytewise exclusive or.
-/

namespace XorParity

open List

/-- Exclusive or of each byte of `slice` into `acc`, as far as both go. -/
def xorInto : List UInt8 → List UInt8 → List UInt8
  | a :: acc, b :: slice => (a ^^^ b) :: xorInto acc slice
  | acc, _ => acc

/-- The exclusive or of the slices, `size` bytes of it. -/
def xorAll (slices : List (List UInt8)) (size : Nat) : List UInt8 :=
  slices.foldl xorInto (replicate size 0)

@[simp] theorem length_xorInto : ∀ (acc slice : List UInt8), (xorInto acc slice).length = acc.length
  | [], _ => by simp [xorInto]
  | _ :: _, [] => by simp [xorInto]
  | a :: acc, b :: slice => by simp [xorInto, length_xorInto acc slice]

theorem getD_xorInto : ∀ (acc slice : List UInt8) (i : Nat), i < acc.length →
    (xorInto acc slice).getD i 0 = acc.getD i 0 ^^^ slice.getD i 0
  | [], _, _, h => by cases h
  | _ :: _, [], _, _ => by simp [xorInto]
  | _ :: _, _ :: _, 0, _ => by simp [xorInto]
  | _ :: acc, _ :: slice, i + 1, h => by
    simpa [xorInto] using getD_xorInto acc slice i (Nat.lt_of_succ_lt_succ h)

theorem length_foldl_xorInto : ∀ (slices : List (List UInt8)) (acc : List UInt8),
    (slices.foldl xorInto acc).length = acc.length
  | [], _ => rfl
  | s :: slices, acc => by rw [foldl_cons, length_foldl_xorInto slices, length_xorInto]

@[simp] theorem length_xorAll (slices : List (List UInt8)) (size : Nat) :
    (xorAll slices size).length = size := by
  rw [xorAll, length_foldl_xorInto, length_replicate]

theorem getD_foldl_xorInto (i : Nat) : ∀ (slices : List (List UInt8)) (acc : List UInt8),
    i < acc.length → (slices.foldl xorInto acc).getD i 0 =
      (slices.map (·.getD i 0)).foldl (· ^^^ ·) (acc.getD i 0)
  | [], _, _ => rfl
  | s :: slices, acc, h => by
    rw [foldl_cons, getD_foldl_xorInto i slices _ (by rwa [length_xorInto]),
      getD_xorInto acc s i h, map_cons, foldl_cons]

theorem getD_xorAll {slices : List (List UInt8)} {size i : Nat} (h : i < size) :
    (xorAll slices size).getD i 0 = (slices.map (·.getD i 0)).foldl (· ^^^ ·) 0 := by
  have hzero : (replicate size (0 : UInt8)).getD i 0 = 0 := by
    simp [getD_eq_getElem?_getD, h]
  rw [xorAll, getD_foldl_xorInto i slices _ (by rwa [length_replicate]), hzero]

theorem foldl_xor_eq (b : UInt8) : ∀ (l : List UInt8) (a : UInt8),
    l.foldl (· ^^^ ·) (b ^^^ a) = b ^^^ l.foldl (· ^^^ ·) a
  | [], _ => rfl
  | c :: l, a => by rw [foldl_cons, foldl_cons, UInt8.xor_assoc, foldl_xor_eq b l]

theorem foldl_xor_recovers (x : UInt8) (l₁ l₂ : List UInt8) :
    (l₁ ++ l₂ ++ [(l₁ ++ x :: l₂).foldl (· ^^^ ·) 0]).foldl (· ^^^ ·) 0 = x := by
  have hall : (l₁ ++ x :: l₂).foldl (· ^^^ ·) 0 = x ^^^ (l₁ ++ l₂).foldl (· ^^^ ·) 0 := by
    rw [foldl_append, foldl_append, foldl_cons, UInt8.xor_comm _ x, foldl_xor_eq]
  rw [foldl_append, hall, foldl_cons, foldl_nil, ← UInt8.xor_assoc,
    UInt8.xor_comm _ x, UInt8.xor_assoc, UInt8.xor_self, UInt8.xor_zero]

/-- Any one of the strings is the parity of the others and the parity. -/
theorem xorAll_recovers {slice : List UInt8} {size : Nat} (hsize : slice.length = size)
    (l₁ l₂ : List (List UInt8)) : xorAll (l₁ ++ l₂ ++ [xorAll (l₁ ++ slice :: l₂) size]) size = slice := by
  refine ext_getElem (by rw [length_xorAll, hsize]) fun i h₁ h₂ => ?_
  have hi : i < size := by rwa [length_xorAll] at h₁
  have hbyte : (xorAll (l₁ ++ l₂ ++ [xorAll (l₁ ++ slice :: l₂) size]) size).getD i 0 = slice.getD i 0 := by
    rw [getD_xorAll hi, map_append, map_append, map_singleton, getD_xorAll hi, map_append, map_cons]
    exact foldl_xor_recovers _ _ _
  rwa [getD_eq_getElem _ _ h₁, getD_eq_getElem _ _ h₂] at hbyte

end XorParity
