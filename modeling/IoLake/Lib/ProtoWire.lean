import IoLake.Lib.ByteOrder

/-!
# The protobuf wire format

The fields of a message: a tag, then a number as a varint or a length and that many bytes.  A field that has
its default value is left out.
-/

namespace ProtoWire

open List

/-- A number in base 128, the lowest digit first; ten digits hold 64 bits. -/
def varint : Nat → Nat → Bytes
  | 0, _ => []
  | fuel + 1, x =>
    if x < 128 then [UInt8.ofNat x] else UInt8.ofNat (x % 128 + 128) :: varint fuel (x / 128)

def lenField (tag : UInt8) (b : Bytes) : Bytes :=
  if b.isEmpty then [] else tag :: varint 10 b.length ++ b

def uintField (tag : UInt8) (x : Nat) : Bytes :=
  if x = 0 then [] else tag :: varint 10 x

def asciiBytes (s : String) : Bytes := s.toList.map fun c => UInt8.ofNat c.toNat

theorem varint_append_inj : ∀ (fuel : Nat) {m n : Nat} {x y : Bytes}, m < 128 ^ fuel → n < 128 ^ fuel →
    varint fuel m ++ x = varint fuel n ++ y → m = n ∧ x = y
  | 0, m, n, x, y, hm, hn, h => by
    simp only [pow_zero, Nat.lt_one_iff] at hm hn
    exact ⟨hm.trans hn.symm, h⟩
  | fuel + 1, m, n, x, y, hm, hn, h => by
    rw [pow_succ] at hm hn
    have hm' : m / 128 < 128 ^ fuel := Nat.div_lt_of_lt_mul (by omega)
    have hn' : n / 128 < 128 ^ fuel := Nat.div_lt_of_lt_mul (by omega)
    unfold varint at h
    split at h <;> split at h <;>
      simp only [cons_append, nil_append, cons.injEq, ← UInt8.toNat_inj, UInt8.toNat_ofNat'] at h
    · exact ⟨by omega, h.2⟩
    · omega
    · omega
    · obtain ⟨hdiv, htail⟩ := varint_append_inj fuel hm' hn' h.2
      exact ⟨by omega, htail⟩

/-- A field of bytes that is written even where it is empty, as one of several. -/
def delimited (tag : UInt8) (b : Bytes) : Bytes := tag :: varint 10 b.length ++ b

section
variable {tag : UInt8} {a b x y : Bytes} (ha : a.length < 128 ^ 10) (hb : b.length < 128 ^ 10)
include ha hb

theorem delimited_append_inj (h : delimited tag a ++ x = delimited tag b ++ y) : a = b ∧ x = y := by
  simp only [delimited, cons_append, append_assoc, cons.injEq, true_and] at h
  obtain ⟨hlen, h⟩ := varint_append_inj 10 ha hb h
  exact append_inj h hlen

theorem lenField_append_inj (hx : x.head? ≠ some tag) (hy : y.head? ≠ some tag)
    (h : lenField tag a ++ x = lenField tag b ++ y) : a = b ∧ x = y := by
  cases a with
  | nil =>
    cases b with
    | nil => exact ⟨rfl, h⟩
    | cons d b =>
      have h : x = _ := h
      simp [h, lenField] at hx
  | cons c a =>
    cases b with
    | nil =>
      have h : _ = y := h
      simp [← h, lenField] at hy
    | cons d b => exact delimited_append_inj ha hb h

end

end ProtoWire
