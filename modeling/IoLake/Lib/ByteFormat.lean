import IoLake.Lib.ByteOrder

/-!
# Fields of a byte string
-/

namespace ByteFormat

open List

/-! ## Numbers -/

/-- `x` in `w` bytes, most significant first. -/
def toBE : Nat → Nat → Bytes
  | 0, _ => []
  | w + 1, x => toBE w (x / 256) ++ [UInt8.ofNat x]

def fromBE (b : Bytes) : Nat := b.foldl (fun acc d => acc * 256 + d.toNat) 0

@[simp] theorem length_toBE : ∀ (w x : Nat), (toBE w x).length = w
  | 0, _ => rfl
  | w + 1, x => by simp [toBE, length_toBE w]

theorem fromBE_concat (b : Bytes) (d : UInt8) : fromBE (b ++ [d]) = fromBE b * 256 + d.toNat := by
  simp [fromBE]

theorem fromBE_toBE : ∀ (w x : Nat), fromBE (toBE w x) = x % 256 ^ w
  | 0, x => by simp [toBE, fromBE, Nat.mod_one]
  | w + 1, x => by
    have hlast : (UInt8.ofNat x).toNat = x % 256 := UInt8.toNat_ofNat'
    have hsplit : x % (256 * 256 ^ w) = x % 256 + 256 * (x / 256 % 256 ^ w) := Nat.mod_mul
    rw [toBE, fromBE_concat, fromBE_toBE w, hlast, Nat.pow_succ, Nat.mul_comm (256 ^ w), hsplit]
    omega

/-- `x` in `w` bytes, least significant first. -/
def toLE : Nat → Nat → Bytes
  | 0, _ => []
  | w + 1, x => UInt8.ofNat x :: toLE w (x / 256)

def fromLE : Bytes → Nat
  | [] => 0
  | d :: b => d.toNat + 256 * fromLE b

@[simp] theorem length_toLE : ∀ (w x : Nat), (toLE w x).length = w
  | 0, _ => rfl
  | w + 1, x => by simp [toLE, length_toLE w]

theorem fromLE_toLE : ∀ (w x : Nat), fromLE (toLE w x) = x % 256 ^ w
  | 0, x => by simp [toLE, fromLE, Nat.mod_one]
  | w + 1, x => by
    have hlow : (UInt8.ofNat x).toNat = x % 256 := UInt8.toNat_ofNat'
    have hsplit : x % (256 * 256 ^ w) = x % 256 + 256 * (x / 256 % 256 ^ w) := Nat.mod_mul
    rw [toLE, fromLE, fromLE_toLE w, hlow, Nat.pow_succ, Nat.mul_comm (256 ^ w), hsplit]

theorem fromLE_toLE_of_lt {w x : Nat} (h : x < 256 ^ w) : fromLE (toLE w x) = x := by
  rw [fromLE_toLE, Nat.mod_eq_of_lt h]

theorem fromLE_lt : ∀ (b : Bytes), fromLE b < 256 ^ b.length
  | [] => by simp [fromLE]
  | d :: b => by
    have hd : d.toNat < 256 := d.toNat_lt
    have ih := fromLE_lt b
    rw [fromLE, length_cons, Nat.pow_succ]
    omega

theorem toLE_fromLE : ∀ (b : Bytes), toLE b.length (fromLE b) = b
  | [] => rfl
  | d :: b => by
    have hd : d.toNat < 256 := d.toNat_lt
    have hdiv : (d.toNat + 256 * fromLE b) / 256 = fromLE b := by omega
    have hlow : UInt8.ofNat (d.toNat + 256 * fromLE b) = d := by
      apply UInt8.toNat_inj.1
      rw [UInt8.toNat_ofNat']
      omega
    rw [length_cons, fromLE, toLE, hlow, hdiv, toLE_fromLE b]

/-! ## Fields ended by a NUL -/

/-- What stands before the first NUL, and what follows it. -/
def splitNul : Bytes → Option (Bytes × Bytes)
  | [] => none
  | b :: rest => if b = 0 then some ([], rest) else (splitNul rest).map (fun s => (b :: s.1, s.2))

theorem splitNul_append : ∀ {a : Bytes} (rest : Bytes), 0 ∉ a → splitNul (a ++ 0 :: rest) = some (a, rest)
  | [], rest, _ => by simp [splitNul]
  | b :: a, rest, h => by
    have hb : b ≠ 0 := fun hb => h (hb ▸ mem_cons_self)
    rw [cons_append, splitNul, if_neg hb, splitNul_append rest fun ha => h (mem_cons_of_mem _ ha)]
    rfl

theorem splitNul_eq_some : ∀ {k a rest : Bytes}, splitNul k = some (a, rest) → k = a ++ 0 :: rest ∧ 0 ∉ a
  | [], _, _, h => by cases h
  | b :: k, a, rest, h => by
    unfold splitNul at h
    split at h
    · rename_i hb
      cases h
      exact ⟨by rw [hb]; rfl, by simp⟩
    · rename_i hb
      obtain ⟨⟨a', r'⟩, hs, heq⟩ := Option.map_eq_some_iff.1 h
      cases heq
      obtain ⟨rfl, hn⟩ := splitNul_eq_some hs
      exact ⟨rfl, by simpa using ⟨Ne.symm hb, hn⟩⟩

theorem splitNul_eq_none : ∀ {k : Bytes}, 0 ∉ k → splitNul k = none
  | [], _ => rfl
  | b :: k, h => by
    have hb : b ≠ 0 := fun hb => h (hb ▸ mem_cons_self)
    rw [splitNul, if_neg hb, splitNul_eq_none fun hk => h (mem_cons_of_mem _ hk)]
    rfl

/-! ## Strings -/

def validUtf8 (b : Bytes) : Bool := (ByteArray.mk b.toArray).validateUTF8

def fromUtf8 (b : Bytes) : Option Bytes := if validUtf8 b then some b else none

theorem fromUtf8_of_valid {b : Bytes} (h : validUtf8 b = true) : fromUtf8 b = some b := by
  rw [fromUtf8, if_pos h]

theorem fromUtf8_eq_some {b s : Bytes} : fromUtf8 b = some s ↔ s = b ∧ validUtf8 b = true := by
  unfold fromUtf8
  split
  · rename_i h
    simp [h, eq_comm]
  · rename_i h
    simp [h]

end ByteFormat
