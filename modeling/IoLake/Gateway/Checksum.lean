import IoLake.Lib.ByteFormat

/-!
# Checksums of parts (`gateway/src/checksum.rs`)

A CRC is linear over exclusive or: of two pieces it is that of the second, and that of the first shifted past
as many zero bits.  `combine` shifts by squaring matrices, one for each bit of the length.
-/

namespace IoLake.Gateway.Checksum

open ByteFormat List

abbrev U64 := BitVec 64

inductive ChecksumAlgorithm where
  | crc32 | crc32c | crc64Nvme | sha1 | sha256
deriving DecidableEq, Repr

def ChecksumAlgorithm.len : ChecksumAlgorithm → Nat
  | .crc32 | .crc32c => 4
  | .crc64Nvme => 8
  | .sha1 => 20
  | .sha256 => 32

def ChecksumAlgorithm.crcPoly : ChecksumAlgorithm → Option U64
  | .crc32 => some 0xEDB88320
  | .crc32c => some 0x82F63B78
  | .crc64Nvme => some 0x9A6C9329AC4BC9B5
  | .sha1 | .sha256 => none

def crcBit (poly c : U64) : U64 := if c.getLsbD 0 then c >>> 1 ^^^ poly else c >>> 1

def crcByte (poly c : U64) (b : UInt8) : U64 := (crcBit poly)^[8] (c ^^^ BitVec.ofNat 64 b.toNat)

def ones (width : Nat) : U64 := BitVec.ofNat 64 (2 ^ width - 1)

def crc (width : Nat) (poly : U64) (data : Bytes) : U64 := data.foldl (crcByte poly) (ones width) ^^^ ones width

/-- The checksum of `data`, big-endian for the CRCs; `sha` is the hashes. -/
def ChecksumAlgorithm.compute (sha : ChecksumAlgorithm → Bytes → Bytes) (a : ChecksumAlgorithm) (data : Bytes) :
    Bytes :=
  match a.crcPoly with
  | some poly => toBE a.len (crc (a.len * 8) poly data).toNat
  | none => sha a data

/-- A matrix times a vector; a bit past the matrix is an index out of bounds. -/
def times : List U64 → U64 → Option U64
  | [], vec => if vec = 0 then some 0 else none
  | row :: mat, vec => (times mat (vec >>> 1)).map fun sum => if vec.getLsbD 0 then row ^^^ sum else sum

def square (mat : List U64) : Option (List U64) := mat.mapM (times mat)

/-- One zero byte, then doubling.  The source's two matrices are the last one and the one being made. -/
def combineLoop (mat : List U64) (crc1 : U64) (len2 : Nat) : Option U64 :=
  (square mat).bind fun mat =>
    (if len2 % 2 = 1 then times mat crc1 else some crc1).bind fun crc1 =>
      if len2 / 2 = 0 then some crc1 else combineLoop mat crc1 (len2 / 2)

def oneBit (width : Nat) (poly : U64) : List U64 := poly :: (range (width - 1)).map (BitVec.twoPow 64)

def combine2 (width : Nat) (poly crc1 crc2 : U64) (len2 : Nat) : Option U64 :=
  if len2 = 0 then some crc1
  else do
    let even ← square (oneBit width poly)
    let odd ← square even
    return (← combineLoop odd crc1 len2) ^^^ crc2

def ChecksumAlgorithm.value (a : ChecksumAlgorithm) (b : Bytes) : Option U64 :=
  if b.length = a.len then some (BitVec.ofNat 64 (fromBE b)) else none

def ChecksumAlgorithm.combine (a : ChecksumAlgorithm) : List (Bytes × Nat) → Option Bytes
  | [] => none
  | (first, _) :: parts => do
    let poly ← a.crcPoly
    let acc ← a.value first
    let acc ← parts.foldlM (fun acc (c, len) => do combine2 (a.len * 8) poly acc (← a.value c) len) acc
    return toBE a.len acc.toNat

/-! ## Linear maps -/

structure Linear (width : Nat) (f : U64 → U64) : Prop where
  xor : ∀ a b, f (a ^^^ b) = f a ^^^ f b
  bound : ∀ v, v.toNat < 2 ^ width → (f v).toNat < 2 ^ width

section
variable {width : Nat} {f g : U64 → U64} {poly : U64}

theorem Linear.zero (h : Linear width f) : f 0#64 = 0#64 := by
  have hxor := h.xor 0#64 0#64
  simpa using hxor

theorem Linear.comp (hf : Linear width f) (hg : Linear width g) : Linear width (f ∘ g) where
  xor a b := by simp [hg.xor, hf.xor]
  bound v hv := hf.bound _ (hg.bound v hv)

theorem Linear.iterate (h : Linear width f) (n : Nat) : Linear width f^[n] := by
  induction n with
  | zero => exact ⟨fun _ _ => rfl, fun _ hv => hv⟩
  | succ n ih => exact ih.comp h

theorem crcBit_linear (hpoly : poly.toNat < 2 ^ width) : Linear width (crcBit poly) where
  xor a b := by
    unfold crcBit
    simp only [BitVec.getLsbD_xor, BitVec.ushiftRight_xor_distrib]
    cases a.getLsbD 0 <;> cases b.getLsbD 0 <;> simp
    all_goals first | ac_rfl | skip
    rw [BitVec.xor_assoc, BitVec.xor_comm (b >>> 1) poly, ← BitVec.xor_assoc poly, BitVec.xor_self,
      BitVec.zero_xor]
  bound v hv := by
    have hshift : (v >>> 1).toNat < 2 ^ width := by
      rw [BitVec.toNat_ushiftRight]
      exact lt_of_le_of_lt (Nat.shiftRight_le _ _) hv
    unfold crcBit
    split
    · rw [BitVec.toNat_xor]
      exact Nat.xor_lt_two_pow hshift hpoly
    · exact hshift

def rows (f : U64 → U64) (k width : Nat) : List U64 := (range' k width).map fun i => f (BitVec.twoPow 64 i)

theorem shiftLeft_split (v : U64) (k : Nat) :
    v <<< k = (if v.getLsbD 0 then BitVec.twoPow 64 k else 0#64) ^^^ (v >>> 1) <<< (k + 1) := by
  apply BitVec.eq_of_getLsbD_eq
  intro i hi
  rcases lt_trichotomy i k with hik | rfl | hik
  · cases v.getLsbD 0 <;> simp [hi, hik, show i < k + 1 by omega, hik.ne]
  · cases hv : v.getLsbD 0 <;> simp_all
  · have hsub : 1 + (i - (k + 1)) = i - k := by omega
    cases v.getLsbD 0 <;> simp [-BitVec.getLsbD_eq_getElem, BitVec.getLsbD_twoPow, hi, hsub, hik.ne,
      show ¬ i < k by omega, show ¬ i < k + 1 by omega]

/-- A matrix of a linear map's values at the powers of two is that map. -/
theorem times_rows (h : Linear width f) : ∀ (n k : Nat) (v : U64), v.toNat < 2 ^ n →
    times (rows f k n) v = some (f (v <<< k)) := by
  intro n
  induction n with
  | zero =>
    intro k v hv
    have hzero : v = 0#64 := BitVec.eq_of_toNat_eq (by simpa using hv)
    simp [rows, times, hzero, h.zero]
  | succ n ih =>
    intro k v hv
    have hshift : (v >>> 1).toNat < 2 ^ n := by
      rw [BitVec.toNat_ushiftRight, Nat.shiftRight_eq_div_pow]
      omega
    have hrows : rows f k (n + 1) = f (BitVec.twoPow 64 k) :: rows f (k + 1) n := rfl
    rw [hrows, times, ih (k + 1) _ hshift, shiftLeft_split v k, h.xor]
    cases v.getLsbD 0 <;> simp [h.zero]

theorem square_rows (h : Linear width f) : square (rows f 0 width) = some (rows (f ∘ f) 0 width) := by
  have hall : ∀ l : List Nat, (∀ i ∈ l, i < width) → (l.map fun i => f (BitVec.twoPow 64 i)).mapM
      (times (rows f 0 width)) = some (l.map fun i => f (f (BitVec.twoPow 64 i))) := by
    intro l hl
    induction l with
    | nil => rfl
    | cons i l ih =>
      have hpow : (BitVec.twoPow 64 i).toNat < 2 ^ width := by
        rw [BitVec.toNat_twoPow]
        exact lt_of_le_of_lt (Nat.mod_le _ _) (Nat.pow_lt_pow_right (by decide) (hl i mem_cons_self))
      rw [map_cons, mapM_cons, times_rows h width 0 _ (h.bound _ hpow), BitVec.shiftLeft_zero,
        ih fun j hj => hl j (mem_cons_of_mem _ hj)]
      rfl
  exact hall _ (by simp)

/-- The loop over the bits of a length shifts by as many zero bytes. -/
theorem combineLoop_spec (len : Nat) (f : U64 → U64) (c : U64) (h : Linear width f) (hc : c.toNat < 2 ^ width)
    (hlen : 0 < len) : combineLoop (rows f 0 width) c len = some (f^[2 * len] c) := by
  induction len using Nat.strongRecOn generalizing f c with
  | ind len ih =>
    have hsq := h.comp h
    have hiter : ∀ n, (f ∘ f)^[n] = f^[2 * n] := fun n => (Function.iterate_mul f 2 n).symm
    -- the lowest bit of the length
    have hbit : (if len % 2 = 1 then times (rows (f ∘ f) 0 width) c else some c) =
        some ((f ∘ f)^[len % 2] c) := by
      rcases Nat.mod_two_eq_zero_or_one len with hmod | hmod
      · simp [hmod]
      · simp [hmod, times_rows hsq width 0 c hc]
    have hbound := (hsq.iterate (len % 2)).bound c hc
    rw [combineLoop, square_rows h]
    simp only [Option.bind_some, hbit]
    by_cases hlast : len / 2 = 0
    · rw [if_pos hlast, hiter, show len % 2 = len by omega]
    · rw [if_neg hlast, ih (len / 2) (by omega) (f ∘ f) _ hsq hbound (by omega), hiter, hiter,
        ← Function.iterate_add_apply]
      congr 2
      omega

theorem oneBit_rows (hwidth : 0 < width) (hle : width ≤ 64) : oneBit width poly = rows (crcBit poly) 0 width := by
  obtain ⟨n, rfl⟩ := Nat.exists_eq_succ_of_ne_zero hwidth.ne'
  have hfirst : poly = crcBit poly (BitVec.twoPow 64 0) := by
    have hgone : BitVec.twoPow 64 0 >>> 1 = 0#64 := by decide
    simp [crcBit, hgone]
  have hnext : ∀ i, i < n → BitVec.twoPow 64 i = crcBit poly (BitVec.twoPow 64 (1 + i)) := by
    intro i hi
    have hlow : (BitVec.twoPow 64 (1 + i)).getLsbD 0 = false := by
      simp [show ¬ 0 = 1 + i by omega]
    rw [crcBit, hlow, if_neg (by decide)]
    apply BitVec.eq_of_getLsbD_eq
    intro j hj
    simp [-BitVec.getLsbD_eq_getElem, BitVec.getLsbD_twoPow, show 1 + i < 64 by omega, show i < 64 by omega]
  rw [oneBit, rows, range'_succ, map_cons, ← hfirst, range_eq_range', Nat.succ_sub_one]
  refine congrArg (poly :: ·) ?_
  rw [range'_eq_map_range, range'_eq_map_range, map_map, map_map]
  refine map_congr_left fun i hi => ?_
  simpa using hnext i (mem_range.1 hi)

theorem combine2_spec (hpoly : poly.toNat < 2 ^ width) (hwidth : 0 < width) (hle : width ≤ 64) {crc1 : U64}
    (hc : crc1.toNat < 2 ^ width) (crc2 : U64) {len2 : Nat} (hlen : 0 < len2) :
    combine2 width poly crc1 crc2 len2 = some ((crcBit poly)^[8 * len2] crc1 ^^^ crc2) := by
  have hbit := crcBit_linear hpoly
  have hfour := (hbit.comp hbit).comp (hbit.comp hbit)
  have hiter : ((crcBit poly ∘ crcBit poly) ∘ crcBit poly ∘ crcBit poly)^[2 * len2] = (crcBit poly)^[8 * len2] := by
    rw [show 8 * len2 = 4 * (2 * len2) by omega]
    exact (Function.iterate_mul (crcBit poly) 4 _).symm
  rw [combine2, if_neg hlen.ne', oneBit_rows hwidth hle, square_rows hbit]
  simp only [Option.bind_eq_bind, Option.bind_some, square_rows (hbit.comp hbit),
    combineLoop_spec len2 _ crc1 hfour hc hlen, hiter]
  rfl

theorem foldl_crcByte (hpoly : poly.toNat < 2 ^ width) (data : Bytes) (s t : U64) :
    data.foldl (crcByte poly) (s ^^^ t) = data.foldl (crcByte poly) s ^^^ (crcBit poly)^[8 * data.length] t := by
  induction data generalizing s t with
  | nil => rfl
  | cons b data ih =>
    have hbyte : crcByte poly (s ^^^ t) b = crcByte poly s b ^^^ (crcBit poly)^[8] t := by
      rw [crcByte, crcByte, ← ((crcBit_linear hpoly).iterate 8).xor]
      congr 1
      ac_rfl
    rw [foldl_cons, foldl_cons, hbyte, ih, ← Function.iterate_add_apply, length_cons]
    congr 2

/-- The CRC of two pieces from the CRCs of each. -/
theorem crc_append (hpoly : poly.toNat < 2 ^ width) (a b : Bytes) :
    crc width poly (a ++ b) = (crcBit poly)^[8 * b.length] (crc width poly a) ^^^ crc width poly b := by
  have hstate : a.foldl (crcByte poly) (ones width) = ones width ^^^ crc width poly a := by
    rw [crc, BitVec.xor_comm (foldl _ _ _), ← BitVec.xor_assoc, BitVec.xor_self, BitVec.zero_xor]
  rw [crc, foldl_append, hstate, foldl_crcByte hpoly]
  show _ = _ ^^^ (b.foldl (crcByte poly) (ones width) ^^^ ones width)
  ac_rfl

theorem crc_lt (hpoly : poly.toNat < 2 ^ width) (hwidth : 8 ≤ width) (data : Bytes) :
    (crc width poly data).toNat < 2 ^ width := by
  have hones : (ones width).toNat < 2 ^ width := by
    have hpos := Nat.two_pow_pos width
    rw [ones, BitVec.toNat_ofNat]
    exact lt_of_le_of_lt (Nat.mod_le _ _) (by omega)
  have hstate : ∀ s : U64, s.toNat < 2 ^ width → (data.foldl (crcByte poly) s).toNat < 2 ^ width := by
    induction data with
    | nil => exact fun s hs => hs
    | cons b data ih =>
      intro s hs
      have hb : (BitVec.ofNat 64 b.toNat).toNat < 2 ^ width := by
        have hlt := b.toNat_lt
        have hpow : 2 ^ 8 ≤ 2 ^ width := Nat.pow_le_pow_right (by decide) hwidth
        rw [BitVec.toNat_ofNat]
        omega
      refine ih _ (((crcBit_linear hpoly).iterate 8).bound _ ?_)
      rw [BitVec.toNat_xor]
      exact Nat.xor_lt_two_pow hs hb
  rw [crc, BitVec.toNat_xor]
  exact Nat.xor_lt_two_pow (hstate _ hones) hones

end

section
variable {a : ChecksumAlgorithm} {poly : U64}

theorem crcPoly_fits (h : a.crcPoly = some poly) :
    poly.toNat < 2 ^ (a.len * 8) ∧ 8 ≤ a.len * 8 ∧ a.len * 8 ≤ 64 := by
  cases a <;> cases h <;> decide

theorem value_toBE {c : U64} (hc : c.toNat < 2 ^ (a.len * 8)) : a.value (toBE a.len c.toNat) = some c := by
  have hmod : c.toNat % 256 ^ a.len = c.toNat := by
    refine Nat.mod_eq_of_lt ?_
    rwa [Nat.mul_comm, Nat.pow_mul] at hc
  rw [ChecksumAlgorithm.value, if_pos (length_toBE _ _), fromBE_toBE, hmod, BitVec.ofNat_toNat]
  rfl

theorem combine_crcs (h : a.crcPoly = some poly) (first : Bytes) (rest : List Bytes) :
    a.combine ((first :: rest).map fun p => (toBE a.len (crc (a.len * 8) poly p).toNat, p.length)) =
      some (toBE a.len (crc (a.len * 8) poly (first ++ rest.flatten)).toNat) := by
  obtain ⟨hfits, hmin, hmax⟩ := crcPoly_fits h
  have hvalue := fun p => value_toBE (a := a) (crc_lt hfits hmin p)
  -- on what follows, with the CRC of what is done
  have hrest : ∀ done : Bytes, (rest.map fun p => (toBE a.len (crc (a.len * 8) poly p).toNat, p.length)).foldlM
      (fun acc (c, len) => (a.value c).bind fun c => combine2 (a.len * 8) poly acc c len)
      (crc (a.len * 8) poly done) = some (crc (a.len * 8) poly (done ++ rest.flatten)) := by
    induction rest with
    | nil => simp
    | cons p rest ih =>
      intro done
      have hstep : combine2 (a.len * 8) poly (crc (a.len * 8) poly done) (crc (a.len * 8) poly p) p.length =
          some (crc (a.len * 8) poly (done ++ p)) := by
        rcases p.length.eq_zero_or_pos with hnil | hpos
        · simp [combine2, length_eq_zero_iff.1 hnil]
        · rw [combine2_spec hfits (by omega) hmax (crc_lt hfits hmin done) _ hpos, crc_append hfits]
      rw [map_cons, foldlM_cons, flatten_cons, ← append_assoc, ← ih]
      simp [hvalue, hstep]
  rw [map_cons, ChecksumAlgorithm.combine, h, hvalue]
  simp only [Option.bind_eq_bind, Option.bind_some]
  rw [hrest]
  rfl

theorem compute_crc (sha : ChecksumAlgorithm → Bytes → Bytes) (h : a.crcPoly = some poly) :
    a.compute sha = fun p => toBE a.len (crc (a.len * 8) poly p).toNat := by
  funext p
  rw [ChecksumAlgorithm.compute, h]

end

/-- What `combine` makes of the parts' CRCs is the CRC of the whole. -/
theorem combined_is_crc_of_whole (sha : ChecksumAlgorithm → Bytes → Bytes) (a : ChecksumAlgorithm)
    (ha : a.crcPoly ≠ none) (parts : List Bytes) (hparts : parts ≠ []) :
    a.combine (parts.map fun p => (a.compute sha p, p.length)) = some (a.compute sha parts.flatten) := by
  obtain ⟨poly, hpoly⟩ := Option.ne_none_iff_exists'.1 ha
  obtain ⟨first, rest, rfl⟩ := exists_cons_of_ne_nil hparts
  rw [compute_crc sha hpoly, flatten_cons]
  exact combine_crcs hpoly first rest

/-- The CRC-32 of three bytes, two of them in the second part. -/
theorem crc32_of_two_parts : ChecksumAlgorithm.crc32.combine
    ([[1], [2, 3]].map fun p => (ChecksumAlgorithm.crc32.compute (fun _ _ => []) p, p.length)) =
      some (ChecksumAlgorithm.crc32.compute (fun _ _ => []) [1, 2, 3]) :=
  combined_is_crc_of_whole (fun _ _ => []) .crc32 (by decide) [[1], [2, 3]] (by decide)

end IoLake.Gateway.Checksum
