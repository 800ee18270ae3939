import IoLake.Gateway.Checksum
import IoLake.Lib.OrdMap

/-!
# The checksum of a completed upload (`gateway/src/s3/multipart.rs`, `meta/src/service/multipart.rs`)

Completing a multipart upload makes its checksum of the parts' own.  The gateway asks meta for the parts
once, and meta lists a thousand at most, whatever it is asked for.
-/

namespace IoLake.Gateway.Multipart

open ByteFormat Checksum List

abbrev Text := List Char

structure Base64 where
  encode : Bytes → Text
  decode : Text → Option Bytes
  decode_encode : ∀ b, decode (encode b) = some b

structure ObjectChecksum where
  algorithm : ChecksumAlgorithm
  value : Text

structure PartMeta where
  size : Nat
  checksum : Option ObjectChecksum

structure MultipartUpload where
  parts : OrdMap Nat PartMeta
  fullObject : Bool

def listParts (upload : MultipartUpload) (marker maxParts : Nat) : List (Nat × PartMeta) :=
  (upload.parts.past marker).entries.take (if maxParts = 0 then 1000 else min maxParts 1000)

def byNumber (listed : List (Nat × PartMeta)) (n : Nat) : Option (ObjectChecksum × Nat) :=
  ((listed.find? (·.1 == n)).map (·.2)).bind fun p => p.checksum.map (·, p.size)

/-- The loop over the numbers: the one algorithm, each checksum decoded with its part's size, and each as is. -/
def gather (b64 : Base64) (listed : List (Nat × PartMeta)) : Option ChecksumAlgorithm → List Nat →
    Option (Option ChecksumAlgorithm × List (Bytes × Nat) × List ObjectChecksum)
  | algorithm, [] => some (algorithm, [], [])
  | algorithm, n :: numbers => do
    let (c, size) ← byNumber listed n
    if algorithm.getD c.algorithm ≠ c.algorithm then none
    else
      let value ← b64.decode c.value
      let (algorithm, raw, each) ← gather b64 listed (some c.algorithm) numbers
      return (algorithm, (value, size) :: raw, c :: each)

def compositeChecksum (b64 : Base64) (sha : ChecksumAlgorithm → Bytes → Bytes) (upload : MultipartUpload)
    (numbers : List Nat) : Option (ObjectChecksum × List ObjectChecksum) := do
  let (algorithm, raw, each) ← gather b64 (listParts upload 0 10000) none numbers
  let algorithm ← algorithm
  let value ←
    if upload.fullObject then (algorithm.combine raw).map b64.encode
    else some (b64.encode (algorithm.compute sha (raw.map (·.1)).flatten) ++
      '-' :: (toString numbers.length).toList)
  return (⟨algorithm, value⟩, each)

def badDigest (found : Bool) (composite : Option ObjectChecksum) (asked : ObjectChecksum) : Bool :=
  let gone := composite.isNone && !found
  !(gone || composite.any fun c => c.algorithm = asked.algorithm &&
    (asked.value = c.value || c.value.contains '-' && c.value.takeWhile (· ≠ '-') = asked.value))

section
variable {b64 : Base64} {sha : ChecksumAlgorithm → Bytes → Bytes} {upload : MultipartUpload}
  {a : ChecksumAlgorithm} {data : Nat → Bytes}

def partOf (b64 : Base64) (sha : ChecksumAlgorithm → Bytes → Bytes) (a : ChecksumAlgorithm) (data : Bytes) :
    PartMeta :=
  ⟨data.length, some ⟨a, b64.encode (a.compute sha data)⟩⟩

/-- A part is found under its number exactly if it is in the first thousand. -/
theorem byNumber_listed {n : Nat} {p : PartMeta} (hpos : 0 < n) (hget : upload.parts.get n = some p)
    (hfirst : (upload.parts.upTo n).size ≤ 1000) :
    byNumber (listParts upload 0 10000) n = p.checksum.map (·, p.size) := by
  have hlow : (n, p) ∈ ((upload.parts.past 0).upTo n).entries := by
    rw [OrdMap.mem_entries, OrdMap.get_upTo, if_pos le_rfl, OrdMap.get_past, if_pos hpos, hget]
  have hlen : ((upload.parts.past 0).upTo n).entries.length ≤ 1000 := by
    refine le_trans ?_ hfirst
    exact (filter_sublist.filter _).length_le
  -- the parts through `n` are the first of those listed
  have htake : (n, p) ∈ listParts upload 0 10000 := by
    show (n, p) ∈ (upload.parts.past 0).entries.take 1000
    rw [← OrdMap.entries_split _ n, take_append, take_of_length_le hlen]
    exact mem_append_left _ hlow
  have hsorted : (listParts upload 0 10000).Pairwise (fun a b => a.1 < b.1) :=
    (OrdMap.sorted _).sublist (take_sublist _ _)
  rw [byNumber, OrdMap.find_of_mem hsorted htake]
  rfl

theorem listed_first (hpos : ∀ n p, upload.parts.get n = some p → 0 < n) {n : Nat}
    (h : (byNumber (listParts upload 0 10000) n).isSome) : (upload.parts.upTo n).size ≤ 1000 := by
  obtain ⟨c, hc⟩ := Option.isSome_iff_exists.1 h
  obtain ⟨p, hp, -⟩ := Option.bind_eq_some_iff.1 hc
  obtain ⟨e, he, rfl⟩ := Option.map_eq_some_iff.1 hp
  have hkey : e.1 = n := by simpa using find?_some he
  have hnodup : (upload.parts.upTo n).entries.Nodup :=
    (OrdMap.sorted _).imp fun hlt heq => absurd (heq ▸ hlt) (lt_irrefl _)
  have hsub : (upload.parts.upTo n).entries ⊆ listParts upload 0 10000 := by
    rintro ⟨k, v⟩ hk
    rw [OrdMap.mem_entries, OrdMap.get_upTo] at hk
    split at hk
    · rename_i hle
      have hpast : (k, v) ∈ (upload.parts.past 0).entries := by
        rw [OrdMap.mem_entries, OrdMap.get_past, if_pos (hpos k v hk), hk]
      have hfind := OrdMap.find_take_of_le 1000 (OrdMap.sorted _) (mem_of_find?_eq_some he) (hkey ▸ hle)
      exact mem_of_find?_eq_some (hfind.trans (OrdMap.find_of_mem (OrdMap.sorted _) hpast))
    · cases hk
  exact (subperm_of_subset hnodup hsub).length_le.trans (length_take_le _ _)

theorem gather_found {numbers : List Nat} {listed : List (Nat × PartMeta)} {algorithm : Option ChecksumAlgorithm}
    (h : (gather b64 listed algorithm numbers).isSome) : ∀ n ∈ numbers, (byNumber listed n).isSome := by
  induction numbers generalizing algorithm with
  | nil => simp
  | cons n numbers ih =>
    obtain ⟨r, hr⟩ := Option.isSome_iff_exists.1 h
    obtain ⟨⟨c, size⟩, hc, hr⟩ := Option.bind_eq_some_iff.1 hr
    dsimp only at hr
    split at hr
    · cases hr
    obtain ⟨value, -, hr⟩ := Option.bind_eq_some_iff.1 hr
    obtain ⟨r', hr', -⟩ := Option.bind_eq_some_iff.1 hr
    exact forall_mem_cons.2 ⟨by rw [hc]; rfl, ih (by rw [hr']; rfl)⟩

/-- The loop over the numbers takes each part's checksum, in order. -/
theorem gather_parts (numbers : List Nat) {listed : List (Nat × PartMeta)}
    (hlisted : ∀ n ∈ numbers, byNumber listed n = some (⟨a, b64.encode (a.compute sha (data n))⟩, (data n).length))
    (algorithm : Option ChecksumAlgorithm) (halgorithm : algorithm.getD a = a) :
    gather b64 listed algorithm numbers = some (if numbers = [] then algorithm else some a,
      numbers.map fun n => (a.compute sha (data n), (data n).length),
      numbers.map fun n => ⟨a, b64.encode (a.compute sha (data n))⟩) := by
  induction numbers generalizing algorithm with
  | nil => rfl
  | cons n numbers ih =>
    have hrest := ih (fun m hm => hlisted m (mem_cons_of_mem _ hm)) (some a) rfl
    simp [gather, hlisted n mem_cons_self, halgorithm, b64.decode_encode, hrest]

end

/-- The checksum is that of the parts asked for, and a client that sends it is not refused, exactly if those
parts are among the upload's first thousand and, for a full-object upload, carry a CRC. -/
theorem composite_iff_first_thousand (b64 : Base64) (sha : ChecksumAlgorithm → Bytes → Bytes)
    (upload : MultipartUpload) (a : ChecksumAlgorithm) (data : Nat → Bytes)
    (hparts : ∀ n p, upload.parts.get n = some p → 0 < n ∧ p = partOf b64 sha a (data n))
    (numbers : List Nat) (hnumbers : numbers ≠ [])
    (hregistered : ∀ n ∈ numbers, upload.parts.contains n = true) :
    (∃ c, compositeChecksum b64 sha upload numbers =
        some (c, numbers.map fun n => ⟨a, b64.encode (a.compute sha (data n))⟩) ∧
      c = ⟨a, if upload.fullObject then b64.encode (a.compute sha (numbers.map data).flatten)
        else b64.encode (a.compute sha (numbers.map fun n => a.compute sha (data n)).flatten) ++
          '-' :: (toString numbers.length).toList⟩ ∧ badDigest true (some c) c = false) ↔
    (∀ n ∈ numbers, (upload.parts.upTo n).size ≤ 1000) ∧ (upload.fullObject = true → a.crcPoly ≠ none) := by
  have hlisted (hfirst : ∀ n ∈ numbers, (upload.parts.upTo n).size ≤ 1000) : ∀ n ∈ numbers, byNumber (listParts upload 0 10000) n =
      some (⟨a, b64.encode (a.compute sha (data n))⟩, (data n).length) := by
    intro n hn
    obtain ⟨p, hget⟩ := Option.isSome_iff_exists.1 (hregistered n hn)
    obtain ⟨hpos, rfl⟩ := hparts n p hget
    exact byNumber_listed hpos hget (hfirst n hn)
  have hgather := fun hfirst => gather_parts numbers (hlisted hfirst) none rfl
  rw [if_neg hnumbers] at hgather
  constructor
  · rintro ⟨c, hc, -⟩
    obtain ⟨r, hr, -⟩ := Option.bind_eq_some_iff.1 hc
    have hfirst : ∀ n ∈ numbers, (upload.parts.upTo n).size ≤ 1000 := fun n hn =>
      listed_first (fun n p h => (hparts n p h).1) (gather_found (by rw [hr]; rfl) n hn)
    refine ⟨hfirst, fun hkind hsha => ?_⟩
    obtain ⟨n, rest, rfl⟩ := exists_cons_of_ne_nil hnumbers
    simp [compositeChecksum, hgather hfirst, hkind, ChecksumAlgorithm.combine, hsha] at hc
  rintro ⟨hfirst, hfull⟩
  refine ⟨_, ?_, rfl, by simp [badDigest]⟩
  rw [compositeChecksum, hgather hfirst]
  cases hkind : upload.fullObject with
  | false => simp [Function.comp_def]
  | true =>
    obtain ⟨poly, hpoly⟩ := Option.ne_none_iff_exists'.1 (hfull hkind)
    obtain ⟨n, rest, rfl⟩ := exists_cons_of_ne_nil hnumbers
    have hcombine := combine_crcs hpoly (data n) (rest.map data)
    simp only [map_cons, map_map, Function.comp_def] at hcombine
    simp [compute_crc sha hpoly, hcombine]

/-! ## Base64 -/

def alphabet : Text := "ABCDEFGHIJKLMNOPQRSTUVWXYZabcdefghijklmnopqrstuvwxyz0123456789+/".toList

def digit (i : Nat) : Char := alphabet.getD i '='

def digitValue (c : Char) : Option Nat := alphabet.findIdx? (· == c)

/-- Three bytes as four digits of six bits; what is left over at the end is padded. -/
def encode64 : Bytes → Text
  | [] => []
  | [x] => [digit (x.toNat / 4), digit (x.toNat % 4 * 16), '=', '=']
  | [x, y] => [digit (x.toNat / 4), digit (x.toNat % 4 * 16 + y.toNat / 16), digit (y.toNat % 16 * 4), '=']
  | x :: y :: z :: rest =>
    digit (x.toNat / 4) :: digit (x.toNat % 4 * 16 + y.toNat / 16) ::
      digit (y.toNat % 16 * 4 + z.toNat / 64) :: digit (z.toNat % 64) :: encode64 rest

def decode64 : Text → Option Bytes
  | [] => some []
  | a :: b :: c :: d :: rest => do
    let a ← digitValue a
    let b ← digitValue b
    let x := UInt8.ofNat (a * 4 + b / 16)
    if c = '=' then
      if d = '=' ∧ rest = [] ∧ b % 16 = 0 then some [x] else none
    else
      let c ← digitValue c
      let y := UInt8.ofNat (b % 16 * 16 + c / 4)
      if d = '=' then
        if rest = [] ∧ c % 4 = 0 then some [x, y] else none
      else
        let d ← digitValue d
        let rest ← decode64 rest
        return x :: y :: UInt8.ofNat (c % 4 * 64 + d) :: rest
  | _ => none

theorem digitValue_digit : ∀ i < 64, digitValue (digit i) = some i ∧ digit i ≠ '=' := by
  decide +kernel

theorem ofNat_eq {n : Nat} {x : UInt8} (h : n = x.toNat) : UInt8.ofNat n = x := by
  rw [h, UInt8.ofNat_toNat]

theorem decode64_encode64 (b : Bytes) : decode64 (encode64 b) = some b := by
  fun_induction encode64 b with
  | case1 => rfl
  | case2 x =>
    have hx := x.toNat_lt
    have h₁ := digitValue_digit (x.toNat / 4) (by omega)
    have h₂ := digitValue_digit (x.toNat % 4 * 16) (by omega)
    have hbyte : UInt8.ofNat (x.toNat / 4 * 4 + x.toNat % 4 * 16 / 16) = x := ofNat_eq (by omega)
    have hpad : x.toNat % 4 * 16 % 16 = 0 := by omega
    simp only [decode64, h₁, h₂, Option.bind_eq_bind, Option.bind_some, hbyte, hpad, and_self, if_true]
  | case3 x y =>
    have hx := x.toNat_lt
    have hy := y.toNat_lt
    have h₁ := digitValue_digit (x.toNat / 4) (by omega)
    have h₂ := digitValue_digit (x.toNat % 4 * 16 + y.toNat / 16) (by omega)
    have h₃ := digitValue_digit (y.toNat % 16 * 4) (by omega)
    have hfirst : UInt8.ofNat (x.toNat / 4 * 4 + (x.toNat % 4 * 16 + y.toNat / 16) / 16) = x :=
      ofNat_eq (by omega)
    have hsecond : UInt8.ofNat ((x.toNat % 4 * 16 + y.toNat / 16) % 16 * 16 + y.toNat % 16 * 4 / 4) = y :=
      ofNat_eq (by omega)
    have hpad : y.toNat % 16 * 4 % 4 = 0 := by omega
    simp only [decode64, h₁, h₂, h₃, Option.bind_eq_bind, Option.bind_some, hfirst, hsecond, hpad, and_self,
      if_true, if_false]
  | case4 x y z rest ih =>
    have hx := x.toNat_lt
    have hy := y.toNat_lt
    have hz := z.toNat_lt
    have h₁ := digitValue_digit (x.toNat / 4) (by omega)
    have h₂ := digitValue_digit (x.toNat % 4 * 16 + y.toNat / 16) (by omega)
    have h₃ := digitValue_digit (y.toNat % 16 * 4 + z.toNat / 64) (by omega)
    have h₄ := digitValue_digit (z.toNat % 64) (by omega)
    have hfirst : UInt8.ofNat (x.toNat / 4 * 4 + (x.toNat % 4 * 16 + y.toNat / 16) / 16) = x :=
      ofNat_eq (by omega)
    have hsecond : UInt8.ofNat ((x.toNat % 4 * 16 + y.toNat / 16) % 16 * 16 +
        (y.toNat % 16 * 4 + z.toNat / 64) / 4) = y := ofNat_eq (by omega)
    have hthird : UInt8.ofNat ((y.toNat % 16 * 4 + z.toNat / 64) % 4 * 64 + z.toNat % 64) = z :=
      ofNat_eq (by omega)
    simp only [decode64, h₁, h₂, h₃, h₄, Option.bind_eq_bind, Option.bind_some, hfirst, hsecond, hthird, ih,
      if_false]
    rfl

/-- The standard alphabet, padded. -/
def standard : Base64 := ⟨encode64, decode64, decode64_encode64⟩

/-! ## Completed uploads -/

def sampleData : Nat → Bytes
  | 1 => "one".toUTF8.toList
  | 2 => "second".toUTF8.toList
  | _ => "the third".toUTF8.toList

def samplePart (n : Nat) : PartMeta := partOf standard (fun _ _ => []) .crc32 (sampleData n)

def threeParts : MultipartUpload where
  parts := ((OrdMap.empty.insert 1 (samplePart 1)).insert 2 (samplePart 2)).insert 3 (samplePart 3)
  fullObject := false

/-- Three parts with the CRC-32 of their data, completed in order. -/
theorem three_parts_completed : ∃ each, compositeChecksum standard (fun _ _ => []) threeParts [1, 2, 3] =
      some (⟨.crc32, "JTJKsA==-3".toList⟩, each) ∧
    each.map (·.value) = ["emyG8Q==".toList, "th8RaQ==".toList, "dHqMdA==".toList] := by
  obtain ⟨c, hc, hvalue, -⟩ := (composite_iff_first_thousand standard (fun _ _ => []) threeParts .crc32 sampleData
    (fun n p h => by
      simp only [threeParts, OrdMap.get_insert] at h
      split_ifs at h with h3 h2 h1
      · exact ⟨by omega, by rw [← Option.some.inj h, h3]; rfl⟩
      · exact ⟨by omega, by rw [← Option.some.inj h, h2]; rfl⟩
      · exact ⟨by omega, by rw [← Option.some.inj h, h1]; rfl⟩
      · cases h)
    [1, 2, 3] (by decide) (by decide +kernel)).2 ⟨by decide +kernel, by decide⟩
  rw [hvalue.trans (congrArg (ObjectChecksum.mk .crc32)
    (show _ = "JTJKsA==-3".toList by decide +kernel))] at hc
  exact ⟨_, hc, by decide +kernel⟩

def bytePart : PartMeta := partOf standard (fun _ _ => []) .crc32 [1]

def manyParts : MultipartUpload where
  parts := ⟨(range 1001).map fun i => (i + 1, bytePart), by
    refine pairwise_lt_range.map _ fun i j h => ?_
    exact Nat.succ_lt_succ h⟩
  fullObject := false

/-- The last of 1,001 parts is not listed, and what the client sends is refused. -/
theorem last_part_refused : manyParts.parts.contains 1001 = true ∧
    compositeChecksum standard (fun _ _ => []) manyParts [1001] = none ∧
      ∀ asked, badDigest true none asked = true := by
  have hmem : (1001, bytePart) ∈ manyParts.parts.entries := by
    simp only [manyParts, mem_map, mem_range]
    exact ⟨1000, by omega, rfl⟩
  have hall : (manyParts.parts.past 0).entries = (range 1001).map fun i => (i + 1, bytePart) := by
    simp only [OrdMap.past, OrdMap.filterKeys, manyParts, filter_eq_self]
    simp
  have hnone : (listParts manyParts 0 10000).find? (·.1 == 1001) = none := by
    rw [listParts, hall, ← map_take, take_range, find?_eq_none]
    intro e he
    obtain ⟨i, hi, rfl⟩ := mem_map.1 he
    have hlt : i < 1000 := by simpa using mem_range.1 hi
    simp
    omega
  exact ⟨OrdMap.contains_iff.2 ⟨_, hmem⟩, by simp [compositeChecksum, gather, byNumber, hnone], fun _ => rfl⟩

end IoLake.Gateway.Multipart
