import IoLake.Lib.ByteFormat

/-!
# Keys of the metadata store (`storage/src/metadata/types.rs`)

A key's current object `m{bucket}\0{key}`, its versions `v{bucket}\0{key}\0{version}` and the tombstones of
its deletes `t{bucket}\0{key}\0{version}`.  Each is read back as it was written, for names that hold no NUL.
-/

namespace IoLake.Storage

open ByteFormat Option

namespace MetadataKey

def objectMeta (bucket key : Bytes) : Bytes := 109 :: (bucket ++ 0 :: key)

def parseObjectMeta : Bytes → Option (Bytes × Bytes)
  | 109 :: rest => do
    let (bucket, key) ← splitNul rest
    return (← fromUtf8 bucket, ← fromUtf8 key)
  | _ => none

def objectVersion (bucket key versionId : Bytes) : Bytes :=
  118 :: (bucket ++ 0 :: (key ++ 0 :: versionId))

def parseThree (rest : Bytes) : Option (Bytes × Bytes × Bytes) := do
  let (bucket, after) ← splitNul rest
  let (key, versionId) ← splitNul after
  return (← fromUtf8 bucket, ← fromUtf8 key, ← fromUtf8 versionId)

def parseObjectVersion : Bytes → Option (Bytes × Bytes × Bytes)
  | 118 :: rest => parseThree rest
  | _ => none

def tombstone (bucket key versionId : Bytes) : Bytes :=
  116 :: (bucket ++ 0 :: (key ++ 0 :: versionId))

variable {bucket key versionId : Bytes}

theorem parseObjectMeta_objectMeta (hb : 0 ∉ bucket)
    (hbu : validUtf8 bucket = true) (hku : validUtf8 key = true) :
    parseObjectMeta (objectMeta bucket key) = some (bucket, key) := by
  simp [parseObjectMeta, objectMeta, splitNul_append key hb, fromUtf8_of_valid hbu, fromUtf8_of_valid hku]

theorem parseThree_fields (hb : 0 ∉ bucket) (hk : 0 ∉ key)
    (hbu : validUtf8 bucket = true) (hku : validUtf8 key = true) (hvu : validUtf8 versionId = true) :
    parseThree (bucket ++ 0 :: (key ++ 0 :: versionId)) = some (bucket, key, versionId) := by
  simp [parseThree, splitNul_append _ hb, splitNul_append versionId hk, fromUtf8_of_valid hbu,
    fromUtf8_of_valid hku, fromUtf8_of_valid hvu]

theorem parseObjectMeta_eq_some {k : Bytes}
    (h : parseObjectMeta k = some (bucket, key)) : k = objectMeta bucket key ∧ 0 ∉ bucket ∧
      validUtf8 bucket = true ∧ validUtf8 key = true := by
  unfold parseObjectMeta at h
  split at h
  · rename_i rest
    simp only [bind_eq_bind, bind_eq_some_iff, pure_def, some.injEq, Prod.mk.injEq, Prod.exists] at h
    obtain ⟨b, r, hs, b', hb', k', hk', rfl, rfl⟩ := h
    obtain ⟨rfl, hbv⟩ := fromUtf8_eq_some.1 hb'
    obtain ⟨rfl, hkv⟩ := fromUtf8_eq_some.1 hk'
    obtain ⟨rfl, hn⟩ := splitNul_eq_some hs
    exact ⟨rfl, hn, hbv, hkv⟩
  · cases h

theorem parseThree_eq_some {rest : Bytes} (h : parseThree rest = some (bucket, key, versionId)) :
    rest = bucket ++ 0 :: (key ++ 0 :: versionId) ∧ 0 ∉ bucket ∧ 0 ∉ key ∧
      validUtf8 bucket = true ∧ validUtf8 key = true ∧ validUtf8 versionId = true := by
  simp only [parseThree, bind_eq_bind, bind_eq_some_iff, pure_def,
    some.injEq, Prod.mk.injEq, Prod.exists] at h
  obtain ⟨b, r, hs, k, v, hs', b', hb', k', hk', v', hv', rfl, rfl, rfl⟩ := h
  obtain ⟨rfl, hbv⟩ := fromUtf8_eq_some.1 hb'
  obtain ⟨rfl, hkv⟩ := fromUtf8_eq_some.1 hk'
  obtain ⟨rfl, hvv⟩ := fromUtf8_eq_some.1 hv'
  obtain ⟨rfl, hn⟩ := splitNul_eq_some hs
  obtain ⟨rfl, hn'⟩ := splitNul_eq_some hs'
  exact ⟨rfl, hn, hn', hbv, hkv, hvv⟩

theorem parseObjectVersion_eq_some {k : Bytes} (h : parseObjectVersion k = some (bucket, key, versionId)) :
    k = objectVersion bucket key versionId ∧ 0 ∉ bucket ∧ 0 ∉ key ∧
      validUtf8 bucket = true ∧ validUtf8 key = true ∧ validUtf8 versionId = true := by
  unfold parseObjectVersion at h
  split at h
  · obtain ⟨rfl, hrest⟩ := parseThree_eq_some h
    exact ⟨rfl, hrest⟩
  · cases h

end MetadataKey

end IoLake.Storage
