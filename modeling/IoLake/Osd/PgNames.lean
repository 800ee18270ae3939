import IoLake.Osd.PgIndex

/-!
# Which index entry is whose

A name (a key, or one of its versions) has one index key in each placement group, and two source keys.
-/

namespace IoLake.Osd

open IoLake.Proto IoLake.Storage ByteFormat ChangeLog Option MetadataKey

structure Name.Valid (n : Name) : Prop where
  bucket_nul : 0 ∉ n.bucket
  key_nul : 0 ∉ n.key
  version_ne : n.version ≠ some []
  bucket_utf8 : validUtf8 n.bucket = true
  key_utf8 : validUtf8 n.key = true
  version_utf8 : validUtf8 (n.version.getD []) = true

structure PgId.Valid (pg : PgId) : Prop where
  pool_nul : 0 ∉ pg.pool
  pool_utf8 : validUtf8 pg.pool = true

def Name.keyIn (n : Name) (pg : PgId) : Bytes :=
  keyOf pg { bucket := n.bucket, key := n.key, versionId := n.version.getD [] }

theorem prefix_keyIn (n : Name) (pg : PgId) : PG_PREFIX <+: n.keyIn pg := by
  unfold Name.keyIn keyOf versionKey entryKey pgPrefix
  split <;> simp only [List.append_assoc] <;> exact List.prefix_append _ _

variable {pg : PgId} {n : Name}

/-- An index key is read back as it was written, so **no two names, and no two groups, share one.** -/
theorem parseEntryKey_keyIn (hn : n.Valid) (hpg : pg.Valid) :
    parseEntryKey (n.keyIn pg) = some (pg, n.bucket, n.key, n.version.getD []) := by
  have hid : UInt32.ofNat (fromBE (toBE 4 pg.id.toNat)) = pg.id := by
    have hlt := pg.id.toNat_lt
    rw [fromBE_toBE, Nat.mod_eq_of_lt (by omega), UInt32.ofNat_toNat]
  have htake : ∀ rest : Bytes, (toBE 4 pg.id.toNat ++ rest).take 4 = toBE 4 pg.id.toNat :=
    fun rest => List.take_left' (length_toBE 4 _)
  have hdrop : ∀ rest : Bytes, (toBE 4 pg.id.toNat ++ rest).drop 4 = rest :=
    fun rest => List.drop_left' (length_toBE 4 _)
  have hlen : ∀ rest : Bytes, ¬ (toBE 4 pg.id.toNat ++ rest).length < 4 := by
    intro rest
    rw [List.length_append, length_toBE]
    omega
  have hv := fromUtf8_of_valid hn.version_utf8
  unfold Name.keyIn keyOf versionKey entryKey pgPrefix PG_PREFIX
  split
  · rename_i hver
    dsimp only at hver
    rw [hver] at hv ⊢
    simp only [List.cons_append, List.nil_append, List.append_assoc, parseEntryKey,
      bind_eq_bind, splitNul_append _ hpg.pool_nul, bind_some,
      fromUtf8_of_valid hpg.pool_utf8, hlen, if_false, htake, hdrop, hid,
      splitNul_append _ hn.bucket_nul, splitNul_eq_none hn.key_nul, getD_none,
      fromUtf8_of_valid hn.bucket_utf8, fromUtf8_of_valid hn.key_utf8, hv, pure_def]
  · simp only [List.cons_append, List.nil_append, List.append_assoc, parseEntryKey,
      bind_eq_bind, splitNul_append _ hpg.pool_nul, bind_some,
      fromUtf8_of_valid hpg.pool_utf8, hlen, if_false, htake, hdrop, hid,
      splitNul_append _ hn.bucket_nul, splitNul_append _ hn.key_nul, getD_some,
      fromUtf8_of_valid hn.bucket_utf8, fromUtf8_of_valid hn.key_utf8, hv, pure_def]

theorem keyIn_inj {n n' : Name} {pg' : PgId} (hn : n.Valid) (hn' : n'.Valid) (hpg : pg.Valid)
    (hpg' : pg'.Valid) (h : n.keyIn pg = n'.keyIn pg') : n = n' ∧ pg = pg' := by
  have hp := parseEntryKey_keyIn hn hpg
  rw [h, parseEntryKey_keyIn hn' hpg'] at hp
  simp only [some.injEq, Prod.mk.injEq] at hp
  obtain ⟨hpgs, hb, hk, hv⟩ := hp
  refine ⟨?_, hpgs.symm⟩
  -- an empty version id is no version
  have hver : n.version = n'.version := by
    have h₁ := hn.version_ne
    have h₂ := hn'.version_ne
    cases hnv : n.version <;> cases hnv' : n'.version <;> simp_all
  cases n
  cases n'
  simp_all

theorem touched_sources (hn : n.Valid) : touched (sources n).1 = some n ∧ touched (sources n).2 = some n := by
  obtain ⟨bucket, key, version⟩ := n
  have hb := hn.bucket_nul
  have hk := hn.key_nul
  have hbu := hn.bucket_utf8
  have hku := hn.key_utf8
  have hvu := hn.version_utf8
  cases version with
  | none =>
    have hempty : validUtf8 [] = true := hvu
    refine ⟨?_, ?_⟩
    · show touched (objectMeta bucket key) = _
      unfold objectMeta touched
      have := parseObjectMeta_objectMeta hb hbu hku
      unfold objectMeta at this
      simp [this]
    · show touched (tombstone bucket key []) = _
      simp [tombstone, touched, parseThree_fields hb hk hbu hku hempty]
  | some v =>
    have hv : v ≠ [] := fun hv => hn.version_ne (by rw [hv])
    have hparse : parseThree (bucket ++ 0 :: (key ++ 0 :: v)) = some (bucket, key, v) :=
      parseThree_fields hb hk hbu hku hvu
    refine ⟨?_, ?_⟩
    · show touched (objectVersion bucket key v) = _
      simp [objectVersion, touched, parseObjectVersion, hparse]
    · show touched (tombstone bucket key v) = _
      simp [tombstone, touched, hparse, hv]

/-- A key whose name can be told apart: no NUL in the key part, no empty version. -/
def Name.plain (n : Name) : Bool := !n.key.contains 0 && n.version != some []

theorem touched_valid {k : Bytes} (h : touched k = some n) (hn : n.plain = true) : n.Valid := by
  simp only [Name.plain, Bool.and_eq_true, Bool.not_eq_true', List.contains_eq_mem,
    decide_eq_false_iff_not, bne_iff_ne] at hn
  have hempty : validUtf8 [] = true := by decide
  unfold touched at h
  split at h
  · obtain ⟨⟨b, k⟩, hp, rfl⟩ := map_eq_some_iff.1 h
    obtain ⟨-, hb, hbu, hku⟩ := parseObjectMeta_eq_some hp
    exact ⟨hb, hn.1, hn.2, hbu, hku, hempty⟩
  · obtain ⟨⟨b, k, v⟩, hp, rfl⟩ := map_eq_some_iff.1 h
    obtain ⟨-, hb, hk, hbu, hku, hvu⟩ := parseObjectVersion_eq_some hp
    exact ⟨hb, hk, hn.2, hbu, hku, hvu⟩
  · obtain ⟨⟨b, k, v⟩, hp, rfl⟩ := map_eq_some_iff.1 h
    obtain ⟨-, hb, hk, hbu, hku, hvu⟩ := parseThree_eq_some hp
    refine ⟨hb, hk, hn.2, hbu, hku, ?_⟩
    dsimp only
    split
    · exact hempty
    · exact hvu
  · cases h

theorem sources_ne (n : Name) : (sources n).1 ≠ (sources n).2 := by
  unfold sources
  split <;> simp [objectMeta, objectVersion, tombstone]

theorem sources_not_pg (n : Name) : ¬ PG_PREFIX <+: (sources n).1 ∧ ¬ PG_PREFIX <+: (sources n).2 := by
  unfold sources PG_PREFIX
  split <;> simp [objectMeta, objectVersion, tombstone]

/-! ## A name's entry -/

/-- A name's entry from its sources, with or without a hint. -/
def Name.derive (env : PgEnv) (store : OrdMap Bytes Bytes) (n : Name) (hint : Option PgId) : Option Indexed :=
  (Osd.derive env n.bucket n.key (store.get (sources n).1) (store.get (sources n).2) hint).map
    (asVersion · n.version)

/-- An entry of the name: it says whose it is. -/
def Name.Is (n : Name) (e : PgEntry) : Prop :=
  e.bucket = n.bucket ∧ e.key = n.key ∧ e.versionId = n.version.getD []

theorem Name.Is.keyOf_eq {e : PgEntry} (h : n.Is e) (pg : PgId) : keyOf pg e = n.keyIn pg := by
  obtain ⟨hb, hk, hv⟩ := h
  simp [Name.keyIn, keyOf, hb, hk, hv]

theorem derive_cases (env : PgEnv) (bucket key : Bytes) (m t : Option Bytes) :
    (∀ hint, Osd.derive env bucket key m t hint = none) ∨
    (∃ ix, ∀ hint, Osd.derive env bucket key m t hint = some ix) ∨
    (∃ e, ∀ hint, Osd.derive env bucket key m t hint = hint.map (⟨·, e⟩)) := by
  unfold Osd.derive
  cases m with
  | some m =>
    cases ho : env.decodeObject m with
    | none => exact .inl fun hint => by simp [ho]
    | some o =>
      by_cases hp : o.pgPool = []
      · cases ht : t.bind tombstonePg with
        | some pg => exact .inr (.inl ⟨_, fun hint => by simp [ho, hp]; rfl⟩)
        | none =>
          refine .inr (.inr ⟨objectEntry env bucket key o, fun hint => ?_⟩)
          cases hint <;> simp [ho, hp]
      · exact .inr (.inl ⟨_, fun hint => by simp [ho, hp]; rfl⟩)
  | none =>
    cases t with
    | none => exact .inl fun hint => by simp
    | some t =>
      cases ht : tombstonePg t with
      | some pg => exact .inr (.inl ⟨_, fun hint => by simp [ht]; rfl⟩)
      | none =>
        refine .inr (.inr ⟨{ bucket, key, tombstone := true, stamp := tombstoneStamp t }, fun hint => ?_⟩)
        cases hint <;> simp [ht]

namespace Name

variable {env : PgEnv} {store : OrdMap Bytes Bytes} {n : Name} {ix : Indexed} {hint : Option PgId}

theorem asVersion_pg (ix : Indexed) (v : Option Bytes) : (asVersion ix v).pg = ix.pg := by
  cases v <;> rfl

theorem derive_cases (env : PgEnv) (store : OrdMap Bytes Bytes) (n : Name) :
    (∀ hint, n.derive env store hint = none) ∨ (∃ ix, ∀ hint, n.derive env store hint = some ix) ∨
    (∃ e, ∀ hint, n.derive env store hint = hint.map (⟨·, e⟩)) := by
  unfold derive
  rcases Osd.derive_cases env n.bucket n.key (store.get (sources n).1) (store.get (sources n).2) with
    h | ⟨ix, h⟩ | ⟨e, h⟩
  · exact .inl fun hint => by rw [h]; rfl
  · exact .inr (.inl ⟨asVersion ix n.version, fun hint => by rw [h]; rfl⟩)
  · refine .inr (.inr ⟨(asVersion ⟨⟨[], 0⟩, e⟩ n.version).entry, fun hint => ?_⟩)
    rw [h]
    cases hint <;> cases n.version <;> rfl

theorem derive_of_none (h : n.derive env store none = some ix) : n.derive env store hint = some ix := by
  rcases derive_cases env store n with h' | ⟨ix', h'⟩ | ⟨e, h'⟩
  · rw [h'] at h
    cases h
  · rw [h'] at h ⊢
    exact h
  · rw [h'] at h
    cases h

theorem derive_own (h : n.derive env store hint = some ix) : n.derive env store (some ix.pg) = some ix := by
  rcases derive_cases env store n with h' | ⟨ix', h'⟩ | ⟨e, h'⟩
  · rw [h'] at h
    cases h
  · rw [h'] at h ⊢
    exact h
  · rw [h'] at h ⊢
    obtain ⟨pg, -, rfl⟩ := map_eq_some_iff.1 h
    rfl

theorem derive_is (h : n.derive env store hint = some ix) : n.Is ix.entry := by
  unfold derive at h
  obtain ⟨ix', h', rfl⟩ := map_eq_some_iff.1 h
  have hnames : ix'.entry.bucket = n.bucket ∧ ix'.entry.key = n.key ∧ ix'.entry.versionId = [] := by
    unfold Osd.derive at h'
    dsimp only at h'
    split at h'
    · obtain ⟨o, -, hpg⟩ := bind_eq_some_iff.1 h'
      obtain ⟨pg, -, rfl⟩ := map_eq_some_iff.1 hpg
      exact ⟨rfl, rfl, rfl⟩
    · obtain ⟨t, -, hpg⟩ := bind_eq_some_iff.1 h'
      obtain ⟨pg, -, rfl⟩ := map_eq_some_iff.1 hpg
      exact ⟨rfl, rfl, rfl⟩
  unfold Name.Is asVersion
  cases n.version with
  | none => exact hnames
  | some v => exact ⟨hnames.1, hnames.2.1, rfl⟩

structure PlainSources (env : PgEnv) (store : OrdMap Bytes Bytes) (n : Name) : Prop where
  object : ∀ v o, store.get (sources n).1 = some v → env.decodeObject v = some o → 0 ∉ o.pgPool
  tombstone : ∀ v pg, store.get (sources n).2 = some v → tombstonePg v = some pg → 0 ∉ pg.pool

theorem tombstonePg_utf8 {v : Bytes} (h : tombstonePg v = some pg) : validUtf8 pg.pool = true := by
  unfold tombstonePg at h
  split at h
  · cases h
  · simp only [bind_eq_bind, bind_eq_some_iff] at h
    obtain ⟨pool, hp, h⟩ := h
    split at h
    · cases h
    · cases h
      obtain ⟨rfl, hv⟩ := fromUtf8_eq_some.1 hp
      exact hv

theorem derive_valid (henv : env.Lawful) (hs : PlainSources env store n)
    (hh : ∀ pg, hint = some pg → pg.Valid) (h : n.derive env store hint = some ix) : ix.pg.Valid := by
  have hfromT : ∀ pg, ((store.get (sources n).2).bind tombstonePg <|> hint) = some pg → pg.Valid := by
    intro pg hpg
    cases ht : (store.get (sources n).2).bind tombstonePg with
    | some pg' =>
      rw [ht] at hpg
      cases hpg
      obtain ⟨v, hv, hpg'⟩ := bind_eq_some_iff.1 ht
      exact ⟨hs.tombstone v _ hv hpg', tombstonePg_utf8 hpg'⟩
    | none =>
      rw [ht] at hpg
      exact hh pg hpg
  unfold derive at h
  obtain ⟨ix', h', rfl⟩ := map_eq_some_iff.1 h
  rw [asVersion_pg]
  unfold Osd.derive at h'
  dsimp only at h'
  split at h'
  · rename_i m hm
    obtain ⟨o, ho, h'⟩ := bind_eq_some_iff.1 h'
    obtain ⟨pg, hpg, rfl⟩ := map_eq_some_iff.1 h'
    split at hpg
    · exact hfromT pg hpg
    · cases hpg
      exact ⟨hs.object m o hm ho, henv.pool_utf8 m o ho⟩
  · obtain ⟨t, ht, h'⟩ := bind_eq_some_iff.1 h'
    obtain ⟨pg, hpg, rfl⟩ := map_eq_some_iff.1 h'
    exact hfromT pg hpg

theorem derive_congr {store' : OrdMap Bytes Bytes} (h₁ : store'.get (sources n).1 = store.get (sources n).1)
    (h₂ : store'.get (sources n).2 = store.get (sources n).2) (hint : Option PgId) :
    n.derive env store' hint = n.derive env store hint := by
  rw [derive, derive, h₁, h₂]

end Name

end IoLake.Osd
