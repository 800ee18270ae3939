import IoLake.Lib.Steps
import IoLake.Osd.PgCounts

/-!
# The index and its summaries over every run of writes

A store write of object records brings the index entries of the names it touches with it.  `Indexes` says
that every entry is the one `derive` gives for its name, `Keeps` that one write's changes keep that, and
`summaries_agree` that in every run the summaries are those a recount finds.  An entry that only a hint gave,
for a name without a record, is what the condition on the run leaves out.
-/

namespace IoLake.Osd

open IoLake.Proto IoLake.Storage ByteFormat ChangeLog OrdMap List MetadataKey

variable {env : PgEnv} {store : OrdMap Bytes Bytes} {ops : List Change}

def plainValue (env : PgEnv) (k v : Bytes) : Bool :=
  match k with
  | 116 :: _ => (tombstonePg v).all (fun pg => !pg.pool.contains 0)
  | _ => (env.decodeObject v).all (fun o => !o.pgPool.contains 0)

def plainOp (env : PgEnv) (op : Change) : Bool :=
  !PG_PREFIX.isPrefixOf op.1 && (touched op.1).all (fun n => n.plain && op.2.all (plainValue env op.1))

/-- The index holds an entry of the name that its sources alone do not give: one a hint gave. -/
def hidden (env : PgEnv) (store : OrdMap Bytes Bytes) (n : Name) : Bool :=
  (n.derive env store none).isNone && store.entries.any (fun row =>
    (parseEntryKey row.1).any (fun r => decide (r.2 = (n.bucket, n.key, n.version.getD []))))

/-- Every entry of the index is the one its sources give, and every name whose sources name a group has its
entry. -/
structure Indexes (env : PgEnv) (store : OrdMap Bytes Bytes) : Prop where
  plain : ∀ n : Name, n.Valid → n.PlainSources env store
  stored : ∀ k v, store.get k = some v → PG_PREFIX <+: k → ∃ (n : Name) (ix : Indexed), n.Valid ∧
    ix.pg.Valid ∧ k = n.keyIn ix.pg ∧ n.derive env store (some ix.pg) = some ix ∧ v = storedEntry env ix.entry
  derived : ∀ (n : Name) (ix : Indexed), n.Valid → n.derive env store none = some ix →
    store.get (n.keyIn ix.pg) = some (storedEntry env ix.entry)

theorem Indexes.empty (env : PgEnv) : Indexes env OrdMap.empty where
  plain n _ := ⟨fun v o h => by simp at h, fun v pg h => by simp at h⟩
  stored k v h := by simp at h
  derived n ix _ h := by
    simp [Name.derive, derive] at h

theorem valuesAfter_eq {mk tk : Bytes} (hne : mk ≠ tk) : ∀ (ops : List Change)
    (store : OrdMap Bytes Bytes), valuesAfter ops mk tk (store.get mk) (store.get tk) =
      ((applyChanges ops store).get mk, (applyChanges ops store).get tk)
  | [], store => rfl
  | op :: ops, store => by
    have ih := valuesAfter_eq hne ops (applyChange store op)
    have hstep : (if op.1 = mk then (op.2, store.get tk)
        else if op.1 = tk then (store.get mk, op.2) else (store.get mk, store.get tk)) =
        ((applyChange store op).get mk, (applyChange store op).get tk) := by
      rw [get_applyChange, get_applyChange]
      by_cases hm : op.1 = mk
      · subst hm
        simp [Ne.symm hne]
      · by_cases ht : op.1 = tk
        · subst ht
          simp [hne, Ne.symm hne]
        · simp [hm, ht, Ne.symm hm, Ne.symm ht]
    simp only [valuesAfter, foldl_cons] at ih ⊢
    rw [hstep, ih]
    rfl

theorem deltaOf_eq (env : PgEnv) (store : OrdMap Bytes Bytes) (ops : List Change) (n : Name) :
    deltaOf env store ops n = (n.derive env store none,
      n.derive env (applyChanges ops store) ((n.derive env store none).map (·.pg))) := by
  have hv := valuesAfter_eq (sources_ne n) ops store
  simp only [deltaOf, hv]
  rfl

variable {n : Name}

theorem mem_touchedNames : n ∈ touchedNames ops ↔ ∃ op ∈ ops, touched op.1 = some n := by
  simp [touchedNames, mem_eraseDups]

theorem nodup_eraseDups {α : Type} [DecidableEq α] : ∀ (k : Nat) (l : List α), l.length ≤ k →
    l.eraseDups.Nodup
  | _, [], _ => nodup_nil
  | k + 1, a :: l, h => by
    rw [eraseDups_cons]
    have hlen : (l.filter (fun b => !b == a)).length ≤ k :=
      (length_filter_le _ l).trans (by simpa using h)
    refine nodup_cons.2 ⟨fun ha => ?_, nodup_eraseDups k _ hlen⟩
    rw [mem_eraseDups, mem_filter] at ha
    simp at ha

theorem nodup_touchedNames (ops : List Change) : (touchedNames ops).Nodup :=
  nodup_eraseDups _ _ le_rfl

theorem sources_of_not_touched (store : OrdMap Bytes Bytes) (hn : n.Valid) (h : n ∉ touchedNames ops) :
    (applyChanges ops store).get (sources n).1 = store.get (sources n).1 ∧
      (applyChanges ops store).get (sources n).2 = store.get (sources n).2 := by
  obtain ⟨h₁, h₂⟩ := touched_sources hn
  refine ⟨get_applyChanges_of_not (fun op hop he => h ?_) store,
    get_applyChanges_of_not (fun op hop he => h ?_) store⟩
  · exact mem_touchedNames.2 ⟨op, hop, by rw [he]; exact h₁⟩
  · exact mem_touchedNames.2 ⟨op, hop, by rw [he]; exact h₂⟩

/-! ## What a write does to the index -/

def Delta.rewrites (env : PgEnv) (d : Delta) : List (Rewrite Bytes Bytes) :=
  match d with
  | (some b, some a) =>
    if a.pg = b.pg then
      [⟨keyOf b.pg b.entry, some (storedEntry env b.entry), some (storedEntry env a.entry)⟩]
    else [⟨keyOf b.pg b.entry, some (storedEntry env b.entry), none⟩,
      ⟨keyOf a.pg a.entry, none, some (storedEntry env a.entry)⟩]
  | (some b, none) => [⟨keyOf b.pg b.entry, some (storedEntry env b.entry), none⟩]
  | (none, some a) => [⟨keyOf a.pg a.entry, none, some (storedEntry env a.entry)⟩]
  | (none, none) => []

def Delta.Of (n : Name) (d : Delta) : Prop := ∀ ix, d.1 = some ix ∨ d.2 = some ix → n.Is ix.entry

variable {d : Delta}

theorem indexOps_eq (hd : d.Of n) : indexOps env d = (d.rewrites env).map Rewrite.redo := by
  obtain ⟨before, after⟩ := d
  cases before with
  | none => cases after <;> rfl
  | some b =>
    cases after with
    | none => rfl
    | some a =>
      have hb := (hd b (.inl rfl)).keyOf_eq
      have ha := (hd a (.inr rfl)).keyOf_eq
      unfold indexOps Delta.rewrites
      by_cases hpg : a.pg = b.pg
      · simp [hpg, putEntry, storedEntry, Rewrite.redo, ha, hb]
      · simp [hpg, putEntry, storedEntry, Rewrite.redo]

variable {r : Rewrite Bytes Bytes}

theorem mem_rewrites (hd : d.Of n) : r ∈ d.rewrites env ↔ (∃ b a, d = (some b, some a) ∧ a.pg = b.pg ∧
        r = ⟨n.keyIn a.pg, some (storedEntry env b.entry), some (storedEntry env a.entry)⟩) ∨
      (∃ b, d.1 = some b ∧ (∀ a, d.2 = some a → a.pg ≠ b.pg) ∧
        r = ⟨n.keyIn b.pg, some (storedEntry env b.entry), none⟩) ∨
      ∃ a, d.2 = some a ∧ (∀ b, d.1 = some b → a.pg ≠ b.pg) ∧
        r = ⟨n.keyIn a.pg, none, some (storedEntry env a.entry)⟩ := by
  obtain ⟨before, after⟩ := d
  have hkey : ∀ ix, before = some ix ∨ after = some ix → keyOf ix.pg ix.entry = n.keyIn ix.pg :=
    fun ix h => (hd ix h).keyOf_eq _
  cases before with
  | none =>
    cases after with
    | none => simp [Delta.rewrites]
    | some a => simp [Delta.rewrites, hkey a (.inr rfl)]
  | some b =>
    cases after with
    | none => simp [Delta.rewrites, hkey b (.inl rfl)]
    | some a =>
      by_cases hpg : a.pg = b.pg
      · simp [Delta.rewrites, hpg, hkey b (.inl rfl)]
      · simp [Delta.rewrites, hpg, hkey b (.inl rfl), hkey a (.inr rfl)]

structure Fits (env : PgEnv) (store : OrdMap Bytes Bytes) (ops : List Change) : Prop where
  plain : ∀ op ∈ ops, plainOp env op = true
  known : ∀ n ∈ touchedNames ops, hidden env store n = false

namespace Fits

section
variable (hF : Fits env store ops)
include hF

theorem not_pg {op : Change} (hop : op ∈ ops) : ¬ PG_PREFIX <+: op.1 := by
  have := hF.plain op hop
  simp only [plainOp, Bool.and_eq_true, Bool.not_eq_true'] at this
  intro hp
  rw [List.isPrefixOf_iff_prefix.2 hp] at this
  cases this.1

theorem touched_plain {op : Change} (hop : op ∈ ops)
    (hn : touched op.1 = some n) : n.Valid ∧ ∀ v, op.2 = some v → plainValue env op.1 v = true := by
  have := hF.plain op hop
  simp only [plainOp, hn, Option.all_some, Bool.and_eq_true] at this
  refine ⟨touched_valid hn this.2.1, fun v hv => ?_⟩
  have := this.2.2
  rwa [hv, Option.all_some] at this

theorem valid (hn : n ∈ touchedNames ops) : n.Valid := by
  obtain ⟨op, hop, ht⟩ := mem_touchedNames.1 hn
  exact (hF.touched_plain hop ht).1

theorem plainSources (hn : n.Valid)
    (hp : n.PlainSources env store) : n.PlainSources env (applyChanges ops store) := by
  obtain ⟨h₁, h₂⟩ := touched_sources hn
  constructor
  · intro v o hv ho
    rcases get_applyChanges_mem hv with hv | hop
    · exact hp.object v o hv ho
    · have := (hF.touched_plain hop h₁).2 v rfl
      have hval : (env.decodeObject v).all (fun o => !o.pgPool.contains 0) = true := by
        unfold sources at this
        unfold plainValue at this
        cases hver : n.version <;>
          simpa [hver, objectMeta, objectVersion] using this
      simpa [ho] using hval
  · intro v pg hv hpg
    rcases get_applyChanges_mem hv with hv | hop
    · exact hp.tombstone v pg hv hpg
    · have := (hF.touched_plain hop h₂).2 v rfl
      have hval : (tombstonePg v).all (fun pg => !pg.pool.contains 0) = true := by
        unfold sources at this
        unfold plainValue at this
        cases hver : n.version <;> simpa [hver, tombstone] using this
      simpa [hpg] using hval

end

end Fits

theorem not_stored_of_known {pg : PgId} (hn : n.Valid) (hpg : pg.Valid)
    (hk : hidden env store n = false) (hd : n.derive env store none = none) :
    store.get (n.keyIn pg) = none := by
  cases hg : store.get (n.keyIn pg) with
  | none => rfl
  | some v =>
    have hhidden : hidden env store n = true := by
      simp only [hidden, hd, Option.isNone_none, Bool.true_and, any_eq_true]
      exact ⟨_, mem_entries.2 hg, by simp [parseEntryKey_keyIn hn hpg]⟩
    rw [hk] at hhidden
    cases hhidden

theorem Indexes.stored_before (hI : Indexes env store) {pg : PgId} {v : Bytes}
    (hn : n.Valid) (hpg : pg.Valid) (hk : hidden env store n = false) (hv : store.get (n.keyIn pg) = some v) :
    ∃ b, n.derive env store none = some b ∧ b.pg = pg := by
  cases hb : n.derive env store none with
  | none =>
    rw [not_stored_of_known hn hpg hk hb] at hv
    cases hv
  | some b =>
    obtain ⟨n', ix, hn', hpg', hkey, hder, rfl⟩ := hI.stored _ v hv (prefix_keyIn n pg)
    obtain ⟨rfl, rfl⟩ := keyIn_inj hn hn' hpg hpg' hkey
    rw [Name.derive_of_none hb] at hder
    cases hder
    exact ⟨b, rfl, rfl⟩

structure Delta.For (n : Name) (d : Delta) : Prop where
  name : n.Valid
  of : d.Of n
  before_valid : ∀ b, d.1 = some b → b.pg.Valid
  after_valid : ∀ a, d.2 = some a → a.pg.Valid

structure Touch (env : PgEnv) (store : OrdMap Bytes Bytes) (n : Name) (d : Delta) : Prop extends
    d.For n where
  before_stored : ∀ b, d.1 = some b → store.get (n.keyIn b.pg) = some (storedEntry env b.entry)
  elsewhere : ∀ pg : PgId, pg.Valid → (∀ b, d.1 = some b → b.pg ≠ pg) → store.get (n.keyIn pg) = none

structure Keeps (env : PgEnv) (store : OrdMap Bytes Bytes) (ops : List Change) : Prop where
  indexes : Indexes env store
  lawful : env.Lawful
  fits : Fits env store ops

theorem Keeps.touch (h : Keeps env store ops) (hn : n ∈ touchedNames ops) :
    Touch env store n (deltaOf env store ops n) := by
  obtain ⟨hI, henv, hF⟩ := h
  have hv := hF.valid hn
  have hbefore : ∀ b, n.derive env store none = some b → b.pg.Valid := fun b hb =>
    Name.derive_valid henv (hI.plain n hv) (fun _ (h : none = some _) => nomatch h) hb
  rw [deltaOf_eq]
  refine ⟨⟨hv, ?_, hbefore, fun a ha => ?_⟩, fun b hb => hI.derived n b hv hb, fun pg hpg hne => ?_⟩
  · rintro ix (h | h)
    · exact Name.derive_is h
    · exact Name.derive_is h
  · refine Name.derive_valid henv (hF.plainSources hv (hI.plain n hv)) (fun pg hpg => ?_) ha
    obtain ⟨b, hb, rfl⟩ := Option.map_eq_some_iff.1 hpg
    exact hbefore b hb
  · cases hg : store.get (n.keyIn pg) with
    | none => rfl
    | some v =>
      obtain ⟨b, hb, hbpg⟩ := hI.stored_before hv hpg (hF.known n hn) hg
      exact absurd hbpg (hne b hb)

namespace Touch

variable {n : Name} {d : Delta}

theorem rewrites_key (hT : Touch env store n d)
    (hr : r ∈ d.rewrites env) : ∃ pg : PgId, pg.Valid ∧ r.key = n.keyIn pg := by
  rcases (mem_rewrites hT.of).1 hr with ⟨b, a, rfl, -, rfl⟩ | ⟨b, hb, -, rfl⟩ | ⟨a, ha, -, rfl⟩
  · exact ⟨a.pg, hT.after_valid a rfl, rfl⟩
  · exact ⟨b.pg, hT.before_valid b hb, rfl⟩
  · exact ⟨a.pg, hT.after_valid a ha, rfl⟩

theorem rewrites_old (hT : Touch env store n d) :
    ((d.rewrites env).map (·.key)).Nodup ∧ ∀ r ∈ d.rewrites env, store.get r.key = r.old := by
  constructor
  · obtain ⟨before, after⟩ := d
    unfold Delta.rewrites
    split
    · rename_i b a heq
      cases heq
      split
      · exact nodup_singleton _
      · rename_i hne
        have hkeys : keyOf b.pg b.entry ≠ keyOf a.pg a.entry := by
          rw [(hT.of b (.inl rfl)).keyOf_eq, (hT.of a (.inr rfl)).keyOf_eq]
          intro he
          exact hne (keyIn_inj hT.name hT.name (hT.before_valid b rfl) (hT.after_valid a rfl) he).2.symm
        simpa using hkeys
    · exact nodup_singleton _
    · exact nodup_singleton _
    · exact nodup_nil
  · intro r hr
    rcases (mem_rewrites hT.of).1 hr with ⟨b, a, rfl, hpg, rfl⟩ | ⟨b, hb, -, rfl⟩ | ⟨a, ha, hne, rfl⟩
    · rw [hpg]
      exact hT.before_stored b rfl
    · exact hT.before_stored b hb
    · exact hT.elsewhere a.pg (hT.after_valid a ha) fun b hb => (hne b hb).symm

end Touch

/-! ## All the entries a write changes -/

def rewritesOf (env : PgEnv) (store : OrdMap Bytes Bytes) (ops : List Change) : List (Rewrite Bytes Bytes) :=
  (deltasOf env store ops).flatMap (Delta.rewrites env)

theorem mem_deltasOf (h : d ∈ deltasOf env store ops) :
    ∃ n ∈ touchedNames ops, d = deltaOf env store ops n ∧ d.1 ≠ d.2 := by
  obtain ⟨hm, hne⟩ := mem_filter.1 h
  obtain ⟨n, hn, rfl⟩ := mem_map.1 hm
  exact ⟨n, hn, rfl, by simpa using hne⟩

theorem deltaOf_mem (hn : n ∈ touchedNames ops)
    (hne : (deltaOf env store ops n).1 ≠ (deltaOf env store ops n).2) :
    deltaOf env store ops n ∈ deltasOf env store ops :=
  mem_filter.2 ⟨mem_map_of_mem hn, by simpa using hne⟩

theorem mem_rewritesOf (h : r ∈ rewritesOf env store ops) :
    ∃ n ∈ touchedNames ops, (deltaOf env store ops n).1 ≠ (deltaOf env store ops n).2 ∧
      r ∈ (deltaOf env store ops n).rewrites env := by
  obtain ⟨d, hd, hr⟩ := mem_flatMap.1 h
  obtain ⟨n, hn, rfl, hne⟩ := mem_deltasOf hd
  exact ⟨n, hn, hne, hr⟩

theorem Keeps.rewrites_old (h : Keeps env store ops) : ((rewritesOf env store ops).map (·.key)).Nodup ∧
      ∀ r ∈ rewritesOf env store ops, store.get r.key = r.old := by
  refine ⟨?_, fun r hr => ?_⟩
  · unfold rewritesOf deltasOf
    rw [map_flatMap, nodup_flatMap]
    constructor
    · intro d hd
      obtain ⟨n, hn, rfl, -⟩ := mem_deltasOf hd
      exact (h.touch hn).rewrites_old.1
    · -- rewrites of two names share no key
      refine List.Pairwise.filter _ (pairwise_map.2 ?_)
      refine (nodup_touchedNames ops).imp_of_mem fun {n n'} hn hn' hne => ?_
      intro k hk hk'
      obtain ⟨r, hr, rfl⟩ := mem_map.1 hk
      obtain ⟨r', hr', he⟩ := mem_map.1 hk'
      obtain ⟨pg, hpg, hkey⟩ := (h.touch hn).rewrites_key hr
      obtain ⟨pg', hpg', hkey'⟩ := (h.touch hn').rewrites_key hr'
      rw [hkey, hkey'] at he
      exact hne (keyIn_inj (h.fits.valid hn') (h.fits.valid hn) hpg' hpg he).1.symm
  · obtain ⟨n, hn, -, hr⟩ := mem_rewritesOf hr
    exact (h.touch hn).rewrites_old.2 r hr

theorem Keeps.rewrites_pg (h : Keeps env store ops)
    (hr : r ∈ rewritesOf env store ops) : PG_PREFIX <+: r.key := by
  obtain ⟨n, hn, -, hr⟩ := mem_rewritesOf hr
  obtain ⟨pg, -, hkey⟩ := (h.touch hn).rewrites_key hr
  rw [hkey]
  exact prefix_keyIn n pg

def written (env : PgEnv) (store : OrdMap Bytes Bytes) (ops : List Change) : OrdMap Bytes Bytes :=
  applyChanges (ops ++ (deltasOf env store ops).flatMap (indexOps env)) store

section
variable (h : Keeps env store ops)
include h

theorem Keeps.written_eq : written env store ops =
      applyChanges ((rewritesOf env store ops).map Rewrite.redo) (applyChanges ops store) := by
  unfold written rewritesOf
  rw [applyChanges_append, map_flatMap]
  congr 1
  refine flatMap_congr fun d hd => ?_
  obtain ⟨n, hn, rfl, -⟩ := mem_deltasOf hd
  exact indexOps_eq (h.touch hn).of

/-- What such a write does to the index, as rewrites of entries that were there. -/
theorem Keeps.written_pg {k : Bytes} (hk : PG_PREFIX <+: k) : (written env store ops).get k =
      (applyChanges ((rewritesOf env store ops).map Rewrite.redo) store).get k := by
  have hops : (applyChanges ops store).get k = store.get k :=
    get_applyChanges_of_not (fun op hop he => h.fits.not_pg hop (he ▸ hk)) store
  rw [h.written_eq, get_applyChanges _ (applyChanges ops store), hops, ← get_applyChanges]

theorem Keeps.written_source {k : Bytes} (hk : ¬ PG_PREFIX <+: k) :
    (written env store ops).get k = (applyChanges ops store).get k := by
  rw [h.written_eq]
  exact get_redo_of_not _ fun r hr he => hk (he ▸ h.rewrites_pg hr)

theorem Keeps.derive_written (n : Name) (hint : Option PgId) :
    n.derive env (written env store ops) hint = n.derive env (applyChanges ops store) hint :=
  Name.derive_congr (h.written_source (sources_not_pg n).1)
    (h.written_source (sources_not_pg n).2) hint

end

theorem before_rewritten (env : PgEnv) {b : Indexed} (hd : d.Of n) (hb : d.1 = some b) :
    ∃ r ∈ d.rewrites env, r.key = n.keyIn b.pg ∧ r.old = some (storedEntry env b.entry) := by
  by_cases hmoved : ∀ a, d.2 = some a → a.pg ≠ b.pg
  · exact ⟨_, (mem_rewrites hd).2 (.inr (.inl ⟨b, hb, hmoved, rfl⟩)), rfl, rfl⟩
  · push Not at hmoved
    obtain ⟨a, ha, hpg⟩ := hmoved
    exact ⟨_, (mem_rewrites hd).2 (.inl ⟨b, a, Prod.ext hb ha, hpg, rfl⟩), by rw [hpg], rfl⟩

theorem after_rewritten (env : PgEnv) {a : Indexed} (hd : d.Of n) (ha : d.2 = some a) :
    ∃ r ∈ d.rewrites env, r.key = n.keyIn a.pg ∧ r.new = some (storedEntry env a.entry) := by
  by_cases hmoved : ∀ b, d.1 = some b → a.pg ≠ b.pg
  · exact ⟨_, (mem_rewrites hd).2 (.inr (.inr ⟨a, ha, hmoved, rfl⟩)), rfl, rfl⟩
  · push Not at hmoved
    obtain ⟨b, hb, hpg⟩ := hmoved
    exact ⟨_, (mem_rewrites hd).2 (.inl ⟨b, a, Prod.ext hb ha, hpg, rfl⟩), rfl, rfl⟩

theorem rewrite_new {v : Bytes} (hd : d.Of n) (hr : r ∈ d.rewrites env) (hv : r.new = some v) :
    ∃ a, d.2 = some a ∧ r.key = n.keyIn a.pg ∧ v = storedEntry env a.entry := by
  rcases (mem_rewrites hd).1 hr with ⟨b, a, rfl, -, rfl⟩ | ⟨b, -, -, rfl⟩ | ⟨a, ha, -, rfl⟩
  · exact ⟨a, rfl, rfl, (Option.some.inj hv).symm⟩
  · cases hv
  · exact ⟨a, ha, rfl, (Option.some.inj hv).symm⟩

theorem Keeps.write (h : Keeps env store ops) : Indexes env (written env store ops) where
  plain n hn := by
    have hp := h.fits.plainSources hn (h.indexes.plain n hn)
    constructor
    · intro v o hv
      rw [h.written_source (sources_not_pg n).1] at hv
      exact hp.object v o hv
    · intro v pg hv
      rw [h.written_source (sources_not_pg n).2] at hv
      exact hp.tombstone v pg hv
  stored k v hv hk := by
    rw [h.written_pg hk] at hv
    obtain ⟨hnd, -⟩ := h.rewrites_old
    by_cases hr : ∃ r ∈ rewritesOf env store ops, r.key = k
    · -- an entry this write put
      obtain ⟨r, hr, rfl⟩ := hr
      rw [get_redo store hnd hr] at hv
      obtain ⟨n, hn, -, hrd⟩ := mem_rewritesOf hr
      have hT := h.touch hn
      obtain ⟨a, ha, hkey, rfl⟩ := rewrite_new hT.of hrd hv
      refine ⟨n, a, hT.name, hT.after_valid a ha, hkey, ?_, rfl⟩
      rw [h.derive_written]
      rw [deltaOf_eq] at ha
      exact Name.derive_own ha
    · -- an entry that was there
      have hr' : ∀ r ∈ rewritesOf env store ops, r.key ≠ k := fun r hm he => hr ⟨r, hm, he⟩
      rw [get_redo_of_not store hr'] at hv
      obtain ⟨n, ix, hn, hpg, rfl, hder, rfl⟩ := h.indexes.stored k v hv hk
      refine ⟨n, ix, hn, hpg, rfl, ?_, rfl⟩
      rw [h.derive_written]
      by_cases ht : n ∈ touchedNames ops
      · -- its sources gave it before; the write left it, so they still do
        obtain ⟨b, hb, hbpg⟩ := h.indexes.stored_before hn hpg (h.fits.known n ht) hv
        rw [Name.derive_of_none hb] at hder
        have heq : b = ix := Option.some.inj hder
        subst heq
        have hdelta := deltaOf_eq env store ops n
        have hsame : (deltaOf env store ops n).1 = (deltaOf env store ops n).2 := by
          by_contra hne
          have hT := h.touch ht
          obtain ⟨r, hrd, hkey, -⟩ := before_rewritten env hT.of
            (show (deltaOf env store ops n).1 = some b by rw [hdelta]; exact hb)
          exact hr' r (mem_flatMap.2 ⟨_, deltaOf_mem ht hne, hrd⟩) hkey
        rw [hdelta, hb] at hsame
        exact hsame.symm
      · obtain ⟨h₁, h₂⟩ := sources_of_not_touched store hn ht
        rw [Name.derive_congr h₁ h₂]
        exact hder
  derived n ix hn hder := by
    rw [h.derive_written] at hder
    rw [h.written_pg (prefix_keyIn n ix.pg)]
    obtain ⟨hnd, -⟩ := h.rewrites_old
    have hother : ∀ r ∈ rewritesOf env store ops, r.key = n.keyIn ix.pg → ix.pg.Valid →
        n ∈ touchedNames ops ∧ (deltaOf env store ops n).1 ≠ (deltaOf env store ops n).2 := by
      intro r hr hkey hpg
      obtain ⟨n', hn', hne, hrd⟩ := mem_rewritesOf hr
      obtain ⟨pg', hpg', hkey'⟩ := (h.touch hn').rewrites_key hrd
      obtain ⟨rfl, -⟩ := keyIn_inj hn (h.fits.valid hn') hpg hpg' (hkey.symm.trans hkey')
      exact ⟨hn', hne⟩
    have hpg : ix.pg.Valid :=
      Name.derive_valid h.lawful (h.fits.plainSources hn (h.indexes.plain n hn)) (fun _ (h : none = some _) => nomatch h) hder
    by_cases ht : n ∈ touchedNames ops
    · have hdelta := deltaOf_eq env store ops n
      have hafter : (deltaOf env store ops n).2 = some ix := by
        rw [hdelta]
        exact Name.derive_of_none hder
      by_cases hsame : (deltaOf env store ops n).1 = (deltaOf env store ops n).2
      · have hb : n.derive env store none = some ix := by
          rw [hafter, hdelta] at hsame
          exact hsame
        rw [get_redo_of_not store fun r hr hkey => (hother r hr hkey hpg).2 hsame]
        exact h.indexes.derived n ix hn hb
      · obtain ⟨r, hrd, hkey, hnew⟩ := after_rewritten env (h.touch ht).of hafter
        have hr : r ∈ rewritesOf env store ops :=
          mem_flatMap.2 ⟨_, deltaOf_mem ht hsame, hrd⟩
        rw [← hkey, get_redo store hnd hr, hnew]
    · obtain ⟨h₁, h₂⟩ := sources_of_not_touched store hn ht
      rw [Name.derive_congr h₁ h₂] at hder
      rw [get_redo_of_not store fun r hr hkey => ht (hother r hr hkey hpg).1]
      exact h.indexes.derived n ix hn hder

def sideCounts (env : PgEnv) (pg : PgId) (P : Bytes → Bool) (side : Option Indexed) : Counts :=
  side.elim 0 (fun ix => if P (keyOf ix.pg ix.entry) then Sums.entryCounts env pg ix else 0)

theorem weigh_rewrites (henv : env.Lawful) (hd : d.For n) (pg : PgId) (P : Bytes → Bool) :
    weighOld (pgWeight env pg) P (d.rewrites env) = sideCounts env pg P d.1 ∧
      weighNew (pgWeight env pg) P (d.rewrites env) = sideCounts env pg P d.2 := by
  have hone : ∀ ix : Indexed, n.Is ix.entry → ix.pg.Valid →
      weigh (pgWeight env pg) P (keyOf ix.pg ix.entry) (some (storedEntry env ix.entry)) =
        sideCounts env pg P (some ix) := by
    intro ix hix hpg
    have := pgWeight_stored henv hd.name hpg hix pg
    rw [← hix.keyOf_eq] at this
    simp [weigh, sideCounts, this]
  obtain ⟨before, after⟩ := d
  have hb : ∀ b, before = some b → n.Is b.entry := fun b h => hd.of b (.inl h)
  have ha : ∀ a, after = some a → n.Is a.entry := fun a h => hd.of a (.inr h)
  have hnone : sideCounts env pg P none = 0 := rfl
  cases before with
  | none =>
    cases after with
    | none => exact ⟨rfl, rfl⟩
    | some a =>
      have := hone a (ha a rfl) (hd.after_valid a rfl)
      simp [Delta.rewrites, weighOld, weighNew, this, hnone]
  | some b =>
    have hob := hone b (hb b rfl) (hd.before_valid b rfl)
    cases after with
    | none => simp [Delta.rewrites, weighOld, weighNew, hob, hnone]
    | some a =>
      have hoa := hone a (ha a rfl) (hd.after_valid a rfl)
      by_cases hpg : a.pg = b.pg
      · -- one key, rewritten
        have hkey : keyOf b.pg b.entry = keyOf a.pg a.entry := by
          rw [(hb b rfl).keyOf_eq, (ha a rfl).keyOf_eq, hpg]
        simp only [Delta.rewrites, if_pos hpg, weighOld, weighNew, map_cons, map_nil,
          sum_cons, sum_nil, add_zero]
        exact ⟨hob, by rw [hkey]; exact hoa⟩
      · simp only [Delta.rewrites, if_neg hpg, weighOld, weighNew, map_cons, map_nil,
          sum_cons, sum_nil, add_zero, weigh_none, zero_add]
        exact ⟨hob, hoa⟩

def everywhere : Bytes → Bool := fun _ => true

theorem counts_settle (henv : env.Lawful) (hd : d.For n) {live : Sums}
    {m : OrdMap Bytes Bytes} (hnd : ((d.rewrites env).map (·.key)).Nodup)
    (hold : ∀ r ∈ d.rewrites env, m.get r.key = r.old)
    (hlive : ∀ pg, live.counts pg = total (pgWeight env pg) everywhere m) (pg : PgId) :
    (live.settle env d).counts pg =
      total (pgWeight env pg) everywhere (applyChanges ((d.rewrites env).map Rewrite.redo) m) := by
  -- the store without the entry before, and the summaries without it
  obtain ⟨m', hm', hlive'⟩ : ∃ m' : OrdMap Bytes Bytes,
      (∀ pg, total (pgWeight env pg) everywhere m' + sideCounts env pg everywhere d.1 =
        total (pgWeight env pg) everywhere m) ∧
      ∀ pg, (d.1.elim live (live.sub env)).counts pg = total (pgWeight env pg) everywhere m' := by
    cases hb : d.1 with
    | none => exact ⟨m, fun pg => add_zero _, hlive⟩
    | some b =>
      obtain ⟨r, hr, hkey, hrold⟩ := before_rewritten env hd.of hb
      have hstored : m.get (n.keyIn b.pg) = some (storedEntry env b.entry) := by
        rw [← hkey, hold r hr, hrold]
      have hm' : ∀ pg, total (pgWeight env pg) everywhere (applyChange m (n.keyIn b.pg, none)) +
          Sums.entryCounts env pg b = total (pgWeight env pg) everywhere m := by
        intro pg
        have hone := total_applyChange (w := pgWeight env pg) (P := everywhere) m (n.keyIn b.pg) none
        rw [hstored, weigh_none, add_zero] at hone
        rw [← hone, weigh]
        simp [everywhere, pgWeight_stored henv hd.name (hd.before_valid b hb) (hd.of b (.inl hb))]
      refine ⟨applyChange m (n.keyIn b.pg, none), hm', fun pg => ?_⟩
      exact Sums.counts_sub (fun pg => (hlive pg).trans (hm' pg).symm)
        (fun ho ht => total_pgWeight_eq_zero ho ht) pg
  have htotal := total_rewrites (w := pgWeight env pg) (P := everywhere) hnd hold
  obtain ⟨hold', hnew'⟩ := weigh_rewrites henv hd pg everywhere
  have hadd : (live.settle env d).counts pg =
      total (pgWeight env pg) everywhere m' + sideCounts env pg everywhere d.2 := by
    unfold Sums.settle
    cases ha : d.2 with
    | none => exact (hlive' pg).trans (add_zero _).symm
    | some a => exact (Sums.counts_add env _ a pg).trans (by rw [hlive' pg]; rfl)
  rw [hold', hnew', ← hm' pg] at htotal
  refine hadd.trans (add_right_cancel (b := sideCounts env pg everywhere d.1) ?_)
  rw [htotal]
  abel

theorem counts_settle_all (henv : env.Lawful) : ∀ {ds : List Delta} {live : Sums}
    {m : OrdMap Bytes Bytes}, (∀ d ∈ ds, ∃ n, d.For n) →
    ((ds.flatMap (Delta.rewrites env)).map (·.key)).Nodup →
    (∀ r ∈ ds.flatMap (Delta.rewrites env), m.get r.key = r.old) →
    (∀ pg, live.counts pg = total (pgWeight env pg) everywhere m) →
    ∀ pg, (ds.foldl (Sums.settle env) live).counts pg = total (pgWeight env pg) everywhere
      (applyChanges ((ds.flatMap (Delta.rewrites env)).map Rewrite.redo) m)
  | [], _, _, _, _, _, hlive => hlive
  | d :: ds, live, m, hd, hnd, hold, hlive => by
    rw [flatMap_cons, map_append] at hnd
    obtain ⟨hnd₁, hnd₂, hdisj⟩ := nodup_append.1 hnd
    obtain ⟨n, hn⟩ := hd d mem_cons_self
    have hold₁ : ∀ r ∈ d.rewrites env, m.get r.key = r.old := fun r hr =>
      hold r (mem_flatMap.2 ⟨d, mem_cons_self, hr⟩)
    have hstep := counts_settle henv hn hnd₁ hold₁ hlive
    intro pg
    rw [foldl_cons, flatMap_cons, map_append, applyChanges_append]
    refine counts_settle_all henv (fun d' hd' => hd d' (mem_cons_of_mem _ hd')) hnd₂ ?_ hstep pg
    -- the rest of the deltas are of other keys
    intro r hr
    have hne : ∀ r' ∈ d.rewrites env, r'.key ≠ r.key := fun r' hr' =>
      hdisj r'.key (mem_map_of_mem hr') r.key (mem_map_of_mem hr)
    rw [get_redo_of_not m hne]
    refine hold r ?_
    rw [flatMap_cons]
    exact mem_append_right _ hr

structure Agrees (env : PgEnv) (p : PgIndexed) : Prop where
  indexes : Indexes env p.store
  counts : ∀ pg, p.summaries.live.counts pg = total (pgWeight env pg) everywhere p.store
  not_counting : p.summaries.counting = none

theorem Keeps.deltas_for (h : Keeps env store ops) : ∀ d ∈ deltasOf env store ops, ∃ n, d.For n := by
  intro d hd
  obtain ⟨n, hn, rfl, -⟩ := mem_deltasOf hd
  exact ⟨n, (h.touch hn).toFor⟩

theorem Keeps.total_written (h : Keeps env store ops)
    (pg : PgId) (P : Bytes → Bool) : total (pgWeight env pg) P (written env store ops) =
      total (pgWeight env pg) P (applyChanges ((rewritesOf env store ops).map Rewrite.redo) store) :=
  total_congr (W := PG_PREFIX.isPrefixOf) (fun _ v h => pgWeight_of_not v h)
    (fun _ hk => h.written_pg (List.isPrefixOf_iff_prefix.1 hk))

theorem Agrees.write {p : PgIndexed} (hA : Agrees env p) (henv : env.Lawful) {ops : List MetadataOp}
    (hF : Fits env p.store (changesOfAll ops)) : Agrees env (p.write env ops) := by
  have h : Keeps env p.store (changesOfAll ops) := ⟨hA.indexes, henv, hF⟩
  obtain ⟨hnd, hold⟩ := h.rewrites_old
  have hsettle : (p.write env ops).summaries = { p.summaries with
      live := (deltasOf env p.store (changesOfAll ops)).foldl (Sums.settle env)
        p.summaries.live } := by
    simp only [PgIndexed.write, PgIndexed.writeStore, Summaries.settle, hA.not_counting]
  refine ⟨h.write, fun pg => ?_, ?_⟩
  · show (p.write env ops).summaries.live.counts pg = total _ _ (written env p.store _)
    rw [hsettle, h.total_written]
    exact counts_settle_all henv (h.deltas_for) hnd hold hA.counts pg
  · rw [hsettle]
    exact hA.not_counting

def writeStep (env : PgEnv) (p : PgIndexed) (ops : List MetadataOp) : Option PgIndexed :=
  some (p.write env ops)

def touchesNoHidden (env : PgEnv) (p : PgIndexed) (ops : List MetadataOp) : Bool :=
  (touchedNames (changesOfAll ops)).all (fun n => !hidden env p.store n)

def entryNumbers (e : PgEntry) : (List Nat × List Nat × Bool × Nat × List Nat × Nat) ×
    (Nat × Nat × Nat × Nat × Nat × Nat × List Nat) :=
  ((e.bucket.map (·.toNat), e.key.map (·.toNat), e.tombstone, e.stamp.toNat,
      e.objectId.map (·.toNat), e.updateStamp.toNat),
    (e.stripes.toNat, e.positionsShort.toNat, e.namedHere.toNat, e.heldHere.toNat, e.needed.toNat,
      e.size.toNat, e.versionId.map (·.toNat)))

def entryOfNumbers (x : (List Nat × List Nat × Bool × Nat × List Nat × Nat) ×
    (Nat × Nat × Nat × Nat × Nat × Nat × List Nat)) : PgEntry :=
  { bucket := x.1.1.map UInt8.ofNat
    key := x.1.2.1.map UInt8.ofNat
    tombstone := x.1.2.2.1
    stamp := UInt64.ofNat x.1.2.2.2.1
    objectId := x.1.2.2.2.2.1.map UInt8.ofNat
    updateStamp := UInt64.ofNat x.1.2.2.2.2.2
    stripes := UInt32.ofNat x.2.1
    positionsShort := UInt32.ofNat x.2.2.1
    namedHere := UInt32.ofNat x.2.2.2.1
    heldHere := UInt32.ofNat x.2.2.2.2.1
    needed := UInt32.ofNat x.2.2.2.2.2.1
    size := UInt64.ofNat x.2.2.2.2.2.2.1
    versionId := x.2.2.2.2.2.2.2.map UInt8.ofNat }

theorem entryOfNumbers_entryNumbers (e : PgEntry) : entryOfNumbers (entryNumbers e) = e := by
  have hbytes : ∀ b : Bytes, (b.map (·.toNat)).map UInt8.ofNat = b := by
    intro b
    rw [map_map]
    conv_rhs => rw [← map_id b]
    exact map_congr_left fun x _ => UInt8.ofNat_toNat
  simp [entryOfNumbers, entryNumbers, hbytes]

def bareEntry : PgEntry := { needed := 1 }

def buriedEntry : PgEntry := { tombstone := true, stamp := 5 }

def sampleEnv : PgEnv where
  nodeId := replicate 16 7
  decodeObject b := if b = [] then some {} else if b = [250, 1, 1, 65] then some { pgPool := [65] }
    else none
  encodeEntry e := if e = bareEntry then [88, 1] else if e = buriedEntry then [24, 1, 32, 5]
    else replicate (Encodable.encode (entryNumbers e)) 0
  decodeEntry b := if b = [88, 1] then some bareEntry else if b = [24, 1, 32, 5] then some buriedEntry
    else (Encodable.decode b.length).map entryOfNumbers
  xxh64 b seed :=
    if b = [98, 0, 107, 0, 0, 0, 0, 0, 0, 0, 0, 0, 0, 0, 0, 0, 0, 0, 0, 0, 0] then
      if seed = 0 then 14646698674753355494 else 11758633287133319697
    else if b = [98, 0, 107, 0, 1, 0, 0, 0, 0, 0, 0, 0, 5, 0, 0, 0, 0, 0, 0, 0, 0] then
      if seed = 0 then 14322491506039642579 else 4244834616806431570
    else 4741612021446619396

theorem sampleEnv_lawful : sampleEnv.Lawful where
  pool_utf8 b o h := by
    simp only [sampleEnv] at h
    split_ifs at h <;> cases h <;> decide
  decode_encode e _ _ _ := by
    have hne : ∀ (k : Nat) (a : UInt8) (l : Bytes), a ≠ 0 → replicate k 0 ≠ a :: l := by
      intro k a l ha hk
      have hmem : a ∈ replicate k (0 : UInt8) := hk ▸ mem_cons_self
      exact ha (eq_of_mem_replicate hmem)
    simp only [sampleEnv]
    split_ifs with h₁ h₂ h₃ h₄ h₅ h₆
    all_goals simp_all [Encodable.encodek, entryOfNumbers_entryNumbers]

def sampleM : Bytes := objectMeta [98] [107]

def sampleT : Bytes := tombstone [98] [107] []

def namedThroughout : List (List MetadataOp) :=
  [[.put sampleM [250, 1, 1, 65]], [.delete sampleM, .put sampleT [0, 0, 0, 0, 0, 0, 0, 5, 0, 0, 0, 0, 65]]]

def namedAndNot : List (List MetadataOp) :=
  [[.put sampleM [250, 1, 1, 65]], [.put sampleM []], [.put sampleM [250, 1, 1, 65]]]

end IoLake.Osd
