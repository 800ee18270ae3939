import IoLake.Storage.DiskIndex

/-!
# The index reads as an ordered map

A scan merges the file's rows with windows of the memtables (`items_eq`: nothing missed, nothing twice), so
that after any operations every read is that of one ordered map (`diskIndex_refines_map`).  A read of the file
that fails ends a scan as the last row does; `failed_read_harmless_iff` says when `f` sees no difference.
-/

namespace IoLake.Storage

open ChangeLog OverlayScan List OrdMap

def underAfter (pfx : Bytes) (after : Option Bytes) (k : Bytes) : Bool :=
  pfx.isPrefixOf k && atStart pfx after k

def StartOk (pfx : Bytes) (after : Option Bytes) : Prop := ∀ a, after = some a → pfx ≤ a

variable {pfx : Bytes} {after : Option Bytes} {V σ : Type} {o : Overlay}

theorem le_of_atStart (hs : StartOk pfx after) {k : Bytes} (h : atStart pfx after k = true) : pfx ≤ k := by
  unfold atStart at h
  split at h
  · exact of_decide_eq_true h
  · exact (hs _ rfl).trans (of_decide_eq_true h).le

/-- A range walked while its keys start with the prefix is every key under it. -/
theorem prefixRange_eq (m : OrdMap Bytes V) {pfx : Bytes} {after : Option Bytes} (hs : StartOk pfx after) :
    prefixRange m pfx after = (m.filterKeys (underAfter pfx after)).entries := by
  unfold prefixRange
  rw [ByteOrder.takeWhile_eq_filter (m.sorted.filter _)]
  · simp [filterKeys, filter_filter, underAfter]
  · intro a ha b _ hab hb
    have hstart := (mem_filter.1 ha).2
    rw [List.isPrefixOf_iff_prefix] at hb ⊢
    exact ByteOrder.isPrefix_of_between (le_of_atStart hs hstart) hab.le hb

/-! ## A window of the memtables -/

def stack (tables : List Memtable) : OrdMap Bytes (Option Bytes) :=
  tables.foldl (fun m t => m.extend t.map.entries) empty

theorem extend_filterKeys (a b : OrdMap Bytes (Option Bytes)) (p : Bytes → Bool) :
    (a.filterKeys p).extend (b.filterKeys p).entries = (a.extend b.entries).filterKeys p := by
  apply OrdMap.ext_get
  intro k
  rw [get_extend_entries, get_filterKeys, get_filterKeys, get_filterKeys, get_extend_entries]
  cases p k <;> simp

/-- Through the cut it agrees with the whole of the tables, and the cut is a key of theirs. -/
structure Gathered (full : OrdMap Bytes (Option Bytes))
    (acc : OrdMap Bytes (Option Bytes) × Option Bytes) : Prop where
  agree : ∀ k, (∀ u, acc.2 = some u → k ≤ u) → acc.1.get k = full.get k
  bound : ∀ u, acc.2 = some u → full.contains u = true

theorem take_eq_of_all {rows : List V} {n : Nat}
    (h : (decide ((rows.take n).length < n) || (rows.drop n).isEmpty) = true) : rows.take n = rows := by
  simp only [Bool.or_eq_true, decide_eq_true_eq, List.isEmpty_iff, List.drop_eq_nil_iff, length_take] at h
  exact List.take_of_length_le (by omega)

theorem last_of_not_all {rows : List V} {n : Nat} (hn : 0 < n)
    (h : (decide ((rows.take n).length < n) || (rows.drop n).isEmpty) = false) :
    ∃ last, (rows.take n).getLast? = some last := by
  simp only [Bool.or_eq_false_iff, decide_eq_false_iff_not, not_lt] at h
  cases hl : (rows.take n).getLast? with
  | some last => exact ⟨last, rfl⟩
  | none =>
    rw [getLast?_eq_none_iff] at hl
    have := h.1
    rw [hl, length_nil] at this
    omega

theorem cutAt_of_all (entries : List Change) (upto : Option Bytes) : cutAt entries true upto = upto := by
  unfold cutAt
  split
  · simp
  · rfl

theorem cutAt_cases {entries : List Change} {last : Bytes} {v : Option Bytes}
    (upto : Option Bytes) (h : entries.getLast? = some (last, v)) :
    (cutAt entries false upto = some last ∧ ∀ u, upto = some u → last ≤ u) ∨
      ∃ u, upto = some u ∧ cutAt entries false upto = some u ∧ u ≤ last := by
  unfold cutAt
  rw [h]
  cases upto with
  | none => exact .inl ⟨rfl, by simp⟩
  | some u =>
    by_cases hlt : last < u
    · exact .inl ⟨by simp [hlt], fun u' hu' => Option.some.inj hu' ▸ hlt.le⟩
    · exact .inr ⟨u, rfl, by simp [hlt], not_lt.1 hlt⟩

theorem Gathered.fillTable (hs : StartOk pfx after)
    {full : OrdMap Bytes (Option Bytes)} {acc : OrdMap Bytes (Option Bytes) × Option Bytes}
    (h : Gathered full acc) (t : Memtable) :
    Gathered (full.extend (t.map.filterKeys (underAfter pfx after)).entries) (fillTable pfx after acc t) := by
  set rng := t.map.filterKeys (underAfter pfx after) with hrng
  have hget : ∀ k, (full.extend rng.entries).get k = (rng.get k).or (full.get k) :=
    get_extend_entries full rng
  have hgrow : ∀ u, full.contains u = true → (full.extend rng.entries).contains u = true := by
    intro u hu
    unfold OrdMap.contains at hu ⊢
    rw [hget]
    cases rng.get u <;> simp_all
  simp only [Storage.fillTable, Memtable.range, prefixRange_eq t.map hs]
  rw [← hrng]
  cases hall : decide ((rng.entries.take WINDOW).length < WINDOW) || (rng.entries.drop WINDOW).isEmpty with
  | true =>
    -- every entry of this table is in the window: the cut stays where it was
    rw [take_eq_of_all hall, cutAt_of_all]
    refine ⟨fun k hk => ?_, fun u hu => hgrow u (h.bound u hu)⟩
    rw [get_extend_entries, hget, h.agree k hk]
  | false =>
    obtain ⟨⟨last, v⟩, hlast⟩ := last_of_not_all (by decide) hall
    have hmem : (last, v) ∈ rng.entries.take WINDOW := mem_of_getLast? hlast
    have hagree : ∀ k, k ≤ last → (∀ u, acc.2 = some u → k ≤ u) →
        (acc.1.extend (rng.entries.take WINDOW)).get k = (full.extend rng.entries).get k := by
      intro k hk hu
      have hsort : (rng.entries.take WINDOW).Pairwise (fun a b => a.1 < b.1) :=
        rng.sorted.sublist (take_sublist _ _)
      rw [get_extend k _ _ hsort, find_take_of_le WINDOW rng.sorted hmem hk, hget, h.agree k hu]
      rfl
    rcases cutAt_cases acc.2 hlast with ⟨hcut, hbefore⟩ | ⟨u, hu, hcut, hle⟩
    · rw [hcut]
      refine ⟨fun k hk => ?_, fun u hu => ?_⟩
      · have hkl : k ≤ last := hk last rfl
        exact hagree k hkl fun u hu => hkl.trans (hbefore u hu)
      · obtain rfl := Option.some.inj hu
        unfold OrdMap.contains
        rw [hget, mem_entries.1 (mem_of_mem_take hmem)]
        rfl
    · rw [hcut]
      refine ⟨fun k hk => ?_, fun u' hu' => ?_⟩
      · have hku : k ≤ u := hk u rfl
        exact hagree k (hku.trans hle) fun u' hu' => Option.some.inj (hu.symm.trans hu') ▸ hku
      · exact hgrow u' (h.bound u' (hu.trans hu'))

theorem Gathered.foldl (hs : StartOk pfx after) :
    ∀ (tables : List Memtable) (base : OrdMap Bytes (Option Bytes))
      (acc : OrdMap Bytes (Option Bytes) × Option Bytes),
      Gathered (base.filterKeys (underAfter pfx after)) acc → Gathered
          ((tables.foldl (fun m t => m.extend t.map.entries) base).filterKeys (underAfter pfx after))
          (tables.foldl (Storage.fillTable pfx after) acc)
  | [], _, _, h => h
  | t :: tables, base, acc, h => by
    refine Gathered.foldl hs tables (base.extend t.map.entries) _ ?_
    rw [← extend_filterKeys]
    exact h.fillTable hs t

theorem keepThrough_eq (merged : OrdMap Bytes (Option Bytes)) (u : Bytes) :
    keepThrough merged u = merged.upTo u := by
  apply OrdMap.ext_get
  intro k
  unfold keepThrough
  simp only [get_filterKeys, get_upTo, le_refl, decide_true, if_true]
  rcases lt_trichotomy k u with hlt | rfl | hgt
  · split
    · simp [get_insert, get_filterKeys, hlt, hlt.le, hlt.ne]
    · simp [get_filterKeys, hlt, hlt.le]
  · split
    · rename_i hv
      simp [hv]
    · rename_i hv
      simp [get_filterKeys, hv]
  · split
    · simp [get_insert, get_filterKeys, hgt.not_gt, hgt.not_ge, hgt.ne']
    · simp [get_filterKeys, hgt.not_gt, hgt.not_ge]

namespace Overlay

def rest (o : Overlay) : OrdMap Bytes (Option Bytes) :=
  (stack o.tables).filterKeys (underAfter o.pfx o.after)

theorem gathered_fill (hs : StartOk o.pfx o.after) :
    Gathered o.rest (o.tables.foldl (fillTable o.pfx o.after) (empty, none)) := by
  refine Gathered.foldl hs o.tables empty _ ⟨fun k _ => ?_, by simp⟩
  rw [get_filterKeys]
  simp

theorem fill_done (hs : StartOk o.pfx o.after) (h : o.fill.done = true) : o.fill.window = o.rest.entries := by
  have hg := gathered_fill hs
  unfold fill at h ⊢
  simp only [Option.isNone_iff_eq_none] at h
  simp only [h]
  refine congrArg entries (ext_get fun k => hg.agree k ?_)
  simp [h]

theorem fill_cut (hs : StartOk o.pfx o.after) (h : o.fill.done = false) :
    ∃ u, o.rest.contains u = true ∧ StartOk o.fill.pfx o.fill.after ∧
      o.fill.window = (o.rest.upTo u).entries ∧ o.fill.rest = o.rest.past u := by
  have hg := gathered_fill hs
  obtain ⟨u, hu⟩ : ∃ u, (o.tables.foldl (fillTable o.pfx o.after) (empty, none)).2 = some u := by
    rw [← Option.isSome_iff_exists, ← Option.not_isNone]
    simpa [fill] using h
  have hc : o.rest.contains u = true := hg.bound u hu
  have hunder : underAfter o.pfx o.after u = true := by
    unfold rest OrdMap.contains at hc
    rw [get_filterKeys] at hc
    cases hb : underAfter o.pfx o.after u with
    | true => rfl
    | false => simp [hb] at hc
  have hstart : o.pfx ≤ u := le_of_atStart hs (Bool.and_eq_true_iff.1 hunder).2
  refine ⟨u, hc, ?_, ?_, ?_⟩
  · intro a ha
    simp only [fill, hu, Option.some.injEq] at ha
    exact ha ▸ hstart
  · simp only [fill, hu, keepThrough_eq]
    refine congrArg entries (ext_get fun k => ?_)
    rw [get_upTo, get_upTo]
    by_cases hk : k ≤ u
    · rw [hg.agree k (by simp [hu, hk])]
    · simp [hk]
  · simp only [rest, fill, hu]
    refine ext_get fun k => ?_
    rw [get_filterKeys, get_past, get_filterKeys]
    by_cases hk : u < k
    · have hold : atStart o.pfx o.after k = true := by
        have hu' := (Bool.and_eq_true_iff.1 hunder).2
        unfold atStart at hu' ⊢
        split at hu'
        · exact decide_eq_true (hstart.trans hk.le)
        · exact decide_eq_true ((of_decide_eq_true hu').trans hk)
      have hnew : atStart o.pfx (some u) k = true := decide_eq_true hk
      simp only [underAfter, hold, hnew, if_pos hk]
    · have hnew : atStart o.pfx (some u) k = false := decide_eq_false hk
      simp [underAfter, hnew, hk]

/-- **The windows miss nothing and repeat nothing**: read to its end, an overlay yields the memtables'
changes in the range, whatever their sizes against the window's. -/
theorem items_eq : ∀ (fuel : Nat) (o : Overlay), StartOk o.pfx o.after → o.done = false →
    o.rest.size ≤ fuel → o.items fuel = o.window ++ o.rest.entries
  | 0, o, _, _, hsize => by
    have hnil : o.rest.entries = [] := length_eq_zero_iff.1 (Nat.le_zero.1 hsize)
    simp [items, hnil]
  | fuel + 1, o, hs, hd, hsize => by
    simp only [items, hd, Bool.false_eq_true, if_false]
    congr 1
    cases hfd : o.fill.done with
    | true =>
      rw [← fill_done hs hfd]
      cases fuel <;> simp [items, hfd]
    | false =>
      obtain ⟨u, hc, hs', hw, hr⟩ := fill_cut hs hfd
      -- the cut is a key of the rest, so what is left is smaller
      have hlt : o.fill.rest.size ≤ fuel := by
        have := size_past_lt hc
        rw [hr]
        omega
      rw [items_eq fuel o.fill hs' hfd hlt, hw, hr, entries_split]

end Overlay

theorem size_foldl_extend_le : ∀ (tables : List Memtable) (m : OrdMap Bytes (Option Bytes)),
    (tables.foldl (fun m t => m.extend t.map.entries) m).size ≤
      m.size + (tables.map (fun t => t.map.size)).sum
  | [], m => by simp
  | t :: tables, m => by
    have h₁ := size_foldl_extend_le tables (m.extend t.map.entries)
    have h₂ := size_extend_le t.map.entries m
    simp only [foldl_cons, map_cons, sum_cons]
    unfold size at h₁ h₂ ⊢
    omega

theorem Overlay.items_new (tables : List Memtable) (hs : StartOk pfx after) :
    (Overlay.new tables pfx after).items (Overlay.new tables pfx after).fuel =
      ((stack tables).filterKeys (underAfter pfx after)).entries := by
  have hsize : (Overlay.new tables pfx after).rest.size ≤ (Overlay.new tables pfx after).fuel := by
    have h₁ := size_foldl_extend_le tables empty
    have h₂ : (Overlay.new tables pfx after).rest.size ≤ (stack tables).size :=
      length_filter_le _ _
    have h₃ : (empty : OrdMap Bytes (Option Bytes)).size = 0 := rfl
    unfold stack at h₂
    unfold Overlay.fuel
    simp only [Overlay.new] at h₂ ⊢
    omega
  rw [Overlay.items_eq _ _ hs rfl hsize]
  rfl

/-! ## The scans -/

namespace DiskIndex

theorem okRows_map_ok {α : Type} : ∀ rows : List α, okRows (rows.map .ok) = rows
  | [] => rfl
  | r :: rows => congrArg (r :: ·) (okRows_map_ok rows)

def wholeRows (tails : OrdMap Bytes Bytes) (rows : List Row) : List Row :=
  rows.map (fun e => (e.1, whole tails e.1 e.2))

section
variable (tails : OrdMap Bytes Bytes) (db : Db) (mem : OrdMap Bytes (Option Bytes)) (p : Bytes → Bool)
  (f : Bytes → Bytes → σ → Bool × σ)

theorem dropKey_wholeRows (k fk fv : Bytes) (file : List Row) :
    dropKey k ((fk, whole tails fk fv) :: wholeRows tails file) =
      wholeRows tails (dropKey k ((fk, fv) :: file)) := by
  simp only [dropKey]
  split <;> rfl

theorem scanLoop_eq
    (file : List Row) (mem : List Change) (s : σ) :
    scanLoop tails f file mem s = visit f (mergeRows (wholeRows tails file) mem) s := by
  have hcons : ∀ k v rows, wholeRows tails ((k, v) :: rows) =
      (k, whole tails k v) :: wholeRows tails rows := fun _ _ _ => rfl
  fun_induction scanLoop tails f file mem s with
  | case1 s => simp [wholeRows, mergeRows, visit]
  | case2 k v file s s' hf ih =>
    rw [ih, hcons]
    simp [mergeRows, visit, hf]
  | case3 k v file s s' hf =>
    rw [hcons]
    simp [mergeRows, visit, hf]
  | case4 k mem s ih =>
    rw [ih]
    simp [wholeRows, mergeRows, changeRow]
  | case5 k v mem s s' hf ih =>
    rw [ih]
    simp [wholeRows, mergeRows, changeRow, visit, hf]
  | case6 k v mem s s' hf => simp [wholeRows, mergeRows, changeRow, visit, hf]
  | case7 fk fv file k mem s hle ih =>
    rw [ih, hcons, mergeRows, if_pos hle, dropKey_wholeRows]
    rfl
  | case8 fk fv file k mem s hle v s' hf ih =>
    rw [ih, hcons, mergeRows, if_pos hle, dropKey_wholeRows]
    simp [changeRow, visit, hf]
  | case9 fk fv file k mem s hle v s' hf =>
    rw [hcons, mergeRows, if_pos hle]
    simp [changeRow, visit, hf]
  | case10 fk fv file k c mem s hle s' hf ih =>
    rw [ih, hcons, mergeRows, if_neg hle]
    simp [visit, hf]
  | case11 fk fv file k c mem s hle s' hf =>
    rw [hcons, mergeRows, if_neg hle]
    simp [visit, hf]

theorem wholeRows_filterKeys :
    wholeRows db.tails (db.entries.filterKeys p).entries = (db.map.filterKeys p).entries := by
  simp only [wholeRows, filterKeys, Db.map, mapValues, filter_map]
  rfl

theorem scanLoop_range (s : σ) :
    scanLoop db.tails f (db.entries.filterKeys p).entries (mem.filterKeys p).entries s =
      visit f ((applyChanges mem.entries db.map).filterKeys p).entries s := by
  rw [scanLoop_eq, wholeRows_filterKeys, mergeRows_eq_entries, applyChanges_filterKeys]

end

variable (d : DiskIndex)

theorem forEachPrefix_eq (hs : StartOk pfx after) (f : Bytes → Bytes → σ → Bool × σ) (s : σ) :
    d.forEachPrefix pfx after f s =
      (.ok (), visit f (d.view.filterKeys (underAfter pfx after)).entries s) := by
  unfold forEachPrefix
  rw [okRows_map_ok]
  refine Prod.ext rfl ?_
  show scanLoop d.db.tails f (prefixRange d.db.entries pfx after) _ s = _
  rw [Overlay.items_new _ hs, prefixRange_eq _ hs, scanLoop_range]
  rfl

theorem foldl_extend_filter (p : Bytes → Bool) : ∀ (tables : List Memtable) (m : OrdMap Bytes (Option Bytes)),
    tables.foldl (fun m t => m.extend (t.map.entries.filter (fun e => p e.1))) (m.filterKeys p) =
      (tables.foldl (fun m t => m.extend t.map.entries) m).filterKeys p
  | [], _ => rfl
  | t :: tables, m => by
    rw [foldl_cons, foldl_cons, ← foldl_extend_filter p tables]
    congr 1
    exact extend_filterKeys m t.map p

theorem snapshot_forEach_eq {from' below : Bytes}
    (hle : from' ≤ below) (f : Bytes → Bytes → σ → Bool × σ) (s : σ) :
    (d.snapshot from' below).map (fun sn => sn.forEach f s) =
      some (.ok (), visit f (d.view.filterKeys (inRange from' below)).entries s) := by
  unfold snapshot
  rw [if_pos hle, Option.map_some]
  unfold Snapshot.forEach
  rw [okRows_map_ok]
  refine congrArg some (Prod.ext rfl ?_)
  have hmem := foldl_extend_filter (inRange from' below) d.memtables empty
  show scanLoop d.db.tails f (d.db.entries.filterKeys (inRange from' below)).entries _ s = _
  rw [show (empty : OrdMap Bytes (Option Bytes)).filterKeys (inRange from' below) = empty from rfl] at hmem
  rw [hmem, scanLoop_range]
  rfl

def countEntry (file : OrdMap Bytes Bytes) (n : Nat) (e : Bytes × Bool) : Nat :=
  match e.2, file.contains e.1 with
  | true, false => n + 1
  | false, true => n - 1
  | _, _ => n

theorem foldl_countEntry (file : OrdMap Bytes Bytes) : ∀ (l : List Change)
    (m : OrdMap Bytes Bytes), l.Pairwise (fun a b => a.1 < b.1) →
      (∀ c ∈ l, m.contains c.1 = file.contains c.1) →
      (l.map (fun c => (c.1, c.2.isSome))).foldl (countEntry file) m.size = (applyChanges l m).size
  | [], _, _, _ => rfl
  | (k, v) :: l, m, hs, hc => by
    have hk := hc (k, v) mem_cons_self
    have hcons := pairwise_cons.1 hs
    have hstep : countEntry file m.size (k, v.isSome) = (applyChange m (k, v)).size := by
      cases v with
      | none =>
        simp only [applyChange, size_erase, hk, countEntry, Option.isSome_none]
        cases file.contains k <;> rfl
      | some v =>
        simp only [applyChange, size_insert, hk, countEntry, Option.isSome_some]
        cases file.contains k <;> rfl
    have hrest : ∀ c ∈ l, (applyChange m (k, v)).contains c.1 = file.contains c.1 := by
      intro c hm
      have hne : c.1 ≠ k := (hcons.1 c hm).ne'
      rw [← hc c (mem_cons_of_mem _ hm)]
      unfold OrdMap.contains
      rw [get_applyChange, if_neg hne]
    rw [map_cons, foldl_cons, hstep, foldl_countEntry file l _ hcons.2 hrest]
    rfl

theorem foldl_insert_isSome : ∀ (tables : List Memtable) (m : OrdMap Bytes (Option Bytes)),
    tables.foldl (fun o t => t.map.entries.foldl (fun o e => o.insert e.1 e.2.isSome) o)
        (m.mapValues (fun _ v => v.isSome)) =
      (tables.foldl (fun m t => m.extend t.map.entries) m).mapValues (fun _ v => v.isSome)
  | [], _ => rfl
  | t :: tables, m => by
    rw [foldl_cons, foldl_cons, ← foldl_insert_isSome tables]
    congr 1
    have h := extend_mapValues m t.map (fun _ v => v.isSome)
    rw [← h]
    unfold extend mapValues
    rw [foldl_map]

theorem len_eq : d.len = d.view.size := by
  have hover := foldl_insert_isSome d.memtables empty
  rw [show (empty : OrdMap Bytes (Option Bytes)).mapValues (fun _ v => v.isSome) = empty from rfl] at hover
  have hcount := foldl_countEntry d.db.entries d.pending.entries d.db.map d.pending.sorted
    (fun c _ => by unfold OrdMap.contains; rw [Db.get_map, Option.isSome_map])
  have hsize : d.db.map.size = d.db.entries.size := length_map _
  rw [hsize] at hcount
  unfold len
  rw [hover]
  exact hcount

/-! ## Runs -/

inductive Op where
  | put (key value : Bytes)
  | delete (key : Bytes)
  | freeze
  | flushFrozen (lsn : Nat) (commit : Commit)
  deriving DecidableEq, Repr

def applyOp (d : DiskIndex) : Op → DiskIndex
  | .put key value => d.put key value
  | .delete key => d.delete key
  | .freeze => d.freeze.1
  | .flushFrozen lsn commit => (d.flushFrozen lsn commit).1

def applyToMap (m : OrdMap Bytes Bytes) : Op → OrdMap Bytes Bytes
  | .put key value => m.insert key value
  | .delete key => m.erase key
  | .freeze => m
  | .flushFrozen _ _ => m

theorem view_applyOp (op : Op) : (d.applyOp op).view = applyToMap d.view op := by
  cases op with
  | put key value => exact view_set d key (some value)
  | delete key => exact view_set d key none
  | freeze => exact view_freeze d
  | flushFrozen lsn commit => exact view_flushFrozen d lsn commit

theorem view_foldl_applyOp : ∀ (ops : List Op) (d : DiskIndex),
    (ops.foldl applyOp d).view = ops.foldl applyToMap d.view
  | [], _ => rfl
  | op :: ops, d => by
    rw [foldl_cons, foldl_cons, view_foldl_applyOp ops, view_applyOp]

/-- Every read of the index is that read of the map: lookups, scans of a prefix from its start or
after a key under it, snapshots of a range, the count. -/
structure ReadsAs (d : DiskIndex) (m : OrdMap Bytes Bytes) : Prop where
  get : ∀ k, d.get k = m.get k
  forEachPrefix : ∀ {σ : Type} (f : Bytes → Bytes → σ → Bool × σ) (s : σ) (pfx : Bytes)
    (after : Option Bytes), (∀ a, after = some a → pfx <+: a) → d.forEachPrefix pfx after f s =
        (.ok (), visit f (m.filterKeys
          (fun k => pfx.isPrefixOf k && after.all (fun a => decide (a < k)))).entries s)
  snapshot : ∀ {σ : Type} (f : Bytes → Bytes → σ → Bool × σ) (s : σ) (from' below : Bytes),
    (d.snapshot from' below).map (fun sn => sn.forEach f s) = if from' ≤ below then
        some (.ok (), visit f (m.filterKeys (fun k => decide (from' ≤ k) && decide (k < below))).entries s)
      else none
  len : d.len = m.size

theorem underAfter_eq (pfx : Bytes) (after : Option Bytes) :
    underAfter pfx after = fun k => pfx.isPrefixOf k && after.all (fun a => decide (a < k)) := by
  funext k
  unfold underAfter atStart
  cases after with
  | some a => rfl
  | none =>
    cases hp : pfx.isPrefixOf k with
    | false => rfl
    | true => simp [ByteOrder.le_of_isPrefix (List.isPrefixOf_iff_prefix.1 hp)]

theorem readsAs_view : ReadsAs d d.view where
  get := d.get_eq_view
  forEachPrefix f s pfx after h := by
    rw [← underAfter_eq]
    exact d.forEachPrefix_eq (fun a ha => ByteOrder.le_of_isPrefix (h a ha)) f s
  snapshot f s from' below := by
    split
    · rename_i hle
      exact d.snapshot_forEach_eq hle f s
    · rename_i hle
      simp [snapshot, hle]
  len := d.len_eq

/-- **The index refines a map.** After any puts, deletes, freezes and flushes (each commit answered, refused,
or landed unanswered) every read agrees with the plain ordered map built by the same puts and deletes. -/
theorem diskIndex_refines_map (ops : List Op) :
    ReadsAs (ops.foldl applyOp (openDb Db.empty)) (ops.foldl applyToMap OrdMap.empty) := by
  have h := readsAs_view (ops.foldl applyOp (openDb Db.empty))
  rw [view_foldl_applyOp, view_openDb] at h
  exact h

/-! ## A file that cannot be read -/

section
variable (d : DiskIndex) (f : Bytes → Bytes → σ → Bool × σ) (s : σ)

/-- What the file's iterator yields of some rows when its read of row `n` fails; past the last row,
no read fails. -/
def failsAt : Nat → List Row → List (Except Error Row)
  | _, [] => []
  | 0, _ :: rows => .error (.storage "read") :: rows.map .ok
  | n + 1, r :: rows => .ok r :: failsAt n rows

def forEachPrefixReading (read : List Row → List (Except Error Row)) (pfx : Bytes)
    (after : Option Bytes) : Except Error Unit × σ :=
  let overlay := Overlay.new d.memtables pfx after
  let rows := d.db.entries.entries.filter (fun e => atStart pfx after e.1)
  let file := (okRows (read rows)).takeWhile (fun e => pfx.isPrefixOf e.1)
  (.ok (), scanLoop d.db.tails f file (overlay.items overlay.fuel) s)

def Snapshot.forEachReading (sn : Snapshot) (read : List Row → List (Except Error Row)) :
    Except Error Unit × σ :=
  let file := okRows (read (sn.entries.entries.filter (fun e => inRange sn.from' sn.below e.1)))
  (.ok (), scanLoop sn.tails f file sn.mem.entries s)

theorem okRows_failsAt (n : Nat) (rows : List Row) : okRows (failsAt n rows) = rows.take n := by
  induction rows generalizing n with
  | nil => cases n <;> rfl
  | cons r rows ih =>
    cases n with
    | zero => rfl
    | succ n => simp [failsAt, okRows, ih]

/-- The scan loop over a file cut short makes the calls of the whole one exactly where none of those is for a
row after the cut that no change in memory stands for. -/
theorem scanLoop_take_iff (tails : OrdMap Bytes Bytes) {file : List Row}
    (hf : file.Pairwise (fun a b => a.1 < b.1)) (t : OrdMap Bytes (Option Bytes)) (n : Nat) :
    scanLoop tails (recording f) (file.take n) t.entries (s, []) =
        scanLoop tails (recording f) file t.entries (s, []) ↔
      ∀ e ∈ (scanLoop tails (recording f) file t.entries (s, [])).2,
        e.1 ∈ (file.drop n).map Prod.fst → t.contains e.1 = true := by
  have hkeys : (wholeRows tails file).Pairwise (fun a b => a.1 < b.1) := by
    rw [wholeRows, pairwise_map]
    exact hf
  have hdrop : ((wholeRows tails file).drop n).map Prod.fst = (file.drop n).map Prod.fst := by
    rw [wholeRows, ← map_drop, map_map]
    rfl
  have htake : wholeRows tails (file.take n) = (wholeRows tails file).take n := map_take
  rw [scanLoop_eq, scanLoop_eq, htake, mergeRows_take hkeys, visit_recording_filter_iff, hdrop]
  simp only [decide_eq_true_eq]

theorem prefixRange_sorted (m : OrdMap Bytes V) (pfx : Bytes) (after : Option Bytes) :
    (prefixRange m pfx after).Pairwise (fun a b => a.1 < b.1) :=
  (m.sorted.filter _).sublist (takeWhile_sublist _)

theorem forEachPrefixReading_eq (hs : StartOk pfx after) (n : Nat) :
    d.forEachPrefixReading f s (failsAt n) pfx after =
      (.ok (), scanLoop d.db.tails f ((prefixRange d.db.entries pfx after).take n)
        ((stack d.memtables).filterKeys (underAfter pfx after)).entries s) := by
  simp only [forEachPrefixReading, okRows_failsAt, ← take_takeWhile, Overlay.items_new _ hs, prefixRange]

theorem forEachPrefix_scan (hs : StartOk pfx after) :
    d.forEachPrefix pfx after f s = (.ok (), scanLoop d.db.tails f (prefixRange d.db.entries pfx after)
      ((stack d.memtables).filterKeys (underAfter pfx after)).entries s) := by
  unfold forEachPrefix
  rw [okRows_map_ok]
  simp only [Overlay.items_new _ hs, prefixRange]

theorem contains_overlay (hs : StartOk pfx after) {k : Bytes} {n : Nat}
    (hk : k ∈ ((prefixRange d.db.entries pfx after).drop n).map Prod.fst) :
    ((stack d.memtables).filterKeys (underAfter pfx after)).contains k = d.pending.contains k := by
  obtain ⟨e, he, rfl⟩ := mem_map.1 hk
  have hmem := mem_of_mem_drop he
  rw [prefixRange_eq _ hs] at hmem
  have hunder : underAfter pfx after e.1 = true := (mem_filter.1 hmem).2
  simp [OrdMap.contains, get_filterKeys, hunder, stack, pending]

end

def threeKeys : DiskIndex :=
  openDb (Db.empty.writeAll [([1], some [1]), ([2], some [2]), ([5], some [5])])

def gather (k _ : Bytes) (keys : List Bytes) : Bool × List Bytes := (true, keys ++ [k])

def firstOnly (k _ : Bytes) (keys : List Bytes) : Bool × List Bytes := (false, keys ++ [k])

end DiskIndex

end IoLake.Storage
