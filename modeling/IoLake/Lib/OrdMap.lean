import Mathlib

/-!
# Ordered maps as strictly ascending association lists

What an ordered map (a B-tree, a sorted run) is to a reader that walks it.  The order is a field of the
structure, so every map is canonical.
-/

namespace OrdMap.Impl

open List

variable {K V : Type} [LinearOrder K]

/-- Insert into a sorted entry list, replacing an entry of the same key. -/
def insert (k : K) (v : V) : List (K × V) → List (K × V)
  | [] => [(k, v)]
  | (k', v') :: rest =>
    if k < k' then (k, v) :: (k', v') :: rest
    else if k = k' then (k, v) :: rest
    else (k', v') :: insert k v rest

theorem mem_insert {k : K} {v : V} {e : K × V} : ∀ {l : List (K × V)}, e ∈ insert k v l → e = (k, v) ∨ e ∈ l
  | [], h => by simpa [insert] using h
  | (k', v') :: rest, h => by
    unfold insert at h
    split at h
    · simpa using h
    · split at h
      · rcases mem_cons.1 h with h | h
        · exact .inl h
        · exact .inr (mem_cons_of_mem _ h)
      · rcases mem_cons.1 h with h | h
        · exact .inr (h ▸ mem_cons_self)
        · exact (mem_insert h).imp_right (mem_cons_of_mem _)

theorem insert_sorted (k : K) (v : V) : ∀ {l : List (K × V)},
    l.Pairwise (fun a b => a.1 < b.1) → (insert k v l).Pairwise (fun a b => a.1 < b.1)
  | [], _ => by simp [insert]
  | (k', v') :: rest, h => by
    have hc := pairwise_cons.1 h
    unfold insert
    split
    · rename_i hlt
      refine pairwise_cons.2 ⟨fun e he => ?_, h⟩
      rcases mem_cons.1 he with rfl | he
      · exact hlt
      · exact hlt.trans (hc.1 e he)
    · rename_i hlt
      split
      · rename_i heq
        subst heq
        exact pairwise_cons.2 ⟨hc.1, hc.2⟩
      · rename_i hne
        refine pairwise_cons.2 ⟨fun e he => ?_, insert_sorted k v hc.2⟩
        rcases mem_insert he with rfl | he
        · exact lt_of_le_of_ne (not_lt.1 hlt) (Ne.symm hne)
        · exact hc.1 e he

end OrdMap.Impl

/-- A finite map, its entries in strictly ascending key order. -/
structure OrdMap (K V : Type) [LinearOrder K] where
  entries : List (K × V)
  sorted : entries.Pairwise (fun a b => a.1 < b.1)

namespace OrdMap

variable {K V W : Type} [LinearOrder K]

instance [DecidableEq V] : DecidableEq (OrdMap K V) := fun a b =>
  decidable_of_iff (a.entries = b.entries) (by cases a; cases b; simp)

instance [Repr K] [Repr V] : Repr (OrdMap K V) := ⟨fun m n => reprPrec m.entries n⟩

def empty : OrdMap K V := ⟨[], List.Pairwise.nil⟩

instance : Inhabited (OrdMap K V) := ⟨empty⟩

def get (m : OrdMap K V) (k : K) : Option V :=
  (m.entries.find? (fun e => e.1 == k)).map (·.2)

def contains (m : OrdMap K V) (k : K) : Bool := (m.get k).isSome

def insert (m : OrdMap K V) (k : K) (v : V) : OrdMap K V :=
  ⟨Impl.insert k v m.entries, Impl.insert_sorted k v m.sorted⟩

/-- The map restricted to the keys that satisfy `p`. -/
def filterKeys (m : OrdMap K V) (p : K → Bool) : OrdMap K V :=
  ⟨m.entries.filter (fun e => p e.1), m.sorted.filter _⟩

def erase (m : OrdMap K V) (k : K) : OrdMap K V := m.filterKeys (fun k' => k' != k)

/-- Insert every entry of a list in turn: a later one replaces an earlier. -/
def extend (m : OrdMap K V) (l : List (K × V)) : OrdMap K V :=
  l.foldl (fun m e => m.insert e.1 e.2) m

def size (m : OrdMap K V) : Nat := m.entries.length

/-- Replace each value by `f` of its key and value. -/
def mapValues (f : K → V → W) (m : OrdMap K V) : OrdMap K W :=
  ⟨m.entries.map (fun e => (e.1, f e.1 e.2)), m.sorted.map _ (fun _ _ h => h)⟩

/-- Replace each value by what `f` makes of its key and value, if anything. -/
def filterMapValues (f : K → V → Option W) (m : OrdMap K V) : OrdMap K W :=
  ⟨m.entries.filterMap (fun e => (f e.1 e.2).map (e.1, ·)), by
    refine m.sorted.filterMap _ fun a b hab c hc d hd => ?_
    obtain ⟨w, -, rfl⟩ := Option.map_eq_some_iff.1 hc
    obtain ⟨w', -, rfl⟩ := Option.map_eq_some_iff.1 hd
    exact hab⟩

/-! ## Lookups and entries -/

theorem find_of_mem {l : List (K × V)} (hs : l.Pairwise (fun a b => a.1 < b.1)) {k : K} {v : V}
    (h : (k, v) ∈ l) : l.find? (fun e => e.1 == k) = some (k, v) := by
  induction l with
  | nil => cases h
  | cons e l ih =>
    have hc := List.pairwise_cons.1 hs
    rcases List.mem_cons.1 h with rfl | h
    · simp
    · have hne : e.1 ≠ k := (hc.1 _ h).ne
      rw [List.find?_cons_of_neg (by simpa using hne)]
      exact ih hc.2 h

/-- The entries are exactly the lookups. -/
theorem mem_entries {m : OrdMap K V} {k : K} {v : V} : (k, v) ∈ m.entries ↔ m.get k = some v := by
  constructor
  · intro h
    simp [get, find_of_mem m.sorted h]
  · intro h
    obtain ⟨e, he, rfl⟩ := Option.map_eq_some_iff.1 h
    have hk := List.find?_some he
    have hm := List.mem_of_find?_eq_some he
    simp only [beq_iff_eq] at hk
    exact hk ▸ hm

theorem get_eq_none {m : OrdMap K V} {k : K} : m.get k = none ↔ ∀ v, (k, v) ∉ m.entries := by
  constructor
  · intro h v hv
    rw [mem_entries.1 hv] at h
    cases h
  · intro h
    cases hg : m.get k with
    | none => rfl
    | some v => exact absurd (mem_entries.2 hg) (h v)

theorem sorted_ext {l₁ l₂ : List (K × V)} (h₁ : l₁.Pairwise (fun a b => a.1 < b.1))
    (h₂ : l₂.Pairwise (fun a b => a.1 < b.1)) (h : ∀ e, e ∈ l₁ ↔ e ∈ l₂) : l₁ = l₂ := by
  have n₁ : l₁.Nodup := h₁.imp (fun hab he => by rw [he] at hab; exact lt_irrefl _ hab)
  have n₂ : l₂.Nodup := h₂.imp (fun hab he => by rw [he] at hab; exact lt_irrefl _ hab)
  have hp : l₁.Perm l₂ := (List.perm_ext_iff_of_nodup n₁ n₂).2 h
  exact hp.eq_of_pairwise (fun a b _ _ hab hba => absurd hba (lt_asymm hab)) h₁ h₂

/-- Two maps with the same lookups are **equal**, entry lists included. -/
theorem ext_get {a b : OrdMap K V} (h : ∀ k, a.get k = b.get k) : a = b := by
  have he : a.entries = b.entries := sorted_ext a.sorted b.sorted fun e => by
    obtain ⟨k, v⟩ := e
    rw [mem_entries, mem_entries, h k]
  cases a; cases b; simpa using he

@[simp] theorem get_empty (k : K) : (empty : OrdMap K V).get k = none := rfl

variable (m : OrdMap K V)

theorem get_filterKeys (p : K → Bool) (k : K) : (m.filterKeys p).get k = if p k then m.get k else none := by
  apply Option.ext
  intro v
  rw [← mem_entries]
  simp only [filterKeys, List.mem_filter, mem_entries]
  cases hp : p k <;> simp

theorem get_erase (k k' : K) : (m.erase k).get k' = if k' = k then none else m.get k' := by
  rw [erase, get_filterKeys]
  by_cases h : k' = k <;> simp [h]

theorem get_mapValues (f : K → V → W) (m : OrdMap K V) (k : K) :
    (m.mapValues f).get k = (m.get k).map (f k) := by
  apply Option.ext
  intro w
  rw [← mem_entries]
  simp only [mapValues, List.mem_map, Prod.mk.injEq, Option.map_eq_some_iff]
  constructor
  · rintro ⟨⟨k', v⟩, he, rfl, rfl⟩
    exact ⟨v, mem_entries.1 he, rfl⟩
  · rintro ⟨v, hv, rfl⟩
    exact ⟨(k, v), mem_entries.2 hv, rfl, rfl⟩

theorem get_filterMapValues (f : K → V → Option W) (m : OrdMap K V) (k : K) :
    (m.filterMapValues f).get k = (m.get k).bind (f k) := by
  apply Option.ext
  intro w
  rw [← mem_entries]
  simp only [filterMapValues, List.mem_filterMap, Option.map_eq_some_iff, Prod.mk.injEq,
    Option.bind_eq_some_iff]
  constructor
  · rintro ⟨⟨k', v⟩, he, w', hw', rfl, rfl⟩
    exact ⟨v, mem_entries.1 he, hw'⟩
  · rintro ⟨v, hv, hw⟩
    exact ⟨(k, v), mem_entries.2 hv, w, hw, rfl, rfl⟩

theorem find_insert (k k' : K) (v : V) : ∀ (l : List (K × V)),
    ((Impl.insert k v l).find? (fun e => e.1 == k')).map (·.2) =
      if k' = k then some v else (l.find? (fun e => e.1 == k')).map (·.2)
  | [] => by
    by_cases h : k' = k
    · simp [Impl.insert, h]
    · simp [Impl.insert, h, Ne.symm h]
  | (a, w) :: rest => by
    have ih := find_insert k k' v rest
    unfold Impl.insert
    by_cases h : k' = k
    · subst h
      split
      · simp
      · split
        · simp
        · rename_i hne
          rw [List.find?_cons_of_neg (by simpa using Ne.symm hne), ih]
          simp
    · rw [if_neg h] at ih ⊢
      split
      · rw [List.find?_cons_of_neg (by simpa using Ne.symm h)]
      · split
        · rename_i heq
          subst heq
          rw [List.find?_cons_of_neg (by simpa using Ne.symm h),
            List.find?_cons_of_neg (by simpa using Ne.symm h)]
        · by_cases ha : a = k'
          · simp [ha]
          · rw [List.find?_cons_of_neg (by simpa using ha), List.find?_cons_of_neg (by simpa using ha), ih]

/-- The lookup after each operation. -/
theorem get_insert (k k' : K) (v : V) : (m.insert k v).get k' = if k' = k then some v else m.get k' :=
  find_insert k k' v m.entries

theorem get_extend (k : K) : ∀ (l : List (K × V)) (m : OrdMap K V), l.Pairwise (fun a b => a.1 < b.1) →
      (m.extend l).get k = ((l.find? (fun e => e.1 == k)).map (·.2)).or (m.get k)
  | [], m, _ => by simp [extend]
  | (a, w) :: rest, m, h => by
    have hc := List.pairwise_cons.1 h
    have ih := get_extend k rest (m.insert a w) hc.2
    simp only [extend, List.foldl_cons] at ih ⊢
    rw [ih, get_insert]
    by_cases ha : a = k
    · subst ha
      have hn : rest.find? (fun e => e.1 == a) = none := by
        rw [List.find?_eq_none]
        intro e he
        simpa using (hc.1 e he).ne'
      simp [hn]
    · rw [List.find?_cons_of_neg (by simpa using ha), if_neg (Ne.symm ha)]

theorem find_take_of_le {rows : List (K × V)} (n : Nat)
    (hs : rows.Pairwise (fun a b => a.1 < b.1)) {last : K × V} (hl : last ∈ rows.take n)
    {k : K} (hk : k ≤ last.1) : (rows.take n).find? (fun e => e.1 == k) = rows.find? (fun e => e.1 == k) := by
  have hp : (rows.take n ++ rows.drop n).Pairwise (fun a b => a.1 < b.1) := by
    rwa [List.take_append_drop]
  have hrest : (rows.drop n).find? (fun e => e.1 == k) = none := by
    rw [List.find?_eq_none]
    intro e he hek
    rw [beq_iff_eq] at hek
    have hlt := (List.pairwise_append.1 hp).2.2 last hl e he
    exact absurd hlt (not_lt.2 (hek ▸ hk))
  conv_rhs => rw [← List.take_append_drop n rows, List.find?_append, hrest]
  simp

/-- The keys through `u`. -/
def upTo (m : OrdMap K V) (u : K) : OrdMap K V := m.filterKeys (fun k => decide (k ≤ u))

/-- The keys past `u`. -/
def past (m : OrdMap K V) (u : K) : OrdMap K V := m.filterKeys (fun k => decide (u < k))

theorem get_upTo (u k : K) : (m.upTo u).get k = if k ≤ u then m.get k else none := by
  simp [upTo, get_filterKeys]

theorem get_past (u k : K) : (m.past u).get k = if u < k then m.get k else none := by
  simp [past, get_filterKeys]

theorem entries_split (u : K) : (m.upTo u).entries ++ (m.past u).entries = m.entries := by
  refine sorted_ext ?_ m.sorted fun e => ?_
  · refine List.pairwise_append.2 ⟨OrdMap.sorted _, OrdMap.sorted _, fun a ha b hb => ?_⟩
    simp only [upTo, past, filterKeys, List.mem_filter, decide_eq_true_eq] at ha hb
    exact ha.2.trans_lt hb.2
  · simp only [upTo, past, filterKeys, List.mem_append, List.mem_filter, decide_eq_true_eq, ← and_or_left]
    exact and_iff_left (le_or_gt e.1 u)

theorem contains_iff {m : OrdMap K V} {k : K} : m.contains k = true ↔ ∃ v, (k, v) ∈ m.entries := by
  unfold contains
  rw [Option.isSome_iff_exists]
  exact exists_congr fun v => mem_entries.symm

theorem size_past_lt {m : OrdMap K V} {u : K} (h : m.contains u = true) : (m.past u).size < m.size := by
  obtain ⟨v, hv⟩ := contains_iff.1 h
  have hpos : 0 < (m.upTo u).entries.length := by
    refine List.length_pos_of_mem (a := (u, v)) ?_
    simp [upTo, filterKeys, hv]
  have hsum := congrArg List.length (m.entries_split u)
  rw [List.length_append] at hsum
  unfold size
  omega

theorem nodup_keys : (m.entries.map Prod.fst).Nodup := by
  refine List.Pairwise.map _ (fun a b h => ?_) m.sorted
  exact h.ne

def keySet (m : OrdMap K V) : Finset K := (m.entries.map Prod.fst).toFinset

theorem mem_keySet {m : OrdMap K V} {k : K} : k ∈ m.keySet ↔ m.contains k = true := by
  simp [keySet, contains_iff]

theorem card_keySet : m.keySet.card = m.size := by
  rw [keySet, List.toFinset_card_of_nodup m.nodup_keys, List.length_map, size]

theorem contains_insert (k k' : K) (v : V) :
    (m.insert k v).contains k' = (decide (k' = k) || m.contains k') := by
  unfold contains
  rw [get_insert]
  by_cases h : k' = k <;> simp [h]

theorem contains_erase (k k' : K) : (m.erase k).contains k' = (decide (k' ≠ k) && m.contains k') := by
  unfold contains
  rw [get_erase]
  by_cases h : k' = k <;> simp [h]

theorem size_insert (k : K) (v : V) : (m.insert k v).size = if m.contains k then m.size else m.size + 1 := by
  have h : (m.insert k v).keySet = Insert.insert k m.keySet := by
    ext k'
    simp [mem_keySet, contains_insert]
  rw [← card_keySet, h, ← card_keySet]
  split
  · rename_i hk
    rw [Finset.insert_eq_of_mem (mem_keySet.2 hk)]
  · rename_i hk
    exact Finset.card_insert_of_notMem (fun hm => hk (mem_keySet.1 hm))

theorem size_erase (k : K) : (m.erase k).size = if m.contains k then m.size - 1 else m.size := by
  have h : (m.erase k).keySet = m.keySet.erase k := by
    ext k'
    simp [mem_keySet, contains_erase]
  rw [← card_keySet, h, ← card_keySet]
  split
  · rename_i hk
    exact Finset.card_erase_of_mem (mem_keySet.2 hk)
  · rename_i hk
    rw [Finset.erase_eq_of_notMem (fun hm => hk (mem_keySet.1 hm))]

theorem size_extend_le : ∀ (l : List (K × V)) (m : OrdMap K V), (m.extend l).size ≤ m.size + l.length
  | [], m => by simp [extend]
  | e :: l, m => by
    have h₁ := size_extend_le l (m.insert e.1 e.2)
    have h₂ := m.size_insert e.1 e.2
    simp only [extend, List.foldl_cons, List.length_cons] at h₁ ⊢
    split at h₂ <;> omega

theorem extend_mapValues (a b : OrdMap K V) (f : K → V → W) :
    (a.mapValues f).extend (b.mapValues f).entries = (a.extend b.entries).mapValues f := by
  apply ext_get
  intro k
  rw [get_mapValues, get_extend k _ _ (b.mapValues f).sorted, get_extend k _ _ b.sorted]
  show ((b.mapValues f).get k).or ((a.mapValues f).get k) = ((b.get k).or (a.get k)).map (f k)
  rw [get_mapValues, get_mapValues]
  cases b.get k <;> rfl

@[simp] theorem get_insert_self (k : K) (v : V) : (m.insert k v).get k = some v := by simp [get_insert]

@[simp] theorem get_erase_self (k : K) : (m.erase k).get k = none := by
  simp [get_erase]

end OrdMap
