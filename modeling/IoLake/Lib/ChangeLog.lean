import IoLake.Lib.OrdMap

/-!
# Change logs over ordered maps

A *change* sets a key to a value or deletes it (`none`).  Of a list of changes only the last one of each key
matters (`get_applyChanges`), which makes a log of them safe to replay.
-/

namespace ChangeLog

open List Option OrdMap

variable {K V : Type} [LinearOrder K]

/-- Set `c.1` to `c.2`, or delete it. -/
def applyChange (m : OrdMap K V) (c : K × Option V) : OrdMap K V :=
  match c.2 with
  | some v => m.insert c.1 v
  | none => m.erase c.1

def applyChanges (l : List (K × Option V)) (m : OrdMap K V) : OrdMap K V :=
  l.foldl applyChange m

/-- The last change of `k` in the list. -/
def lastChange (l : List (K × Option V)) (k : K) : Option (Option V) :=
  (l.reverse.find? (fun c => c.1 == k)).map (·.2)

def Touches (l : List (K × Option V)) (k : K) : Prop := ∃ c ∈ l, c.1 = k

variable (m : OrdMap K V)

@[simp] theorem applyChanges_nil : applyChanges [] m = m := rfl

section
variable (a b l : List (K × Option V)) (m : OrdMap K V) (c : K × Option V) (k : K)

theorem applyChanges_append :
    applyChanges (a ++ b) m = applyChanges b (applyChanges a m) := by
  simp [applyChanges]

theorem get_applyChange :
    (applyChange m c).get k = if k = c.1 then c.2 else m.get k := by
  unfold applyChange
  split
  · rename_i v hv
    rw [get_insert, hv]
  · rename_i hv
    rw [get_erase, hv]

theorem lastChange_concat :
    lastChange (l ++ [c]) k = if k = c.1 then some c.2 else lastChange l k := by
  unfold lastChange
  rw [reverse_append, reverse_singleton, singleton_append]
  by_cases h : k = c.1
  · simp [h]
  · rw [find?_cons_of_neg (by simpa using Ne.symm h), if_neg h]

theorem get_applyChanges :
    (applyChanges l m).get k = (lastChange l k).getD (m.get k) := by
  induction l using reverseRecOn with
  | nil => rfl
  | append_singleton l c ih =>
    rw [applyChanges_append, lastChange_concat]
    simp only [applyChanges, foldl_cons, foldl_nil] at ih ⊢
    rw [get_applyChange]
    by_cases h : k = c.1
    · simp [h]
    · simp [h, ih]

end

variable {k : K}

theorem lastChange_eq_none {l : List (K × Option V)} : lastChange l k = none ↔ ¬ Touches l k := by
  unfold lastChange Touches
  rw [map_eq_none_iff, find?_eq_none]
  constructor
  · rintro h ⟨c, hc, hk⟩
    exact h c (by simpa using hc) (by simpa using hk)
  · intro h c hc hk
    exact h ⟨c, by simpa using hc, by simpa using hk⟩

theorem get_applyChanges_of_not {l : List (K × Option V)} (h : ∀ c ∈ l, c.1 ≠ k)
    (m : OrdMap K V) : (applyChanges l m).get k = m.get k := by
  rw [get_applyChanges, lastChange_eq_none.2 fun ⟨c, hc, hk⟩ => h c hc hk]
  rfl

theorem get_applyChanges_mem {v : V} : ∀ {l : List (K × Option V)} {m : OrdMap K V},
    (applyChanges l m).get k = some v → m.get k = some v ∨ (k, some v) ∈ l
  | [], _, h => .inl h
  | c :: l, m, h => by
    have hrest : applyChanges (c :: l) m = applyChanges l (applyChange m c) := rfl
    rw [hrest] at h
    rcases get_applyChanges_mem h with hm | hl
    · rw [get_applyChange] at hm
      split at hm
      · rename_i hk
        have hc : c = (k, some v) := Prod.ext hk.symm hm
        rw [hc]
        exact .inr mem_cons_self
      · exact .inl hm
    · exact .inr (mem_cons_of_mem _ hl)

theorem get_applyChanges_of_mem : ∀ {l : List (K × Option V)} {c : K × Option V} (m : OrdMap K V),
    (l.map Prod.fst).Nodup → c ∈ l → (applyChanges l m).get c.1 = c.2
  | a :: l, c, m, hnd, hc => by
    obtain ⟨ha, hnd⟩ := nodup_cons.1 hnd
    have hrest : applyChanges (a :: l) m = applyChanges l (applyChange m a) := rfl
    rw [hrest]
    rcases mem_cons.1 hc with rfl | hc
    · have hne : ∀ c' ∈ l, c'.1 ≠ c.1 := fun c' hc' he => ha (mem_map.2 ⟨c', hc', he⟩)
      rw [get_applyChanges_of_not hne, get_applyChange, if_pos rfl]
    · exact get_applyChanges_of_mem _ hnd hc

/-- Changes whose keys a later list changes again are forgotten. -/
theorem applyChanges_absorb {a b : List (K × Option V)} (h : ∀ k, Touches a k → Touches b k)
    (m : OrdMap K V) : applyChanges b (applyChanges a m) = applyChanges b m := by
  apply OrdMap.ext_get
  intro k
  rw [get_applyChanges, get_applyChanges, get_applyChanges]
  cases hb : lastChange b k with
  | some v => rfl
  | none =>
    have ha : lastChange a k = none :=
      lastChange_eq_none.2 fun ht => lastChange_eq_none.1 hb (h k ht)
    simp [ha]

/-- **Replaying a suffix over a map that already holds part of it** gives the map the whole log gives. -/
theorem applyChanges_replay (a b c : List (K × Option V)) (m : OrdMap K V) :
    applyChanges (b ++ c) (applyChanges (a ++ b) m) = applyChanges (a ++ b ++ c) m := by
  rw [applyChanges_append b c, applyChanges_append a b m, applyChanges_append (a ++ b) c,
    applyChanges_append a b m]
  rw [applyChanges_absorb (fun k h => h) (applyChanges a m)]

/-- Lists that touch no common key can be applied in either order. -/
theorem applyChanges_commute {a b : List (K × Option V)} (h : ∀ k, Touches a k → ¬ Touches b k)
    (m : OrdMap K V) : applyChanges a (applyChanges b m) = applyChanges b (applyChanges a m) := by
  apply OrdMap.ext_get
  intro k
  simp only [get_applyChanges]
  by_cases ha : Touches a k
  · simp [lastChange_eq_none.2 (h k ha)]
  · simp [lastChange_eq_none.2 ha]

/-! ## Tables of pending changes -/

variable (t : OrdMap K (Option V))

theorem lastChange_entries (k : K) : lastChange t.entries k = t.get k := by
  apply ext
  intro v
  unfold lastChange
  rw [← mem_entries]
  constructor
  · intro h
    obtain ⟨e, he, rfl⟩ := map_eq_some_iff.1 h
    have hk := find?_some he
    have hm := mem_of_find?_eq_some he
    simp only [beq_iff_eq] at hk
    exact hk ▸ (mem_reverse.1 hm)
  · intro h
    obtain ⟨e, he⟩ : ∃ e, t.entries.reverse.find? (fun c => c.1 == k) = some e := by
      refine isSome_iff_exists.1 (find?_isSome.2 ⟨(k, v), by simpa using h, by simp⟩)
    have hk := find?_some he
    have hm := mem_of_find?_eq_some he
    simp only [beq_iff_eq] at hk
    have hg : t.get k = some e.2 := mem_entries.1 (hk ▸ (mem_reverse.1 hm))
    rw [he, map_some, ← mem_entries.1 h, hg]

theorem get_applyTable (m : OrdMap K V) (k : K) :
    (applyChanges t.entries m).get k = (t.get k).getD (m.get k) := by
  rw [get_applyChanges, lastChange_entries]

/-- A table of pending changes, one per key, stands for the list of changes made to it. -/
theorem applyChanges_entries_insert (k : K) (v : Option V) (m : OrdMap K V) :
    applyChanges (t.insert k v).entries m = applyChange (applyChanges t.entries m) (k, v) := by
  apply OrdMap.ext_get
  intro k'
  rw [get_applyTable, get_applyChange, get_applyTable, get_insert]
  by_cases h : k' = k <;> simp [h]

@[simp] theorem applyChanges_entries_empty : applyChanges (empty : OrdMap K (Option V)).entries m = m := rfl

end ChangeLog
