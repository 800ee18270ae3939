import IoLake.Lib.ChangeLog

/-!
# Scanning a sorted run under a table of changes
-/

namespace OverlayScan

open ChangeLog List OrdMap

variable {K V σ : Type}

/-- Call `f` on each row in order, threading a state, until it returns `false`. -/
def visit (f : K → V → σ → Bool × σ) : List (K × V) → σ → σ
  | [], s => s
  | (k, v) :: rows, s =>
    match f k v s with
    | (true, s') => visit f rows s'
    | (false, s') => s'

/-! ## What a walk hands over -/

/-- `f` with a list of the rows it was given. -/
def recording (f : K → V → σ → Bool × σ) (k : K) (v : V) (s : σ × List (K × V)) : Bool × (σ × List (K × V)) :=
  ((f k v s.1).1, (f k v s.1).2, s.2 ++ [(k, v)])

/-- The rows a walk gives to `f`, the one at which it asks to stop the last. -/
def handed (f : K → V → σ → Bool × σ) : List (K × V) → σ → List (K × V)
  | [], _ => []
  | (k, v) :: rows, s => (k, v) ::
    match f k v s with
    | (true, s') => handed f rows s'
    | (false, _) => []

variable (f : K → V → σ → Bool × σ)

theorem visit_recording : ∀ (rows : List (K × V)) (s : σ) (seen : List (K × V)),
    visit (recording f) rows (s, seen) = (visit f rows s, seen ++ handed f rows s)
  | [], s, seen => by simp [visit, handed]
  | (k, v) :: rows, s, seen => by
    have ih := visit_recording rows
    rcases hf : f k v s with ⟨_ | _, s'⟩ <;> simp [visit, handed, recording, hf, ih]

theorem handed_subset : ∀ (rows : List (K × V)) (s : σ), handed f rows s ⊆ rows
  | [], _ => by simp [handed]
  | (k, v) :: rows, s => by
    have ih := handed_subset rows
    rcases hf : f k v s with ⟨_ | _, s'⟩
    · simp [handed, hf]
    · simp only [handed, hf]
      exact cons_subset_cons _ (ih s')

/-- A walk that leaves some rows out ends as the whole walk where none of them would have been given to `f`. -/
theorem visit_filter {p : K × V → Bool} : ∀ {rows : List (K × V)} {s : σ}, (∀ e ∈ handed f rows s, p e = true) →
    visit f (rows.filter p) s = visit f rows s ∧ handed f (rows.filter p) s = handed f rows s
  | [], _, _ => ⟨rfl, rfl⟩
  | (k, v) :: rows, s, h => by
    have hhead : p (k, v) = true := h (k, v) mem_cons_self
    rw [filter_cons_of_pos hhead]
    rcases hf : f k v s with ⟨_ | _, s'⟩
    · simp [visit, handed, hf]
    · have ih := @visit_filter p rows s' fun e he => h e (by simp [handed, hf, he])
      simp [visit, handed, hf, ih]

theorem visit_recording_filter_iff (p : K × V → Bool) (rows : List (K × V)) (s : σ) :
    visit (recording f) (rows.filter p) (s, []) = visit (recording f) rows (s, []) ↔
      ∀ e ∈ (visit (recording f) rows (s, [])).2, p e = true := by
  simp only [visit_recording, nil_append, Prod.mk.injEq]
  refine ⟨fun h e he => ?_, visit_filter f⟩
  rw [← h.2] at he
  exact (mem_filter.1 (handed_subset f _ s he)).2

/-- The row a change leaves: none for a delete. -/
def changeRow (k : K) (c : Option V) : List (K × V) := (c.map (fun v => (k, v))).toList

variable {k k' : K} {rows : List (K × V)}

theorem mem_changeRow {c : Option V} {v : V} : (k', v) ∈ changeRow k c ↔ k' = k ∧ c = some v := by
  cases c with
  | none => simp [changeRow]
  | some w => simp [changeRow, eq_comm]

variable [LinearOrder K]

/-- The run without its first row, if that is of `k`. -/
def dropKey (k : K) : List (K × V) → List (K × V)
  | [] => []
  | (k', v) :: rows => if k' = k then rows else (k', v) :: rows

theorem length_dropKey_le (k : K) (rows : List (K × V)) : (dropKey k rows).length ≤ rows.length := by
  unfold dropKey
  split
  · exact le_rfl
  · split
    · simp
    · exact le_rfl

theorem mem_of_mem_dropKey {e : K × V} (h : e ∈ dropKey k rows) : e ∈ rows := by
  unfold dropKey at h
  split at h
  · exact h
  · split at h
    · exact mem_cons_of_mem _ h
    · exact h

theorem mem_dropKey_of_ne {v : V} (hne : k' ≠ k) (h : (k', v) ∈ rows) : (k', v) ∈ dropKey k rows := by
  unfold dropKey
  split
  · exact h
  · split
    · rename_i heq
      rcases mem_cons.1 h with h | h
      · exact absurd ((Prod.mk.inj h).1.trans heq) hne
      · exact h
    · exact h

theorem dropKey_sorted (h : rows.Pairwise (fun a b => a.1 < b.1)) : (dropKey k rows).Pairwise (fun a b => a.1 < b.1) := by
  unfold dropKey
  split
  · exact h
  · split
    · exact (pairwise_cons.1 h).2
    · exact h

theorem lt_of_mem_dropKey {fk : K} {fv : V}
    (h : ((fk, fv) :: rows).Pairwise (fun a b => a.1 < b.1)) (hle : k ≤ fk) :
    ∀ e ∈ dropKey k ((fk, fv) :: rows), k < e.1 := by
  have hc := pairwise_cons.1 h
  intro e he
  simp only [dropKey] at he
  split at he
  · exact hle.trans_lt (hc.1 e he)
  · rename_i hne
    rcases mem_cons.1 he with rfl | he
    · exact lt_of_le_of_ne hle (Ne.symm hne)
    · exact hle.trans_lt (hc.1 e he)

/-- Merge a sorted run with a sorted list of changes: at equal keys the change replaces the row. -/
def mergeRows : List (K × V) → List (K × Option V) → List (K × V)
  | file, [] => file
  | [], (k, c) :: mem => changeRow k c ++ mergeRows [] mem
  | (fk, fv) :: file, (k, c) :: mem =>
    if k ≤ fk then changeRow k c ++ mergeRows (dropKey k ((fk, fv) :: file)) mem
    else (fk, fv) :: mergeRows file ((k, c) :: mem)
termination_by file mem => file.length + mem.length
decreasing_by
  · simp
  · have := length_dropKey_le k ((fk, fv) :: file)
    simp only [length_cons] at this ⊢
    omega
  · simp

variable (file : List (K × V)) (mem : List (K × Option V))

theorem key_of_mem_mergeRows {P : K → Prop}
    (hf : ∀ e ∈ file, P e.1) (hm : ∀ e ∈ mem, P e.1) : ∀ e ∈ mergeRows file mem, P e.1 := by
  fun_induction mergeRows file mem with
  | case1 file => exact hf
  | case2 k c mem ih =>
    intro e he
    rcases mem_append.1 he with he | he
    · exact (mem_changeRow.1 he).1 ▸ hm (k, c) mem_cons_self
    · exact ih hf (fun e he => hm e (mem_cons_of_mem _ he)) e he
  | case3 fk fv file k c mem hle ih =>
    intro e he
    rcases mem_append.1 he with he | he
    · exact (mem_changeRow.1 he).1 ▸ hm (k, c) mem_cons_self
    · exact ih (fun e he => hf e (mem_of_mem_dropKey he))
        (fun e he => hm e (mem_cons_of_mem _ he)) e he
  | case4 fk fv file k c mem hle ih =>
    intro e he
    rcases mem_cons.1 he with rfl | he
    · exact hf _ mem_cons_self
    · exact ih (fun e he => hf e (mem_cons_of_mem _ he)) hm e he

theorem mergeRows_sorted
    (hf : file.Pairwise (fun a b => a.1 < b.1)) (hm : mem.Pairwise (fun a b => a.1 < b.1)) :
    (mergeRows file mem).Pairwise (fun a b => a.1 < b.1) := by
  fun_induction mergeRows file mem with
  | case1 file => exact hf
  | case2 k c mem ih =>
    have hc := pairwise_cons.1 hm
    refine pairwise_append.2 ⟨by cases c <;> simp [changeRow], ih hf hc.2, ?_⟩
    intro a ha b hb
    rw [(mem_changeRow.1 ha).1]
    exact key_of_mem_mergeRows [] mem (by simp) hc.1 b hb
  | case3 fk fv file k c mem hle ih =>
    have hc := pairwise_cons.1 hm
    refine pairwise_append.2
      ⟨by cases c <;> simp [changeRow], ih (dropKey_sorted hf) hc.2, ?_⟩
    intro a ha b hb
    rw [(mem_changeRow.1 ha).1]
    exact key_of_mem_mergeRows _ mem (lt_of_mem_dropKey hf hle) hc.1 b hb
  | case4 fk fv file k c mem hle ih =>
    have hcm := pairwise_cons.1 hm
    have hcf := pairwise_cons.1 hf
    refine pairwise_cons.2 ⟨?_, ih hcf.2 hm⟩
    refine key_of_mem_mergeRows file _ hcf.1 fun e he => ?_
    rcases mem_cons.1 he with rfl | he
    · exact not_le.1 hle
    · exact (not_le.1 hle).trans (hcm.1 e he)

theorem mem_mergeRows {v' : V}
    (hf : file.Pairwise (fun a b => a.1 < b.1)) (hm : mem.Pairwise (fun a b => a.1 < b.1)) :
    (k', v') ∈ mergeRows file mem ↔ (k', some v') ∈ mem ∨ (k', v') ∈ file ∧ ∀ c, (k', c) ∉ mem := by
  fun_induction mergeRows file mem with
  | case1 file => simp
  | case2 k c mem ih =>
    have hc := pairwise_cons.1 hm
    rw [mem_append, mem_changeRow, ih hf hc.2]
    simp [eq_comm]
  | case3 fk fv file k c mem hle ih =>
    have hc := pairwise_cons.1 hm
    have hkm : ∀ c', (k, c') ∉ mem := fun c' h => lt_irrefl k (hc.1 (k, c') h)
    rw [mem_append, mem_changeRow, ih (dropKey_sorted hf) hc.2]
    by_cases hk : k' = k
    · subst hk
      have hs : (k', v') ∉ dropKey k' ((fk, fv) :: file) :=
        fun h => lt_irrefl k' (lt_of_mem_dropKey hf hle _ h)
      simp [hkm, hs, eq_comm]
    · have hs : (k', v') ∈ dropKey k ((fk, fv) :: file) ↔ (k', v') ∈ (fk, fv) :: file :=
        ⟨mem_of_mem_dropKey, mem_dropKey_of_ne hk⟩
      simp only [hs, hk, false_and, false_or, mem_cons, Prod.mk.injEq]
  | case4 fk fv file k c mem hle ih =>
    have hcf := pairwise_cons.1 hf
    have hcm := pairwise_cons.1 hm
    have hfk : ∀ c', (fk, c') ∉ (k, c) :: mem := by
      intro c' h
      rcases mem_cons.1 h with h | h
      · exact hle (Prod.mk.inj h).1.ge
      · exact hle (hcm.1 _ h).le
    rw [mem_cons, ih hcf.2 hm]
    by_cases hk : k' = fk
    · subst hk
      simp [hfk]
    · simp [hk]

/-- **The merge is the run with the changes applied**: ascending, each key once, none missed. -/
theorem mergeRows_eq_entries (m : OrdMap K V) (t : OrdMap K (Option V)) :
    mergeRows m.entries t.entries = (applyChanges t.entries m).entries := by
  refine sorted_ext (mergeRows_sorted _ _ m.sorted t.sorted) (sorted _) fun e => ?_
  obtain ⟨k, v⟩ := e
  rw [mem_mergeRows _ _ m.sorted t.sorted, mem_entries, mem_entries,
    mem_entries, get_applyTable, ← get_eq_none]
  cases ht : t.get k <;> simp

/-! ## Ranges and layers -/

/-- A walk over a range of the keys sees the range of the whole. -/
theorem applyChanges_filterKeys (m : OrdMap K V) (t : OrdMap K (Option V)) (p : K → Bool) :
    applyChanges (t.filterKeys p).entries (m.filterKeys p) = (applyChanges t.entries m).filterKeys p := by
  apply OrdMap.ext_get
  intro k
  rw [get_applyTable, get_filterKeys, get_filterKeys, get_filterKeys, get_applyTable]
  cases p k <;> rfl

theorem get_extend_entries (a b : OrdMap K (Option V)) (k : K) :
    (a.extend b.entries).get k = (b.get k).or (a.get k) :=
  get_extend k b.entries a b.sorted

/-- With the file cut short, a walk lacks the rows after the cut that no change stands for. -/
theorem mergeRows_take {file : List (K × V)} (hf : file.Pairwise (fun a b => a.1 < b.1))
    (t : OrdMap K (Option V)) (n : Nat) :
    mergeRows (file.take n) t.entries = (mergeRows file t.entries).filter
      (fun e => decide (e.1 ∈ (file.drop n).map Prod.fst → t.contains e.1 = true)) := by
  have hshort := hf.sublist (take_sublist n file)
  refine sorted_ext (mergeRows_sorted _ _ hshort t.sorted) ((mergeRows_sorted _ _ hf t.sorted).filter _) ?_
  rintro ⟨k, v⟩
  rw [mem_filter, mem_mergeRows _ _ hshort t.sorted, mem_mergeRows _ _ hf t.sorted, ← get_eq_none]
  have hparts : ∀ a ∈ file.take n, ∀ b ∈ file.drop n, a.1 < b.1 :=
    (pairwise_append.1 ((take_append_drop n file).symm ▸ hf)).2.2
  have hmem : (k, v) ∈ file ↔ (k, v) ∈ file.take n ∨ (k, v) ∈ file.drop n := by
    rw [← mem_append, take_append_drop]
  cases ht : t.get k with
  | some c => simp [OrdMap.contains, ht]
  | none =>
    have hno : (k, some v) ∉ t.entries := get_eq_none.1 ht _
    simp only [hno, false_or, and_true, OrdMap.contains, ht, Option.isSome_none, Bool.false_eq_true,
      imp_false, decide_eq_true_eq]
    constructor
    · intro hin
      refine ⟨mem_of_mem_take hin, fun hdrop => ?_⟩
      obtain ⟨e, he, hk⟩ := mem_map.1 hdrop
      exact absurd hk (hparts _ hin _ he).ne'
    · rintro ⟨hin, hdrop⟩
      exact (hmem.1 hin).resolve_right fun h => hdrop (mem_map_of_mem h)

end OverlayScan
