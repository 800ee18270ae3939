import IoLake.Lib.ChangeLog

/-!
# Totals over an ordered map

`total w P m` is the sum of the weights of the entries whose key satisfies `P`.
-/

namespace OrdMap

open ChangeLog List

variable {K V A : Type} [LinearOrder K] [AddCommMonoid A]

/-- What an entry of `k`, or none, weighs in the total over `P`. -/
def weigh (w : K → V → A) (P : K → Bool) (k : K) (o : Option V) : A :=
  if P k then o.elim 0 (w k) else 0

/-- The sum of the weights of the entries in `P`. -/
def total (w : K → V → A) (P : K → Bool) (m : OrdMap K V) : A :=
  (m.entries.map (fun e => weigh w P e.1 (some e.2))).sum

variable {w : K → V → A} {P : K → Bool}

omit [LinearOrder K] in
@[simp] theorem weigh_none (k : K) : weigh w P k none = 0 := by
  simp [weigh]

variable {m : OrdMap K V}

omit [AddCommMonoid A] in
theorem entries_perm_erase {k : K} {v : V} (h : m.get k = some v) :
    m.entries.Perm ((k, v) :: (m.erase k).entries) := by
  have hnd : m.entries.Nodup := m.sorted.imp fun hab he => by rw [he] at hab; exact lt_irrefl _ hab
  have hmem : ∀ e, e ∈ (m.erase k).entries ↔ e ∈ m.entries ∧ e.1 ≠ k := by
    intro e
    simp [erase, filterKeys]
  refine (perm_ext_iff_of_nodup hnd (nodup_cons.2 ⟨?_, ?_⟩)).2 fun e => ?_
  · exact fun hk => ((hmem _).1 hk).2 rfl
  · exact hnd.filter _
  · rw [mem_cons, hmem]
    constructor
    · intro he
      by_cases hek : e.1 = k
      · obtain ⟨k', v'⟩ := e
        cases hek
        rw [mem_entries.1 he] at h
        cases h
        exact .inl rfl
      · exact .inr ⟨he, hek⟩
    · rintro (rfl | he)
      · exact mem_entries.2 h
      · exact he.1

theorem erase_of_get_none {k : K} (h : m.get k = none) : m.erase k = m := by
  apply ext_get
  intro k'
  rw [get_erase]
  split
  · rename_i hk
    rw [hk, h]
  · rfl

theorem total_eq_weigh_add (m : OrdMap K V) (k : K) :
    total w P m = weigh w P k (m.get k) + total w P (m.erase k) := by
  cases h : m.get k with
  | none => rw [weigh_none, zero_add, erase_of_get_none h]
  | some v =>
    unfold total
    rw [((entries_perm_erase h).map _).sum_eq, map_cons, sum_cons]

/-- One change moves the total by the weight it puts in and the weight it takes out. -/
theorem total_applyChange (m : OrdMap K V) (k : K) (o : Option V) :
    total w P (applyChange m (k, o)) + weigh w P k (m.get k) = total w P m + weigh w P k o := by
  have hrest : (applyChange m (k, o)).erase k = m.erase k := by
    apply ext_get
    intro k'
    rw [get_erase, get_erase, get_applyChange]
    split <;> rfl
  have hget : (applyChange m (k, o)).get k = o := by
    rw [get_applyChange, if_pos rfl]
  rw [total_eq_weigh_add (applyChange m (k, o)) k, total_eq_weigh_add m k, hrest, hget]
  abel

/-! ## Several changes of distinct keys -/

/-- An entry rewritten: what was under the key, and what is. -/
structure Rewrite (K V : Type) where
  key : K
  old : Option V
  new : Option V
  deriving DecidableEq, Repr

namespace Rewrite

def redo (r : Rewrite K V) : K × Option V := (r.key, r.new)

end Rewrite

omit [LinearOrder K] in
theorem map_redo_fst (l : List (Rewrite K V)) : (l.map Rewrite.redo).map Prod.fst = l.map (·.key) := by
  simp [Rewrite.redo]

theorem get_redo {l : List (Rewrite K V)} (m : OrdMap K V) (hnd : (l.map (·.key)).Nodup)
    {r : Rewrite K V} (hr : r ∈ l) : (applyChanges (l.map Rewrite.redo) m).get r.key = r.new :=
  get_applyChanges_of_mem m (by rwa [map_redo_fst]) (mem_map_of_mem hr)

theorem get_redo_of_not {l : List (Rewrite K V)} (m : OrdMap K V) {k : K}
    (h : ∀ r ∈ l, r.key ≠ k) : (applyChanges (l.map Rewrite.redo) m).get k = m.get k := by
  refine get_applyChanges_of_not (fun c hc => ?_) m
  obtain ⟨r, hr, rfl⟩ := mem_map.1 hc
  exact h r hr

/-- What rewritten entries weigh as they were. -/
def weighOld (w : K → V → A) (P : K → Bool) (l : List (Rewrite K V)) : A :=
  (l.map (fun r => weigh w P r.key r.old)).sum

def weighNew (w : K → V → A) (P : K → Bool) (l : List (Rewrite K V)) : A :=
  (l.map (fun r => weigh w P r.key r.new)).sum

/-- The same of several changes of distinct keys. -/
theorem total_rewrites : ∀ {l : List (Rewrite K V)} {m : OrdMap K V},
    (l.map (·.key)).Nodup → (∀ r ∈ l, m.get r.key = r.old) →
      total w P (applyChanges (l.map Rewrite.redo) m) + weighOld w P l = total w P m + weighNew w P l
  | [], m, _, _ => by simp [weighOld, weighNew]
  | r :: l, m, hnd, hold => by
    obtain ⟨hr, hnd⟩ := nodup_cons.1 hnd
    have ih := total_rewrites (m := applyChange m r.redo) hnd fun r' hr' => by
      have hne : r'.key ≠ r.redo.1 := fun he => hr (mem_map.2 ⟨r', hr', he⟩)
      rw [get_applyChange, if_neg hne, hold r' (mem_cons_of_mem _ hr')]
    have hone := total_applyChange (w := w) (P := P) m r.key r.new
    rw [hold r mem_cons_self] at hone
    simp only [weighOld, weighNew, map_cons, sum_cons] at ih ⊢
    calc total w P (applyChanges (l.map Rewrite.redo) (applyChange m r.redo)) +
          (weigh w P r.key r.old + (l.map fun r => weigh w P r.key r.old).sum)
        = (total w P (applyChanges (l.map Rewrite.redo) (applyChange m r.redo)) +
          (l.map fun r => weigh w P r.key r.old).sum) + weigh w P r.key r.old := by abel
      _ = (total w P (applyChange m r.redo) + weigh w P r.key r.old) +
          (l.map fun r => weigh w P r.key r.new).sum := by
        rw [ih]
        abel
      _ = (total w P m + weigh w P r.key r.new) + (l.map fun r => weigh w P r.key r.new).sum := by
        rw [← hone]
        rfl
      _ = _ := by abel

/-! ## Keys that do not matter -/

omit [LinearOrder K] in
theorem sum_map_filter {f : K × V → A} {p : K × V → Bool} : ∀ {l : List (K × V)},
    (∀ e ∈ l, p e = false → f e = 0) → ((l.filter p).map f).sum = (l.map f).sum
  | [], _ => rfl
  | e :: l, h => by
    have ih := sum_map_filter fun e' he' => h e' (mem_cons_of_mem _ he')
    cases hp : p e with
    | true => rw [filter_cons_of_pos hp, map_cons, sum_cons, ih, map_cons, sum_cons]
    | false => rw [filter_cons_of_neg (by simp [hp]), ih, map_cons, sum_cons, h e mem_cons_self hp, zero_add]

theorem total_congr {W : K → Bool} (hW : ∀ k v, W k = false → w k v = 0) {m' : OrdMap K V}
    (h : ∀ k, W k = true → m.get k = m'.get k) : total w P m = total w P m' := by
  have hfilter : ∀ m : OrdMap K V, total w P (m.filterKeys W) = total w P m := by
    intro m
    refine sum_map_filter fun e _ he => ?_
    simp [weigh, hW _ _ he]
  have heq : m.filterKeys W = m'.filterKeys W := by
    apply ext_get
    intro k
    rw [get_filterKeys, get_filterKeys]
    split
    · rename_i hk
      exact h k hk
    · rfl
  rw [← hfilter m, ← hfilter m', heq]

end OrdMap
