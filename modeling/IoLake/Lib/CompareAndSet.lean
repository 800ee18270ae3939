import IoLake.Lib.OrdMap

/-!
# Compare-and-set of several keys at once

An operation names a key, the value it is expected to have and the value it is to get, each possibly none.  A
list of operations is applied whole, where every expectation holds of the map as it was, or not at all.
-/

namespace CompareAndSet

open List

variable {K V : Type}

structure Op (K V : Type) where
  key : K
  expected : Option V
  newValue : Option V
deriving DecidableEq, Repr

variable [LinearOrder K]

/-- The key given a value, or removed. -/
def set (m : OrdMap K V) (k : K) : Option V → OrdMap K V
  | some v => m.insert k v
  | none => m.erase k

theorem get_set (m : OrdMap K V) (k k' : K) (v : Option V) :
    (set m k v).get k' = if k' = k then v else m.get k' := by
  cases v with
  | some v => rw [set, OrdMap.get_insert]
  | none => rw [set, OrdMap.get_erase]

/-- Every operation's value, in turn. -/
def write (m : OrdMap K V) (ops : List (Op K V)) : OrdMap K V :=
  ops.foldl (fun m op => set m op.key op.newValue) m

theorem get_write_singleton (m : OrdMap K V) (op : Op K V) (k : K) :
    (write m [op]).get k = if k = op.key then op.newValue else m.get k := get_set m op.key k op.newValue

theorem get_write_of_notMem {k : K} : ∀ {ops : List (Op K V)} {m : OrdMap K V},
    k ∉ ops.map Op.key → (write m ops).get k = m.get k
  | [], _, _ => rfl
  | op :: ops, m, h => by
    rw [map_cons, mem_cons, not_or] at h
    have ih := get_write_of_notMem (m := set m op.key op.newValue) h.2
    rw [get_set, if_neg h.1] at ih
    exact ih

theorem get_write_of_key {k : K} : ∀ {ops : List (Op K V)} {m : OrdMap K V}, k ∈ ops.map Op.key →
    ∃ op ∈ ops, op.key = k ∧ (write m ops).get k = op.newValue := by
  intro ops
  induction ops with
  | nil =>
    intro m h
    cases h
  | cons first ops ih =>
    intro m h
    by_cases hk : k ∈ ops.map Op.key
    · obtain ⟨op, hop, hkey, hget⟩ := ih (m := set m first.key first.newValue) hk
      exact ⟨op, mem_cons_of_mem _ hop, hkey, hget⟩
    · rcases mem_cons.1 h with rfl | h
      · refine ⟨first, mem_cons_self, rfl, ?_⟩
        have hrest := get_write_of_notMem (m := set m first.key first.newValue) hk
        rw [get_set, if_pos rfl] at hrest
        exact hrest
      · exact absurd h hk

variable [DecidableEq V]

/-- The places of the operations whose expectation fails. -/
def failed (m : OrdMap K V) (ops : List (Op K V)) : List Nat :=
  (ops.zipIdx.filter fun op => m.get op.1.key ≠ op.1.expected).map Prod.snd

theorem failed_eq_nil {m : OrdMap K V} {ops : List (Op K V)} :
    failed m ops = [] ↔ ∀ op ∈ ops, m.get op.key = op.expected := by
  rw [failed, map_eq_nil_iff, filter_eq_nil_iff]
  constructor
  · intro h op hop
    obtain ⟨i, hi⟩ := mem_iff_getElem?.1 hop
    have := h (op, i) (mk_mem_zipIdx_iff_getElem?.2 hi)
    simpa using this
  · rintro h ⟨op, i⟩ hop
    have := h op (mem_of_getElem? (mk_mem_zipIdx_iff_getElem?.1 hop))
    simpa using this

def apply (m : OrdMap K V) (ops : List (Op K V)) : Option (OrdMap K V) :=
  if failed m ops = [] then some (write m ops) else none

theorem apply_eq_some {m m' : OrdMap K V} {ops : List (Op K V)} :
    apply m ops = some m' ↔ (∀ op ∈ ops, m.get op.key = op.expected) ∧ m' = write m ops := by
  rw [apply]
  split
  · rename_i h
    rw [Option.some.injEq]
    exact ⟨fun h' => ⟨failed_eq_nil.1 h, h'.symm⟩, fun h' => h'.2.symm⟩
  · rename_i h
    constructor
    · intro h'
      cases h'
    · intro h'
      exact absurd (failed_eq_nil.2 h'.1) h

end CompareAndSet
