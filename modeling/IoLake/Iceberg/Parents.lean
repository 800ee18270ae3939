import IoLake.Iceberg.Catalog
import IoLake.Lib.Steps

/-!
# Tables and namespaces keep their parents

The leader's calls run side by side: each checks the copy in memory, then its compare-and-set is applied to
the rows, then the copy follows.  A compare-and-set compares only the row it writes.
-/

namespace IoLake.Iceberg.Parents

open List Option Function Steps CompareAndSet

structure Task where
  warehouse : Text
  call : Call
  stage : Stage
  landed : Bool := false

/-- `home` and `parent`, which namespace a table or a nested namespace was put into, are not kept by the code.
-/
structure World where
  rows : Rows := ⟨.empty, .empty⟩
  cache : Cache := ⟨.empty, .empty⟩
  tasks : List Task := []
  home : Text → Option Text := fun _ => none
  parent : Text → Option Text := fun _ => none

def tableMade (w : Text) : Call → Option (Text × Text)
  | .createTable levels name _ _ => some (tableKeyWh w levels name, nsKeyWh w levels)
  | .renameTable _ _ dest destName => some (tableKey dest destName, nsKey dest)
  | _ => none

def namespaceMade (w : Text) : Call → Option (Text × Option Text)
  | .createNamespace levels _ =>
    some (nsKeyWh w levels, if 1 < levels.length then some (nsKeyWh w levels.dropLast) else none)
  | _ => none

def namespaceDropped (w : Text) : Call → Option Text
  | .dropNamespace levels => some (nsKeyWh w levels)
  | _ => none

inductive Event
  | check (warehouse : Text) (now : Nat) (call : Call)
  | commit (task : Nat)
  | mirror (task : Nat)

def step (s : World) : Event → Option World
  | .check w now call =>
    match prepare w now s.cache call with
    | .error _ => some s
    | .ok stage => some { s with tasks := s.tasks ++ [{ warehouse := w, call := call, stage := stage }] }
  | .commit i =>
    match s.tasks[i]? with
    | some t =>
      if t.landed then none else
      match t.stage.commit s.rows with
      | .error _ => some { s with tasks := s.tasks.eraseIdx i }
      | .ok rows => some { s with
          rows := rows
          tasks := s.tasks.set i { t with landed := true }
          home := ((tableMade t.warehouse t.call).elim s.home
            fun made => update s.home made.1 (some made.2))
          parent := ((namespaceMade t.warehouse t.call).elim s.parent
            fun made => update s.parent made.1 made.2) }
    | none => none
  | .mirror i =>
    match s.tasks[i]? with
    | some t =>
      if t.landed then
        some { s with cache := t.stage.mirror s.cache, tasks := s.tasks.eraseIdx i }
      else none
    | none => none

structure World.Closed (s : World) : Prop where
  table : ∀ k entry, s.rows.tables.get k = some entry →
    ∃ p, s.home k = some p ∧ below p <+: k ∧ s.rows.namespaces.contains p = true
  nested : ∀ k ns p, s.rows.namespaces.get k = some ns → s.parent k = some p →
    below p <+: k ∧ s.rows.namespaces.contains p = true

def Checked (w : Text) (rows : Rows) : Call → Prop
  | .createNamespace levels _ =>
    1 < levels.length → rows.namespaces.contains (nsKeyWh w levels.dropLast) = true
  | .dropNamespace levels => keysFrom rows.tables (below (nsKeyWh w levels)) = [] ∧
    keysFrom rows.namespaces (below (nsKeyWh w levels)) = []
  | .createTable levels _ _ _ => rows.namespaces.contains (nsKeyWh w levels) = true
  | .renameTable _ _ dest _ => rows.namespaces.contains (nsKey dest) = true
  | _ => True

instance (w : Text) (rows : Rows) (call : Call) : Decidable (Checked w rows call) := by
  apply @Call.casesOn (fun c => Decidable (Checked w rows c)) call <;> intros <;>
    dsimp only [Checked] <;> infer_instance

/-- When a call's compare-and-set is applied, its checks hold of the rows. -/
def StillChecked (s : World) : Event → Prop
  | .commit i => (s.tasks[i]?.all fun t =>
      (t.stage.commit s.rows).toOption.isNone || decide (Checked t.warehouse s.rows t.call)) = true
  | _ => True

instance (s : World) (e : Event) : Decidable (StillChecked s e) := by
  cases e <;> unfold StillChecked <;> infer_instance

variable {k : Text}

theorem not_prefix_of_keysFrom {V : Type} {m : OrdMap Text V} {start : Text}
    (h : keysFrom m start = []) (hk : m.contains k = true) : ¬ start <+: k := by
  obtain ⟨v, hv⟩ := OrdMap.contains_iff.1 hk
  have := filter_eq_nil_iff.1 h k (mem_map_of_mem hv)
  simpa using this

section Commit

variable {w : Text} {now : Nat} {cache : Cache} {call : Call} {stage : Stage} {rows rows' : Rows}

theorem contains_of_get {V : Type} {m : OrdMap Text V} {v : V} (h : m.get k = some v) :
    m.contains k = true := by
  rw [OrdMap.contains, h]
  rfl

theorem table_before (hops : stage.Ops (call.NsOp w) (call.TableOp w now cache))
    (h : stage.commit rows = .ok rows') {entry : TableEntry} (hk : rows'.tables.get k = some entry) :
    rows.tables.contains k = true ∨ ∃ p, tableMade w call = some (k, p) := by
  cases stage with
  | answer a =>
    cases h
    exact .inl (contains_of_get hk)
  | namespaces ops conflict a =>
    obtain ⟨-, rfl⟩ := Stage.commit_namespaces _ h
    exact .inl (contains_of_get hk)
  | tables ops conflict a =>
    obtain ⟨hexpected, rfl⟩ := Stage.commit_tables _ h
    by_cases hmem : k ∈ ops.map CompareAndSet.Op.key
    · obtain ⟨op, hop, rfl, hnew⟩ := get_write_of_key (m := rows.tables) hmem
      have hbefore := hexpected op hop
      have hsome : op.newValue = some entry := hnew.symm.trans hk
      have hop := hops op hop
      cases call <;> simp only [Call.TableOp, TableChange.OpFor] at hop <;> try contradiction
      case createTable => exact .inr ⟨_, by rw [hop]; rfl⟩
      case renameTable =>
        rcases hop with ⟨_, rfl | rfl⟩
        · cases hsome
        · exact .inr ⟨_, rfl⟩
      case commitTransaction =>
        obtain ⟨_, -, _, -, -, rfl⟩ := hop
        exact .inl (contains_of_get hbefore)
      case commitTable =>
        obtain ⟨_, -, -, rfl⟩ := hop
        exact .inl (contains_of_get hbefore)
      all_goals
        obtain ⟨_, rfl⟩ := hop
        exact .inl (contains_of_get hbefore)
    · have hsame := get_write_of_notMem (m := rows.tables) hmem
      exact .inl (contains_of_get (hsame.symm.trans hk))

theorem namespaces_before (hops : stage.Ops (call.NsOp w) (call.TableOp w now cache))
    (h : stage.commit rows = .ok rows') (k : Text) : (rows'.namespaces.contains k = true →
      rows.namespaces.contains k = true ∨ ∃ p, namespaceMade w call = some (k, p)) ∧
    (rows.namespaces.contains k = true →
      rows'.namespaces.contains k = true ∨ namespaceDropped w call = some k) := by
  cases stage with
  | answer a =>
    cases h
    exact ⟨.inl, .inl⟩
  | tables ops conflict a =>
    obtain ⟨-, rfl⟩ := Stage.commit_tables _ h
    exact ⟨.inl, .inl⟩
  | namespaces ops conflict a =>
    obtain ⟨hexpected, rfl⟩ := Stage.commit_namespaces _ h
    by_cases hmem : k ∈ ops.map CompareAndSet.Op.key
    · obtain ⟨op, hop, rfl, hnew⟩ := get_write_of_key (m := rows.namespaces) hmem
      have hbefore := hexpected op hop
      have hop := hops op hop
      simp only [OrdMap.contains, hnew, hbefore]
      cases call <;> simp only [Call.NsOp] at hop <;> try contradiction
      · subst hop
        exact ⟨fun _ => .inr ⟨_, rfl⟩, fun h => .inl rfl⟩
      · obtain ⟨_, rfl⟩ := hop
        exact ⟨fun _ => .inl rfl, fun _ => .inr rfl⟩
      · obtain ⟨_, _, rfl⟩ := hop
        exact ⟨fun _ => .inl rfl, fun _ => .inl rfl⟩
    · rw [OrdMap.contains, OrdMap.contains, get_write_of_notMem hmem]
      exact ⟨.inl, .inl⟩

end Commit

/-! ## Runs -/

structure Inv (s : World) : Prop where
  closed : s.Closed
  tasks : ∀ t ∈ s.tasks, ∃ now cache,
    t.stage.Ops (t.call.NsOp t.warehouse) (t.call.TableOp t.warehouse now cache)

theorem Inv.init : Inv {} :=
  ⟨⟨nofun, nofun⟩, nofun⟩

theorem World.Closed.commit {s : World} {t : Task} {rows : Rows} (hs : s.Closed) (hops : ∃ now cache,
      t.stage.Ops (t.call.NsOp t.warehouse) (t.call.TableOp t.warehouse now cache))
    (hrows : t.stage.commit s.rows = .ok rows) (hchecked : Checked t.warehouse s.rows t.call)
    (tasks : List Task) : World.Closed { s with
      rows := rows
      tasks := tasks
      home := ((tableMade t.warehouse t.call).elim s.home
        fun made => update s.home made.1 (some made.2))
      parent := ((namespaceMade t.warehouse t.call).elim s.parent
        fun made => update s.parent made.1 made.2) } := by
  obtain ⟨now, cache, hops⟩ := hops
  have hns := namespaces_before hops hrows
  -- A namespace that something is still in was not dropped.
  have hkept : ∀ p k, s.rows.namespaces.contains p = true → below p <+: k →
      (s.rows.tables.contains k = true ∨ s.rows.namespaces.contains k = true) →
      rows.namespaces.contains p = true := by
    intro p k hp hbelow hk
    rcases (hns p).2 hp with h | h
    · exact h
    · cases hcall : t.call <;> rw [hcall] at h hchecked <;> simp [namespaceDropped] at h
      subst h
      rcases hk with hk | hk
      · exact absurd hbelow (not_prefix_of_keysFrom hchecked.1 hk)
      · exact absurd hbelow (not_prefix_of_keysFrom hchecked.2 hk)
  constructor
  · intro k entry hk
    by_cases hmade : ∃ p, tableMade t.warehouse t.call = some (k, p)
    · obtain ⟨p, hmade⟩ := hmade
      refine ⟨p, by simp [hmade], ?_⟩
      have hparent : below p <+: k ∧ s.rows.namespaces.contains p = true ∧
          namespaceDropped t.warehouse t.call = none := by
        cases hcall : t.call <;> rw [hcall] at hmade hchecked <;> simp [tableMade] at hmade
        all_goals
          obtain ⟨rfl, rfl⟩ := hmade
          refine ⟨?_, hchecked, rfl⟩
          simp only [tableKeyWh_eq, tableKey_eq, prefix_append]
      refine ⟨hparent.1, ?_⟩
      rcases (hns p).2 hparent.2.1 with h | h
      · exact h
      · rw [hparent.2.2] at h
        cases h
    · have hbefore := (table_before hops hrows hk).resolve_right hmade
      obtain ⟨old, hold⟩ := isSome_iff_exists.1 hbefore
      obtain ⟨p, hhome, hbelow, hp⟩ := hs.table k old hold
      refine ⟨p, ?_, hbelow, hkept p k hp hbelow (.inl hbefore)⟩
      cases hm : tableMade t.warehouse t.call with
      | none => exact hhome
      | some made =>
        have hne : k ≠ made.1 := fun e => hmade ⟨made.2, by rw [hm, e]⟩
        simpa [update_of_ne hne] using hhome
  · intro k ns p hk hp
    by_cases hmade : ∃ q, namespaceMade t.warehouse t.call = some (k, q)
    · obtain ⟨q, hmade⟩ := hmade
      have hq : q = some p := by simpa [hmade] using hp
      cases hcall : t.call <;> rw [hcall] at hmade hchecked <;> simp [namespaceMade] at hmade
      rename_i levels properties
      obtain ⟨rfl, rfl⟩ := hmade
      split at hq
      · rename_i hlen
        cases hq
        refine ⟨below_dropLast t.warehouse hlen, ?_⟩
        rcases (hns _).2 (hchecked hlen) with h | h
        · exact h
        · rw [hcall] at h
          cases h
      · cases hq
    · have hbefore := ((hns k).1 (contains_of_get hk)).resolve_right hmade
      obtain ⟨old, hold⟩ := isSome_iff_exists.1 hbefore
      have hp' : s.parent k = some p := by
        cases hm : namespaceMade t.warehouse t.call with
        | none => simpa [hm] using hp
        | some made =>
          have hne : k ≠ made.1 := fun e => hmade ⟨made.2, by rw [hm, e]⟩
          simpa [hm, update_of_ne hne] using hp
      obtain ⟨hbelow, hcontains⟩ := hs.nested k old p hold hp'
      exact ⟨hbelow, hkept p k hcontains hbelow (.inr hbefore)⟩

theorem Inv.step {s s' : World} {e : Event} (hi : Inv s) (hok : StillChecked s e)
    (h : step s e = some s') : Inv s' := by
  cases e with
  | check w now call =>
    simp only [Parents.step] at h
    split at h
    · cases h
      exact hi
    · rename_i stage hstage
      cases h
      refine ⟨⟨hi.closed.table, hi.closed.nested⟩, fun t ht => ?_⟩
      rcases mem_append.1 ht with ht | ht
      · exact hi.tasks t ht
      · cases mem_singleton.1 ht
        exact ⟨now, s.cache, prepare_ops w now s.cache call stage hstage⟩
  | commit i =>
    simp only [Parents.step] at h
    split at h
    · rename_i t ht
      have hops := hi.tasks t (mem_of_getElem? ht)
      split at h
      · cases h
      · split at h
        · cases h
          exact ⟨⟨hi.closed.table, hi.closed.nested⟩, fun t ht => hi.tasks t (mem_of_mem_eraseIdx ht)⟩
        · rename_i rows hrows
          cases h
          have hchecked : Checked t.warehouse s.rows t.call := by
            simpa [StillChecked, ht, hrows, Except.toOption] using hok
          refine ⟨hi.closed.commit hops hrows hchecked _, fun t' ht' => ?_⟩
          rcases mem_or_eq_of_mem_set ht' with ht' | rfl
          · exact hi.tasks t' ht'
          · exact hops
    · cases h
  | mirror i =>
    simp only [Parents.step] at h
    split at h
    · split at h
      · cases h
        exact ⟨⟨hi.closed.table, hi.closed.nested⟩, fun t ht => hi.tasks t (mem_of_mem_eraseIdx ht)⟩
      · cases h
    · cases h

/-- **No table and no namespace without its parent**, where the checks of each call still hold of the rows
when its compare-and-set is applied. -/
theorem parents_exist (events : List Event) (s : World)
    (hok : Steps.Along step StillChecked {} events) (h : Steps.run step {} events = some s) : s.Closed :=
  (run_invariant_along (I := Inv) (fun _ _ _ hi hok hs => hi.step hok hs) events {} s .init hok
    h).closed

def nestedRun : List Event :=
  [.check ['w'] 1 (.createNamespace [['n']] .empty), .commit 0, .mirror 0,
   .check ['w'] 2 (.createTable [['n']] ['t'] ['l'] ['m']),
   .check ['w'] 3 (.createNamespace [['n'], ['k']] .empty), .commit 1, .commit 0]

theorem nestedRun_closed : ∃ s, Steps.run step {} nestedRun = some s ∧
    s.rows.tables.contains (tableKeyWh ['w'] [['n']] ['t']) = true ∧ s.Closed := by
  obtain ⟨s, hs, htable⟩ : ∃ s, run step {} nestedRun = some s ∧
      s.rows.tables.contains (tableKeyWh ['w'] [['n']] ['t']) = true := by
    decide +kernel
  exact ⟨s, hs, htable, parents_exist nestedRun s (by decide +kernel) hs⟩

def crossedRun : List Event :=
  [.check ['w'] 1 (.createNamespace [['n']] .empty), .commit 0, .mirror 0,
   .check ['w'] 2 (.createTable [['n']] ['t'] ['l'] ['m']),
   .check ['w'] 3 (.dropNamespace [['n']]), .commit 0, .commit 1, .mirror 0, .mirror 0]

/-- **A table is left without its namespace**: the drop saw no table in it. -/
theorem table_without_namespace : ∃ s, Steps.run step {} crossedRun = some s ∧
    s.home (tableKeyWh ['w'] [['n']] ['t']) = some (nsKeyWh ['w'] [['n']]) ∧
    s.rows.tables.contains (tableKeyWh ['w'] [['n']] ['t']) = true ∧
    s.rows.namespaces.contains (nsKeyWh ['w'] [['n']]) = false ∧ ¬ s.Closed := by
  obtain ⟨s, hs, hhome, htable, hns⟩ : ∃ s, run step {} crossedRun = some s ∧
      s.home (tableKeyWh ['w'] [['n']] ['t']) = some (nsKeyWh ['w'] [['n']]) ∧
      s.rows.tables.contains (tableKeyWh ['w'] [['n']] ['t']) = true ∧
      s.rows.namespaces.contains (nsKeyWh ['w'] [['n']]) = false := by
    decide +kernel
  refine ⟨s, hs, hhome, htable, hns, fun hclosed => ?_⟩
  obtain ⟨entry, hentry⟩ := isSome_iff_exists.1 htable
  obtain ⟨p, hp, -, hcontains⟩ := hclosed.table _ entry hentry
  cases hhome.symm.trans hp
  rw [hns] at hcontains
  cases hcontains

end IoLake.Iceberg.Parents
