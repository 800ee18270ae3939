import IoLake.Iceberg.Catalog

/-!
# Warehouses do not see each other

A request resolves its warehouse once and from then on speaks to the catalog through calls made for that
warehouse, each chosen from the answers so far.  Isolation is a statement about two runs of one request, from
states that differ only in the rows of other warehouses.
-/

namespace IoLake.Iceberg

open List OrdMap

open CompareAndSet (Op)

variable {α N T V : Type}

/-- A request once its warehouse is resolved: the calls it makes, each from the answers so far, and its own
answer. -/
inductive Prog (α : Type)
  | ret (a : α)
  | call (c : Call) (next : Except Status Answer → Prog α)

def Prog.run (w : Text) (clock : Nat → Nat) : Prog α → Nat → Leader → α × Leader
  | .ret a, _, s => (a, s)
  | .call c next, t, s =>
    let (answer, s) := exec w (clock t) c s
    (next answer).run w clock (t + 1) s

def Prog.gather : List Call → List (Except Status Answer) → (List (Except Status Answer) → Prog α) → Prog α
  | [], got, next => next got
  | c :: cs, got, next => .call c fun a => gather cs (got ++ [a]) next

def CATALOG_POLICY_NAMESPACE : Text := ['_', '_', 'c', 'a', 't', 'a', 'l', 'o', 'g']

def namespaceChain (levels : List Text) : List Call :=
  .loadNamespace [CATALOG_POLICY_NAMESPACE] :: levels.inits.tail.map .loadNamespace

inductive Reply
  | noContent
  | forbidden
  | failed (status : Status)
deriving DecidableEq, Repr

def renameTableHandler (grants : List (Except Status Answer) → Bool) (source : List Text)
    (sourceName : Text) (dest : List Text) (destName : Text) : Prog Reply :=
  .gather (namespaceChain source ++ [.getTablePolicy source sourceName]) [] fun policies =>
    if grants policies = false then .ret .forbidden
    else .gather (namespaceChain dest) [] fun policies =>
      if grants policies = false then .ret .forbidden
      else .call (.renameTable source sourceName dest destName) fun
        | .ok _ => .ret .noContent
        | .error e => .ret (.failed e)

/-! ## Rows of a warehouse -/

def RowOf (w k : Text) : Prop := warehousePrefix w <+: k

instance (w k : Text) : Decidable (RowOf w k) := inferInstanceAs (Decidable (_ <+: _))

theorem rowOf_nsKeyWh (w : Text) (levels : List Text) : RowOf w (nsKeyWh w levels) := by
  rw [RowOf, nsKeyWh_eq]
  exact prefix_append _ _

variable {k : Text} {stage : Stage}

theorem RowOf.append {w : Text} (h : RowOf w k) (more : Text) : RowOf w (k ++ more) :=
  h.trans (prefix_append _ _)

theorem rowOf_tableKeyWh (w : Text) (levels : List Text) (name : Text) :
    RowOf w (tableKeyWh w levels name) := (rowOf_nsKeyWh w levels).append _

theorem takeWhile_of_rowOf {w : Text} (h : RowOf w k) (hne : w ≠ []) (hw : '\x01' ∉ w) :
    k.takeWhile (· ≠ '\x01') = w := by
  obtain ⟨rest, rfl⟩ := h
  have hempty : w.isEmpty = false := by simpa using hne
  rw [warehousePrefix, hempty, if_neg (by decide), append_assoc, takeWhile_append_of_pos]
  · simp
  · intro c hc
    have : c ≠ '\x01' := fun e => hw (e ▸ hc)
    simpa using this

def Foreign (warehouses : List Text) (w k : Text) : Prop := ∃ v ∈ warehouses, v ≠ w ∧ RowOf v k

instance (warehouses : List Text) (w k : Text) : Decidable (Foreign warehouses w k) :=
  inferInstanceAs (Decidable (∃ v ∈ warehouses, _))

def Plain (warehouses : List Text) : Prop := ∀ v ∈ warehouses, v ≠ [] ∧ '\x01' ∉ v

instance (warehouses : List Text) : Decidable (Plain warehouses) :=
  inferInstanceAs (Decidable (∀ v ∈ warehouses, _))

theorem RowOf.not_foreign {warehouses : List Text} {w : Text} (h : RowOf w k) (hw : w ∈ warehouses)
    (hplain : Plain warehouses) : ¬ Foreign warehouses w k := by
  rintro ⟨v, hv, hne, hrow⟩
  apply hne
  rw [← takeWhile_of_rowOf hrow (hplain v hv).1 (hplain v hv).2,
    takeWhile_of_rowOf h (hplain w hw).1 (hplain w hw).2]

/-! ## Agreement on a set of keys -/

/-- The same rows under every key of `P`. -/
structure Tables.Agree (P : Text → Prop) (a b : Tables N T) : Prop where
  namespaces : ∀ k, P k → a.namespaces.get k = b.namespaces.get k
  tables : ∀ k, P k → a.tables.get k = b.tables.get k

structure Leader.Agree (P : Text → Prop) (s s' : Leader) : Prop where
  rows : s.rows.Agree P s'.rows
  cache : s.cache.Agree P s'.cache

variable {P : Text → Prop}

theorem Tables.Agree.mono {a b : Tables N T} {Q : Text → Prop} (h : a.Agree P b)
    (hpq : ∀ k, Q k → P k) : a.Agree Q b :=
  ⟨fun k hk => h.namespaces k (hpq k hk), fun k hk => h.tables k (hpq k hk)⟩

theorem Tables.Agree.refl (a : Tables N T) : a.Agree P a := ⟨fun _ _ => rfl, fun _ _ => rfl⟩

theorem Leader.Agree.refl (s : Leader) : s.Agree P s := ⟨.refl _, .refl _⟩

theorem Leader.Agree.trans {s s' s'' : Leader} (h : s.Agree P s') (h' : s'.Agree P s'') : s.Agree P s'' :=
  ⟨⟨fun k hk => (h.rows.namespaces k hk).trans (h'.rows.namespaces k hk),
    fun k hk => (h.rows.tables k hk).trans (h'.rows.tables k hk)⟩,
   ⟨fun k hk => (h.cache.namespaces k hk).trans (h'.cache.namespaces k hk),
    fun k hk => (h.cache.tables k hk).trans (h'.cache.tables k hk)⟩⟩

theorem keysFrom_congr {m m' : OrdMap Text V} {start : Text}
    (h : ∀ k, start <+: k → m.get k = m'.get k) : keysFrom m start = keysFrom m' start := by
  have hfilter : m.filterKeys (start.isPrefixOf ·) = m'.filterKeys (start.isPrefixOf ·) := by
    apply OrdMap.ext_get
    intro k
    rw [get_filterKeys, get_filterKeys]
    split
    · rename_i hk
      exact h k (List.isPrefixOf_iff_prefix.1 hk)
    · rfl
  have key (m : OrdMap Text V) : keysFrom m start =
      ((m.filterKeys (start.isPrefixOf ·)).entries).map Prod.fst := by
    rw [keysFrom, filterKeys, filter_map]
    rfl
  rw [key, key, hfilter]

section CompareAndSet

variable {m m' : OrdMap Text V} {ops : List (Op Text V)}

theorem get_write_congr (h : ∀ k, P k → m.get k = m'.get k) :
    ∀ k, P k → (CompareAndSet.write m ops).get k = (CompareAndSet.write m' ops).get k := by
  induction ops generalizing m m' with
  | nil => exact h
  | cons op ops ih =>
    apply ih
    intro k hk
    rw [CompareAndSet.get_set, CompareAndSet.get_set, h k hk]

theorem get_write_frame (hkeys : ∀ op ∈ ops, P op.key) (hk : ¬ P k) :
    (CompareAndSet.write m ops).get k = m.get k := by
  apply CompareAndSet.get_write_of_notMem
  intro hmem
  obtain ⟨op, hop, rfl⟩ := mem_map.1 hmem
  exact hk (hkeys op hop)

theorem failed_congr [DecidableEq V] (h : ∀ k, P k → m.get k = m'.get k)
    (hkeys : ∀ op ∈ ops, P op.key) : CompareAndSet.failed m ops = CompareAndSet.failed m' ops := by
  unfold CompareAndSet.failed
  congr 1
  apply filter_congr
  rintro ⟨op, i⟩ hop
  have hmem : op ∈ ops := mem_of_getElem? (mk_mem_zipIdx_iff_getElem?.1 hop)
  rw [h op.key (hkeys op hmem)]

end CompareAndSet

/-- The three keys of a rename, made without a warehouse, are of `P`; every other call's are of its own. -/
def Call.Within (P : Text → Prop) : Call → Prop
  | .renameTable source sourceName dest destName =>
    P (tableKey source sourceName) ∧ P (nsKey dest) ∧ P (tableKey dest destName)
  | _ => True

section Prepare

variable {w : Text} (now : Nat) {cache cache' : Cache}

theorem prepare_congr {c : Call} (hc : c.Within P) (hP : ∀ k, RowOf w k → P k) (h : cache.Agree P cache') :
    prepare w now cache c = prepare w now cache' c := by
  have hns : ∀ levels, cache.namespaces.get (nsKeyWh w levels) =
      cache'.namespaces.get (nsKeyWh w levels) := fun levels => h.namespaces _ (hP _ (rowOf_nsKeyWh w levels))
  have htable : ∀ levels name, cache.tables.get (tableKeyWh w levels name) =
      cache'.tables.get (tableKeyWh w levels name) :=
    fun levels name => h.tables _ (hP _ (rowOf_tableKeyWh w levels name))
  have hnsAt : ∀ levels, cache.namespaceAt (nsKeyWh w levels) = cache'.namespaceAt (nsKeyWh w levels) := by
    intro levels
    rw [Tables.namespaceAt, Tables.namespaceAt, hns]
  have htableAt : ∀ levels name, cache.tableAt (tableKeyWh w levels name) =
      cache'.tableAt (tableKeyWh w levels name) := by
    intro levels name
    rw [Tables.tableAt, Tables.tableAt, htable]
  have hnsIn : ∀ levels, cache.namespaces.contains (nsKeyWh w levels) =
      cache'.namespaces.contains (nsKeyWh w levels) := by
    intro levels
    rw [OrdMap.contains, OrdMap.contains, hns]
  have htableIn : ∀ levels name, cache.tables.contains (tableKeyWh w levels name) =
      cache'.tables.contains (tableKeyWh w levels name) := by
    intro levels name
    rw [OrdMap.contains, OrdMap.contains, htable]
  have hbelow : ∀ levels, ∀ k, below (nsKeyWh w levels) <+: k → P k :=
    fun levels k hk => hP k (((rowOf_nsKeyWh w levels).append _).trans hk)
  have hkeysNs : ∀ levels, keysFrom cache.namespaces (below (nsKeyWh w levels)) =
      keysFrom cache'.namespaces (below (nsKeyWh w levels)) :=
    fun levels => keysFrom_congr fun k hk => h.namespaces k (hbelow levels k hk)
  have hkeysTable : ∀ levels, keysFrom cache.tables (below (nsKeyWh w levels)) =
      keysFrom cache'.tables (below (nsKeyWh w levels)) :=
    fun levels => keysFrom_congr fun k hk => h.tables k (hbelow levels k hk)
  have hkeysAll : keysFrom cache.namespaces (warehousePrefix w) =
      keysFrom cache'.namespaces (warehousePrefix w) := keysFrom_congr fun k hk => h.namespaces k (hP k hk)
  cases c with
  | listNamespaces parent pageSize pageToken =>
    by_cases hparent : parent.isEmpty
    · simp only [prepare, listNamespaces, hparent, if_true, isEmpty_nil, namesFrom, hkeysAll]
    · by_cases hkey : (nsKeyWh w parent).isEmpty
      · simp only [prepare, listNamespaces, hparent, Bool.false_eq_true, if_false, hkey, if_true,
          namesFrom, hkeysAll]
      · simp only [prepare, listNamespaces, hparent, Bool.false_eq_true, if_false, hkey, hnsIn,
          namesFrom, hkeysNs]
  | renameTable source sourceName dest destName =>
    have hsrc : cache.tables.get (tableKey source sourceName) =
        cache'.tables.get (tableKey source sourceName) := h.tables _ hc.1
    have hdst : cache.tables.contains (tableKey dest destName) =
        cache'.tables.contains (tableKey dest destName) := by
      rw [OrdMap.contains, OrdMap.contains, h.tables (tableKey dest destName) hc.2.2]
    have hdest : cache.namespaces.contains (nsKey dest) = cache'.namespaces.contains (nsKey dest) := by
      rw [OrdMap.contains, OrdMap.contains, h.namespaces _ hc.2.1]
    simp only [prepare, renameTable, hsrc, hdst, hdest]
  | _ =>
    simp only [prepare, createNamespace, dropNamespace, updateNamespaceProperties, createTable,
      commitTable, commitTransaction, changeOp, dropTable, listTables, setTablePolicy, htable, hnsAt,
      htableAt, hnsIn, htableIn, hkeysNs, hkeysTable]

theorem prepare_keys {c : Call} (hc : c.Within P) (hP : ∀ k, RowOf w k → P k) :
    Yields (Stage.Ops (fun op => P op.key) (fun op => P op.key)) (prepare w now cache c) := by
  intro stage hstage
  have hops := prepare_ops w now cache c stage hstage
  cases stage with
  | answer a => trivial
  | namespaces ops conflict a =>
    intro op hop
    have hop := hops op hop
    cases c <;> simp only [Call.NsOp] at hop <;> try contradiction
    · exact hop ▸ hP _ (rowOf_nsKeyWh w _)
    · obtain ⟨properties, rfl⟩ := hop
      exact hP _ (rowOf_nsKeyWh w _)
    · obtain ⟨old, new, rfl⟩ := hop
      exact hP _ (rowOf_nsKeyWh w _)
  | tables ops conflict a =>
    intro op hop
    have hop := hops op hop
    cases c <;> simp only [Call.TableOp] at hop <;> try contradiction
    case renameTable =>
      rcases hop with ⟨entry, rfl | rfl⟩
      · exact hc.1
      · exact hc.2.2
    case createTable => exact hop ▸ hP _ (rowOf_tableKeyWh w _ _)
    case commitTransaction =>
      obtain ⟨change, -, entry, -, -, rfl⟩ := hop
      exact hP _ (rowOf_tableKeyWh w _ _)
    case commitTable =>
      obtain ⟨entry, -, -, rfl⟩ := hop
      exact hP _ (rowOf_tableKeyWh w _ _)
    all_goals
      obtain ⟨entry, rfl⟩ := hop
      exact hP _ (rowOf_tableKeyWh w _ _)

end Prepare

theorem Stage.commit_congr {rows rows' : Rows} (hkeys : stage.Ops (fun op => P op.key) (fun op => P op.key))
    (h : rows.Agree P rows') : (∃ e, stage.commit rows = .error e ∧ stage.commit rows' = .error e) ∨
    ∃ after after', stage.commit rows = .ok after ∧ stage.commit rows' = .ok after' ∧
      after.Agree P after' := by
  cases stage with
  | answer a => exact .inr ⟨rows, rows', rfl, rfl, h⟩
  | namespaces ops conflict a =>
    have hfailed := failed_congr h.namespaces hkeys
    simp only [Stage.commit, hfailed]
    split
    · exact .inr ⟨_, _, rfl, rfl, get_write_congr h.namespaces, h.tables⟩
    · exact .inl ⟨conflict, rfl, rfl⟩
  | tables ops conflict a =>
    have hfailed := failed_congr h.tables hkeys
    simp only [Stage.commit, hfailed]
    split
    · exact .inr ⟨_, _, rfl, rfl, h.namespaces, get_write_congr h.tables⟩
    · exact .inl ⟨_, rfl, rfl⟩

theorem Stage.mirror_congr (stage : Stage) {cache cache' : Cache} (h : cache.Agree P cache') :
    (stage.mirror cache).Agree P (stage.mirror cache') := by
  cases stage with
  | answer a => exact h
  | namespaces ops conflict a => exact ⟨get_write_congr h.namespaces, h.tables⟩
  | tables ops conflict a => exact ⟨h.namespaces, get_write_congr h.tables⟩

theorem Stage.commit_frame {rows after : Rows} (hkeys : stage.Ops (fun op => P op.key) (fun op => P op.key))
    (h : stage.commit rows = .ok after) : after.Agree (fun k => ¬ P k) rows := by
  cases stage with
  | answer a =>
    cases h
    exact .refl _
  | namespaces ops conflict a =>
    obtain ⟨-, rfl⟩ := Stage.commit_namespaces _ h
    exact ⟨fun k hk => get_write_frame hkeys hk, fun _ _ => rfl⟩
  | tables ops conflict a =>
    obtain ⟨-, rfl⟩ := Stage.commit_tables _ h
    exact ⟨fun _ _ => rfl, fun k hk => get_write_frame hkeys hk⟩

theorem Stage.mirror_frame (cache : Cache) (hkeys : stage.Ops (fun op => P op.key) (fun op => P op.key)) :
    (stage.mirror cache).Agree (fun k => ¬ P k) cache := by
  cases stage with
  | answer a => exact .refl _
  | namespaces ops conflict a =>
    refine ⟨fun k hk => get_write_frame (P := P) ?_ hk, fun _ _ => rfl⟩
    intro op hop
    obtain ⟨source, hsource, rfl⟩ := mem_map.1 hop
    exact hkeys source hsource
  | tables ops conflict a => exact ⟨fun _ _ => rfl, fun k hk => get_write_frame hkeys hk⟩

section Exec

variable {w : Text} (now : Nat) {s s' : Leader} {c : Call}

theorem exec_congr (hc : c.Within P) (hP : ∀ k, RowOf w k → P k) (h : s.Agree P s') :
    (exec w now c s).1 = (exec w now c s').1 ∧ (exec w now c s).2.Agree P (exec w now c s').2 := by
  have hprepare := prepare_congr now hc hP h.cache
  unfold exec
  rw [← hprepare]
  cases hstage : prepare w now s.cache c with
  | error e => exact ⟨rfl, h⟩
  | ok stage =>
    rcases Stage.commit_congr (prepare_keys now hc hP stage hstage) h.rows with
      ⟨e, he, he'⟩ | ⟨after, after', ho, ho', hrows⟩
    · simp only [he, he']
      exact ⟨trivial, h⟩
    · simp only [ho, ho']
      exact ⟨trivial, hrows, stage.mirror_congr h.cache⟩

theorem exec_frame (hc : c.Within P) (hP : ∀ k, RowOf w k → P k) :
    (exec w now c s).2.Agree (fun k => ¬ P k) s := by
  unfold exec
  cases hstage : prepare w now s.cache c with
  | error e => exact .refl _
  | ok stage =>
    have hkeys := prepare_keys now hc hP stage hstage
    simp only
    cases hcommit : stage.commit s.rows with
    | error e => exact .refl _
    | ok rows => exact ⟨Stage.commit_frame hkeys hcommit, Stage.mirror_frame s.cache hkeys⟩

end Exec

def Prog.Within (P : Text → Prop) : Prog α → Prop
  | .ret _ => True
  | .call c next => c.Within P ∧ ∀ a, (next a).Within P

/-- Rows of other warehouses change neither the answer nor the effect, and are left as they were. -/
def Prog.Isolated (warehouses : List Text) (w : Text) (p : Prog α) : Prop :=
  ∀ (clock : Nat → Nat) (t : Nat) (s s' : Leader), s.Agree (fun k => ¬ Foreign warehouses w k) s' →
    (p.run w clock t s).1 = (p.run w clock t s').1 ∧
    (p.run w clock t s).2.Agree (fun k => ¬ Foreign warehouses w k) (p.run w clock t s').2 ∧
    (p.run w clock t s).2.Agree (Foreign warehouses w) s

variable {warehouses : List Text} {w : Text}

theorem Prog.Within.isolated (hplain : Plain warehouses) (hw : w ∈ warehouses) {p : Prog α}
    (hp : p.Within (fun k => ¬ Foreign warehouses w k)) : p.Isolated warehouses w := by
  have hown : ∀ k, RowOf w k → ¬ Foreign warehouses w k := fun k hk => hk.not_foreign hw hplain
  intro clock t s s' hs
  -- The request is followed call by call: the next call is chosen from answers that are the same so far.
  induction p generalizing t s s' with
  | ret a => exact ⟨rfl, hs, .refl _⟩
  | call c next ih =>
    obtain ⟨hanswer, hafter⟩ := exec_congr (clock t) hp.1 hown hs
    have hframe : (exec w (clock t) c s).2.Agree (Foreign warehouses w) s := by
      have hrest := exec_frame (clock t) (s := s) hp.1 hown
      exact ⟨hrest.rows.mono fun _ => not_not_intro, hrest.cache.mono fun _ => not_not_intro⟩
    obtain ⟨h₁, h₂, h₃⟩ := ih (exec w (clock t) c s).1 (hp.2 _) (t + 1) _ _ hafter
    simp only [Prog.run]
    rw [← hanswer]
    exact ⟨h₁, h₂, h₃.trans hframe⟩

theorem Prog.gather_within {next : List (Except Status Answer) → Prog α} (hnext : ∀ got, (next got).Within P) :
    ∀ {cs : List Call} (got : List (Except Status Answer)), (∀ c ∈ cs, c.Within P) →
      (Prog.gather cs got next).Within P
  | [], got, _ => hnext got
  | c :: _, got, h => ⟨h c mem_cons_self, fun a => gather_within hnext (got ++ [a]) fun c' hc' =>
      h c' (mem_cons_of_mem c hc')⟩

theorem namespaceChain_within (levels : List Text) : ∀ c ∈ namespaceChain levels, c.Within P := by
  intro c hc
  rcases mem_cons.1 hc with rfl | hc
  · trivial
  · obtain ⟨_, -, rfl⟩ := mem_map.1 hc
    trivial

theorem renameTableHandler_within {source dest : List Text} {sourceName destName : Text}
    (hrename : (Call.renameTable source sourceName dest destName).Within P)
    (grants : List (Except Status Answer) → Bool) :
    (renameTableHandler grants source sourceName dest destName).Within P := by
  refine Prog.gather_within (fun policies => ?_) [] ?_
  · split
    · trivial
    · refine Prog.gather_within (fun policies => ?_) [] (namespaceChain_within dest)
      split
      · trivial
      · refine ⟨hrename, fun a => ?_⟩
        cases a <;> trivial
  · intro c hc
    rcases mem_append.1 hc with hc | hc
    · exact namespaceChain_within source c hc
    · cases mem_singleton.1 hc
      trivial

/-! ## The three keys decide -/

/-- A call that only reads. -/
def Call.Reads (w : Text) (c : Call) : Prop := ∀ (now : Nat) (s : Leader), (exec w now c s).2 = s

theorem reads_loadNamespace (levels : List Text) : (Call.loadNamespace levels).Reads w := by
  intro now s
  cases h : s.cache.namespaceAt (nsKeyWh w levels) <;>
    simp [exec, prepare, h, bind, Except.bind, pure, Except.pure, Stage.commit, Stage.mirror]

theorem reads_getTablePolicy (levels : List Text) (name : Text) : (Call.getTablePolicy levels name).Reads w := by
  intro now s
  cases h : s.cache.tableAt (tableKeyWh w levels name) <;>
    simp [exec, prepare, h, bind, Except.bind, pure, Except.pure, Stage.commit, Stage.mirror]

theorem reads_namespaceChain (levels : List Text) : ∀ c ∈ namespaceChain levels, c.Reads w := by
  intro c hc
  rcases mem_cons.1 hc with rfl | hc
  · exact reads_loadNamespace _
  · obtain ⟨prior, -, rfl⟩ := mem_map.1 hc
    exact reads_loadNamespace prior

theorem Prog.run_gather (next : List (Except Status Answer) → Prog α) (clock : Nat → Nat) (s : Leader) :
    ∀ (cs : List Call) (got : List (Except Status Answer)) (t : Nat), (∀ c ∈ cs, c.Reads w) →
      ∃ got' t', (Prog.gather cs got next).run w clock t s = (next got').run w clock t' s
  | [], got, t, _ => ⟨got, t, rfl⟩
  | c :: cs, got, t, h => by
    obtain ⟨got', t', ih⟩ := run_gather next clock s cs (got ++ [(exec w (clock t) c s).1]) (t + 1)
      fun c' hc' => h c' (mem_cons_of_mem c hc')
    refine ⟨got', t', ?_⟩
    rw [← ih]
    simp only [gather, run]
    rw [h c mem_cons_self]

section Rename

variable (source dest : List Text) (sourceName destName : Text)

/-- A granted rename answers as its one call does. -/
theorem run_renameTableHandler (clock : Nat → Nat) (s : Leader) :
    ∃ t, ((renameTableHandler (fun _ => true) source sourceName dest destName).run w clock 0 s).1 =
      match (exec w (clock t) (.renameTable source sourceName dest destName) s).1 with
      | .ok _ => .noContent
      | .error e => .failed e := by
  obtain ⟨got, t, h⟩ := Prog.run_gather (w := w) (fun policies =>
      if (fun _ => true) policies = false then Prog.ret Reply.forbidden
      else .gather (namespaceChain dest) [] fun policies =>
        if (fun _ => true) policies = false then .ret .forbidden
        else .call (.renameTable source sourceName dest destName) fun
          | .ok _ => .ret .noContent
          | .error e => .ret (.failed e)) clock s
    (namespaceChain source ++ [.getTablePolicy source sourceName]) [] 0 (by
      intro c hc
      rcases mem_append.1 hc with hc | hc
      · exact reads_namespaceChain source c hc
      · cases mem_singleton.1 hc
        exact reads_getTablePolicy _ _)
  obtain ⟨got', t', h'⟩ := Prog.run_gather (w := w) (fun _ =>
      Prog.call (.renameTable source sourceName dest destName) fun
        | .ok _ => .ret Reply.noContent
        | .error e => .ret (.failed e)) clock s (namespaceChain dest) [] t (reads_namespaceChain dest)
  refine ⟨t', ?_⟩
  unfold renameTableHandler
  rw [h]
  simp only [Bool.true_eq_false, if_false] at h' ⊢
  rw [h']
  simp only [Prog.run]
  cases (exec w (clock t') (.renameTable source sourceName dest destName) s).1 <;> rfl

/-- What a granted rename answers. -/
def renamed (w : Text) (s : Leader) : Reply :=
  ((renameTableHandler (fun _ => true) source sourceName dest destName).run w (fun _ => 0) 0 s).1

variable {source dest sourceName destName} {s : Leader}

theorem renamed_of_error {e : Status}
    (h : renameTable s.cache source sourceName dest destName = .error e) :
    renamed source dest sourceName destName w s = .failed e := by
  obtain ⟨t, ht⟩ := run_renameTableHandler (w := w) source dest sourceName destName (fun _ => 0) s
  rw [renamed, ht]
  simp only [exec, prepare, h]

theorem renamed_no_namespace (hns : s.cache.namespaces.contains (nsKey dest) = false) :
    renamed source dest sourceName destName w s =
      .failed ⟨.notFound, "destination namespace not found"⟩ :=
  renamed_of_error (by simp [renameTable, hns])

theorem renamed_no_source (hns : s.cache.namespaces.contains (nsKey dest) = true)
    (hsrc : s.cache.tables.get (tableKey source sourceName) = none) :
    renamed source dest sourceName destName w s = .failed ⟨.notFound, "source table not found"⟩ :=
  renamed_of_error (by simp [renameTable, hns, hsrc])

theorem renamed_taken (hns : s.cache.namespaces.contains (nsKey dest) = true) {entry : TableEntry}
    (hsrc : s.cache.tables.get (tableKey source sourceName) = some entry)
    (hdst : s.cache.tables.contains (tableKey dest destName) = true) :
    renamed source dest sourceName destName w s =
      .failed ⟨.alreadyExists, "destination table already exists"⟩ :=
  renamed_of_error (by simp [renameTable, hns, hsrc, hdst])

theorem renamed_free (hns : s.cache.namespaces.contains (nsKey dest) = true) {entry : TableEntry}
    (hsrc : s.cache.tables.get (tableKey source sourceName) = some entry)
    (hdst : s.cache.tables.contains (tableKey dest destName) = false) :
    renamed source dest sourceName destName w s = .noContent ∨
      ∃ message, renamed source dest sourceName destName w s = .failed ⟨.aborted, message⟩ := by
  obtain ⟨t, ht⟩ := run_renameTableHandler (w := w) source dest sourceName destName (fun _ => 0) s
  simp only [renamed, ht, exec, prepare, renameTable, hns, hsrc, hdst, Bool.true_eq_false,
    Bool.false_eq_true, if_false, Stage.commit]
  by_cases hfailed : CompareAndSet.failed s.rows.tables
      [⟨tableKey source sourceName, some entry, none⟩, ⟨tableKey dest destName, none, some entry⟩] = []
  · simp [hfailed]
  · exact .inr ⟨_, by simp [hfailed]; rfl⟩

end Rename

/-- The namespaces and tables given, in the rows and in the leader's memory. -/
def leaderWith (namespaces : OrdMap Text Namespace) (tables : OrdMap Text TableEntry) : Leader :=
  ⟨⟨namespaces, tables⟩, ⟨namespaces.mapValues fun _ n => n.properties, tables⟩⟩

theorem get_insert_of {m : OrdMap Text V} {v : V} {key k : Text} (hkey : ¬ P key) (hk : P k) :
    m.get k = (m.insert key v).get k := by
  have hne : k ≠ key := fun h => hkey (h ▸ hk)
  rw [get_insert, if_neg hne]

theorem leaderWith_agree_namespace (namespaces : OrdMap Text Namespace) (tables : OrdMap Text TableEntry)
    {key : Text} (n : Namespace) (hkey : ¬ P key) :
    (leaderWith namespaces tables).Agree P (leaderWith (namespaces.insert key n) tables) := by
  refine ⟨⟨fun k hk => get_insert_of hkey hk, fun _ _ => rfl⟩, fun k hk => ?_, fun _ _ => rfl⟩
  show (namespaces.mapValues _).get k = ((namespaces.insert key n).mapValues _).get k
  rw [get_mapValues, get_mapValues, get_insert_of hkey hk]

theorem leaderWith_agree_table (namespaces : OrdMap Text Namespace) (tables : OrdMap Text TableEntry)
    {key : Text} (entry : TableEntry) (hkey : ¬ P key) :
    (leaderWith namespaces tables).Agree P (leaderWith namespaces (tables.insert key entry)) :=
  ⟨⟨fun _ _ => rfl, fun _ hk => get_insert_of hkey hk⟩, fun _ _ => rfl, fun _ hk => get_insert_of hkey hk⟩

/-- From a state and one with a row more, under a key that is not of `P`, a rename with that key among its
three answers differently. -/
theorem within_of_isolated {source dest : List Text} {sourceName destName : Text}
    (h : (renameTableHandler (fun _ => true) source sourceName dest destName).Isolated warehouses w) :
    (Call.renameTable source sourceName dest destName).Within (fun k => ¬ Foreign warehouses w k) := by
  have hsame : ∀ {s s' : Leader}, s.Agree (fun k => ¬ Foreign warehouses w k) s' →
      renamed source dest sourceName destName w s = renamed source dest sourceName destName w s' :=
    fun hagree => (h _ 0 _ _ hagree).1
  let n : Namespace := ⟨dest, .empty⟩
  let entry : TableEntry := ⟨[], 0, 0, [], []⟩
  let into : OrdMap Text Namespace := empty.insert (nsKey dest) n
  let held : OrdMap Text TableEntry := empty.insert (tableKey source sourceName) entry
  have hinto : ∀ tables, (leaderWith into tables).cache.namespaces.contains (nsKey dest) = true := by
    intro tables
    simp [leaderWith, into, OrdMap.contains, get_mapValues]
  have hheld : (leaderWith into held).cache.tables.get (tableKey source sourceName) = some entry := by
    simp [leaderWith, held]
  have hnone : renamed source dest sourceName destName w (leaderWith into empty) = _ :=
    renamed_no_source (hinto empty) (OrdMap.get_empty _)
  have hsource : ¬ Foreign warehouses w (tableKey source sourceName) := by
    intro hforeign
    have hdiff := hsame (leaderWith_agree_table into empty entry (not_not_intro hforeign))
    rw [hnone] at hdiff
    cases hdst : (leaderWith into held).cache.tables.contains (tableKey dest destName) with
    | true => simp [renamed_taken (hinto held) hheld hdst, held] at hdiff
    | false =>
      rcases renamed_free (w := w) (hinto held) hheld hdst with hfree | ⟨message, hfree⟩ <;>
        simp [hfree, held] at hdiff
  refine ⟨hsource, fun hforeign => ?_, fun hforeign => ?_⟩
  · have hdiff := hsame (leaderWith_agree_namespace empty empty n (not_not_intro hforeign))
    rw [hnone, renamed_no_namespace rfl] at hdiff
    simp at hdiff
  · have hne : tableKey dest destName ≠ tableKey source sourceName := fun he => hsource (he ▸ hforeign)
    have hdiff := hsame (leaderWith_agree_table into held entry (not_not_intro hforeign))
    have hboth : (leaderWith into (held.insert (tableKey dest destName) entry)).cache.tables.get
        (tableKey source sourceName) = some entry := by
      simp [leaderWith, held, get_insert, hne.symm]
    rw [renamed_taken (hinto _) hboth (by simp [leaderWith, OrdMap.contains])] at hdiff
    have hdst : (leaderWith into held).cache.tables.contains (tableKey dest destName) = false := by
      simp [leaderWith, held, get_insert, hne, OrdMap.contains]
    rcases renamed_free (w := w) (hinto held) hheld hdst with hfree | ⟨message, hfree⟩ <;>
      simp [hfree] at hdiff

def twoWarehouses : Leader :=
  let entry : TableEntry := ⟨['l'], 1, 1, ['m'], []⟩
  let table := tableKeyWh ['v'] [['x']] ['t']
  let vx := nsKeyWh ['v'] [['x']]
  let wn := nsKeyWh ['w'] [['n']]
  { rows := ⟨(empty.insert vx ⟨[['x']], .empty⟩).insert wn ⟨[['n']], .empty⟩,
      empty.insert table entry⟩,
    cache := ⟨(empty.insert vx .empty).insert wn .empty, empty.insert table entry⟩ }

/-- Of the warehouse `w`: rename the table `t` of the namespace `["v\x01x"]` to `t` of `["w\x01n"]`. -/
def crossRename : Prog Reply :=
  renameTableHandler (fun _ => true) [['v', '\x01', 'x']] ['t'] [['w', '\x01', 'n']] ['t']

end IoLake.Iceberg
