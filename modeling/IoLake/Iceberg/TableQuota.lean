import IoLake.Iceberg.Catalog
import IoLake.Meta.Caches

/-!
# The quota of a namespace's tables

A creation reads the namespace's quota, lists its tables and refuses once as many are listed; a listing that
asks for no page size is of at most a hundred.
-/

namespace IoLake.Iceberg.TableQuota

open List hiding set

open OrdMap

open CompareAndSet (Op set)

def QUOTA_MAX_TABLES_KEY : Text := "__quota_max_tables".toList

def ENCRYPTION_PREFIX_KEY : Text := "__encryption_required_prefix".toList

/-- The quota among a namespace's properties. -/
def maxTables (properties : Properties) : Option Nat :=
  (properties.get QUOTA_MAX_TABLES_KEY).bind Meta.Caches.parseU32

/-- `granted`: the policies allow it and, of a creation, its location lies in the warehouse. -/
inductive TableRequest
  | create (granted : Bool) (name location metadata : Text)
  | drop (granted : Bool) (name : Text)
  | list (granted : Bool) (pageSize : Nat) (pageToken : Text)

section Requests

variable (w : Text) (levels : List Text)

/-- The tables that a listing of the namespace goes over. -/
def tablesIn (tables : OrdMap Text TableEntry) : OrdMap Text TableEntry :=
  let start := below (nsKeyWh w levels)
  tables.filterKeys fun k => start.isPrefixOf k && !(k.drop start.length).contains '\x00'

/-- Whether a creation is refused for the quota; it also fails where the listing does. -/
def quotaExceeded (now : Nat) (properties : Properties) (s : Leader) : Bool :=
  match maxTables properties with
  | none => false
  | some max =>
    match (exec w now (.listTables levels 0 []) s).1 with
    | .ok (.tables _ names _) => max ≤ names.length
    | _ => true

def createTableHandler (now : Nat) (name location metadata : Text) (s : Leader) : Leader :=
  match (exec w now (.loadNamespace levels) s).1 with
  | .ok (.loaded _ properties) =>
    if quotaExceeded w levels now properties s then s
    else if (properties.get ENCRYPTION_PREFIX_KEY).any fun required => !required.isPrefixOf location then s
    else (exec w now (.createTable levels name location metadata) s).2
  | _ => s

def serve (s : Leader) : Nat × TableRequest → Leader
  | (now, .create granted name location metadata) =>
    if granted then createTableHandler w levels now name location metadata s else s
  | (now, .drop granted name) => if granted then (exec w now (.dropTable levels name) s).2 else s
  | (now, .list granted pageSize pageToken) =>
    if granted then (exec w now (.listTables levels pageSize pageToken) s).2 else s

end Requests

/-! ## What a request changes -/

section Counts

variable (p : Text → Bool) (m : OrdMap Text TableEntry) (k : Text)

theorem filterKeys_set (v : Option TableEntry) :
    (set m k v).filterKeys p = if p k then set (m.filterKeys p) k v else m.filterKeys p := by
  refine ext_get fun k' => ?_
  rw [get_filterKeys, CompareAndSet.get_set]
  by_cases hk : k' = k
  · subst hk
    by_cases hp : p k' <;> simp [hp, CompareAndSet.get_set, get_filterKeys]
  · by_cases hp : p k <;> simp [hp, hk, CompareAndSet.get_set, get_filterKeys]

theorem size_filterKeys_set_le (v : Option TableEntry) :
    ((set m k v).filterKeys p).size ≤ (m.filterKeys p).size + v.toList.length := by
  rw [filterKeys_set]
  split
  · cases v with
    | none =>
      rw [CompareAndSet.set, size_erase]
      split <;> simp
    | some entry =>
      rw [CompareAndSet.set, size_insert]
      split <;> simp
  · omega

end Counts

/-- At most one operation on the tables, that puts in what `P` says. -/
def One (P : Option TableEntry → Prop) : Stage → Prop
  | .answer _ => True
  | .tables [op] _ _ => P op.newValue
  | _ => False

section Steps

variable {w : Text} {levels : List Text} {now : Nat} {s : Leader}

theorem exec_one {P : Option TableEntry → Prop} {call : Call}
    (h : Yields (One P) (prepare w now s.cache call)) :
    (exec w now call s).2 = s ∨ ∃ k v, P v ∧ (exec w now call s).2 =
      ⟨{ s.rows with tables := set s.rows.tables k v },
        { s.cache with tables := set s.cache.tables k v }⟩ := by
  unfold exec
  cases hstage : prepare w now s.cache call with
  | error e => exact .inl rfl
  | ok stage =>
    have hone := h stage hstage
    cases hrows : stage.commit s.rows with
    | error e => simp [hrows]
    | ok rows =>
      match stage, hone with
      | .answer a, _ =>
        cases hrows
        exact .inl rfl
      | .tables [op] conflict a, hop =>
        have hcommit := Stage.commit_tables rows hrows
        exact .inr ⟨op.key, op.newValue, hop, by simp [hrows, hcommit.2, Stage.mirror, CompareAndSet.write]⟩

theorem createTable_one (name location metadata : Text) : Yields (One fun _ => True)
    (prepare w now s.cache (.createTable levels name location metadata)) := by
  refine (Yields.any _).bind fun _ _ => ?_
  exact Yields.ite (fun _ => Yields.error _) fun _ => Yields.ok trivial

theorem dropTable_one (name : Text) :
    Yields (One (· = none)) (prepare w now s.cache (.dropTable levels name)) :=
  (Yields.any _).bind fun _ _ => Yields.pure rfl

theorem listTables_one (pageSize : Nat) (pageToken : Text) :
    Yields (One fun _ => False) (prepare w now s.cache (.listTables levels pageSize pageToken)) :=
  (Yields.any _).bind fun _ _ => Yields.pure trivial

theorem quotaExceeded_eq {properties : Properties} {max : Nat}
    (hns : s.cache.namespaces.get (nsKeyWh w levels) = some properties)
    (hmax : maxTables properties = some max) : quotaExceeded w levels now properties s =
      decide (max ≤ min 100 (tablesIn w levels s.cache.tables).size) := by
  have hlisted : ((((keysFrom s.cache.tables (below (nsKeyWh w levels))).map
      (·.drop (below (nsKeyWh w levels)).length)).filter (!·.contains '\x00'))).length =
      (tablesIn w levels s.cache.tables).size := by
    simp only [keysFrom, tablesIn, filterKeys, size, filter_map, length_map, filter_filter, Function.comp_def]
    congr 2
    funext e
    exact Bool.and_comm _ _
  unfold quotaExceeded
  simpa [hmax, exec, prepare, listTables, Tables.namespaceAt, hns, page, Stage.commit, Stage.reply, bind,
    Except.bind, pure, Except.pure] using congrArg (fun n => decide (max ≤ min 100 n)) hlisted

/-- The copy agrees with the rows, and the namespace has its quota and at most that many tables. -/
structure WithinQuota (w : Text) (levels : List Text) (max : Nat) (s : Leader) : Prop where
  copied : s.cache.tables = s.rows.tables
  quota : (s.cache.namespaces.get (nsKeyWh w levels)).bind maxTables = some max
  within : (tablesIn w levels s.rows.tables).size ≤ max

variable {max : Nat}

theorem WithinQuota.exec_one (h : WithinQuota w levels max s) {P : Option TableEntry → Prop} {call : Call}
    (hone : Yields (One P) (prepare w now s.cache call))
    (hroom : ∀ v, P v → (tablesIn w levels s.rows.tables).size + v.toList.length ≤ max) :
    WithinQuota w levels max (exec w now call s).2 := by
  rcases TableQuota.exec_one hone with hs | ⟨k, v, hv, hs⟩
  · rwa [hs]
  · rw [hs]
    exact ⟨congrArg (set · k v) h.copied, h.quota, (size_filterKeys_set_le _ _ k v).trans (hroom v hv)⟩

theorem WithinQuota.serve (h : WithinQuota w levels max s) (hmax : max ≤ 100) (request : Nat × TableRequest) :
    WithinQuota w levels max (serve w levels s request) := by
  obtain ⟨now, request⟩ := request
  have hwithin := h.within
  cases request with
  | create granted name location metadata =>
    obtain ⟨properties, hns, hquota⟩ := Option.bind_eq_some_iff.1 h.quota
    have hload : (exec w now (.loadNamespace levels) s).1 = .ok (.loaded levels properties) := by
      simp [exec, prepare, Tables.namespaceAt, hns, Stage.commit, Stage.reply, bind, Except.bind, pure,
        Except.pure]
    simp only [TableQuota.serve, createTableHandler, hload, quotaExceeded_eq hns hquota, h.copied]
    split
    · split
      · exact h
      · rename_i hroom
        split
        · exact h
        · refine h.exec_one (createTable_one name location metadata) fun v _ => ?_
          have : v.toList.length ≤ 1 := by cases v <;> simp
          simp only [decide_eq_true_eq, not_le] at hroom
          omega
    · exact h
  | drop granted name =>
    rw [TableQuota.serve]
    split
    · exact h.exec_one (dropTable_one name) fun v hv => by simpa [hv] using hwithin
    · exact h
  | list granted pageSize pageToken =>
    rw [TableQuota.serve]
    split
    · exact h.exec_one (listTables_one pageSize pageToken) fun v hv => hv.elim
    · exact h

end Steps

def quotaLeader (max : Text) (tables : OrdMap Text TableEntry) : Leader :=
  let properties := empty.insert QUOTA_MAX_TABLES_KEY max
  let key := nsKeyWh ['w'] [['a']]
  ⟨⟨empty.insert key ⟨[['a']], properties⟩, tables⟩, empty.insert key properties, tables⟩

end IoLake.Iceberg.TableQuota
