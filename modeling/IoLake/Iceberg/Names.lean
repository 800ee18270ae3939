import IoLake.Iceberg.Catalog

/-!
# The names of namespaces and tables

A request names a namespace by its levels, and perhaps a table in it.  The row it is about is found by a key
made of them, the policies it answers to are found level by level, and the conditions of a policy see the
table's name as it is read back from the resource's ARN.
-/

namespace IoLake.Iceberg

open List

structure Target where
  levels : List Text
  table : Option Text
deriving DecidableEq

section Keys

variable {w : Text}

/-- The rows whose policies `collect_namespace_hierarchy` reads. -/
def policyRows (w : Text) (levels : List Text) : List Text := levels.inits.tail.map (nsKeyWh w)

/-- The row meta finds, of the namespace or of the table in it. -/
def Target.row (w : Text) (t : Target) : Text ⊕ Text :=
  match t.table with
  | none => .inl (nsKeyWh w t.levels)
  | some name => .inr (tableKeyWh w t.levels name)

/-- No part of the name has the separator of the keys in it. -/
def Target.Plain (t : Target) : Prop :=
  t.levels ≠ [] ∧ ∀ part ∈ t.levels ++ t.table.toList, '\x00' ∉ part

theorem nsKeyWh_concat (last : Text) {levels : List Text} (h : levels ≠ []) :
    nsKeyWh w (levels ++ [last]) = below (nsKeyWh w levels) ++ last := by
  simp [nsKeyWh_eq, nsKey_concat last h, below]

theorem policyRows_concat (levels : List Text) (last : Text) :
    policyRows w (levels ++ [last]) = policyRows w levels ++ [nsKeyWh w (levels ++ [last])] := by
  have hne : levels.inits ≠ [] := by
    cases levels <;> simp
  simp [policyRows, inits_append, tail_append_of_ne_nil hne]

theorem length_lt_of_mem_policyRows (last : Text) {k : Text} : ∀ {levels : List Text},
    k ∈ policyRows w levels → k.length < (nsKeyWh w (levels ++ [last])).length := by
  intro levels
  induction levels using reverseRecOn generalizing last with
  | nil => simp [policyRows]
  | append_singleton levels deepest ih =>
    intro hk
    have hlonger : (nsKeyWh w (levels ++ [deepest])).length <
        (nsKeyWh w (levels ++ [deepest] ++ [last])).length := by
      rw [nsKeyWh_concat last (by simp), below]
      simp
    rw [policyRows_concat, mem_append, mem_singleton] at hk
    rcases hk with hk | rfl
    · exact (ih deepest hk).trans hlonger
    · exact hlonger

theorem policyRows_inj {levels levels' : List Text}
    (h : ∀ k, k ∈ policyRows w levels ↔ k ∈ policyRows w levels') : levels = levels' := by
  induction levels using reverseRecOn generalizing levels' with
  | nil =>
    cases levels' using reverseRecOn with
    | nil => rfl
    | append_singleton levels' last' =>
      have := (h (nsKeyWh w (levels' ++ [last']))).2 (by simp [policyRows_concat])
      simp [policyRows] at this
  | append_singleton levels last ih =>
    cases levels' using reverseRecOn with
    | nil =>
      have := (h (nsKeyWh w (levels ++ [last]))).1 (by simp [policyRows_concat])
      simp [policyRows] at this
    | append_singleton levels' last' =>
      simp only [policyRows_concat, mem_append, mem_singleton] at h
      -- the deepest level of either has the longest key
      have hkey : nsKeyWh w (levels ++ [last]) = nsKeyWh w (levels' ++ [last']) := by
        rcases (h _).1 (.inr rfl) with hmem | heq
        · rcases (h _).2 (.inr rfl) with hmem' | heq
          · have := length_lt_of_mem_policyRows last' hmem
            have := length_lt_of_mem_policyRows last hmem'
            omega
          · exact heq.symm
        · exact heq
      have hrest : levels = levels' := by
        refine ih fun k => ⟨fun hk => ?_, fun hk => ?_⟩
        · refine ((h k).1 (.inl hk)).resolve_right fun hlong => ?_
          have := length_lt_of_mem_policyRows last hk
          rw [hlong, hkey] at this
          exact this.false
        · refine ((h k).2 (.inl hk)).resolve_right fun hlong => ?_
          have := length_lt_of_mem_policyRows last' hk
          rw [hlong, hkey] at this
          exact this.false
      subst hrest
      by_cases hnil : levels = []
      · subst hnil
        simpa [nsKeyWh_eq, nsKey] using hkey
      · rw [nsKeyWh_concat _ hnil, nsKeyWh_concat _ hnil] at hkey
        rw [append_cancel_left hkey]

theorem nsKeyWh_inj {levels levels' : List Text} (hne : levels ≠ []) (hne' : levels' ≠ [])
    (h0 : ∀ l ∈ levels, '\x00' ∉ l) (h0' : ∀ l ∈ levels', '\x00' ∉ l)
    (h : nsKeyWh w levels = nsKeyWh w levels') : levels = levels' := by
  rw [nsKeyWh_eq, nsKeyWh_eq, append_cancel_left_eq, nsKey, nsKey] at h
  rw [← splitOn_intercalate '\x00' h0 hne, h, splitOn_intercalate '\x00' h0' hne']

theorem Target.Plain.row_inj {t t' : Target} (ht : t.Plain) (ht' : t'.Plain) (h : t.row w = t'.row w) :
    t = t' := by
  obtain ⟨levels, table⟩ := t
  obtain ⟨levels', table'⟩ := t'
  cases table with
  | none =>
    cases table' with
    | none =>
      have hlevels : levels = levels' :=
        nsKeyWh_inj ht.1 ht'.1 (by simpa [Plain] using ht.2) (by simpa [Plain] using ht'.2) (Sum.inl.inj h)
      rw [hlevels]
    | some name' => cases h
  | some name =>
    cases table' with
    | none => cases h
    | some name' =>
      have hkey := Sum.inr.inj h
      rw [tableKeyWh_eq, tableKeyWh_eq, ← nsKeyWh_concat _ ht.1, ← nsKeyWh_concat _ ht'.1] at hkey
      have hlevels := nsKeyWh_inj (by simp) (by simp) ht.2 ht'.2 hkey
      obtain ⟨rfl, hname⟩ := append_inj' hlevels rfl
      rw [singleton_inj.1 hname]

/-- How many separators of the keys each level has in it. -/
def separators (levels : List Text) : List Nat := levels.map (count '\x00')

theorem append_cons_inj_of_count {x x' y y' : Text} (hcount : x.count '\x00' = x'.count '\x00')
    (h : x ++ '\x00' :: y = x' ++ '\x00' :: y') : x = x' ∧ y = y' := by
  rcases append_eq_append_iff.1 h with ⟨a, rfl, ha⟩ | ⟨a, rfl, ha⟩
  · cases a with
    | nil => simp_all
    | cons c a =>
      obtain ⟨rfl, -⟩ := cons_eq_cons.1 ha
      simp at hcount
  · cases a with
    | nil => simp_all
    | cons c a =>
      obtain ⟨rfl, -⟩ := cons_eq_cons.1 ha
      simp at hcount

theorem nsKey_cons (first : Text) {rest : List Text} (h : rest ≠ []) :
    nsKey (first :: rest) = first ++ '\x00' :: nsKey rest := by
  cases rest with
  | nil => exact absurd rfl h
  | cons second rest => simp [nsKey, intercalate]

theorem count_nsKey : ∀ levels : List Text,
    (nsKey levels).count '\x00' = (separators levels).sum + (levels.length - 1)
  | [] => rfl
  | [only] => by simp [nsKey, intercalate, separators]
  | first :: second :: rest => by
    have ih := count_nsKey (second :: rest)
    rw [nsKey_cons first (by simp), count_append, count_cons_self, ih]
    simp only [separators, map_cons, sum_cons, length_cons]
    omega

/-- A key and the separators in each level give the levels back. -/
theorem nsKey_inj_of_separators : ∀ {levels levels' : List Text}, separators levels = separators levels' →
    nsKey levels = nsKey levels' → levels = levels'
  | [], [], _, _ => rfl
  | [], _ :: _, hsep, _ | _ :: _, [], hsep, _ => by simp [separators] at hsep
  | [only], [only'], _, hkey => by simpa [nsKey, intercalate] using hkey
  | [_], _ :: _ :: _, hsep, _ | _ :: _ :: _, [_], hsep, _ => by simp [separators] at hsep
  | first :: second :: rest, first' :: second' :: rest', hsep, hkey => by
    obtain ⟨hfirst, hrest⟩ : first.count '\x00' = first'.count '\x00' ∧
        separators (second :: rest) = separators (second' :: rest') := by
      simpa [separators] using hsep
    rw [nsKey_cons first (by simp), nsKey_cons first' (by simp)] at hkey
    obtain ⟨rfl, hkeys⟩ := append_cons_inj_of_count hfirst hkey
    rw [nsKey_inj_of_separators hrest hkeys]

theorem Target.levels_inj {t t' : Target} (hrow : t.row w = t'.row w)
    (hsep : separators t.levels = separators t'.levels) : t.levels = t'.levels := by
  have hcount : (nsKey t.levels).count '\x00' = (nsKey t'.levels).count '\x00' := by
    have hlength := congrArg length hsep
    rw [count_nsKey, count_nsKey, hsep]
    simp only [separators, length_map] at hlength
    rw [hlength]
  refine nsKey_inj_of_separators hsep ?_
  unfold row at hrow
  split at hrow <;> split at hrow
  · simpa [nsKeyWh_eq] using hrow
  · cases hrow
  · cases hrow
  · have hkey := Sum.inr.inj hrow
    simp only [tableKeyWh, nsKeyWh_eq, append_assoc, append_cancel_left_eq] at hkey
    exact (append_cons_inj_of_count hcount hkey).1

end Keys

/-! ## The table's name in the conditions -/

def ARN_START : Text := "arn:obio:iceberg:::".toList

def buildIcebergArn (t : Target) : Text :=
  let nsPath := ['/'].intercalate t.levels
  match t.table with
  | none => ARN_START ++ nsPath
  | some name => ARN_START ++ nsPath ++ '/' :: name

/-- `namespace_decision` takes what follows the first `/`. -/
def arnTableName (arn : Text) : Option Text :=
  if ARN_START.isPrefixOf arn then
    match (arn.drop ARN_START.length).dropWhile (· ≠ '/') with
    | [] => none
    | _ :: name => some name
  else none

/-- The variables `check_iceberg_policy` evaluates a policy with. -/
def policyVariables (levels : List Text) (action : Text) (tableName : Option Text)
    (tags : List (Text × Text)) : OrdMap Text Text :=
  let named := OrdMap.empty.insert "iceberg:namespace".toList (['.'].intercalate levels)
  let named := tableName.elim named (named.insert "iceberg:tableName".toList)
  let named := named.insert "iceberg:operation".toList action
  named.extend (tags.map fun (key, value) => ("obio:ResourceTag/".toList ++ key, value))

/-- The evaluations of a request: of the catalog's policy and each level's, and of the table's own. -/
def evaluations (t : Target) (action : Text) (tags : List (Text × Text)) : List (OrdMap Text Text) :=
  let chain := policyVariables t.levels action (arnTableName (buildIcebergArn t)) tags
  replicate (t.levels.length + 1) chain ++
    t.table.toList.map fun name => policyVariables t.levels action (some name) []

theorem policyVariables_tableName (levels : List Text) (action : Text) (tableName : Option Text)
    (tags : List (Text × Text)) :
    (policyVariables levels action tableName tags).get "iceberg:tableName".toList = tableName := by
  have htags : ∀ (m : OrdMap Text Text), (m.extend (tags.map fun (key, value) =>
      ("obio:ResourceTag/".toList ++ key, value))).get "iceberg:tableName".toList =
      m.get "iceberg:tableName".toList := by
    induction tags with
    | nil => exact fun _ => rfl
    | cons tag tags ih =>
      intro m
      rw [map_cons, OrdMap.extend, foldl_cons]
      refine (ih _).trans ?_
      rw [OrdMap.get_insert, if_neg (by simp)]
  rw [policyVariables, htags, OrdMap.get_insert, if_neg (by decide)]
  cases tableName with
  | none => exact (OrdMap.get_insert _ _ _ _).trans (if_neg (by decide))
  | some name => exact OrdMap.get_insert_self _ _ _

section
variable {path : Text}

theorem arnTableName_of_notMem (h : '/' ∉ path) : arnTableName (ARN_START ++ path) = none := by
  have hnone : path.dropWhile (· ≠ '/') = [] := by
    rw [dropWhile_eq_nil_iff]
    intro c hc
    simpa using ne_of_mem_of_not_mem hc h
  rw [arnTableName, if_pos ( isPrefixOf_iff_prefix.2 (prefix_append _ _)), drop_left, hnone]

theorem arnTableName_append (h : '/' ∉ path) (name : Text) :
    arnTableName (ARN_START ++ (path ++ '/' :: name)) = some name := by
  have hrest : (path ++ '/' :: name).dropWhile (· ≠ '/') = '/' :: name := by
    rw [dropWhile_append_of_pos (fun c hc => by simpa using ne_of_mem_of_not_mem hc h)]
    simp
  rw [arnTableName, if_pos ( isPrefixOf_iff_prefix.2 (prefix_append _ _)), drop_left, hrest]

end

theorem arnTableName_buildIcebergArn (t : Target) :
    arnTableName (buildIcebergArn t) = t.table ↔ '/' ∉ ['/'].intercalate t.levels := by
  obtain ⟨levels, table⟩ := t
  unfold buildIcebergArn
  generalize ['/'].intercalate levels = path
  by_cases hslash : '/' ∈ path
  · obtain ⟨before, after, rfl, hbefore⟩ := eq_append_cons_of_mem hslash
    cases table with
    | none => simp [arnTableName_append hbefore]
    | some name =>
      have hname : after ++ '/' :: name ≠ name := by
        intro h
        have := congrArg length h
        simp at this
        omega
      simp [append_assoc, arnTableName_append hbefore, hname]
  · cases table with
    | none => simp [arnTableName_of_notMem hslash, hslash]
    | some name => simp [append_assoc, arnTableName_append hslash, hslash]

/-- **The table's own name is what every policy sees**, and none on a namespace, exactly where the path has no
`/`. -/
theorem tableName_iff (t : Target) (action : Text) (tags : List (Text × Text)) :
    (∀ vars ∈ evaluations t action tags, vars.get "iceberg:tableName".toList = t.table) ↔
      '/' ∉ ['/'].intercalate t.levels := by
  rw [← arnTableName_buildIcebergArn]
  constructor
  · intro h
    have := h _ (mem_append_left _ (mem_replicate.2 ⟨by simp, rfl⟩))
    rwa [policyVariables_tableName] at this
  · intro h vars hmem
    rcases mem_append.1 hmem with hmem | hmem
    · rw [(mem_replicate.1 hmem).2, policyVariables_tableName, h]
    · obtain ⟨name, hname, rfl⟩ := mem_map.1 hmem
      rw [policyVariables_tableName, Option.mem_toList.1 hname]

/-- In a namespace of two levels the name starts with the second, and the namespace itself has a name. -/
theorem nested_tableName :
    (∃ vars ∈ evaluations ⟨[['a'], ['b']], some ['t']⟩ "iceberg:LoadTable".toList [],
      vars.get "iceberg:tableName".toList = some ['b', '/', 't']) ∧
    ∃ vars ∈ evaluations ⟨[['a'], ['b']], none⟩ "iceberg:LoadNamespace".toList [],
      vars.get "iceberg:tableName".toList = some ['b'] := by
  decide +kernel

end IoLake.Iceberg
