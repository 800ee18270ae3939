import IoLake.Iceberg.Metadata

/-!
# Data filters on a table's metadata

A load of a table applies the filters of the caller to the document it answers with, one after another.  A
filter takes columns out of the schemas and puts its row filter, a text for the engine, into the properties.
-/

namespace IoLake.Iceberg.Filters

open List Json

structure DataFilter where
  allowedColumns : List String
  excludedColumns : List String
  rowFilterExpression : String
deriving DecidableEq

namespace DataFilter

/-- The test `fields.retain` makes of a column's name. -/
def keeps (f : DataFilter) (name : String) : Bool :=
  if !f.excludedColumns.isEmpty && f.excludedColumns.contains name then false
  else if !f.allowedColumns.isEmpty && !f.allowedColumns.contains name then false
  else true

theorem keeps_iff {f : DataFilter} {name : String} : f.keeps name = true ↔
    name ∉ f.excludedColumns ∧ (f.allowedColumns ≠ [] → name ∈ f.allowedColumns) := by
  have hne : ∀ {l : List String}, name ∈ l → l ≠ [] := ne_nil_of_mem
  unfold keeps
  by_cases hexcluded : name ∈ f.excludedColumns
  · simp [hexcluded, hne hexcluded]
  · by_cases hallowed : name ∈ f.allowedColumns <;> simp [hexcluded, hallowed]

end DataFilter

def asArray : Json → Option (List Json)
  | .arr items => some items
  | _ => none

def items (field : String) (json : Json) : Option (List Json) := (json.get field).bind asArray

def columnName (column : Json) : String := ((column.get "name").bind asStr).getD ""

def maxId (field : String) (items : List Json) : Option Int :=
  (items.filterMap fun item => (item.get field).bind asI64).max?

def filterSchema (f : DataFilter) (schema : Json) : Json :=
  match schema, items "fields" schema with
  | .obj members, some fields =>
    let fields := fields.filter fun column => f.keeps (columnName column)
    .obj (insert "last-column-id" (.num ((maxId "id" fields).getD 0)) (insert "fields" (.arr fields) members))
  | _, _ => schema

def applyColumnFilter (f : DataFilter) (metadata : Json) : Json :=
  match metadata, items "schemas" metadata with
  | .obj members, some schemas =>
    let schemas := schemas.map (filterSchema f)
    let members := insert "schemas" (.arr schemas) members
    match maxId "last-column-id" schemas with
    | some id => .obj (insert "last-column-id" (.num id) members)
    | none => .obj members
  | _, _ => metadata

def applyRowFilter (rowFilterExpression : String) (metadata : Json) : Except String Json :=
  if rowFilterExpression = "" then .ok metadata
  else do
    let metadata ←
      if (metadata.get "properties").isNone then metadata.set "properties" (.obj []) else .ok metadata
    return metadata.modify "properties" fun
      | .obj properties => .obj (insert "obio.row-filter" (.str rowFilterExpression) properties)
      | other => other

/-- The filters as `load_table` applies them. -/
def applyFilters (filters : List DataFilter) (metadata : Json) : Except String Json :=
  filters.foldlM (fun doc f => applyRowFilter f.rowFilterExpression (applyColumnFilter f doc)) metadata

/-! ## What an engine reads -/

def columns (metadata : Json) : Option (List (Option (List Json))) :=
  (items "schemas" metadata).map (map (items "fields"))

/-- The row filter, where the properties are an object or are not there yet. -/
def rowFilter (metadata : Json) : Option (Option Json) :=
  match metadata.get "properties" with
  | none => some none
  | some (.obj properties) => some ((Json.obj properties).get "obio.row-filter")
  | some _ => none

/-- The columns and the row filter.  `last-column-id`, which only a writer of new columns reads, is no part
of it. -/
def view (metadata : Json) : Option (List (Option (List Json))) × Option (Option Json) :=
  (columns metadata, rowFilter metadata)

def expressions (filters : List DataFilter) : List String :=
  (filters.map DataFilter.rowFilterExpression).filter (· ≠ "")

/-- What is left of the columns once those alone are kept that `p` says of their names. -/
def restrict (p : String → Bool) : Option (List (Option (List Json))) → Option (List (Option (List Json))) :=
  Option.map (map (Option.map (filter fun column => p (columnName column))))

variable {members : List (String × Json)}

theorem get_cons (field other : String) (value : Json) : (Json.obj ((field, value) :: members)).get other =
    if other = field then some value else (Json.obj members).get other := by
  rw [Json.get, lookup_cons, Json.get]
  split <;> simp_all

theorem get_insert (field other : String) (value : Json) :
    (Json.obj (Json.insert field value members)).get other =
      if other = field then some value else (Json.obj members).get other := by
  induction members with
  | nil => rw [Json.insert, get_cons]
  | cons m rest ih =>
    obtain ⟨f, v⟩ := m
    rw [Json.insert]
    split
    · rename_i hf
      subst hf
      rw [get_cons, get_cons]
      split <;> rfl
    · rw [get_cons, ih, get_cons]
      split <;> simp_all

theorem items_insert (field other : String) (value : Json) :
    items other (.obj (Json.insert field value members)) =
      if other = field then asArray value else items other (.obj members) := by
  rw [items, get_insert]
  split <;> rfl

theorem items_filterSchema (f : DataFilter) (schema : Json) : items "fields" (filterSchema f schema) =
    (items "fields" schema).map (filter fun column => f.keeps (columnName column)) := by
  cases hfields : items "fields" schema with
  | none => cases schema <;> simp [filterSchema, hfields]
  | some fields =>
    cases schema with
    | obj members => simp [filterSchema, hfields, items_insert, asArray]
    | _ => cases hfields

theorem rowFilter_insert {field : String} (h : field ≠ "properties") (value : Json) :
    rowFilter (.obj (Json.insert field value members)) = rowFilter (.obj members) := by
  rw [rowFilter, get_insert, if_neg h.symm, rowFilter]

theorem view_applyColumnFilter (f : DataFilter) (members : List (String × Json)) :
    ∃ after, applyColumnFilter f (.obj members) = .obj after ∧
    view (.obj after) = (restrict f.keeps (columns (.obj members)), rowFilter (.obj members)) := by
  cases hschemas : items "schemas" (.obj members) with
  | none =>
    exact ⟨members, by simp [applyColumnFilter, hschemas], by simp [view, columns, restrict, hschemas]⟩
  | some schemas =>
    cases hid : maxId "last-column-id" (schemas.map (filterSchema f)) with
    | none =>
      refine ⟨_, by simp [applyColumnFilter, hschemas, hid]; rfl, ?_⟩
      simp [view, columns, restrict, hschemas, items_insert, rowFilter_insert, asArray, items_filterSchema]
    | some id =>
      refine ⟨_, by simp [applyColumnFilter, hschemas, hid]; rfl, ?_⟩
      simp [view, columns, restrict, hschemas, items_insert, rowFilter_insert, asArray, items_filterSchema]

theorem view_applyRowFilter (e : String) (members : List (String × Json)) :
    ∃ after, applyRowFilter e (.obj members) = .ok (.obj after) ∧
    view (.obj after) = (columns (.obj members), if e = "" then rowFilter (.obj members)
      else (rowFilter (.obj members)).map fun _ => some (.str e)) := by
  by_cases he : e = ""
  · exact ⟨members, by simp [applyRowFilter, he], by simp [view, he]⟩
  cases hproperties : Json.get "properties" (.obj members) with
  | none =>
    refine ⟨_, by simp [applyRowFilter, he, hproperties, Json.set, Json.modify, get_insert]; rfl, ?_⟩
    simp [view, columns, rowFilter, items_insert, get_insert, get_cons, hproperties, Json.insert, he]
  | some properties =>
    refine ⟨_, by simp [applyRowFilter, he, hproperties, Json.modify]; rfl, ?_⟩
    cases properties with
    | obj properties => simp [view, columns, rowFilter, items_insert, get_insert, hproperties, he]
    | _ => simp [view, columns, rowFilter, items_insert, get_insert, hproperties, he]

theorem view_applyFilters (filters : List DataFilter) (members : List (String × Json)) :
    (applyFilters filters (.obj members)).map view =
      .ok (restrict (fun name => filters.all (·.keeps name)) (columns (.obj members)),
        (expressions filters).getLast?.elim (rowFilter (.obj members))
          fun e => (rowFilter (.obj members)).map fun _ => some (.str e)) := by
  induction filters generalizing members with
  | nil =>
    have hid : (fun columns : List Json => columns.filter fun _ => true) = id := by
      funext
      simp
    simp [applyFilters, view, restrict, expressions, hid, pure, Except.pure, Except.map]
  | cons f filters ih =>
    obtain ⟨restricted, hrestricted, hview⟩ := view_applyColumnFilter f members
    obtain ⟨after, hafter, hview'⟩ := view_applyRowFilter f.rowFilterExpression restricted
    have hrest : applyFilters (f :: filters) (.obj members) = applyFilters filters (.obj after) := by
      simp [applyFilters, hrestricted, hafter, bind, Except.bind]
    rw [hrest, ih]
    simp only [view, Prod.mk.injEq] at hview hview'
    rw [hview'.1, hview'.2, hview.1, hview.2]
    congr 2
    · simp [restrict, Function.comp_def, Bool.and_comm]
    · by_cases he : f.rowFilterExpression = ""
      · simp [expressions, he]
      · have hcons : expressions (f :: filters) = f.rowFilterExpression :: expressions filters := by
          simp [expressions, he]
        rw [hcons, getLast?_cons, if_neg he]
        cases (expressions filters).getLast? <;> simp [Function.comp_def]

/-! ## Whether the filters restrict -/

section Restrict

variable {Row : Type} (holds : String → Row → Prop)

/-- In any order the filters leave the columns that none excludes and each allow list names, show a row filter
that implies each of theirs, and come to the same. -/
def OnlyRestrict (filters : List DataFilter) (metadata : Json) : Prop :=
  ∀ order, order.Perm filters →
    (∃ shown, (applyFilters order metadata).map view = .ok (restrict (fun name => decide (∀ f ∈ filters,
        name ∉ f.excludedColumns ∧ (f.allowedColumns ≠ [] → name ∈ f.allowedColumns)))
        (columns metadata), shown) ∧
      ∀ e ∈ expressions filters, ∃ e', shown = some (some (.str e')) ∧ ∀ row, holds e' row → holds e row) ∧
    (applyFilters order metadata).map view = (applyFilters filters metadata).map view

theorem restrict_keeps {order filters : List DataFilter} (h : order.Perm filters) :
    (fun name => order.all (·.keeps name)) = fun name => decide (∀ f ∈ filters,
      name ∉ f.excludedColumns ∧ (f.allowedColumns ≠ [] → name ∈ f.allowedColumns)) := by
  funext name
  rw [Bool.eq_iff_iff, all_eq_true, decide_eq_true_eq]
  simp only [h.mem_iff, DataFilter.keeps_iff]

theorem exists_order_last {filters : List DataFilter} {e : String} (he : e ∈ expressions filters) :
    ∃ order, order.Perm filters ∧ (expressions order).getLast? = some e := by
  obtain ⟨hmem, hne⟩ := mem_filter.1 he
  obtain ⟨f, hf, rfl⟩ := mem_map.1 hmem
  refine ⟨filters.erase f ++ [f], ?_, ?_⟩
  · exact perm_append_comm.trans (perm_cons_erase hf).symm
  · simp_all [expressions]

theorem getLast?_of_same {e : String} {l : List String} (he : e ∈ l) (h : ∀ e' ∈ l, e' = e) :
    l.getLast? = some e := by
  cases hl : l.getLast? with
  | none => simp_all
  | some e' => rw [h e' (mem_of_getLast? hl)]

/-- **Data filters only restrict**, whatever their order, exactly where those with a row filter have the same
one, and the properties can hold it. -/
theorem only_restrict_iff (filters : List DataFilter) (members : List (String × Json)) :
    OnlyRestrict holds filters (.obj members) ↔
      (∀ e ∈ expressions filters, ∀ e' ∈ expressions filters, e = e') ∧
      (expressions filters ≠ [] → (rowFilter (.obj members)).isSome) := by
  constructor
  · intro h
    have hroom : expressions filters ≠ [] → (rowFilter (.obj members)).isSome := by
      intro hne
      obtain ⟨e, he⟩ := exists_mem_of_ne_nil _ hne
      obtain ⟨order, horder, hlast⟩ := exists_order_last he
      obtain ⟨⟨shown, hview, himplied⟩, -⟩ := h order horder
      obtain ⟨e', rfl, -⟩ := himplied e he
      rw [view_applyFilters, hlast, Except.ok.injEq, Prod.mk.injEq] at hview
      obtain ⟨filter, hfilter, -⟩ := Option.map_eq_some_iff.1 hview.2
      rw [hfilter]
      rfl
    refine ⟨fun e he e' he' => ?_, hroom⟩
    obtain ⟨filter, hfilter⟩ := Option.isSome_iff_exists.1 (hroom (ne_nil_of_mem he))
    obtain ⟨order, horder, hlast⟩ := exists_order_last he
    obtain ⟨order', horder', hlast'⟩ := exists_order_last he'
    have hviews := (h order horder).2.trans (h order' horder').2.symm
    rw [view_applyFilters, view_applyFilters, hlast, hlast', hfilter] at hviews
    simp at hviews
    exact hviews.2
  · rintro ⟨hsame, hroom⟩ order horder
    have hperm : (expressions order).Perm (expressions filters) := (horder.map _).filter _
    rw [view_applyFilters, view_applyFilters, restrict_keeps horder, restrict_keeps (.refl filters)]
    cases hnil : expressions filters with
    | nil =>
      rw [hnil] at hperm
      rw [hperm.eq_nil]
      exact ⟨⟨_, rfl, by simp⟩, rfl⟩
    | cons e rest =>
      have he : e ∈ expressions filters := hnil ▸ mem_cons_self
      have hall : ∀ e' ∈ expressions filters, e' = e := fun e' he' => hsame e' he' e he
      obtain ⟨filter, hfilter⟩ := Option.isSome_iff_exists.1 (hroom (ne_nil_of_mem he))
      rw [← hnil, getLast?_of_same he hall, hfilter,
        getLast?_of_same (hperm.mem_iff.2 he) fun e' he' => hall e' (hperm.mem_iff.1 he')]
      exact ⟨⟨_, rfl, fun e' he' => ⟨e, rfl, fun row h => hall e' he' ▸ h⟩⟩, rfl⟩

end Restrict

/-- Of two row filters the engine is shown the one that comes last. -/
theorem last_row_filter_shown :
    (applyFilters [⟨[], [], "a"⟩, ⟨[], [], "b"⟩] (.obj [])).map view = .ok (none, some (some (.str "b"))) ∧
    (applyFilters [⟨[], [], "b"⟩, ⟨[], [], "a"⟩] (.obj [])).map view =
      .ok (none, some (some (.str "a"))) := by
  rw [view_applyFilters, view_applyFilters]
  exact ⟨rfl, rfl⟩

end IoLake.Iceberg.Filters
