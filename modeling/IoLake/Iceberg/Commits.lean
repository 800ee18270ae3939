import IoLake.Iceberg.Catalog
import IoLake.Iceberg.Metadata
import IoLake.Lib.Steps

/-!
# Commits are serializable

The gateway loads a table's metadata, checks a commit's requirements on it and applies its updates; the
metadata service compares the location with its copy and proposes the new entry; the state machine compares
again.
-/

namespace IoLake.Iceberg.Commits

open List OrdMap

open CompareAndSet (Op)

structure Env where
  parse : Text → Option Json
  print : Json → Text
  confine : String → Except String Unit

/-- One change of a request: what the client sent, and the times and the UUID it was computed with. -/
structure Planned where
  levels : List Text
  name : Text
  commit : Commit
  now : Int
  logged : Int
  suffix : String

def Planned.key (w : Text) (p : Planned) : Text := tableKeyWh w p.levels p.name

def Planned.result (env : Env) (p : Planned) (location metadata : Text) : Option (Text × Text) :=
  if metadata.isEmpty then none
  else match env.parse metadata with
  | none => none
  | some document =>
    match advance env.confine (String.ofList location) document p.commit p.now p.logged p.suffix with
    | .ok (location, document) => some (location.toList, env.print document)
    | .error _ => none

abbrev Entries := OrdMap Text TableEntry

inductive Effect
  | commits (now : Nat) (changes : List Planned)
  | policy (now : Nat) (key json : Text)
  | drop (key : Text)
  | create (key : Text) (entry : TableEntry)
  | nothing

def Planned.apply (env : Env) (w : Text) (now : Nat) (m : Entries) (p : Planned) : Option Entries := do
  let entry ← m.get (p.key w)
  let (location, metadata) ← p.result env entry.metadataLocation entry.metadataJson
  return m.insert (p.key w) ⟨location, entry.createdAt, now, metadata, entry.policyJson⟩

/-- What each request means when it runs alone, its changes one after another. -/
def Effect.apply (env : Env) (w : Text) (m : Entries) : Effect → Option Entries
  | .commits now changes => changes.foldlM (Planned.apply env w now) m
  | .policy now key json => do
    let entry ← m.get key
    return m.insert key { entry with policyJson := json, updatedAt := now }
  | .drop key => if m.contains key then some (m.erase key) else none
  | .create key entry => if m.contains key then none else some (m.insert key entry)
  | .nothing => some m

def serial (env : Env) (w : Text) (m : Entries) (effects : List Effect) : Option Entries :=
  effects.foldlM (Effect.apply env w) m

def effectOf (w : Text) (now : Nat) : Call → Option Effect
  | .setTablePolicy levels name policy => some (.policy now (tableKeyWh w levels name) policy)
  | .dropTable levels name => some (.drop (tableKeyWh w levels name))
  | .createTable levels name location metadata =>
    some (.create (tableKeyWh w levels name) ⟨location, now, now, metadata, []⟩)
  | .commitTable _ | .commitTransaction _ | .renameTable .. => none
  | _ => some .nothing

/-! ## Requests side by side -/

/-- A commit (`single`) or a transaction in the gateway: the changes to load yet, and those computed. -/
structure Session where
  single : Bool
  todo : List (List Text × Text × Commit)
  made : List (Planned × TableChange) := []

structure Task where
  effect : Effect
  stage : Stage
  landed : Bool := false

/-- `history` lists the requests answered Ok, `seen` every location and document a table has had.  Neither is
kept by the code. -/
structure World where
  rows : Rows
  cache : Cache
  sessions : List Session := []
  tasks : List Task := []
  history : List Effect := []
  seen : List (Text × Text × Text) := []

inductive Event
  | request (single : Bool) (changes : List (List Text × Text × Commit))
  | load (session : Nat) (now logged : Int) (suffix : String)
  | check (session : Nat) (now : Nat)
  | call (now : Nat) (c : Call)
  | commit (task : Nat)
  | mirror (task : Nat)

def Stage.tableOps : Stage → List (Op Text TableEntry)
  | .tables ops _ _ => ops
  | _ => []

def stored (ops : List (Op Text TableEntry)) : List (Text × Text × Text) :=
  ops.filterMap fun op => op.newValue.map fun e => (op.key, e.metadataLocation, e.metadataJson)

def Session.load (env : Env) (w : Text) (cache : Cache) (now logged : Int) (suffix : String)
    (s : Session) : Option Session :=
  match s.todo with
  | [] => none
  | (levels, name, commit) :: rest =>
    let p : Planned := ⟨levels, name, commit, now, logged, suffix⟩
    match cache.tables.get (p.key w) with
    | none => none
    | some entry =>
      match p.result env entry.metadataLocation entry.metadataJson with
      | none => none
      | some (location, metadata) => some { s with
          todo := rest
          made := s.made ++ [(p, ⟨levels, name, entry.metadataLocation, location, metadata⟩)] }

def Session.call (s : Session) : Option Call :=
  match s.todo, s.single, s.made with
  | [], true, [(_, change)] => some (.commitTable change)
  | [], false, made => some (.commitTransaction (made.map Prod.snd))
  | _, _, _ => none

def step (env : Env) (w : Text) (s : World) : Event → Option World
  | .request single changes =>
    some { s with sessions := s.sessions ++ [{ single := single, todo := changes }] }
  | .load r now logged suffix =>
    match s.sessions[r]? with
    | none => none
    | some session =>
      match session.load env w s.cache now logged suffix with
      | some session => some { s with sessions := s.sessions.set r session }
      | none => some { s with sessions := s.sessions.eraseIdx r }
  | .check r now =>
    match s.sessions[r]? with
    | none => none
    | some session =>
      match session.call with
      | none => none
      | some call =>
        match prepare w now s.cache call with
        | .error _ => some { s with sessions := s.sessions.eraseIdx r }
        | .ok stage => some { s with
            sessions := s.sessions.eraseIdx r
            tasks := s.tasks ++ [{ effect := .commits now (session.made.map Prod.fst), stage := stage }] }
  | .call now c =>
    match effectOf w now c with
    | none => none
    | some effect =>
      match prepare w now s.cache c with
      | .error _ => some s
      | .ok stage => some { s with tasks := s.tasks ++ [{ effect := effect, stage := stage }] }
  | .commit i =>
    match s.tasks[i]? with
    | none => none
    | some t =>
      if t.landed then none else
      match t.stage.commit s.rows with
      | .error _ => some { s with tasks := s.tasks.eraseIdx i }
      | .ok rows => some { s with
          rows := rows
          tasks := s.tasks.set i { t with landed := true }
          history := s.history ++ [t.effect]
          seen := s.seen ++ stored (Stage.tableOps t.stage) }
  | .mirror i =>
    match s.tasks[i]? with
    | none => none
    | some t =>
      if t.landed then
        some { s with cache := t.stage.mirror s.cache, tasks := s.tasks.eraseIdx i }
      else none

/-- A transaction that is applied names each table once, and gives no location a second document of the
table. -/
def Sound (s : World) : Event → Prop
  | .commit i => (s.tasks[i]?.all fun t => (t.stage.commit s.rows).toOption.isNone ||
      decide (((Stage.tableOps t.stage).map Op.key).Nodup) &&
      (stored (Stage.tableOps t.stage)).all fun new => s.seen.all fun old =>
        decide (old.1 = new.1 → old.2.1 = new.2.1 → old.2.2 = new.2.2)) = true
  | _ => True

instance (s : World) (e : Event) : Decidable (Sound s e) := by
  cases e <;> unfold Sound <;> infer_instance

variable {now : Nat} {stage : Stage} {seen seen' : List (Text × Text × Text)} {cache : Cache}
  {session : Session}

section Apply

variable {env : Env} {w : Text}

def ExactOp (env : Env) (w : Text) (now : Nat) (p : Planned) (op : Op Text TableEntry) : Prop :=
  ∃ entry location metadata,
    op = ⟨p.key w, some entry, some ⟨location, entry.createdAt, now, metadata, entry.policyJson⟩⟩ ∧
    p.result env entry.metadataLocation entry.metadataJson = some (location, metadata)

theorem foldlM_eq_write {changes : List Planned} {ops : List (Op Text TableEntry)}
    (h : List.Forall₂ (ExactOp env w now) changes ops) :
    ∀ {m : Entries}, (ops.map Op.key).Nodup → (∀ op ∈ ops, m.get op.key = op.expected) →
    changes.foldlM (Planned.apply env w now) m = some (CompareAndSet.write m ops) := by
  induction h with
  | nil => exact fun _ _ => rfl
  | @cons p op changes ops hop _ ih =>
    intro m hnodup hexpected
    obtain ⟨entry, location, metadata, rfl, hresult⟩ := hop
    obtain ⟨hfirst, hrest⟩ := nodup_cons.1 hnodup
    have hget : m.get (p.key w) = some entry := hexpected _ mem_cons_self
    have happly : p.apply env w now m = some (m.insert (p.key w)
        ⟨location, entry.createdAt, now, metadata, entry.policyJson⟩) := by
      simp [Planned.apply, hget, hresult]
    rw [foldlM_cons, happly]
    refine ih hrest fun op hop => ?_
    have hne : op.key ≠ p.key w := by
      intro e
      have hmem : op.key ∈ ops.map Op.key := mem_map_of_mem hop
      exact hfirst (e ▸ hmem)
    rw [get_insert, if_neg hne]
    exact hexpected op (mem_cons_of_mem _ hop)

/-- A task's operations are those of its effect, where the documents loaded are in `seen`. -/
def TaskOk (env : Env) (w : Text) (seen : List (Text × Text × Text)) (t : Task) : Prop :=
  match t.effect with
  | .commits now changes => List.Forall₂ (fun p op => ∃ entry loaded location metadata,
      op = ⟨p.key w, some entry, some ⟨location, entry.createdAt, now, metadata, entry.policyJson⟩⟩ ∧
      (p.key w, entry.metadataLocation, loaded) ∈ seen ∧
      p.result env entry.metadataLocation loaded = some (location, metadata))
      changes (Stage.tableOps t.stage)
  | .policy now key json => ∃ entry, Stage.tableOps t.stage =
      [⟨key, some entry, some { entry with policyJson := json, updatedAt := now }⟩]
  | .drop key => ∃ entry, Stage.tableOps t.stage = [⟨key, some entry, none⟩]
  | .create key entry => Stage.tableOps t.stage = [⟨key, none, some entry⟩]
  | .nothing => Stage.tableOps t.stage = []

theorem commit_tableOps {rows rows' : Rows} (h : stage.commit rows = .ok rows') :
    (∀ op ∈ Stage.tableOps stage, rows.tables.get op.key = op.expected) ∧
    rows'.tables = CompareAndSet.write rows.tables (Stage.tableOps stage) := by
  cases stage with
  | answer a =>
    cases h
    exact ⟨nofun, rfl⟩
  | namespaces ops conflict a =>
    obtain ⟨-, rfl⟩ := Stage.commit_namespaces _ h
    exact ⟨nofun, rfl⟩
  | tables ops conflict a =>
    obtain ⟨hexpected, rfl⟩ := Stage.commit_tables _ h
    exact ⟨hexpected, rfl⟩

def Functional (seen : List (Text × Text × Text)) : Prop :=
  ∀ x ∈ seen, ∀ y ∈ seen, x.1 = y.1 → x.2.1 = y.2.1 → x.2.2 = y.2.2

def Covers (seen : List (Text × Text × Text)) (m : Entries) : Prop :=
  ∀ k e, m.get k = some e → (k, e.metadataLocation, e.metadataJson) ∈ seen

theorem commit_apply {t : Task} {rows rows' : Rows}
    (hok : TaskOk env w seen t) (hseen : Functional seen) (hrows : Covers seen rows.tables)
    (hnodup : ((Stage.tableOps t.stage).map Op.key).Nodup) (h : t.stage.commit rows = .ok rows') :
    t.effect.apply env w rows.tables = some rows'.tables := by
  obtain ⟨hexpected, hafter⟩ := commit_tableOps h
  rw [hafter]
  unfold TaskOk at hok
  cases heffect : t.effect with
  | commits now changes =>
    simp only [heffect] at hok
    refine foldlM_eq_write ?_ hnodup hexpected
    refine forall₂_iff_get.2 ⟨hok.length_eq, fun i hi hi' => ?_⟩
    obtain ⟨entry, loaded, location, metadata, hop, hloaded, hresult⟩ := hok.get hi hi'
    have hget := hexpected _ (get_mem _ ⟨i, hi'⟩)
    rw [hop] at hget
    have : loaded = entry.metadataJson := hseen _ hloaded _ (hrows _ _ hget) rfl rfl
    exact ⟨entry, location, metadata, hop, this ▸ hresult⟩
  | policy now key json =>
    simp only [heffect] at hok
    obtain ⟨entry, hops⟩ := hok
    rw [hops] at hexpected ⊢
    have hget : rows.tables.get key = some entry := hexpected _ mem_cons_self
    simp only [Effect.apply, hget]
    rfl
  | drop key =>
    simp only [heffect] at hok
    obtain ⟨entry, hops⟩ := hok
    rw [hops] at hexpected ⊢
    have hget : rows.tables.get key = some entry := hexpected _ mem_cons_self
    simp only [Effect.apply, OrdMap.contains, hget]
    rfl
  | create key entry =>
    simp only [heffect] at hok
    rw [hok] at hexpected ⊢
    have hget : rows.tables.get key = none := hexpected _ mem_cons_self
    simp only [Effect.apply, OrdMap.contains, hget]
    rfl
  | nothing =>
    simp only [heffect] at hok
    rw [hok]
    rfl

end Apply

/-! ## Runs -/

def MadeOk (env : Env) (w : Text) (seen : List (Text × Text × Text)) (made : Planned × TableChange) : Prop :=
  made.2.levels = made.1.levels ∧ made.2.name = made.1.name ∧ ∃ loaded,
    (made.1.key w, made.2.currentLocation, loaded) ∈ seen ∧
    made.1.result env made.2.currentLocation loaded = some (made.2.newLocation, made.2.newMetadata)

structure Inv (env : Env) (w : Text) (init : Entries) (s : World) : Prop where
  serial : serial env w init s.history = some s.rows.tables
  functional : Functional s.seen
  rows : Covers s.seen s.rows.tables
  cache : Covers s.seen s.cache.tables
  sessions : ∀ session ∈ s.sessions, ∀ made ∈ session.made, MadeOk env w s.seen made
  tasks : ∀ t ∈ s.tasks, TaskOk env w s.seen t
  landed : ∀ t ∈ s.tasks, t.landed = true → ∀ x ∈ stored (Stage.tableOps t.stage), x ∈ s.seen

section Steps

variable {env : Env} {w : Text} {init : Entries} {s s' : World}

theorem Covers.write {m : Entries}
    {ops : List (Op Text TableEntry)} (h : Covers seen m) (hmono : ∀ x ∈ seen, x ∈ seen')
    (hnew : ∀ x ∈ stored ops, x ∈ seen') : Covers seen' (CompareAndSet.write m ops) := by
  intro k e hk
  by_cases hmem : k ∈ ops.map Op.key
  · obtain ⟨op, hop, rfl, hget⟩ := CompareAndSet.get_write_of_key (m := m) hmem
    apply hnew
    refine mem_filterMap.2 ⟨op, hop, ?_⟩
    rw [← hget, hk]
    rfl
  · rw [CompareAndSet.get_write_of_notMem hmem] at hk
    exact hmono _ (h k e hk)

theorem mirror_tables (stage : Stage) (cache : Cache) :
    (stage.mirror cache).tables = CompareAndSet.write cache.tables (Stage.tableOps stage) := by
  cases stage <;> rfl

theorem TaskOk.mono {t : Task} (h : TaskOk env w seen t)
    (hmono : ∀ x ∈ seen, x ∈ seen') : TaskOk env w seen' t := by
  unfold TaskOk at h ⊢
  cases heffect : t.effect with
  | commits now changes =>
    simp only [heffect] at h ⊢
    refine h.imp ?_
    rintro p op ⟨entry, loaded, location, metadata, hop, hloaded, hresult⟩
    exact ⟨entry, loaded, location, metadata, hop, hmono _ hloaded, hresult⟩
  | _ =>
    simp only [heffect] at h ⊢
    exact h

theorem MadeOk.mono {made : Planned × TableChange}
    (h : MadeOk env w seen made) (hmono : ∀ x ∈ seen, x ∈ seen') : MadeOk env w seen' made := by
  obtain ⟨hlevels, hname, loaded, hloaded, hresult⟩ := h
  exact ⟨hlevels, hname, loaded, hmono _ hloaded, hresult⟩

theorem Session.load_made {session' : Session}
    {now logged : Int} {suffix : String} (hcache : Covers seen cache.tables)
    (h : session.load env w cache now logged suffix = some session')
    (hmade : ∀ made ∈ session.made, MadeOk env w seen made) :
    ∀ made ∈ session'.made, MadeOk env w seen made := by
  unfold Session.load at h
  split at h
  · cases h
  · rename_i levels name commit rest _
    simp only at h
    split at h
    · cases h
    · rename_i entry hentry
      split at h
      · cases h
      · rename_i location metadata hresult
        cases h
        intro made hmem
        rcases mem_append.1 hmem with hmem | hmem
        · exact hmade made hmem
        · cases mem_singleton.1 hmem
          exact ⟨rfl, rfl, entry.metadataJson, hcache _ _ hentry, hresult⟩

theorem Session.call_ops {call : Call}
    (hcall : session.call = some call) (hstage : prepare w now cache call = .ok stage) :
    List.Forall₂ (fun made op => made.2.OpFor w now cache op) session.made (Stage.tableOps stage) := by
  unfold Session.call at hcall
  split at hcall
  · rename_i p change _ _ hmade
    cases hcall
    rw [hmade]
    have hops : Yields (fun stage => ∃ op, Stage.tableOps stage = [op] ∧ change.OpFor w now cache op)
        (commitTable w now cache change) :=
      (changeOp_yields w now cache _ _ change).bind fun op hop => Yields.pure ⟨op, rfl, hop⟩
    obtain ⟨op, hone, hop⟩ := hops stage hstage
    rw [hone]
    exact .cons hop .nil
  · cases hcall
    obtain ⟨ops, conflict, a, rfl, hops⟩ := commitTransaction_yields w now cache _ stage hstage
    exact forall₂_map_left_iff.1 hops
  · cases hcall

theorem Session.taskOk (hmade : ∀ made ∈ session.made, MadeOk env w seen made)
    (hops : List.Forall₂ (fun made op => made.2.OpFor w now cache op) session.made (Stage.tableOps stage)) :
    TaskOk env w seen { effect := .commits now (session.made.map Prod.fst), stage := stage } := by
  refine forall₂_map_left_iff.2 (forall₂_iff_get.2 ⟨hops.length_eq, fun i hi hi' => ?_⟩)
  obtain ⟨hlevels, hname, loaded, hloaded, hresult⟩ := hmade _ (get_mem _ ⟨i, hi⟩)
  obtain ⟨entry, -, hlocation, hop⟩ := hops.get hi hi'
  rw [← hlocation] at hloaded hresult
  refine ⟨entry, loaded, _, _, ?_, hloaded, hresult⟩
  rw [Planned.key, ← hlevels, ← hname]
  exact hop

theorem taskOk_of_call {c : Call} {effect : Effect} (heffect : effectOf w now c = some effect)
    (hstage : prepare w now cache c = .ok stage) :
    TaskOk env w seen { effect := effect, stage := stage } := by
  have hops := prepare_ops w now cache c stage hstage
  cases c <;> simp only [effectOf, Option.some.injEq, reduceCtorEq] at heffect <;> subst heffect
  case createTable levels name location metadata =>
    have : Yields (fun stage => Stage.tableOps stage =
        [⟨tableKeyWh w levels name, none, some ⟨location, now, now, metadata, []⟩⟩])
        (createTable w now cache levels name location metadata) :=
      (Yields.any _).bind fun _ _ => Yields.ite (fun _ => Yields.error _) fun _ => Yields.ok rfl
    exact this stage hstage
  case dropTable levels name =>
    have : Yields (fun stage => ∃ entry, Stage.tableOps stage =
        [⟨tableKeyWh w levels name, some entry, none⟩]) (dropTable w cache levels name) :=
      (Yields.any _).bind fun entry _ => Yields.pure ⟨entry, rfl⟩
    exact this stage hstage
  case setTablePolicy levels name json =>
    have : Yields (fun stage => ∃ entry : TableEntry, Stage.tableOps stage =
        [⟨tableKeyWh w levels name, some entry, some { entry with policyJson := json, updatedAt := now }⟩])
        (setTablePolicy w now cache levels name json) :=
      (Yields.any _).bind fun entry _ => Yields.pure ⟨entry, rfl⟩
    exact this stage hstage
  all_goals
    show Stage.tableOps stage = []
    cases stage with
    | tables ops conflict a => exact eq_nil_iff_forall_not_mem.2 fun op hop => hops op hop
    | _ => rfl

section
variable (hi : Inv env w init s)
include hi

theorem Inv.addTask {t : Task} (ht : TaskOk env w s.seen t) (hl : t.landed = false) :
    Inv env w init { s with tasks := s.tasks ++ [t] } := by
  refine { hi with tasks := fun x hx => ?_, landed := fun x hx hlanded => ?_ }
  all_goals rcases mem_append.1 hx with hx | hx
  · exact hi.tasks x hx
  · cases mem_singleton.1 hx
    exact ht
  · exact hi.landed x hx hlanded
  · cases mem_singleton.1 hx
    cases hl.symm.trans hlanded

theorem Inv.dropTask (i : Nat) : Inv env w init { s with tasks := s.tasks.eraseIdx i } :=
  { hi with
    tasks := fun t ht => hi.tasks t (mem_of_mem_eraseIdx ht)
    landed := fun t ht => hi.landed t (mem_of_mem_eraseIdx ht) }

theorem Inv.dropSession (r : Nat) : Inv env w init { s with sessions := s.sessions.eraseIdx r } :=
  { hi with sessions := fun x hx => hi.sessions x (mem_of_mem_eraseIdx hx) }

theorem Inv.step {e : Event} (hok : Sound s e) (h : step env w s e = some s') : Inv env w init s' := by
  cases e with
  | request single changes =>
    cases h
    refine { hi with sessions := fun session hs => ?_ }
    rcases mem_append.1 hs with hs | hs
    · exact hi.sessions session hs
    · cases mem_singleton.1 hs
      exact nofun
  | load r now logged suffix =>
    simp only [Commits.step] at h
    split at h
    · cases h
    · rename_i session hsession
      have hmade := hi.sessions session (mem_of_getElem? hsession)
      split at h <;> cases h
      · rename_i session' hload
        refine { hi with sessions := fun x hx => ?_ }
        rcases mem_or_eq_of_mem_set hx with hx | rfl
        · exact hi.sessions x hx
        · exact Session.load_made hi.cache hload hmade
      · exact hi.dropSession r
  | check r now =>
    simp only [Commits.step] at h
    split at h
    · cases h
    · rename_i session hsession
      split at h
      · cases h
      · rename_i call hcall
        split at h <;> cases h
        · exact hi.dropSession r
        · rename_i stage hstage
          have hmade := hi.sessions session (mem_of_getElem? hsession)
          exact (hi.dropSession r).addTask (Session.taskOk hmade (Session.call_ops hcall hstage)) rfl
  | call now c =>
    simp only [Commits.step] at h
    split at h
    · cases h
    · rename_i effect heffect
      split at h <;> cases h
      · exact hi
      · rename_i stage hstage
        exact hi.addTask (taskOk_of_call heffect hstage) rfl
  | commit i =>
    simp only [Commits.step] at h
    split at h
    · cases h
    · rename_i t ht
      have hmem := mem_of_getElem? ht
      split at h
      · cases h
      · split at h <;> cases h
        · exact hi.dropTask i
        · rename_i rows hrows
          simp only [Sound, ht, Option.all_some, hrows, Except.toOption, Option.isNone_some, Bool.false_or,
            Bool.and_eq_true, decide_eq_true_eq, all_eq_true] at hok
          obtain ⟨hnodup, hfresh⟩ := hok
          have hold : ∀ x ∈ s.seen, x ∈ s.seen ++ stored (Stage.tableOps t.stage) :=
            fun x hx => mem_append_left _ hx
          have hnew : ∀ x ∈ stored (Stage.tableOps t.stage),
              x ∈ s.seen ++ stored (Stage.tableOps t.stage) := fun x hx => mem_append_right _ hx
          have hcommit := commit_apply (hi.tasks t hmem) hi.functional hi.rows hnodup hrows
          refine ⟨?_, ?_, ?_, ?_, ?_, ?_, ?_⟩
          · show Commits.serial env w init (s.history ++ [t.effect]) = some rows.tables
            rw [Commits.serial, foldlM_append]
            have hserial := hi.serial
            rw [Commits.serial] at hserial
            rw [hserial]
            simp [hcommit]
          · intro x hx y hy hkey hlocation
            rcases mem_append.1 hx with hx | hx <;> rcases mem_append.1 hy with hy | hy
            · exact hi.functional x hx y hy hkey hlocation
            · exact hfresh y hy x hx hkey hlocation
            · exact (hfresh x hx y hy hkey.symm hlocation.symm).symm
            · obtain ⟨op, hop, hx⟩ := mem_filterMap.1 hx
              obtain ⟨op', hop', hy⟩ := mem_filterMap.1 hy
              obtain ⟨e, he, rfl⟩ := Option.map_eq_some_iff.1 hx
              obtain ⟨e', he', rfl⟩ := Option.map_eq_some_iff.1 hy
              have : op = op' := inj_on_of_nodup_map hnodup hop hop' hkey
              subst this
              cases he.symm.trans he'
              rfl
          · rw [show (_ : Entries) = _ from (commit_tableOps hrows).2]
            exact hi.rows.write hold hnew
          · exact fun k e hk => hold _ (hi.cache k e hk)
          · exact fun x hx made hmem => (hi.sessions x hx made hmem).mono hold
          · intro x hx
            rcases mem_or_eq_of_mem_set hx with hx | rfl
            · exact (hi.tasks x hx).mono hold
            · exact (hi.tasks t hmem).mono hold
          · intro x hx hl y hy
            rcases mem_or_eq_of_mem_set hx with hx | rfl
            · exact hold _ (hi.landed x hx hl y hy)
            · exact hnew y hy
  | mirror i =>
    simp only [Commits.step] at h
    split at h
    · cases h
    · rename_i t ht
      split at h <;> cases h
      rename_i hl
      refine { hi.dropTask i with cache := ?_ }
      dsimp only
      rw [mirror_tables]
      exact hi.cache.write (fun _ hx => hx) (hi.landed t (mem_of_getElem? ht) hl)

end

end Steps

def World.start (rows : Rows) : World where
  rows := rows
  cache := ⟨rows.namespaces.mapValues fun _ ns => ns.properties, rows.tables⟩
  seen := rows.tables.entries.map fun e => (e.1, e.2.metadataLocation, e.2.metadataJson)

/-- **Commits are serializable**, where no transaction names a table twice and no location gets two documents
of a table: the tables are what the requests answered Ok make of them one after another, in the order of their
compare-and-sets. -/
theorem commits_serializable (env : Env) (w : Text) (rows : Rows) (events : List Event) (s : World)
    (hok : Steps.Along (step env w) Sound (.start rows) events)
    (h : Steps.run (step env w) (.start rows) events = some s) :
    serial env w rows.tables s.history = some s.rows.tables := by
  have hcovers : Covers (World.start rows).seen rows.tables := by
    intro k e hk
    exact mem_map.2 ⟨(k, e), mem_entries.2 hk, rfl⟩
  have hinit : Inv env w rows.tables (.start rows) := by
    refine ⟨rfl, ?_, hcovers, hcovers, ?_, ?_, ?_⟩
    · intro x hx y hy hkey _
      obtain ⟨⟨k, e⟩, he, rfl⟩ := mem_map.1 hx
      obtain ⟨⟨k', e'⟩, he', rfl⟩ := mem_map.1 hy
      obtain rfl : k = k' := hkey
      cases (mem_entries.1 he).symm.trans (mem_entries.1 he')
      rfl
    all_goals
      intro x hx
      cases hx
  exact (Steps.run_invariant_along (I := Inv env w rows.tables) (fun _ _ _ hi hok hs => hi.step hok hs)
    events _ s hinit hok h).serial

/-! ## A table named twice -/

mutual

def render : Json → String
  | .null => "null"
  | .bool b => if b then "true" else "false"
  | .num n => toString n
  | .str s => "\"" ++ s ++ "\""
  | .arr items => "[" ++ renderItems items ++ "]"
  | .obj fields => "\x7b" ++ renderFields fields ++ "\x7d"

def renderItems : List Json → String
  | [] => ""
  | [item] => render item
  | item :: items => render item ++ "," ++ renderItems items

def renderFields : List (String × Json) → String
  | [] => ""
  | [(f, v)] => "\"" ++ f ++ "\":" ++ render v
  | (f, v) :: fields => "\"" ++ f ++ "\":" ++ render v ++ "," ++ renderFields fields

end

def sampleEnv : Env where
  parse text := [Json.obj [], .obj [("properties", .obj [("a", .str "1")]),
    ("last-sequence-number", .num 1), ("last-updated-ms", .num 7)]].find? (fun d => (render d).toList = text)
  print document := (render document).toList
  confine _ := .ok ()

def sampleRows : Rows :=
  ⟨empty.insert (nsKeyWh ['w'] [['n']]) ⟨[['n']], .empty⟩,
   empty.insert (tableKeyWh ['w'] [['n']] ['t']) ⟨['l'], 1, 1, (render (.obj [])).toList, []⟩⟩

def setProperty (name value : String) : List Text × Text × Commit :=
  ([['n']], ['t'], ⟨[], [.setProperties [(name, value)]]⟩)

def soundRun : List Event :=
  [.request true [setProperty "a" "1"], .load 0 7 7 "5f", .check 0 2,
   .call 3 (.setTablePolicy [['n']] ['t'] ['p']), .commit 0, .commit 1, .mirror 0]

theorem soundRun_serial : ∃ s, Steps.run (step sampleEnv ['w']) (.start sampleRows) soundRun = some s ∧
    s.history.length = 1 ∧ serial sampleEnv ['w'] sampleRows.tables s.history = some s.rows.tables := by
  obtain ⟨s, hs, hlen⟩ :
      ∃ s, Steps.run (step sampleEnv ['w']) (.start sampleRows) soundRun = some s ∧ s.history.length = 1 := by
    decide +kernel
  exact ⟨s, hs, hlen, commits_serializable sampleEnv ['w'] sampleRows soundRun s (by decide +kernel) hs⟩

def twiceRun : List Event :=
  [.request false [setProperty "a" "1", setProperty "b" "2"], .load 0 7 7 "5f", .load 0 8 8 "6a",
   .check 0 2, .commit 0, .mirror 0]

/-- **A change of an acknowledged transaction is missing**: the document stored has only the second property.
-/
theorem change_missing : ∃ s m, Steps.run (step sampleEnv ['w']) (.start sampleRows) twiceRun = some s ∧
    s.history.length = 1 ∧ serial sampleEnv ['w'] sampleRows.tables s.history = some m ∧
    (m.get (tableKeyWh ['w'] [['n']] ['t'])).map TableEntry.metadataJson = some (render (.obj
      [("properties", .obj [("a", .str "1"), ("b", .str "2")]), ("last-sequence-number", .num 2),
       ("last-updated-ms", .num 8)])).toList ∧
    (s.rows.tables.get (tableKeyWh ['w'] [['n']] ['t'])).map TableEntry.metadataJson = some (render (.obj
      [("properties", .obj [("b", .str "2")]), ("last-sequence-number", .num 1),
       ("last-updated-ms", .num 8)])).toList ∧ m ≠ s.rows.tables := by
  simp only [exists_and_left]
  decide +kernel

end IoLake.Iceberg.Commits
