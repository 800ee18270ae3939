import IoLake.Lib.ProtoWire
import IoLake.MetaStore.Command

/-!
# Meta nodes that apply one log

Each node applies the committed log in batches of any size.  A batch is visible at once and lasting at the
next checkpoint; a crash goes back to the last one.  A node may install a snapshot of another.  At every
start, and when a snapshot was installed, the service **stores the built-in policies that are not there,
stamped with its own clock**.
-/

namespace IoLake.MetaStore

open ByteFormat Meta List Option OrdMap Steps

/-- A named policy; the fields a built-in one leaves at their defaults are left out. -/
structure PolicyObject where
  name : String
  policyJson : String
  createdAt : Nat
  updatedAt : Nat
  tenant : String
  shared : Bool
deriving DecidableEq, Repr

structure Policies where
  encode : PolicyObject → Bytes
  decode : Bytes → Option PolicyObject

def builtins : List (String × String) :=
  [("readonly",
    "\x7b\"Version\":\"2012-10-17\",\"Statement\":[\x7b\"Effect\":\"Allow\",\"Action\":[\"s3:GetObject\",\"s3:GetBucketLocation\"],\"Resource\":[\"arn:obio:s3:::*/*\"]\x7d]\x7d"),
   ("readwrite",
    "\x7b\"Version\":\"2012-10-17\",\"Statement\":[\x7b\"Effect\":\"Allow\",\"Action\":[\"s3:*\"],\"Resource\":[\"arn:obio:s3:::*\",\"arn:obio:s3:::*/*\"]\x7d]\x7d"),
   ("writeonly",
    "\x7b\"Version\":\"2012-10-17\",\"Statement\":[\x7b\"Effect\":\"Allow\",\"Action\":[\"s3:PutObject\"],\"Resource\":[\"arn:obio:s3:::*/*\"]\x7d]\x7d"),
   ("consoleAdmin",
    "\x7b\"Version\":\"2012-10-17\",\"Statement\":[\x7b\"Effect\":\"Allow\",\"Action\":[\"s3:*\",\"admin:*\"],\"Resource\":[\"*\"]\x7d]\x7d")]

def builtinPolicy (now : Nat) (b : String × String) : PolicyObject where
  name := b.1
  policyJson := b.2
  createdAt := now
  updatedAt := now
  tenant := ""
  shared := b.1 != "consoleAdmin"

def policyKey (name : String) : RowKey := rowKey "iam_policies" name

def missing (p : Policies) (rows : Rows) (b : String × String) : Bool :=
  ((rows.get (policyKey b.1)).bind p.decode).isNone

def seed (p : Policies) (now : Nat) (rows : Rows) (b : String × String) : Rows :=
  if missing p rows b then rows.insert (policyKey b.1) (p.encode (builtinPolicy now b)) else rows

/-- What `load_from_store` writes: the first `k` built-in policies, each in a commit of its own. -/
def loadFromStore (p : Policies) (now k : Nat) (rows : Rows) : Rows :=
  (builtins.take k).foldl (seed p now) rows

/-! ## Nodes -/

structure Node where
  current : Database := {}
  durable : Database := {}
  up : Bool := false
  answers : List (Nat × MetaResponse) := []

structure Snapshot where
  lastLogId : Option LogId
  lastMembership : Option LogId × List Nat
  rows : Rows

def Database.snapshot (db : Database) : Snapshot :=
  ⟨db.state.lastApplied, db.state.membership, db.rows⟩

/-- `install_state_machine`: every row replaced, the position taken over. -/
def install (db : Database) (s : Snapshot) : Except String Database :=
  match s.rows.get CONFIG_VERSION with
  | none =>
    .ok { rows := s.rows
          state := { db.state with lastApplied := s.lastLogId, membership := s.lastMembership } }
  | some b =>
    match decodeCounter b with
    | .error e => .error e
    | .ok v =>
      .ok { rows := s.rows
            state := { lastApplied := s.lastLogId, membership := s.lastMembership, configVersion := v } }

structure World where
  nodes : Nat → Node := fun _ => {}
  snapshots : List Snapshot := []

def World.set (w : World) (i : Nat) (n : Node) : World :=
  { w with nodes := fun j => if j = i then n else w.nodes j }

inductive Event where
  /-- `load_from_store`, at a time of the node's clock; stopped after `k` of the policies. -/
  | load (i now k : Nat)
  | apply (i n : Nat)
  | checkpoint (i : Nat)
  | crash (i : Nat)
  | takeSnapshot (i : Nat)
  | installSnapshot (i s : Nat)
deriving DecidableEq, Repr

def Database.next (db : Database) : Nat := db.state.lastApplied.elim 0 (·.index + 1)

def Node.load (p : Policies) (now k : Nat) (n : Node) : Node :=
  let loaded := { n.current with rows := loadFromStore p now k n.current.rows }
  { n with
    current := loaded
    -- A policy stored is a durable commit, of everything before it too.
    durable := if (builtins.take k).any (missing p n.current.rows) then loaded else n.durable
    up := builtins.length ≤ k }

def Node.apply (codec : Records) (log : List Entry) (k : Nat) (n : Node) : Node :=
  match applyEntries codec n.current ((log.drop n.current.next).take k) with
  | .error _ => n
  | .ok (db, answers, _) =>
    { n with
      current := db
      answers := n.answers ++ answers.mapIdx fun i a => (n.current.next + i, a) }

variable (codec : Records) (p : Policies) (log : List Entry)

def step (w : World) : Event → Option World
  | .load i now k => some (w.set i ((w.nodes i).load p now k))
  | .apply i k => if (w.nodes i).up then some (w.set i ((w.nodes i).apply codec log k)) else none
  | .checkpoint i => some (w.set i { w.nodes i with durable := (w.nodes i).current })
  | .crash i => some (w.set i { w.nodes i with current := (w.nodes i).durable, up := false })
  | .takeSnapshot i =>
    if (w.nodes i).up then
      some { w with snapshots := w.snapshots ++ [(w.nodes i).current.snapshot] }
    else none
  | .installSnapshot i s =>
    if (w.nodes i).up then
      w.snapshots[s]?.bind fun snap =>
        match install (w.nodes i).current snap with
        | .error _ => none
        | .ok db => some (w.set i { w.nodes i with current := db, durable := db })
    else none

/-- A load finds every built-in policy there, or runs before anything is applied, at the time `T`; a snapshot
is installed by a node that has applied less. -/
def Settled (T : Nat) (w : World) : Event → Prop
  | .load i now _ =>
    (∀ b ∈ builtins, missing p (w.nodes i).current.rows b = false) ∨
      ((w.nodes i).current.state.lastApplied = none ∧ now = T)
  | .installSnapshot i s =>
    ∀ snap ∈ w.snapshots[s]?, (w.nodes i).current.next ≤ snap.lastLogId.elim 0 (·.index + 1)
  | _ => True

instance (T : Nat) (w : World) : ∀ e, Decidable (Settled p T w e)
  | .load _ _ _ => inferInstanceAs (Decidable (_ ∨ _))
  | .installSnapshot _ _ => inferInstanceAs (Decidable (∀ _ ∈ _, _))
  | .apply _ _ | .checkpoint _ | .crash _ | .takeSnapshot _ => .isTrue trivial

/-- A committed log: each entry at its index, and none writes the config counter's row but by
`SetConfig`. -/
structure Committed : Prop where
  index : ∀ (i : Nat) (entry : Entry), log[i]? = some entry → entry.logId.index = i
  spares : log.all Entry.sparesCounter = true

def Policies.ReadsBack (T : Nat) : Prop :=
  ∀ b ∈ builtins, (p.decode (p.encode (builtinPolicy T b))).isSome

variable {codec p log} {T : Nat}

variable {k m n now : Nat} {db db' : Database} {answers answers' : List MetaResponse}

theorem missing_seed {rows : Rows} {b b' : String × String}
    (h : missing p rows b' = false) : missing p (seed p now rows b) b' = false := by
  unfold seed
  split
  · rename_i hmiss
    have hne : policyKey b'.1 ≠ policyKey b.1 := by
      intro heq
      unfold missing at h hmiss
      rw [heq, hmiss] at h
      cases h
    unfold missing
    rw [get_insert, if_neg hne]
    exact h
  · exact h

theorem missing_foldl_seed {b : String × String} :
    ∀ {l : List (String × String)} {rows : Rows}, missing p rows b = false →
      missing p (l.foldl (seed p now) rows) b = false := by
  intro l
  induction l with
  | nil => exact fun h => h
  | cons first l ih => exact fun h => ih (missing_seed h)

theorem foldl_seed_of_present : ∀ {l : List (String × String)} {rows : Rows},
    (∀ b ∈ l, missing p rows b = false) → l.foldl (seed p now) rows = rows := by
  intro l
  induction l with
  | nil => exact fun _ => rfl
  | cons first l ih =>
    intro rows h
    have hfirst : seed p now rows first = rows := by
      rw [seed, h first mem_cons_self]
      rfl
    rw [foldl_cons, hfirst]
    exact ih fun b hb => h b (mem_cons_of_mem _ hb)

theorem present_foldl_seed : ∀ {l : List (String × String)} {rows : Rows},
    (∀ b ∈ l, (p.decode (p.encode (builtinPolicy T b))).isSome) →
      ∀ b ∈ l, missing p (l.foldl (seed p T) rows) b = false := by
  intro l
  induction l with
  | nil => exact nofun
  | cons first l ih =>
    intro rows hback b hb
    rcases mem_cons.1 hb with rfl | hb
    · have hseed : missing p (seed p T rows b) b = false := by
        unfold seed
        split
        · unfold missing
          rw [get_insert_self, bind_some, isNone_eq_false_iff]
          exact hback b mem_cons_self
        · rename_i hmiss
          exact Bool.eq_false_iff.2 hmiss
      rw [foldl_cons]
      exact missing_foldl_seed hseed
    · exact ih (fun b hb => hback b (mem_cons_of_mem _ hb)) b hb

theorem loadFromStore_again (hback : p.ReadsBack T) (k k' : Nat) (rows : Rows) :
    loadFromStore p T k' (loadFromStore p T k rows) = loadFromStore p T (max k k') rows := by
  unfold loadFromStore
  have hpresent : ∀ b ∈ builtins.take k, missing p ((builtins.take k).foldl (seed p T) rows) b = false :=
    present_foldl_seed fun b hb => hback b (mem_of_mem_take hb)
  rcases Nat.le_total k k' with hk | hk
  · have hsplit : builtins.take k' = builtins.take k ++ (builtins.drop k).take (k' - k) := by
      rw [← take_add, Nat.add_sub_cancel' hk]
    rw [Nat.max_eq_right hk, hsplit, foldl_append, foldl_append, foldl_seed_of_present hpresent]
  · rw [Nat.max_eq_left hk]
    refine foldl_seed_of_present fun b hb => hpresent b ?_
    exact (take_sublist_take_left hk).subset hb

theorem loadFromStore_of_le (hk : builtins.length ≤ k) (rows : Rows) :
    loadFromStore p T k rows = loadFromStore p T builtins.length rows := by
  rw [loadFromStore, loadFromStore, take_of_length_le hk, take_length]

/-! ## What a run keeps -/

section
variable (codec : Records) (p : Policies) (log : List Entry) (T n : Nat) (db : Database)

def seeded : Database where
  rows := loadFromStore p T builtins.length empty

def ReachedAt
    (answers : List MetaResponse) : Prop :=
  n ≤ log.length ∧ ∃ events, applyEntries codec (seeded p T) (log.take n) = .ok (db, answers, events)

def Reached : Prop :=
  ∃ n answers, ReachedAt codec p log T n db answers

def Starting : Prop :=
  ∃ k, db = { rows := loadFromStore p T k empty }

end

structure NodeInv (codec : Records) (p : Policies) (log : List Entry) (T : Nat) (n : Node) : Prop where
  current : Reached codec p log T n.current ∨ Starting p T n.current
  up : n.up = true → Reached codec p log T n.current
  durable : Reached codec p log T n.durable ∨ Starting p T n.durable
  answers : ∀ i a, (i, a) ∈ n.answers →
    ∃ m db answers, ReachedAt codec p log T m db answers ∧ answers[i]? = some a

structure WorldInv (codec : Records) (p : Policies) (log : List Entry) (T : Nat) (w : World) : Prop where
  node : ∀ i, NodeInv codec p log T (w.nodes i)
  snapshot : ∀ s ∈ w.snapshots, ∃ db, Reached codec p log T db ∧ s = db.snapshot

theorem reached_seeded : ReachedAt codec p log T 0 (seeded p T) [] :=
  ⟨Nat.zero_le _, [], rfl⟩

theorem ReachedAt.next (hlog : Committed log)
    (h : ReachedAt codec p log T n db answers) : db.next = n ∧ answers.length = n := by
  obtain ⟨hn, events, happly⟩ := h
  obtain ⟨hlast, hlength⟩ := lastApplied_applyEntries happly
  rw [length_take, Nat.min_eq_left hn] at hlength
  refine ⟨?_, hlength⟩
  rw [Database.next, hlast, getLast?_take]
  cases n with
  | zero => rfl
  | succ n =>
    have hentry := getElem?_eq_getElem (Nat.lt_of_succ_le hn)
    rw [if_neg (Nat.succ_ne_zero n), Nat.add_sub_cancel, hentry]
    show (log[n]).logId.index + 1 = n + 1
    rw [hlog.index n _ hentry]

theorem ReachedAt.apply {events : List ApplyEvent} (h : ReachedAt codec p log T n db answers)
    (happly : applyEntries codec db ((log.drop n).take k) = .ok (db', answers', events)) :
    ReachedAt codec p log T (min (n + k) log.length) db' (answers ++ answers') := by
  obtain ⟨hn, events', hfirst⟩ := h
  have hsplit : log.take (min (n + k) log.length) = log.take n ++ (log.drop n).take k := by
    rw [← take_add, ← take_take, take_length]
  refine ⟨Nat.min_le_right _ _, events' ++ events, ?_⟩
  rw [hsplit, applyEntries_append, hfirst]
  dsimp only
  rw [happly]

theorem ReachedAt.between {m' : Nat} (h : ReachedAt codec p log T m db answers)
    (h' : ReachedAt codec p log T m' db' answers') (hle : m ≤ m') : ∃ rest events,
      applyEntries codec db ((log.drop m).take (m' - m)) = .ok (db', rest, events) ∧
        answers' = answers ++ rest := by
  obtain ⟨-, events, happly⟩ := h
  obtain ⟨-, events', happly'⟩ := h'
  have hsplit : log.take m' = log.take m ++ (log.drop m).take (m' - m) := by
    rw [← take_add, Nat.add_sub_cancel' hle]
  rw [hsplit, applyEntries_append, happly] at happly'
  dsimp only at happly'
  split at happly'
  · cases happly'
  · rename_i last rest evs hrest
    cases happly'
    exact ⟨rest, evs, hrest, rfl⟩

theorem ReachedAt.answer_unique {m' : Nat} (h : ReachedAt codec p log T m db answers)
    (h' : ReachedAt codec p log T m' db' answers') (hle : m ≤ m') {i : Nat} {a b : MetaResponse}
    (ha : answers[i]? = some a) (hb : answers'[i]? = some b) : a = b := by
  obtain ⟨rest, events, -, rfl⟩ := h.between h' hle
  rw [List.getElem?_append_left (List.getElem?_eq_some_iff.1 ha).1, ha] at hb
  exact some.inj hb

theorem ReachedAt.unique (h : ReachedAt codec p log T n db answers) (h' : ReachedAt codec p log T n db' answers') :
    db = db' := by
  obtain ⟨-, events, happly⟩ := h
  obtain ⟨-, events', happly'⟩ := h'
  rw [happly] at happly'
  cases happly'
  rfl

theorem notMem_counter_seeded (k : Nat) : (loadFromStore p T k empty).get CONFIG_VERSION = none := by
  have hkeeps : ∀ (l : List (String × String)) (rows : Rows), rows.get CONFIG_VERSION = none →
      (l.foldl (seed p T) rows).get CONFIG_VERSION = none := by
    intro l
    induction l with
    | nil => exact fun rows h => h
    | cons b l ih =>
      intro rows h
      refine ih _ ?_
      unfold seed
      split
      · have hne : CONFIG_VERSION ≠ policyKey b.1 := configVersion_ne (by decide) _
        rw [get_insert, if_neg hne, h]
      · exact h
  exact hkeeps _ _ rfl

theorem ReachedAt.counter (hlog : Committed log) (h : ReachedAt codec p log T n db answers) :
    CounterKept db.rows db.state.configVersion := by
  obtain ⟨-, events, happly⟩ := h
  have hspares : ((log.take n).all Entry.sparesCounter) = true := by
    refine all_eq_true.2 fun e he => ?_
    exact all_eq_true.1 hlog.spares e (mem_of_mem_take he)
  refine (counter_applyEntries hspares happly).keeps ?_
  rw [CounterKept, storedCounter]
  dsimp only [seeded]
  rw [notMem_counter_seeded]

theorem ReachedAt.counter_stays (hlog : Committed log) (h : ReachedAt codec p log T m db answers)
    (h' : ReachedAt codec p log T n db' answers') (hle : m ≤ n)
    (hnone : db'.rows.get CONFIG_VERSION = none) : db.rows.get CONFIG_VERSION = none := by
  obtain ⟨rest, events, hrest, -⟩ := h.between h' hle
  have hspares : (((log.drop m).take (n - m)).all Entry.sparesCounter) = true := by
    refine all_eq_true.2 fun e he => ?_
    exact all_eq_true.1 hlog.spares e (mem_of_mem_drop (mem_of_mem_take he))
  by_contra hsome
  have hstays := (counter_applyEntries hspares hrest).stays (ne_none_iff_isSome.1 hsome)
  rw [hnone] at hstays
  cases hstays

theorem install_reached (hlog : Committed log) {installed : Database}
    (h : ReachedAt codec p log T m db answers) (h' : ReachedAt codec p log T n db' answers') (hle : m ≤ n)
    (hinstall : install db db'.snapshot = .ok installed) : installed = db' := by
  have hcounter := h'.counter hlog
  rw [CounterKept, storedCounter] at hcounter
  rw [install] at hinstall
  change (match db'.rows.get CONFIG_VERSION with
    | none => _
    | some b => _) = _ at hinstall
  cases hrow : db'.rows.get CONFIG_VERSION with
  | none =>
    rw [hrow] at hcounter hinstall
    have hown := h.counter hlog
    rw [CounterKept, storedCounter, h.counter_stays hlog h' hle hrow] at hown
    have hzero : db.state.configVersion = db'.state.configVersion :=
      (Except.ok.inj hown).symm.trans (Except.ok.inj hcounter)
    cases hinstall
    dsimp only [Database.snapshot]
    rw [hzero]
  | some b =>
    rw [hrow] at hcounter hinstall
    dsimp only at hcounter hinstall
    rw [hcounter] at hinstall
    cases hinstall
    rfl

/-! ## Steps -/

variable {n : Node}

theorem WorldInv.set {w : World} {i : Nat} (hi : WorldInv codec p log T w)
    (hn : NodeInv codec p log T n) : WorldInv codec p log T (w.set i n) := by
  refine ⟨fun j => ?_, hi.snapshot⟩
  rw [World.set]
  dsimp only
  split
  · exact hn
  · exact hi.node j

theorem present_seeded (hback : p.ReadsBack T) : ∀ b ∈ builtins, missing p (seeded p T).rows b = false := by
  intro b hb
  rw [seeded, loadFromStore, take_length]
  exact present_foldl_seed hback b hb

theorem Starting.reached (hback : p.ReadsBack T) (h : Starting p T db)
    (hpresent : ∀ b ∈ builtins, missing p db.rows b = false) : db = seeded p T := by
  obtain ⟨k, rfl⟩ := h
  have hrows : loadFromStore p T builtins.length (loadFromStore p T k empty) = loadFromStore p T k empty :=
    foldl_seed_of_present fun b hb => hpresent b (mem_of_mem_take hb)
  have hagain := loadFromStore_again hback k builtins.length empty
  rw [loadFromStore_of_le (Nat.le_max_right _ _)] at hagain
  rw [seeded, ← hagain]
  exact congrArg (fun rows => ({ rows := rows } : Database)) hrows.symm

theorem Node.load_of_present (h : ∀ b ∈ builtins, missing p n.current.rows b = false) (now k : Nat) :
    (n.load p now k).current = n.current ∧ (n.load p now k).durable = n.durable := by
  have htake : ∀ b ∈ builtins.take k, missing p n.current.rows b = false :=
    fun b hb => h b (mem_of_mem_take hb)
  have hany : (builtins.take k).any (missing p n.current.rows) = false :=
    any_eq_false.2 fun b hb => Bool.eq_false_iff.1 (htake b hb)
  refine ⟨?_, ?_⟩
  · rw [Node.load]
    dsimp only
    rw [loadFromStore, foldl_seed_of_present htake]
  · rw [Node.load, hany]
    rfl

theorem NodeInv.load_present (hback : p.ReadsBack T)
    (hi : NodeInv codec p log T n) (h : ∀ b ∈ builtins, missing p n.current.rows b = false) :
    NodeInv codec p log T (n.load p now k) := by
  obtain ⟨hcurrent, hdurable⟩ := Node.load_of_present h now k
  have hreached : Reached codec p log T n.current := by
    rcases hi.current with hreached | hstarting
    · exact hreached
    · rw [hstarting.reached hback h]
      exact ⟨0, [], reached_seeded⟩
  refine ⟨.inl ?_, fun _ => ?_, ?_, hi.answers⟩
  · rw [hcurrent]
    exact hreached
  · rw [hcurrent]
    exact hreached
  · rw [hdurable]
    exact hi.durable

theorem NodeInv.load (hback : p.ReadsBack T) (hlog : Committed log) (hi : NodeInv codec p log T n)
    (hsettled : (∀ b ∈ builtins, missing p n.current.rows b = false) ∨
      (n.current.state.lastApplied = none ∧ now = T)) : NodeInv codec p log T (n.load p now k) := by
  rcases hsettled with hpresent | ⟨hnone, rfl⟩
  · exact hi.load_present hback hpresent
  rcases hi.current with ⟨m, answers, hm⟩ | ⟨k₀, hstarting⟩
  · have hzero : m = 0 := by
      rw [← (hm.next hlog).1, Database.next, hnone]
      rfl
    subst hzero
    have hseeded := hm.unique reached_seeded
    refine hi.load_present hback ?_
    rw [hseeded]
    exact present_seeded hback
  · have hloaded : (n.load p now k).current = { rows := loadFromStore p now (max k₀ k) empty } := by
      rw [Node.load, hstarting]
      dsimp only
      rw [loadFromStore_again hback]
    have hcurrent : Starting p now (n.load p now k).current := ⟨_, hloaded⟩
    refine ⟨.inr hcurrent, fun hup => ?_, ?_, hi.answers⟩
    · have hk : builtins.length ≤ k := of_decide_eq_true hup
      rw [hloaded, loadFromStore_of_le (hk.trans (Nat.le_max_right _ _))]
      exact ⟨0, [], reached_seeded⟩
    · rw [Node.load] at hcurrent ⊢
      dsimp only at hcurrent ⊢
      split
      · exact .inr hcurrent
      · exact hi.durable

theorem NodeInv.apply (hi : NodeInv codec p log T n) (hup : n.up = true)
    (hlog : Committed log) : NodeInv codec p log T (n.apply codec log k) := by
  obtain ⟨m, answers, hm⟩ := hi.up hup
  obtain ⟨hnext, hlength⟩ := hm.next hlog
  unfold Node.apply
  split
  · exact hi
  rename_i db answers' events happly
  rw [hnext] at happly
  have hreached := hm.apply happly
  refine ⟨.inl ⟨_, _, hreached⟩, fun _ => ⟨_, _, hreached⟩, hi.durable, fun i a ha => ?_⟩
  rcases mem_append.1 ha with ha | ha
  · exact hi.answers i a ha
  · refine ⟨_, _, _, hreached, ?_⟩
    obtain ⟨j, hj⟩ := mem_iff_getElem?.1 ha
    rw [getElem?_mapIdx] at hj
    obtain ⟨a', ha', heq⟩ := map_eq_some_iff.1 hj
    cases heq
    rw [hnext, ← hlength, getElem?_append_right (Nat.le_add_right _ _), Nat.add_sub_cancel_left]
    exact ha'

theorem WorldInv.step (hback : p.ReadsBack T) (hlog : Committed log) {w w' : World} {e : Event}
    (hi : WorldInv codec p log T w) (hsettled : Settled p T w e) (h : step codec p log w e = some w') :
    WorldInv codec p log T w' := by
  cases e with
  | load i now k =>
    cases h
    exact hi.set ((hi.node i).load hback hlog hsettled)
  | apply i k =>
    rw [MetaStore.step] at h
    split at h
    · rename_i hup
      cases h
      exact hi.set ((hi.node i).apply hup hlog)
    · cases h
  | checkpoint i =>
    cases h
    have hn := hi.node i
    exact hi.set ⟨hn.current, hn.up, hn.current, hn.answers⟩
  | crash i =>
    cases h
    have hn := hi.node i
    refine hi.set ⟨hn.durable, ?_, hn.durable, hn.answers⟩
    intro hup
    cases hup
  | takeSnapshot i =>
    rw [MetaStore.step] at h
    split at h
    · rename_i hup
      cases h
      refine ⟨hi.node, fun s hs => ?_⟩
      rcases mem_append.1 hs with hs | hs
      · exact hi.snapshot s hs
      · exact ⟨_, (hi.node i).up hup, mem_singleton.1 hs⟩
    · cases h
  | installSnapshot i s =>
    rw [MetaStore.step] at h
    split at h
    · rename_i hup
      obtain ⟨snap, hsnap, h⟩ := bind_eq_some_iff.1 h
      split at h
      · cases h
      rename_i installed hinstall
      cases h
      have hn := hi.node i
      obtain ⟨m, answers, hm⟩ := hn.up hup
      obtain ⟨db, ⟨n, answers', hdb⟩, rfl⟩ := hi.snapshot snap (mem_of_getElem? hsnap)
      have hle : m ≤ n := by
        have hforward : (w.nodes i).current.next ≤ db.next := hsettled _ hsnap
        rw [(hm.next hlog).1, (hdb.next hlog).1] at hforward
        exact hforward
      have heq := install_reached hlog hm hdb hle hinstall
      subst heq
      have hreached : Reached codec p log T installed := ⟨n, answers', hdb⟩
      exact hi.set ⟨.inl hreached, fun _ => hreached, .inl hreached, hn.answers⟩
    · cases h

/-- Nodes that have applied the log up to the same place have the same rows and gave the same answers, in
settled runs. -/
theorem replicas_agree (hback : p.ReadsBack T) (hlog : Committed log) {events : List Event} {w : World}
    (hsettled : Steps.Along (step codec p log) (Settled p T) {} events)
    (hrun : Steps.run (step codec p log) {} events = some w) (i j : Nat) :
    ((w.nodes i).current.state.lastApplied = (w.nodes j).current.state.lastApplied →
      ((w.nodes i).current.state.lastApplied = none → (w.nodes i).up = true ∧ (w.nodes j).up = true) →
      (w.nodes i).current.rows = (w.nodes j).current.rows) ∧
    ∀ index a b, (index, a) ∈ (w.nodes i).answers → (index, b) ∈ (w.nodes j).answers → a = b := by
  have hinit : WorldInv codec p log T {} := by
    refine ⟨fun i => ?_, nofun⟩
    have hstarting : Starting p T {} := ⟨0, rfl⟩
    refine ⟨.inr hstarting, ?_, .inr hstarting, nofun⟩
    intro hup
    cases hup
  have hi : WorldInv codec p log T w :=
    run_invariant_along (fun _ _ _ hi hk hstep => hi.step hback hlog hk hstep) events {} w hinit
      hsettled hrun
  refine ⟨fun hsame hup => ?_, fun index a b ha hb => ?_⟩
  · have hreached : ∀ x, (w.nodes x).current.state.lastApplied = (w.nodes i).current.state.lastApplied →
        ((w.nodes i).current.state.lastApplied = none → (w.nodes x).up = true) →
        Reached codec p log T (w.nodes x).current := by
      intro x heq hx
      rcases (hi.node x).current with hreached | ⟨k, hk⟩
      · exact hreached
      · refine (hi.node x).up (hx ?_)
        rw [← heq, hk]
    obtain ⟨m, answers, hm⟩ := hreached i rfl fun h => (hup h).1
    obtain ⟨n, answers', hn⟩ := hreached j hsame.symm fun h => (hup h).2
    have heq : m = n := by
      rw [← (hm.next hlog).1, ← (hn.next hlog).1, Database.next, Database.next, hsame]
    subst heq
    rw [hm.unique hn]
  · obtain ⟨m, db, answers, hm, hma⟩ := (hi.node i).answers index a ha
    obtain ⟨n, db', answers', hn, hnb⟩ := (hi.node j).answers index b hb
    rcases Nat.le_total m n with hle | hle
    · exact hm.answer_unique hn hle hma hnb
    · exact (hn.answer_unique hm hle hnb hma).symm

/-! ## Two nodes -/

open ProtoWire

def protoPolicy (o : PolicyObject) : Bytes :=
  lenField 0x0A (asciiBytes o.name) ++ lenField 0x12 (asciiBytes o.policyJson) ++
    uintField 0x18 o.createdAt ++ uintField 0x20 o.updatedAt ++ lenField 0x2A (asciiBytes o.tenant) ++
    uintField 0x30 o.shared.toNat

def samplePolicies : Policies where
  encode := protoPolicy
  decode := fun b =>
    (builtins.flatMap fun x => [builtinPolicy 1700000000 x, builtinPolicy 1700000007 x]).find? fun o =>
      protoPolicy o = b

def sampleRecords : Records where
  encodeConfig := fun c =>
    lenField 0x0A (asciiBytes c.key) ++ lenField 0x12 c.value ++ uintField 0x18 c.updatedAt ++
      lenField 0x22 (asciiBytes c.updatedBy) ++ uintField 0x28 c.version
  decodeOsd := fun _ => .error "not registered"
  encodeOsd := fun o => o.rest

def deleteReadonly : Entry where
  logId := ⟨1, 1, 0⟩
  payload := .normal (.multiCas [⟨.iamPolicies, "readonly",
    builtins.head?.map fun b => protoPolicy (builtinPolicy 1700000000 b), none⟩] "delete-policy")

def answeredApart (w : World) : Bool :=
  match (w.nodes 0).answers, (w.nodes 1).answers with
  | [(0, .multiCasOk)], [(0, .multiCasConflict [0])] => true
  | _, _ => false

/-- **Two nodes started seven seconds apart** store different policies; a command conditional on one is
applied by the one and refused by the other. -/
theorem builtins_differ : ∃ w, Steps.run (step sampleRecords samplePolicies [deleteReadonly]) {}
      [.load 0 1700000000 4, .load 1 1700000007 4, .apply 0 1, .apply 1 1] = some w ∧
    (w.nodes 0).current.state.lastApplied = (w.nodes 1).current.state.lastApplied ∧
    (w.nodes 0).current.rows ≠ (w.nodes 1).current.rows ∧ (w.nodes 0).answers = [(0, .multiCasOk)] ∧
    (w.nodes 1).answers = [(0, .multiCasConflict [0])] := by
  have hfacts : (run (step sampleRecords samplePolicies [deleteReadonly]) {}
      [.load 0 1700000000 4, .load 1 1700000007 4, .apply 0 1, .apply 1 1]).any (fun w =>
        decide ((w.nodes 0).current.state.lastApplied = (w.nodes 1).current.state.lastApplied ∧
          (w.nodes 0).current.rows ≠ (w.nodes 1).current.rows) && answeredApart w) = true := by
    decide +kernel
  obtain ⟨w, hrun, hw⟩ := (any_eq_true _ _).1 hfacts
  rw [Bool.and_eq_true] at hw
  obtain ⟨hsame, hrows⟩ := of_decide_eq_true hw.1
  refine ⟨w, hrun, hsame, hrows, ?_⟩
  have hanswers := hw.2
  unfold answeredApart at hanswers
  split at hanswers
  · rename_i h₀ h₁
    exact ⟨h₀, h₁⟩
  · cases hanswers

def sampleLog : List Entry :=
  [⟨⟨1, 1, 0⟩, .normal (.setConfig "cluster/region" [34, 101, 34] "admin" 1700000100)⟩, ⟨⟨1, 1, 1⟩, .blank⟩,
    ⟨⟨1, 1, 2⟩, .normal (.multiCas [⟨.named "lost_objects", "b/k", none, some [1]⟩] "lost")⟩]

/-- One node stopped in its first load and crashes once it has applied two entries; the other installs
a snapshot of it. -/
def sampleRun : List Event :=
  [.load 0 1700000000 2, .crash 0, .load 0 1700000000 4, .load 1 1700000000 4, .apply 0 2,
    .takeSnapshot 0, .installSnapshot 1 0, .load 1 1700000042 4, .crash 0, .load 0 1700000050 4,
    .apply 0 3, .apply 1 1]

theorem sampleRun_agrees : ∃ w,
    Steps.run (step sampleRecords samplePolicies sampleLog) {} sampleRun = some w ∧
    (w.nodes 0).current.state.lastApplied = some ⟨1, 1, 2⟩ ∧
    (w.nodes 0).current.rows = (w.nodes 1).current.rows := by
  obtain ⟨w, hrun, hfirst, hsecond⟩ :
      ∃ w, run (step sampleRecords samplePolicies sampleLog) {} sampleRun = some w ∧
        (w.nodes 0).current.state.lastApplied = some ⟨1, 1, 2⟩ ∧
        (w.nodes 1).current.state.lastApplied = some ⟨1, 1, 2⟩ := by
    decide +kernel
  have hsettled : Steps.Along (step sampleRecords samplePolicies sampleLog)
      (Settled samplePolicies 1700000000) {} sampleRun := by
    decide +kernel
  have hback : samplePolicies.ReadsBack 1700000000 := by
    unfold Policies.ReadsBack
    decide +kernel
  have hlog : Committed sampleLog := by
    refine ⟨fun i entry hentry => ?_, by decide⟩
    match i, hentry with
    | 0, rfl => rfl
    | 1, rfl => rfl
    | 2, rfl => rfl
  refine ⟨w, hrun, hfirst, ?_⟩
  refine (replicas_agree hback hlog hsettled hrun 0 1).1 (hfirst.trans hsecond.symm) fun hnone => ?_
  rw [hfirst] at hnone
  cases hnone

end IoLake.MetaStore
