import IoLake.Lib.OrdMap

/-!
# A directory of files

Names stand for inodes, and inodes have contents: a handle keeps its inode whatever becomes of the name.
-/

/-- A directory, over names `N` and contents `C`. -/
structure Directory (N C : Type) [LinearOrder N] where
  names : OrdMap N Nat
  contents : Nat → C
  next : Nat
  injective : ∀ n n' i, names.get n = some i → names.get n' = some i → n = n'
  bound : ∀ n i, names.get n = some i → i < next

namespace Directory

open Option Function OrdMap

variable {N C : Type} [LinearOrder N]

def empty [Inhabited C] : Directory N C where
  names := OrdMap.empty
  contents := fun _ => default
  next := 0
  injective := nofun
  bound := nofun

def inode (d : Directory N C) (n : N) : Option Nat := d.names.get n

/-- What is in the file, if it is there. -/
def read (d : Directory N C) (n : N) : Option C := (d.inode n).map d.contents

def list (d : Directory N C) : List N := d.names.entries.map Prod.fst

/-- Through a handle. -/
def write (d : Directory N C) (i : Nat) (c : C) : Directory N C :=
  { d with contents := update d.contents i c }

/-- Whether it was there or not is of no matter. -/
def remove (d : Directory N C) (n : N) : Directory N C where
  names := d.names.erase n
  contents := d.contents
  next := d.next
  injective := fun a b i ha hb => by
    rw [get_erase] at ha hb
    split at ha
    · cases ha
    · split at hb
      · cases hb
      · exact d.injective a b i ha hb
  bound := fun a i ha => by
    rw [get_erase] at ha
    split at ha
    · cases ha
    · exact d.bound a i ha

/-- A name for an inode that has none. -/
def link (d : Directory N C) (n : N) (i : Nat) (hi : ∀ m, d.inode m ≠ some i) (next : Nat)
    (hnext : d.next ≤ next) (hlt : i < next) : Directory N C where
  names := d.names.insert n i
  contents := d.contents
  next := next
  injective := fun a b j ha hb => by
    rw [get_insert] at ha hb
    split at ha
    · cases ha
      split at hb
      · rename_i hna hnb
        exact hna.trans hnb.symm
      · exact absurd hb (hi b)
    · split at hb
      · cases hb
        exact absurd ha (hi a)
      · exact d.injective a b j ha hb
  bound := fun a j ha => by
    rw [get_insert] at ha
    split at ha
    · cases ha
      exact hlt
    · exact (d.bound a j ha).trans_le hnext

theorem inode_next (d : Directory N C) (m : N) : d.inode m ≠ some d.next :=
  fun h => Nat.lt_irrefl _ (d.bound m _ h)

/-- A new file, with its handle. -/
def add (d : Directory N C) (n : N) (c : C) : Directory N C × Nat :=
  (((d.write d.next c).link n d.next (d.inode_next) (d.next + 1) (Nat.le_succ _) (Nat.lt_succ_self _)),
    d.next)

/-- A file that must not be there. -/
def createNew (d : Directory N C) (n : N) (c : C) : Option (Directory N C × Nat) :=
  if (d.inode n).isSome then none else some (d.add n c)

/-- A file that may be there: its content is dropped. -/
def create (d : Directory N C) (n : N) (c : C) : Directory N C × Nat :=
  match d.inode n with
  | some i => (d.write i c, i)
  | none => d.add n c

theorem inode_remove (d : Directory N C) (n m : N) :
    (d.remove n).inode m = if m = n then none else d.inode m := get_erase d.names n m

/-- Fails unless `a` is there. -/
def rename (d : Directory N C) (a b : N) : Option (Directory N C) :=
  match h : d.inode a with
  | none => none
  | some i => some ((d.remove a).link b i (fun m hm => by
        rw [inode_remove] at hm
        split at hm
        · cases hm
        · rename_i hne
          exact hne (d.injective m a i hm h)) d.next le_rfl (d.bound a i h))

/-! ## What stays as it is -/

/-- The name stands for the same inode, with the same content. -/
structure Same (d d' : Directory N C) (n : N) : Prop where
  inode : d'.inode n = d.inode n
  read : d'.read n = d.read n

variable {d d' : Directory N C} {n m a b : N} {i : Nat} {c : C}

theorem Same.keep (h : Same d d' n) (hn : d.inode n ≠ none) : d'.inode n ≠ none := by
  rw [h.inode]
  exact hn

theorem mem_list : n ∈ d.list ↔ d.inode n ≠ none := by
  rw [list, List.mem_map]
  constructor
  · rintro ⟨⟨n', i⟩, hmem, rfl⟩
    rw [inode, mem_entries.1 hmem]
    exact some_ne_none i
  · intro h
    obtain ⟨i, hi⟩ := ne_none_iff_exists'.1 h
    exact ⟨(n, i), mem_entries.2 hi, rfl⟩

theorem inode_of_read (h : d.read n = some c) : d.inode n ≠ none := by
  intro hnone
  rw [read, hnone] at h
  cases h

theorem read_of_inode (h : d.inode n = some i) : d.read n = some (d.contents i) := by
  rw [read, h]
  rfl

theorem read_write_self (h : d.inode n = some i) : (d.write i c).read n = some c := by
  have hi : (d.write i c).inode n = some i := h
  rw [read_of_inode hi]
  show some (update d.contents i c i) = some c
  rw [update_self]

theorem same_write (h : d.inode n ≠ some i) : Same d (d.write i c) n := by
  refine ⟨rfl, ?_⟩
  rw [read, read]
  show (d.inode n).map (update d.contents i c) = _
  cases hn : d.inode n with
  | none => rfl
  | some j =>
    have hne : j ≠ i := fun heq => h (heq ▸ hn)
    exact congrArg some (update_of_ne hne c d.contents)

theorem inode_remove_self : (d.remove n).inode n = none := by
  rw [inode_remove, if_pos rfl]

theorem same_remove (h : m ≠ n) : Same d (d.remove n) m := by
  have hi : (d.remove n).inode m = d.inode m := by rw [inode_remove, if_neg h]
  refine ⟨hi, ?_⟩
  rw [read, read, hi]
  rfl

theorem inode_add_self : (d.add n c).1.inode n = some d.next :=
  get_insert_self d.names n d.next

theorem same_add (h : m ≠ n) : Same d (d.add n c).1 m := by
  have hi : (d.add n c).1.inode m = d.inode m := by
    refine (get_insert d.names n m d.next).trans ?_
    rw [if_neg h]
    rfl
  refine ⟨hi, ?_⟩
  have hw : Same d (d.write d.next c) m := same_write (d.inode_next m)
  rw [← hw.read, read, read, hi]
  rfl

theorem inode_create_self : (d.create n c).1.inode n = some (d.create n c).2 := by
  rw [create]
  split
  · rename_i i hi
    exact hi
  · exact inode_add_self

theorem same_create (h : m ≠ n) : Same d (d.create n c).1 m := by
  rw [create]
  split
  · rename_i i hi
    exact same_write fun hm => h (d.injective m n i hm hi)
  · exact same_add h

theorem rename_some (h : d.inode a = some i) : ∃ d', d.rename a b = some d' ∧ d'.inode b = some i ∧
    d'.contents = d.contents ∧ ∀ m, m ≠ b → d'.inode m = (d.remove a).inode m := by
  unfold rename
  split
  · rename_i hnone
    rw [h] at hnone
    cases hnone
  · rename_i j hj
    rw [h] at hj
    cases hj
    refine ⟨_, rfl, get_insert_self _ b i, rfl, fun m hm => ?_⟩
    exact (get_insert (d.names.erase a) b m i).trans (if_neg hm)

/-- A rename of a file that is there. -/
theorem rename_spec (h : d.read a = some c) : ∃ d', d.rename a b = some d' ∧
    d'.read b = some c ∧ ∀ m, m ≠ a → m ≠ b → Same d d' m := by
  obtain ⟨i, hi⟩ := ne_none_iff_exists'.1 (inode_of_read h)
  obtain ⟨d', hd', hb, hcontents, hothers⟩ := rename_some (b := b) hi
  refine ⟨d', hd', ?_, fun m hma hmb => ?_⟩
  · rw [read_of_inode hb, hcontents, ← read_of_inode hi]
    exact h
  · have hm : d'.inode m = d.inode m := (hothers m hmb).trans (same_remove hma).inode
    refine ⟨hm, ?_⟩
    rw [read, read, hm, hcontents]

end Directory
