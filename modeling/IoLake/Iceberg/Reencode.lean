import IoLake.Iceberg.Catalog
import IoLake.Lib.ProtoWire

/-!
# Namespaces compared by their bytes

A namespace's row is an encoded message.  A node keeps the properties alone, in a hash map, and to drop or
change the namespace it encodes what it keeps and has the bytes compared with the row's.  Each node's map
iterates in an order of its own.
-/

namespace IoLake.Iceberg.Reencode

open List ProtoWire

/-! ## The stored message -/

def utf8 (s : Text) : Bytes := (String.ofList s).toByteArray.data.toList

theorem utf8_inj {s t : Text} (h : utf8 s = utf8 t) : s = t :=
  String.ofList_injective (String.toByteArray_inj.1 (ByteArray.ext (Array.toList_inj.1 h)))

/-- One property, without its tag and length. -/
def entry (e : Text × Text) : Bytes := lenField 0x0a (utf8 e.1) ++ lenField 0x12 (utf8 e.2)

/-- `IcebergCreateNamespaceResponse`, the properties in the order the map iterates. -/
def encode (levels : List Text) (properties : List (Text × Text)) : Bytes :=
  levels.flatMap (fun l => delimited 0x0a (utf8 l)) ++ properties.flatMap fun e => delimited 0x12 (entry e)

def Sized (e : Text × Text) : Prop := (entry e).length < 2 ^ 64

theorem length_le_lenField (tag : UInt8) (b : Bytes) : b.length ≤ (lenField tag b).length := by
  cases b <;> simp [lenField]
  omega

theorem entry_inj {e e' : Text × Text} (he : Sized e) (he' : Sized e') (h : entry e = entry e') : e = e' := by
  have hlengths : ∀ e, Sized e → (utf8 e.1).length < 128 ^ 10 ∧ (utf8 e.2).length < 128 ^ 10 := by
    intro e he
    have := length_le_lenField 0x0a (utf8 e.1)
    have := length_le_lenField 0x12 (utf8 e.2)
    rw [Sized, entry, length_append] at he
    omega
  have hhead : ∀ b, (lenField 0x12 b).head? ≠ some 0x0a := by
    intro b
    cases b <;> simp [lenField]
  obtain ⟨hkey, hvalue⟩ := lenField_append_inj (hlengths e he).1 (hlengths e' he').1 (hhead _) (hhead _) h
  obtain ⟨hvalue, -⟩ := lenField_append_inj (x := []) (y := []) (hlengths e he).2 (hlengths e' he').2
    (by simp) (by simp) (by simpa using hvalue)
  exact Prod.ext (utf8_inj hkey) (utf8_inj hvalue)

theorem encode_inj (levels : List Text) : ∀ {l l' : List (Text × Text)}, l.length = l'.length →
    (∀ e ∈ l, Sized e) → (∀ e ∈ l', Sized e) → encode levels l = encode levels l' → l = l' := by
  intro l l' hlength hl hl' h
  replace h := append_cancel_left h
  induction l generalizing l' with
  | nil => exact (eq_nil_of_length_eq_zero hlength.symm).symm
  | cons e l ih =>
    cases l' with
    | nil => cases hlength
    | cons e' l' =>
      have he := hl e mem_cons_self
      have he' := hl' e' mem_cons_self
      obtain ⟨hentry, hrest⟩ := delimited_append_inj (he.trans (by decide)) (he'.trans (by decide)) h
      rw [entry_inj he he' hentry, ih (Nat.succ.inj hlength) (fun a ha => hl a (mem_cons_of_mem _ ha))
        (fun a ha => hl' a (mem_cons_of_mem _ ha)) hrest]

/-! ## Changes by a node -/

/-- The replicated rows, and the node's own maps, each namespace's properties as its map iterates. -/
structure Node where
  rows : OrdMap Text Bytes
  namespaces : OrdMap Text (List (Text × Text))
  tables : OrdMap Text TableEntry

section Changes

variable (w : Text) (levels : List Text)

/-- The compare-and-set of a node as the leader, on what it expects the row to be. -/
def propose (node : Node) (conflict : String) (newValue : List (Text × Text) → Option Bytes) :
    Except Status (OrdMap Text Bytes) :=
  let key := nsKeyWh w levels
  match node.namespaces.get key with
  | none => .error ⟨.notFound, "namespace not found"⟩
  | some properties =>
    match CompareAndSet.apply node.rows [⟨key, some (encode levels properties), newValue properties⟩] with
    | none => .error ⟨.aborted, conflict⟩
    | some rows => .ok rows

def dropNamespace (node : Node) : Except Status (OrdMap Text Bytes) :=
  let key := nsKeyWh w levels
  if node.namespaces.contains key = false then .error ⟨.notFound, "namespace not found"⟩
  else if (keysFrom node.tables (below key)).isEmpty = false then
    .error ⟨.failedPrecondition, "namespace is not empty (contains tables)"⟩
  else if (keysFrom node.namespaces (below key)).isEmpty = false then
    .error ⟨.failedPrecondition, "namespace is not empty (contains child namespaces)"⟩
  else propose w levels node "namespace changed since read; retry drop" fun _ => none

def updateNamespaceProperties (removals : List Text) (updates : List (Text × Text)) (node : Node) :
    Except Status (OrdMap Text Bytes) :=
  propose w levels node "namespace properties changed since read; retry" fun current =>
    let left := current.filter fun e => e.1 ∉ removals ++ updates.map Prod.fst
    some (encode levels (left ++ updates))

/-- The node has the namespace: its row, and a map of the row's properties. -/
structure Node.Holds (properties : List (Text × Text)) (node : Node) : Prop where
  stored : node.rows.get (nsKeyWh w levels) = some (encode levels properties)
  held : ∃ iteration, node.namespaces.get (nsKeyWh w levels) = some iteration ∧ iteration.Perm properties

def Node.Vacant (node : Node) : Prop :=
  keysFrom node.tables (below (nsKeyWh w levels)) = [] ∧
    keysFrom node.namespaces (below (nsKeyWh w levels)) = []

/-- A node with this namespace alone, stored in one order and kept in another. -/
def Node.alone (properties iteration : List (Text × Text)) : Node :=
  ⟨.insert .empty (nsKeyWh w levels) (encode levels properties),
    .insert .empty (nsKeyWh w levels) iteration, .empty⟩

variable {w levels} {properties iteration : List (Text × Text)} {node : Node}

theorem Node.alone_holds (h : iteration.Perm properties) :
    (alone w levels properties iteration).Holds w levels properties :=
  ⟨OrdMap.get_insert_self _ _ _, iteration, OrdMap.get_insert_self _ _ _, h⟩

theorem propose_isOk (hrow : node.rows.get (nsKeyWh w levels) = some (encode levels properties))
    (hheld : node.namespaces.get (nsKeyWh w levels) = some iteration) (conflict : String)
    (newValue : List (Text × Text) → Option Bytes) :
    (propose w levels node conflict newValue).isOk ↔ encode levels properties = encode levels iteration := by
  simp only [propose, hheld, CompareAndSet.apply, CompareAndSet.failed_eq_nil, mem_singleton, forall_eq, hrow,
    Option.some.injEq]
  split <;> rename_i h <;> split at h <;> simp_all [Except.isOk, Except.toBool]

/-- A namespace can be changed by every node that has it exactly where it has at most one property. -/
theorem changeable_iff (w : Text) (levels : List Text) (properties : List (Text × Text))
    (hkeys : (properties.map Prod.fst).Nodup) (hsized : ∀ e ∈ properties, Sized e) :
    (∀ node : Node, node.Holds w levels properties →
      (∀ removals updates, (updateNamespaceProperties w levels removals updates node).isOk) ∧
      (node.Vacant w levels → (dropNamespace w levels node).isOk)) ↔ properties.length ≤ 1 := by
  constructor
  · intro h
    match properties, hkeys, hsized with
    | [], _, _ | [_], _, _ => simp
    | e :: e' :: rest, hkeys, hsized =>
      -- a node whose map has the first two properties the other way about
      have hswap := Perm.swap e e' rest
      have hnode := @Node.alone_holds w levels _ _ hswap
      have hok := (propose_isOk hnode.stored (OrdMap.get_insert_self _ _ _) _ _).1 ((h _ hnode).1 [] [])
      have hsized' : ∀ a ∈ e' :: e :: rest, Sized a := fun a ha => hsized a (hswap.mem_iff.1 ha)
      have heq := encode_inj levels hswap.length_eq.symm hsized hsized' hok
      have hne : e.1 ≠ e'.1 := by
        simp only [map_cons, nodup_cons, mem_cons, not_or] at hkeys
        exact hkeys.1.1
      exact absurd (congrArg Prod.fst (cons.inj heq).1) hne
  · intro h node hnode
    obtain ⟨iteration, hheld, hperm⟩ := hnode.held
    have hsame : iteration = properties := by
      match properties, h with
      | [], _ => exact hperm.eq_nil
      | [e], _ => exact perm_singleton.1 hperm
    subst hsame
    refine ⟨fun removals updates => (propose_isOk hnode.stored hheld _ _).2 rfl, fun hvacant => ?_⟩
    have hcontains : node.namespaces.contains (nsKeyWh w levels) = true := by
      rw [OrdMap.contains, hheld]
      rfl
    rw [dropNamespace]
    simp only [hcontains, hvacant.1, hvacant.2, isEmpty_nil, if_false, Bool.true_eq_false]
    exact (propose_isOk hnode.stored hheld _ _).2 rfl

end Changes

theorem one_property_dropped : (dropNamespace ['w'] [['a']] (.alone ['w'] [['a']] [(['k'], ['v'])]
    [(['k'], ['v'])])).isOk :=
  ((changeable_iff ['w'] [['a']] [(['k'], ['v'])] (by decide) (by simp [Sized]; decide +kernel)).2 (by decide)
    _ (Node.alone_holds (.refl _))).2 ⟨by decide +kernel, by decide +kernel⟩

/-- A node that loaded two properties, and iterates the second first. -/
theorem restarted_aborts :
    let node : Node := .alone ['w'] [['a']] [(['k'], ['v']), (['l'], ['u'])] [(['l'], ['u']), (['k'], ['v'])]
    node.Holds ['w'] [['a']] [(['k'], ['v']), (['l'], ['u'])] ∧ node.Vacant ['w'] [['a']] ∧
    dropNamespace ['w'] [['a']] node = .error ⟨.aborted, "namespace changed since read; retry drop"⟩ :=
  ⟨Node.alone_holds (.swap _ _ _), ⟨by decide +kernel, by decide +kernel⟩, by decide +kernel⟩

end IoLake.Iceberg.Reencode
