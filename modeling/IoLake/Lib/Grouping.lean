import IoLake.Lib.OrdMap

/-!
# Grouping and scattering

Two ways a program spreads a list over places.  `OrdMap.groupBy` collects the items of each key, in
order, in an ordered map; `scatter` writes lists of values at lists of positions.
-/

namespace OrdMap

open List

variable {K V : Type} [LinearOrder K]

/-- `v` at the end of the list kept for `k`. -/
def push (m : OrdMap K (List V)) (k : K) (v : V) : OrdMap K (List V) :=
  m.insert k ((m.get k).getD [] ++ [v])

def groupBy (key : V → K) (items : List V) : OrdMap K (List V) :=
  items.foldl (fun m v => m.push (key v) v) OrdMap.empty

theorem getD_push (m : OrdMap K (List V)) (k k' : K) (v : V) :
    ((m.push k v).get k').getD [] = (m.get k').getD [] ++ (if k = k' then [v] else []) := by
  rw [push, get_insert]
  by_cases h : k = k'
  · subst h
    simp
  · have h' : ¬ k' = k := fun h0 => h h0.symm
    simp [h, h']

theorem push_ne_nil {m : OrdMap K (List V)} (h : ∀ k, m.get k ≠ some []) (k : K) (v : V) (k' : K) :
    (m.push k v).get k' ≠ some [] := by
  rw [push, get_insert]
  split
  · simp
  · exact h k'

theorem getD_foldl_push (key : V → K) (k : K) : ∀ (items : List V) (m : OrdMap K (List V)),
    ((items.foldl (fun m v => m.push (key v) v) m).get k).getD [] =
      (m.get k).getD [] ++ items.filter (fun v => key v = k)
  | [], m => by simp
  | v :: items, m => by
    rw [foldl_cons, getD_foldl_push key k items, getD_push, append_assoc]
    by_cases h : key v = k <;> simp [h]

theorem foldl_push_ne_nil (key : V → K) (k : K) : ∀ (items : List V) {m : OrdMap K (List V)},
    (∀ k, m.get k ≠ some []) → (items.foldl (fun m v => m.push (key v) v) m).get k ≠ some []
  | [], _, h => h k
  | v :: items, _, h => foldl_push_ne_nil key k items (push_ne_nil h (key v) v)

/-- A class of `groupBy` is **the items of its key**, in their order. -/
theorem mem_groupBy {key : V → K} {items : List V} {k : K} {vs : List V} :
    (k, vs) ∈ (groupBy key items).entries ↔ vs = items.filter (fun v => key v = k) ∧ vs ≠ [] := by
  have hget := getD_foldl_push key k items OrdMap.empty
  have hne := foldl_push_ne_nil key k items (m := OrdMap.empty) (by simp [get, empty])
  rw [show ((OrdMap.empty : OrdMap K (List V)).get k).getD [] = [] by simp [get, empty], nil_append] at hget
  rw [mem_entries, ← hget]
  change (groupBy key items).get k = some vs ↔ vs = ((groupBy key items).get k).getD [] ∧ vs ≠ []
  replace hne : (groupBy key items).get k ≠ some [] := hne
  constructor
  · intro h
    refine ⟨by rw [h]; rfl, fun h0 => hne (h0 ▸ h)⟩
  · rintro ⟨h, hvs⟩
    cases hc : (groupBy key items).get k with
    | none => exact (hvs (by rw [h, hc]; rfl)).elim
    | some ws => rw [h, hc]; rfl

theorem groupBy_flatten_perm {key : V → K} {items : List V} (h : items.Nodup) :
    ((groupBy key items).entries.map Prod.snd).flatten.Perm items := by
  refine (perm_ext_iff_of_nodup ?_ h).2 fun v => ?_
  · refine nodup_flatten.2 ⟨?_, ?_⟩
    · intro vs hvs
      obtain ⟨⟨k, _⟩, hmem, rfl⟩ := mem_map.1 hvs
      rw [(mem_groupBy.1 hmem).1]
      exact h.filter _
    · refine pairwise_map.2 ((groupBy key items).sorted.imp_of_mem ?_)
      rintro ⟨a, vs⟩ ⟨b, ws⟩ ha hb hlt v hva hvb
      rw [(mem_groupBy.1 ha).1] at hva
      rw [(mem_groupBy.1 hb).1] at hvb
      have hka : key v = a := by simpa using (mem_filter.1 hva).2
      have hkb : key v = b := by simpa using (mem_filter.1 hvb).2
      exact absurd (hka.symm.trans hkb) hlt.ne
  · constructor
    · intro hv
      obtain ⟨vs, hvs, hmem⟩ := mem_flatten.1 hv
      obtain ⟨⟨k, _⟩, he, rfl⟩ := mem_map.1 hvs
      rw [(mem_groupBy.1 he).1] at hmem
      exact (mem_filter.1 hmem).1
    · intro hv
      have hmem : v ∈ items.filter (fun w => key w = key v) := mem_filter.2 ⟨hv, by simp⟩
      have hentry := mem_groupBy.2 ⟨rfl, ne_nil_of_mem hmem⟩
      exact mem_flatten.2 ⟨_, mem_map.2 ⟨_, hentry, rfl⟩, hmem⟩

end OrdMap

namespace Scatter

variable {α : Type}

theorem filterMap_eq_of_forall₂ {β : Type} {f : β → Option α} : ∀ {ps : List β} {vs : List α},
    List.Forall₂ (fun p v => f p = some v) ps vs → ps.filterMap f = vs
  | _, _, .nil => rfl
  | _, _, .cons h hs => by rw [List.filterMap_cons_some h, filterMap_eq_of_forall₂ hs]

/-- Write the values at the positions, pair by pair. -/
def putAt (l : List α) (ps : List Nat) (vs : List α) : List α :=
  (ps.zip vs).foldl (fun l w => l.set w.1 w.2) l

/-- Write each list of values at its list of positions. -/
def scatter (l : List α) (writes : List (List Nat × List α)) : List α :=
  writes.foldl (fun l w => putAt l w.1 w.2) l

theorem length_foldl_set : ∀ (ws : List (Nat × α)) (l : List α),
    (ws.foldl (fun l w => l.set w.1 w.2) l).length = l.length
  | [], _ => rfl
  | w :: ws, l => by rw [List.foldl_cons, length_foldl_set ws, List.length_set]

variable {p : Nat} {v : α}

theorem foldl_set_of_notMem : ∀ {ws : List (Nat × α)} (l : List α),
    p ∉ ws.map Prod.fst → (ws.foldl (fun l w => l.set w.1 w.2) l)[p]? = l[p]?
  | [], _, _ => rfl
  | w :: ws, l, h => by
    have hne : w.1 ≠ p := fun h0 => h (by simp [h0])
    rw [List.foldl_cons, foldl_set_of_notMem _ fun h0 => h (List.mem_cons_of_mem _ h0),
      List.getElem?_set_ne hne]

theorem foldl_set_of_mem {w : Nat × α} : ∀ {ws : List (Nat × α)} {l : List α},
    (ws.map Prod.fst).Nodup → w ∈ ws → w.1 < l.length →
      (ws.foldl (fun l w => l.set w.1 w.2) l)[w.1]? = some w.2
  | w' :: ws, l, hnodup, hw, hlt => by
    rw [List.map_cons] at hnodup
    obtain ⟨hhead, htail⟩ := List.nodup_cons.1 hnodup
    rw [List.foldl_cons]
    rcases List.mem_cons.1 hw with rfl | hw
    · rw [foldl_set_of_notMem _ hhead, List.getElem?_set_self hlt]
    · exact foldl_set_of_mem htail hw (by rwa [List.length_set])

def pairs (writes : List (List Nat × List α)) : List (Nat × α) :=
  writes.flatMap fun w => w.1.zip w.2

theorem scatter_eq_foldl : ∀ (writes : List (List Nat × List α)) (l : List α),
    scatter l writes = (pairs writes).foldl (fun l w => l.set w.1 w.2) l
  | [], _ => rfl
  | w :: ws, l => by
    rw [pairs, List.flatMap_cons, List.foldl_append]
    exact scatter_eq_foldl ws (putAt l w.1 w.2)

theorem length_scatter (l : List α) (writes : List (List Nat × List α)) :
    (scatter l writes).length = l.length := by
  rw [scatter_eq_foldl, length_foldl_set]

theorem fst_zip_sublist : ∀ (ps : List Nat) (vs : List α), ((ps.zip vs).map Prod.fst).Sublist ps
  | [], _ => by simp
  | _ :: _, [] => by simp
  | p :: ps, v :: vs => (fst_zip_sublist ps vs).cons_cons p

theorem pairs_fst_sublist : ∀ (writes : List (List Nat × List α)),
    ((pairs writes).map Prod.fst).Sublist (writes.map Prod.fst).flatten
  | [] => .slnil
  | w :: ws => by
    rw [pairs, List.flatMap_cons, List.map_append, List.map_cons, List.flatten_cons]
    exact (fst_zip_sublist w.1 w.2).append (pairs_fst_sublist ws)

variable {writes : List (List Nat × List α)} {l : List α}

/-- **A value scattered to a position is read back there**, where no position is written twice. -/
theorem scatter_of_mem
    (hnodup : (writes.map Prod.fst).flatten.Nodup) {w : List Nat × List α} (hw : w ∈ writes)
    (hp : (p, v) ∈ w.1.zip w.2) (hlt : p < l.length) : (scatter l writes)[p]? = some v := by
  rw [scatter_eq_foldl]
  exact foldl_set_of_mem (w := (p, v)) ((pairs_fst_sublist writes).nodup hnodup)
    (List.mem_flatMap.2 ⟨w, hw, hp⟩) hlt

def gather (l : List α) (ps : List Nat) : List α := ps.filterMap (l[·]?)

theorem mem_gather {ps : List Nat} : v ∈ gather l ps ↔ ∃ p ∈ ps, l[p]? = some v := List.mem_filterMap

theorem gather_range (l : List α) : gather l (List.range l.length) = l := by
  refine filterMap_eq_of_forall₂ (List.forall₂_iff_get.2 ⟨List.length_range, fun i h₁ h₂ => ?_⟩)
  simp

theorem gather_flatten (l : List α) (pss : List (List Nat)) :
    gather l pss.flatten = (pss.map (gather l)).flatten := List.filterMap_flatten

theorem Perm.gather {ps qs : List Nat} (h : ps.Perm qs) (l : List α) :
    (Scatter.gather l ps).Perm (Scatter.gather l qs) := h.filterMap _

theorem length_gather : ∀ {ps : List Nat}, (∀ p ∈ ps, p < l.length) → (gather l ps).length = ps.length
  | [], _ => rfl
  | p :: ps, h => by
    have hp := List.getElem?_eq_getElem (h p List.mem_cons_self)
    rw [gather, List.filterMap_cons_some hp, List.length_cons, List.length_cons]
    exact congrArg (· + 1) (length_gather fun q hq => h q (List.mem_cons_of_mem _ hq))

/-- What was scattered to a list of positions is gathered from it. -/
theorem gather_scatter
    (hnodup : (writes.map Prod.fst).flatten.Nodup) {w : List Nat × List α} (hw : w ∈ writes)
    (hlen : w.1.length = w.2.length) (hlt : ∀ p ∈ w.1, p < l.length) :
    gather (scatter l writes) w.1 = w.2 := by
  refine filterMap_eq_of_forall₂ (List.forall₂_iff_zip.2 ⟨hlen, fun {p v} hp => ?_⟩)
  exact scatter_of_mem hnodup hw hp (hlt p (List.of_mem_zip hp).1)

theorem scatter_perm (hall : (writes.map Prod.fst).flatten.Perm (List.range l.length))
    (hlen : ∀ w ∈ writes, w.1.length = w.2.length) :
    (scatter l writes).Perm (writes.map Prod.snd).flatten := by
  have hnodup : (writes.map Prod.fst).flatten.Nodup := hall.nodup_iff.2 List.nodup_range
  have hlt : ∀ w ∈ writes, ∀ p ∈ w.1, p < l.length := by
    intro w hw p hp
    have hmem := List.mem_flatten.2 ⟨w.1, List.mem_map.2 ⟨w, hw, rfl⟩, hp⟩
    exact List.mem_range.1 (hall.mem_iff.1 hmem)
  have hgather : gather (scatter l writes) (writes.map Prod.fst).flatten = (writes.map Prod.snd).flatten := by
    rw [gather_flatten, List.map_map]
    refine congrArg List.flatten (List.map_congr_left fun w hw => ?_)
    exact gather_scatter hnodup hw (hlen w hw) (hlt w hw)
  rw [← hgather]
  have hrange := gather_range (scatter l writes)
  rw [length_scatter] at hrange
  exact (hrange ▸ Perm.gather hall (scatter l writes)).symm

/-- A write moves the values at `src`, in some order, to as many positions. -/
def Moves (l : List α) (src : List Nat) (w : List Nat × List α) : Prop :=
  w.1.length = src.length ∧ w.2.Perm (gather l src)

section
variable {l : List α} {srcs : List (List Nat)} {writes : List (List Nat × List α)}
  (hdest : (writes.map Prod.fst).flatten.Perm (List.range l.length))
  (hsrc : srcs.flatten.Perm (List.range l.length)) (hmoves : List.Forall₂ (Moves l) srcs writes)

include hsrc hmoves in
theorem length_of_moves : ∀ w ∈ writes, w.1.length = w.2.length := by
  intro w hw
  obtain ⟨i, hi, rfl⟩ := List.mem_iff_getElem.1 hw
  have hi' : i < srcs.length := hmoves.length_eq ▸ hi
  obtain ⟨hlen, hperm⟩ := hmoves.get hi' hi
  refine hlen.trans ?_
  rw [List.get_eq_getElem] at hperm
  rw [hperm.length_eq, length_gather]
  intro p hp
  exact List.mem_range.1 (hsrc.mem_iff.1 (List.mem_flatten.2 ⟨_, List.getElem_mem hi', hp⟩))

include hdest hsrc hmoves in
/-- Moving each position's value to a position of its own permutes the list. -/
theorem scatter_moves_perm : (scatter l writes).Perm l := by
  refine (scatter_perm hdest (length_of_moves hsrc hmoves)).trans ?_
  have hvalues : (writes.map Prod.snd).flatten.Perm (srcs.map (gather l)).flatten := by
    refine List.Perm.flatten_congr (List.forall₂_map_left_iff.2 (List.forall₂_map_right_iff.2 ?_))
    exact hmoves.flip.imp fun _ _ h => h.2
  refine hvalues.trans ?_
  rw [← gather_flatten]
  have hall := Perm.gather hsrc l
  rwa [gather_range] at hall

include hdest hsrc hmoves in
theorem scatter_moves_source (hv : (scatter l writes)[p]? = some v) :
    ∃ sw ∈ srcs.zip writes, p ∈ sw.2.1 ∧ ∃ q ∈ sw.1, l[q]? = some v := by
  have hp : p < l.length := by
    have := (List.getElem?_eq_some_iff.1 hv).1
    rwa [length_scatter] at this
  obtain ⟨ps, hps, hpmem⟩ := List.mem_flatten.1 (hdest.mem_iff.2 (List.mem_range.2 hp))
  obtain ⟨w, hw, rfl⟩ := List.mem_map.1 hps
  have hgathered := gather_scatter (hdest.nodup_iff.2 List.nodup_range) hw
    (length_of_moves hsrc hmoves w hw) fun q hq =>
      List.mem_range.1 (hdest.mem_iff.1 (List.mem_flatten.2 ⟨w.1, hps, hq⟩))
  have hvw : v ∈ w.2 := hgathered ▸ mem_gather.2 ⟨p, hpmem, hv⟩
  obtain ⟨i, hi, rfl⟩ := List.mem_iff_getElem.1 hw
  have hi' : i < srcs.length := hmoves.length_eq ▸ hi
  have hzip : (srcs[i], writes[i]) ∈ srcs.zip writes := by
    refine List.mem_iff_getElem.2 ⟨i, by simp [hi, hi'], ?_⟩
    rw [List.getElem_zip]
  exact ⟨_, hzip, hpmem, mem_gather.1 ((hmoves.get hi' hi).2.mem_iff.1 hvw)⟩

end

end Scatter
