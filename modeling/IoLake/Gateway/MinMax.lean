import Mathlib

/-!
# MIN and MAX of a column

A running minimum or maximum keeps the first value and replaces it by each one that comes before it in the
aggregates' order: numbers by value where both texts read as numbers, else the bytes of the texts.
-/

namespace IoLake.Gateway.MinMax

open List

section Best

variable {α : Type} (beats : α → α → Bool)

def keep (cur : Option α) (v : α) : Option α :=
  if cur.all (beats v) then some v else cur

def best (l : List α) : Option α := l.foldl (keep beats) none

variable {beats} {l : List α} {m : α}

theorem best_of_first [DecidableEq α] (hm : beats m m = false)
    (h : ∀ s ∈ l, s ≠ m → beats m s = true ∧ beats s m = false) :
    ∀ cur, (cur = some m ∨ m ∈ l ∧ cur.all (beats m) = true) → l.foldl (keep beats) cur = some m := by
  induction l with
  | nil => simp
  | cons x l ih =>
    have h' : ∀ s ∈ l, s ≠ m → beats m s = true ∧ beats s m = false := fun s hs => h s (mem_cons_of_mem _ hs)
    intro cur hcur
    refine ih h' _ ?_
    by_cases hx : x = m
    · subst hx
      rcases hcur with rfl | ⟨-, hcur⟩
      · exact .inl (by simp [keep, hm])
      · exact .inl (by simp [keep, hcur])
    · obtain ⟨hmx, hxm⟩ := h x mem_cons_self hx
      rcases hcur with rfl | ⟨hmem, hcur⟩
      · exact .inl (by simp [keep, hxm])
      · refine .inr ⟨(mem_cons.1 hmem).resolve_left (Ne.symm hx), ?_⟩
        unfold keep
        split
        · simpa using hmx
        · exact hcur

theorem best_stays {c : α} (h : ∀ s ∈ l, beats s c = false) : l.foldl (keep beats) (some c) = some c := by
  induction l with
  | nil => rfl
  | cons x l ih =>
    rw [foldl_cons, keep, if_neg (by simp [h x mem_cons_self])]
    exact ih fun s hs => h s (mem_cons_of_mem _ hs)

theorem best_mem (beats : α → α → Bool) (l : List α) :
    ∀ c : α, ∃ m ∈ c :: l, l.foldl (keep beats) (some c) = some m := by
  induction l with
  | nil => exact fun c => ⟨c, mem_cons_self, rfl⟩
  | cons x l ih =>
    intro c
    rw [foldl_cons, keep]
    split
    · obtain ⟨m, hm, h⟩ := ih x
      exact ⟨m, mem_cons_of_mem _ hm, h⟩
    · obtain ⟨m, hm, h⟩ := ih c
      exact ⟨m, by grind, h⟩

theorem beats_of_best [DecidableEq α] (h : ∀ l', l' ~ l → best beats l' = some m) {s : α} (hs : s ∈ l)
    (hne : s ≠ m) : beats m s = true := by
  by_contra hm
  rw [Bool.not_eq_true] at hm
  have hperm : s :: ((l.erase s).filter (· = m) ++ (l.erase s).filter (fun x => !decide (x = m))) ~ l :=
    ((filter_append_perm _ _).cons s).trans (perm_cons_erase hs).symm
  have hbest := h _ hperm
  have hstay : ((l.erase s).filter (· = m)).foldl (keep beats) (some s) = some s :=
    best_stays fun x hx => by simp_all
  obtain ⟨m', hmem, hm'⟩ := best_mem beats ((l.erase s).filter fun x => !decide (x = m)) s
  rw [best, foldl_cons, foldl_append, keep, if_pos (by rfl), hstay, hm'] at hbest
  cases hbest
  rcases mem_cons.1 hmem with heq | hmem
  · exact hne heq.symm
  · simp at hmem

/-- Of a running best, over any relation: it is the same in every order exactly when one value beats every
other. -/
theorem best_order_free_iff [DecidableEq α] (beats : α → α → Bool)
    (hasymm : ∀ a ∈ l, ∀ b ∈ l, beats a b = true → beats b a = false) :
    ((∀ l', l' ~ l → best beats l' = best beats l) ∧
      ∀ m, best beats l = some m → ∀ s ∈ l, beats s m = false) ↔
      l = [] ∨ ∃ m ∈ l, ∀ s ∈ l, s ≠ m → beats m s = true := by
  constructor
  · rintro ⟨hfree, -⟩
    cases hl : l with
    | nil => exact .inl rfl
    | cons x xs =>
      obtain ⟨m, hm, hbest⟩ := best_mem beats xs x
      rw [← hl] at hm ⊢
      exact .inr ⟨m, hm, fun s => beats_of_best fun l' hl' => (hfree l' hl').trans (hl ▸ hbest)⟩
  · rintro (rfl | ⟨m, hm, hbeats⟩)
    · simp [best]
    · have hself : beats m m = false := by
        by_contra h
        exact h (hasymm m hm m hm (by simpa using h))
      have hall : ∀ l', l' ~ l → best beats l' = some m := fun l' hl' => best_of_first hself
        (fun s hs hne => have hs := hl'.mem_iff.1 hs
          ⟨hbeats s hs hne, hasymm m hm s hs (hbeats s hs hne)⟩) none (.inr ⟨hl'.mem_iff.2 hm, rfl⟩)
      refine ⟨fun l' hl' => (hall l' hl').trans (hall l .rfl).symm, fun m' hm' s hs => ?_⟩
      cases (hall l .rfl).symm.trans hm'
      by_cases hsm : s = m
      · rw [hsm, hself]
      · exact hasymm m hm s hs (hbeats s hs hsm)

end Best

/-! ## Values and their order -/

abbrev Text := List Char

/-- What is not in this project of 64-bit floats. -/
structure Floats where
  F : Type
  parse : Text → Option F
  ofInt : Int → F
  partialCmp : F → F → Option Ordering

/-- Values but for timestamps, lists and structs, which no field of a CSV record is. -/
inductive Value (fl : Floats)
  | missing
  | null
  | bool (b : Bool)
  | int (i : Int)
  | float (f : fl.F)
  | str (s : Text)

def isWhite (c : Char) : Bool :=
  let n := c.toNat
  (9 ≤ n && n ≤ 13) || (0x2000 ≤ n && n ≤ 0x200a) ||
    [0x20, 0x85, 0xa0, 0x1680, 0x2028, 0x2029, 0x202f, 0x205f, 0x3000].contains n

def trim (s : Text) : Text := (s.dropWhile isWhite).rdropWhile isWhite

def parseI64 (t : Text) : Option Int :=
  let digits := if t.head? = some '-' ∨ t.head? = some '+' then t.tail else t
  let n : Int := digits.foldl (fun n c => 10 * n + (c.toNat - '0'.toNat : Nat)) 0
  let i := if t.head? = some '-' then -n else n
  if digits ≠ [] ∧ digits.all Char.isDigit ∧ -2 ^ 63 ≤ i ∧ i < 2 ^ 63 then some i else none

variable {fl : Floats}

variable (fl) in
def parseNumber (s : Text) : Option (Value fl) :=
  let t := trim s
  if t = [] then none
  else match parseI64 t with
    | some i => some (.int i)
    | none => if t.all fun c => c.isDigit || ".-+eE".toList.contains c then (fl.parse t).map .float else none

def Value.asNumber : Value fl → Option (Value fl)
  | .int i => some (.int i)
  | .float f => some (.float f)
  | .str s => parseNumber fl s
  | _ => none

def compareNumbers : Value fl → Value fl → Option Ordering
  | .int x, .int y => some (Ord.compare x y)
  | .int x, .float y => fl.partialCmp (fl.ofInt x) y
  | .float x, .int y => fl.partialCmp x (fl.ofInt y)
  | .float x, .float y => fl.partialCmp x y
  | _, _ => none

def truthOf (s : Text) : Option Bool :=
  let t := s.map Char.toLower
  if t = "true".toList then some true else if t = "false".toList then some false else none

def compare : Value fl → Value fl → Option Ordering
  | .str x, .str y => some (if x < y then .lt else if x = y then .eq else .gt)
  | .bool x, .bool y => some (Ord.compare x y)
  | .str s, .bool y => (truthOf s).map (Ord.compare · y)
  | .bool x, .str s => (truthOf s).map (Ord.compare x ·)
  | a, b => do compareNumbers (← a.asNumber) (← b.asNumber)

def aggOrder (a b : Value fl) : Option Ordering :=
  match a.asNumber, b.asNumber with
  | some x, some y => compare x y
  | _, _ => compare a b

inductive Agg
  | min
  | max

def Agg.replaces : Agg → Ordering
  | .min => .lt
  | .max => .gt

def fieldOrder (fl : Floats) (a b : Text) : Option Ordering := aggOrder (.str a : Value fl) (.str b)

def beatsBy (fl : Floats) (agg : Agg) (v c : Text) : Bool := fieldOrder fl v c = some agg.replaces

def aggregate (fl : Floats) (agg : Agg) (fields : List Text) : Value fl :=
  ((best (beatsBy fl agg) fields).map .str).getD .null

/-- A field reads as an integer, or not as a number. -/
def Field (fl : Floats) (s : Text) : Prop := ∀ f, parseNumber fl s ≠ some (.float f)

theorem Field.parse {s : Text} (h : Field fl s) :
    parseNumber fl s = none ∨ ∃ i, parseNumber fl s = some (.int i) := by
  cases hs : parseNumber fl s with
  | none => exact .inl rfl
  | some v =>
    have hf := h
    simp only [Field, hs] at hf
    simp only [parseNumber] at hs
    split at hs
    · cases hs
    · split at hs
      · exact .inr ⟨_, hs.symm⟩
      · split at hs
        · obtain ⟨f, -, rfl⟩ := Option.map_eq_some_iff.1 hs
          exact absurd rfl (hf f)
        · cases hs

theorem fieldOrder_swap {a b : Text} (ha : Field fl a) (hb : Field fl b) :
    fieldOrder fl b a = (fieldOrder fl a b).map Ordering.swap := by
  have htext : compare (.str b : Value fl) (.str a) =
      (compare (.str a : Value fl) (.str b)).map Ordering.swap := by
    rcases lt_trichotomy a b with h | rfl | h
    · simp [compare, h, h.not_gt, h.ne']
    · simp [compare]
    · simp [compare, h, h.not_gt, h.ne']
  have hints : ∀ x y : Int, Ord.compare y x = (Ord.compare x y).swap := fun _ _ => Std.OrientedCmp.eq_swap
  simp only [fieldOrder, aggOrder, Value.asNumber]
  rcases ha.parse with ha | ⟨x, ha⟩ <;> rcases hb.parse with hb | ⟨y, hb⟩ <;> simp only [ha, hb]
  · exact htext
  · exact htext
  · exact htext
  · simp [compare, Value.asNumber, compareNumbers, hints x y]

theorem beatsBy_asymm (agg : Agg) {a b : Text} (ha : Field fl a) (hb : Field fl b)
    (h : beatsBy fl agg a b = true) : beatsBy fl agg b a = false := by
  rw [beatsBy, decide_eq_true_iff] at h
  rw [beatsBy, fieldOrder_swap ha hb, h]
  cases agg <;> decide

/-- MIN and MAX of a column are the same in every order of its fields, and bounds of them, exactly when one
field comes before every other one and one after. -/
theorem min_max_order_free_iff (fl : Floats) (l : List Text) (hl : ∀ s ∈ l, Field fl s) :
    (∀ agg, (∀ l', l' ~ l → aggregate fl agg l' = aggregate fl agg l) ∧
      ∀ m, aggregate fl agg l = .str m → ∀ s ∈ l, fieldOrder fl s m ≠ some (Agg.replaces agg)) ↔
    ∀ agg, l = [] ∨ ∃ m ∈ l, ∀ s ∈ l, s ≠ m → fieldOrder fl m s = some (Agg.replaces agg) := by
  refine forall_congr' fun agg => ?_
  have hsame : ∀ l', aggregate fl agg l' = aggregate fl agg l ↔
      best (beatsBy fl agg) l' = best (beatsBy fl agg) l := by
    intro l'
    unfold aggregate
    cases best (beatsBy fl agg) l' <;> cases best (beatsBy fl agg) l <;> simp
  have hvalue : ∀ m, aggregate fl agg l = .str m ↔ best (beatsBy fl agg) l = some m := by
    intro m
    unfold aggregate
    cases best (beatsBy fl agg) l <;> simp
  have hfree := best_order_free_iff (beatsBy fl agg) fun a ha b hb => beatsBy_asymm agg (hl a ha) (hl b hb)
  simpa only [hsame, hvalue, beatsBy, decide_eq_true_iff, decide_eq_false_iff_not] using hfree

def noFloats : Floats := ⟨Unit, fun _ => none, fun _ => (), fun _ _ => some .eq⟩

/-- **`9` is before `10` by value, `10` before `1x` and `1x` before `9` as texts**: the minimum depends on the
order. -/
theorem minimum_depends_on_order :
    aggregate noFloats .min [['9'], ['1', '0'], ['1', 'x']] = .str ['1', 'x'] ∧
    aggregate noFloats .min [['1', '0'], ['1', 'x'], ['9']] = .str ['9'] := by
  have hfirst : best (beatsBy noFloats .min) [['9'], ['1', '0'], ['1', 'x']] = some ['1', 'x'] := by
    decide +kernel
  have hlast : best (beatsBy noFloats .min) [['1', '0'], ['1', 'x'], ['9']] = some ['9'] := by decide +kernel
  rw [aggregate, aggregate, hfirst, hlast]
  exact ⟨rfl, rfl⟩

theorem two_numbers_order_free :
    aggregate noFloats .min [['1', '0'], ['9']] = aggregate noFloats .min [['9'], ['1', '0']] := by
  have hfields : ∀ s ∈ [['9'], ['1', '0']], Field noFloats s := by
    intro s _ f h
    simp only [parseNumber, noFloats] at h
    split at h
    · cases h
    · split at h
      · cases h
      · split at h <;> cases h
  exact (((min_max_order_free_iff noFloats [['9'], ['1', '0']] hfields).2 fun agg => .inr (by
    cases agg <;> decide +kernel)) .min).1 _ (Perm.swap ..)

end IoLake.Gateway.MinMax
