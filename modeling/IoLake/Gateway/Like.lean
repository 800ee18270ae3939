import Mathlib

/-!
# LIKE

A pattern is read into items, and the items are matched by one loop that goes back to the last `%` only.
-/

namespace IoLake.Gateway.Like

open List

abbrev Text := List Char

structure SelectError where
  code : String
  message : String
deriving DecidableEq, Repr

inductive P
  | any
  | one
  | ch (c : Char)
deriving DecidableEq, Repr

def items (escape : Option Char) (pat : List P) : Text → Except SelectError (List P)
  | [] => .ok pat
  | c :: rest =>
    if some c = escape then
      match rest with
      | n :: rest => items escape (pat ++ [.ch n]) rest
      | [] => .error ⟨"EvaluatorLikePatternInvalidEscapeSequence",
          "the LIKE pattern ends with its escape character"⟩
    else if c = '%' then items escape (if pat.getLast? = some .any then pat else pat ++ [.any]) rest
    else if c = '_' then items escape (pat ++ [.one]) rest
    else items escape (pat ++ [.ch c]) rest

/-- An item that stands for one character. -/
def P.fits : P → Char → Bool
  | .any, _ => false
  | .one, _ => true
  | .ch d, c => d = c

/-- Where the loop is: in the text, in the items, and where it met the last `%`. -/
structure Loop (pat : List P) (t : Text) where
  ti : Nat
  pi : Nat
  star : Option (Nat × Nat)
  inText : ti ≤ t.length
  inItems : pi ≤ pat.length
  back : ∀ s ∈ star, s.1 < pi ∧ s.2 ≤ ti

theorem lt_of_any {pat : List P} {i : Nat} {c : Char} (h : pat[i]?.any (·.fits c) = true) :
    i < pat.length := by
  obtain ⟨x, hx, -⟩ := (Option.any_eq_true _ _).1 h
  exact (List.getElem?_eq_some_iff.1 hx).1

def Loop.run {pat : List P} {t : Text} (s : Loop pat t) : Bool :=
  if ht : s.ti < t.length then
    if hc : pat[s.pi]?.any (·.fits t[s.ti]) then
      run (⟨s.ti + 1, s.pi + 1, s.star, ht, lt_of_any hc, fun x hx => by have := s.back x hx; omega⟩ :
        Loop pat t)
    else if hx : pat[s.pi]? = some .any then
      run (⟨s.ti, s.pi + 1, some (s.pi, s.ti), s.inText, (List.getElem?_eq_some_iff.1 hx).1, by simp⟩ :
        Loop pat t)
    else match hs : s.star with
      | some (sp, st) =>
        have h := s.back (sp, st) hs
        have hp := s.inItems
        run (⟨st + 1, sp + 1, some (sp, st + 1), by omega, by omega, by simp⟩ : Loop pat t)
      | none => false
  else (pat.drop s.pi).all (· = .any)
-- The last `%` moves on, or it takes one more character, or the text moves on.
termination_by
  (s.star.elim (pat.length + 1) (pat.length - ·.1), s.star.elim 0 (t.length - ·.2), t.length - s.ti)
decreasing_by
  · exact .right _ (.right _ (by omega))
  · have hlt := (List.getElem?_eq_some_iff.1 hx).1
    refine .left _ _ ?_
    cases hs : s.star with
    | none => simp only [Option.elim]; omega
    | some x =>
      have := s.back x hs
      simp only [Option.elim]
      omega
  · simp only [hs, Option.elim]
    exact .right _ (.left _ _ (by omega))

def Loop.begin (pat : List P) (t : Text) : Loop pat t :=
  ⟨0, 0, none, Nat.zero_le _, Nat.zero_le _, by simp⟩

def like (text pattern : Text) (escape : Option Char) : Except SelectError Bool :=
  match items escape [] pattern with
  | .error e => .error e
  | .ok pat => .ok (Loop.begin pat text).run

/-! ## What a pattern means -/

def read (escape : Option Char) : Text → Option (List P)
  | [] => some []
  | c :: rest =>
    if some c = escape then
      match rest with
      | n :: rest => (read escape rest).map (.ch n :: ·)
      | [] => none
    else (read escape rest).map ((if c = '%' then .any else if c = '_' then .one else .ch c) :: ·)

/-- A text can be split into pieces that match the items in order. -/
def Matches : List P → Text → Prop
  | [], t => t = []
  | .any :: p, t => ∃ n, Matches p (t.drop n)
  | x :: p, c :: t => x.fits c = true ∧ Matches p t
  | _ :: _, [] => False

theorem matches_cons {x : P} {p : List P} {c : Char} {t : Text} (hx : x ≠ .any) :
    Matches (x :: p) (c :: t) ↔ x.fits c = true ∧ Matches p t := by
  cases x <;> simp_all [Matches]

theorem matches_nil {p : List P} : Matches p [] ↔ p.all (· = .any) = true := by
  induction p with
  | nil => simp [Matches]
  | cons x p ih => cases x <;> simp_all [Matches]

def Fit (pre : List P) (t : Text) : Prop := Forall₂ (fun x c => x.fits c = true) pre t

theorem Fit.any_notMem {pre : List P} {t : Text} (h : Fit pre t) : P.any ∉ pre := by
  induction h with
  | nil => exact not_mem_nil
  | cons hx _ ih =>
    rw [mem_cons, not_or]
    refine ⟨fun hany => ?_, ih⟩
    subst hany
    cases hx

theorem matches_append {pre : List P} (hpre : .any ∉ pre) (rest : List P) (t : Text) :
    Matches (pre ++ rest) t ↔
      pre.length ≤ t.length ∧ Fit pre (t.take pre.length) ∧ Matches rest (t.drop pre.length) := by
  induction pre generalizing t with
  | nil => simp [Fit]
  | cons x pre ih =>
    rw [mem_cons, not_or] at hpre
    cases t with
    | nil => cases x <;> simp_all [Matches]
    | cons c t =>
      rw [cons_append, matches_cons (Ne.symm hpre.1), ih hpre.2]
      simp [Fit, and_left_comm, and_assoc]

section Loop

variable {p : List P} {t : Text} {n : Nat}

theorem matches_iff (hn : Fit (p.take n) (t.take n)) (hp : n ≤ p.length) (s : Text) :
    Matches p s ↔ n ≤ s.length ∧ Fit (p.take n) (s.take n) ∧ Matches (p.drop n) (s.drop n) := by
  have h := matches_append hn.any_notMem (p.drop n) s
  rwa [take_append_drop, length_take, Nat.min_eq_left hp] at h

theorem not_matches {c : Char} (hn : Fit (p.take n) (t.take n)) (hp : n ≤ p.length) (hc : t[n]? = some c)
    (hfit : ¬ p[n]?.any (·.fits c) = true) (hx : p[n]? ≠ some .any) : ¬ Matches p t := by
  intro h
  have hrest := ((matches_iff hn hp t).1 h).2.2
  obtain ⟨ht, rfl⟩ := List.getElem?_eq_some_iff.1 hc
  rw [drop_eq_getElem_cons ht] at hrest
  cases hi : p[n]? with
  | none =>
    rw [drop_eq_nil_of_le (getElem?_eq_none_iff.1 hi)] at hrest
    exact cons_ne_nil _ _ hrest
  | some x =>
    obtain ⟨hlt, rfl⟩ := List.getElem?_eq_some_iff.1 hi
    rw [drop_eq_getElem_cons hlt, matches_cons fun h => hx (hi.trans (congrArg some h))] at hrest
    exact hfit (by simp [hi, hrest.1])

theorem matches_cond {starred : Bool} :
    Matches (cond starred [.any] [] ++ p) t ↔ ∃ i, (starred = true ∨ i = 0) ∧ Matches p (t.drop i) := by
  cases starred <;> simp [Matches]

theorem end_iff (starred : Bool) (hn : Fit (p.take n) (t.take n)) (hp : n ≤ p.length) (ht : t.length = n) :
    (p.drop n).all (· = .any) = true ↔ Matches (cond starred [.any] [] ++ p) t := by
  rw [← matches_nil, matches_cond]
  constructor
  · exact fun h => ⟨0, .inr rfl, (matches_iff hn hp _).2
      ⟨ht.ge, hn, by rwa [drop_zero, drop_eq_nil_of_le ht.le]⟩⟩
  · rintro ⟨i, -, h⟩
    have h := ((matches_iff hn hp _).1 h).2.2
    have hdrop : t.drop (i + n) = [] := drop_eq_nil_of_le (by omega)
    rwa [drop_drop, hdrop] at h

theorem star_iff (starred : Bool) (hn : Fit (p.take n) (t.take n)) (hp : n ≤ p.length) (ht : n ≤ t.length)
    (hx : p[n]? = some .any) :
    Matches (.any :: p.drop (n + 1)) (t.drop n) ↔ Matches (cond starred [.any] [] ++ p) t := by
  obtain ⟨hlt, hany⟩ := List.getElem?_eq_some_iff.1 hx
  have hdrop : p.drop n = .any :: p.drop (n + 1) := by rw [drop_eq_getElem_cons hlt, hany]
  rw [matches_cond]
  constructor
  · rintro ⟨i, h⟩
    refine ⟨0, .inr rfl, (matches_iff hn hp _).2 ⟨ht, hn, ?_⟩⟩
    rw [hdrop]
    exact ⟨i, h⟩
  · rintro ⟨i, -, h⟩
    have h := ((matches_iff hn hp _).1 h).2.2
    rw [hdrop] at h
    obtain ⟨k, h⟩ := h
    refine ⟨i + k, ?_⟩
    rw [drop_drop, drop_drop] at h
    rwa [drop_drop, Nat.add_left_comm]

theorem back_iff (h : ¬ Matches p t) : Matches (.any :: p) t.tail ↔ Matches (.any :: p) t := by
  constructor
  · rintro ⟨i, h⟩
    exact ⟨i + 1, by rwa [← drop_tail]⟩
  · rintro ⟨i, hi⟩
    cases i with
    | zero => exact absurd hi h
    | succ i => exact ⟨i, by rwa [drop_tail]⟩

def Loop.itemsFrom {pat : List P} (s : Loop pat t) : Nat := s.star.elim 0 (·.1 + 1)

/-- The text from where the last `%` was met. -/
def Loop.textFrom {pat : List P} (s : Loop pat t) : Nat := s.star.elim 0 (·.2)

theorem Loop.not_matches {pat : List P} (s : Loop pat t) (ht : s.ti < t.length)
    (hc : ¬ pat[s.pi]?.any (·.fits t[s.ti]) = true) (hx : pat[s.pi]? ≠ some .any)
    (hpi : s.pi = s.itemsFrom + n) (hti : s.ti = s.textFrom + n)
    (hn : Fit ((pat.drop s.itemsFrom).take n) ((t.drop s.textFrom).take n)) :
    ¬ Matches (pat.drop s.itemsFrom) (t.drop s.textFrom) := by
  have hp := s.inItems
  refine Like.not_matches (c := t[s.ti]) hn (by rw [length_drop]; omega) ?_ ?_ ?_
  · rw [getElem?_drop, ← hti, getElem?_eq_getElem ht]
  · rwa [getElem?_drop, ← hpi]
  · rwa [getElem?_drop, ← hpi]

/-- Going back to the last `%` is enough: a later start of it leaves less of the text to what comes after. -/
theorem Loop.run_iff {pat : List P} (s : Loop pat t) : ∀ n, s.pi = s.itemsFrom + n → s.ti = s.textFrom + n →
    Fit ((pat.drop s.itemsFrom).take n) ((t.drop s.textFrom).take n) → (s.run = true ↔
      Matches (cond s.star.isSome [.any] [] ++ pat.drop s.itemsFrom) (t.drop s.textFrom)) := by
  induction s using Loop.run.induct with
  | case1 s ht hc ih =>
    intro n hpi hti hn
    rw [Loop.run, dif_pos ht, dif_pos hc]
    obtain ⟨x, hx, hxc⟩ := (Option.any_eq_true _ _).1 hc
    refine ih (n + 1) (congrArg (· + 1) hpi) (congrArg (· + 1) hti) ?_
    have hx' : (pat.drop s.itemsFrom)[n]? = some x := by rw [getElem?_drop, ← hpi, hx]
    have hc' : (t.drop s.textFrom)[n]? = some t[s.ti] := by rw [getElem?_drop, ← hti, getElem?_eq_getElem ht]
    show Fit ((pat.drop s.itemsFrom).take (n + 1)) ((t.drop s.textFrom).take (n + 1))
    rw [take_add_one, take_add_one, hx', hc']
    exact rel_append hn (.cons hxc .nil)
  | case2 s ht hc hx ih =>
    intro n hpi hti hn
    have hp := s.inItems
    rw [Loop.run, dif_pos ht, dif_neg hc, dif_pos hx, ih 0 rfl rfl .nil]
    have hx' : (pat.drop s.itemsFrom)[n]? = some .any := by rw [getElem?_drop, ← hpi, hx]
    have hstar := star_iff s.star.isSome hn (by rw [length_drop]; omega) (by rw [length_drop]; omega) hx'
    rw [drop_drop, drop_drop, ← Nat.add_assoc, ← hpi, ← hti] at hstar
    exact hstar
  | case3 s ht hc hx sp st hs h hp ih =>
    intro n hpi hti hn
    have hnot := s.not_matches ht hc hx hpi hti hn
    have hback := back_iff hnot
    rw [Loop.run, dif_pos ht, dif_neg hc, dif_neg hx]
    simp only [Loop.itemsFrom, Loop.textFrom, hs, Option.elim, tail_drop] at hback ⊢
    split
    · rename_i sp' st' hs'
      cases hs.symm.trans hs'
      exact (ih 0 rfl rfl .nil).trans hback
    · rename_i hs'
      cases hs.symm.trans hs'
  | case4 s ht hc hx hs =>
    intro n hpi hti hn
    have hnot := s.not_matches ht hc hx hpi hti hn
    rw [Loop.run, dif_pos ht, dif_neg hc, dif_neg hx]
    split
    · rename_i hs'
      cases hs.symm.trans hs'
    · simpa [hs] using hnot
  | case5 s ht =>
    intro n hpi hti hn
    have hp := s.inItems
    have hlen := s.inText
    rw [Loop.run, dif_neg ht, ← end_iff s.star.isSome hn (by rw [length_drop]; omega)
      (by rw [length_drop]; omega), drop_drop, hpi]

end Loop

theorem matches_congr {a b : List P} (h : ∀ t, Matches a t ↔ Matches b t) (q : List P) :
    ∀ t, Matches (q ++ a) t ↔ Matches (q ++ b) t := by
  induction q with
  | nil => exact h
  | cons x q ih =>
    intro t
    cases x <;> cases t <;> simp [Matches, ih]

theorem matches_any_any {l : List P} (t : Text) : Matches (.any :: .any :: l) t ↔ Matches (.any :: l) t := by
  constructor
  · rintro ⟨m, n, h⟩
    exact ⟨m + n, by rwa [drop_drop] at h⟩
  · rintro ⟨n, h⟩
    exact ⟨0, n, h⟩

def ReadAs (escape : Option Char) (pat : List P) (s : Text) : Option (List P) → Prop
  | none => ∃ e, items escape pat s = .error e
  | some l => ∃ pat', items escape pat s = .ok pat' ∧ ∀ t, Matches pat' t ↔ Matches (pat ++ l) t

/-- One more item, or a `%` after a `%` left out. -/
theorem ReadAs.cons {escape : Option Char} {pat pat₁ : List P} {s s₁ : Text} {r : Option (List P)} {x : P}
    (h : ReadAs escape pat₁ s₁ r) (hitems : items escape pat s = items escape pat₁ s₁)
    (hsame : ∀ l t, Matches (pat₁ ++ l) t ↔ Matches (pat ++ x :: l) t) :
    ReadAs escape pat s (r.map (x :: ·)) := by
  cases r with
  | none =>
    obtain ⟨e, he⟩ := h
    exact ⟨e, hitems.trans he⟩
  | some l =>
    obtain ⟨pat', hpat, hl⟩ := h
    exact ⟨pat', hitems.trans hpat, fun t => (hl t).trans (hsame l t)⟩

theorem items_read (escape : Option Char) (s : Text) : ∀ pat, ReadAs escape pat s (read escape s) := by
  have hsnoc : ∀ (pat : List P) x l t, Matches (pat ++ [x] ++ l) t ↔ Matches (pat ++ x :: l) t := by simp
  induction s using read.induct escape with
  | case1 => exact fun pat => ⟨pat, rfl, by simp⟩
  | case2 c hc n rest ih =>
    intro pat
    rw [read, if_pos hc]
    exact (ih (pat ++ [.ch n])).cons (by rw [items, if_pos hc]) (hsnoc pat _)
  | case3 c hc =>
    intro pat
    rw [read, if_pos hc]
    exact ⟨_, by rw [items, if_pos hc]⟩
  | case4 c rest hc ih =>
    intro pat
    rw [read.eq_def]
    simp only [if_neg hc]
    by_cases hany : c = '%' ∧ pat.getLast? = some .any
    · obtain ⟨q, rfl⟩ := getLast?_eq_some_iff.1 hany.2
      refine (ih (q ++ [.any])).cons ?_ fun l t => ?_
      · rw [items.eq_def]
        simp only [if_neg hc, if_pos hany.1, if_pos hany.2]
      · simpa [hany.1] using matches_congr (fun t => (matches_any_any t).symm) q t
    · refine (ih (pat ++ [if c = '%' then .any else if c = '_' then .one else .ch c])).cons ?_ (hsnoc pat _)
      rw [items.eq_def]
      simp only [if_neg hc]
      split_ifs <;> simp_all

/-- LIKE is true exactly when the text splits into pieces that match the items in order, and an error exactly
when the pattern ends in an escape character that is not escaped. -/
theorem like_iff (text pattern : Text) (escape : Option Char) : match like text pattern escape with
    | .ok b => ∃ l, read escape pattern = some l ∧ (b = true ↔ Matches l text)
    | .error _ => read escape pattern = none := by
  have h := items_read escape pattern []
  unfold like
  cases hl : read escape pattern with
  | none =>
    rw [hl] at h
    obtain ⟨e, he⟩ := h
    rw [he]
  | some l =>
    rw [hl] at h
    obtain ⟨pat, hpat, hmatches⟩ := h
    rw [hpat]
    exact ⟨l, rfl, ((Loop.begin pat text).run_iff 0 rfl rfl .nil).trans (hmatches text)⟩

end IoLake.Gateway.Like
