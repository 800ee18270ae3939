import Mathlib.Data.List.MinMax
import Mathlib.Tactic.NormNum

/-!
# When an object expires

The lifecycle worker expires a version once it is old enough in milliseconds, or once a date has passed
(`due`); the header of a response announces the first midnight after that many days (`expiry`).
-/

namespace IoLake.Gateway.Lifecycle

open List

structure Rule where
  id : String
  enabled : Bool := true
  keyStart : String := ""
  expirationDays : Nat := 0
  expirationDate : Nat := 0
  noncurrentVersionExpirationDays : Nat := 0
  expiredObjectDeleteMarker : Bool := false
  filterTags : List (String × String) := []
  objectSizeGreaterThan : Nat := 0
  objectSizeLessThan : Nat := 0
  newerNoncurrentVersions : Nat := 0
deriving DecidableEq, Repr

structure Version where
  key : String
  versionId : String := ""
  tags : List (String × String) := []
  size : Nat := 0
  isDeleteMarker : Bool := false
  timeMs : Nat
deriving DecidableEq, Repr

inductive Action
  | expire (rule : String)
  | removeMarker (rule version : String)
  | deleteNoncurrent (rule version : String)
deriving DecidableEq, Repr

def «matches» (rule : Rule) (v : Version) : Bool :=
  rule.keyStart.toList.isPrefixOf v.key.toList &&
    rule.filterTags.all (fun t => v.tags.lookup t.1 = some t.2) &&
    (rule.objectSizeGreaterThan = 0 || decide (rule.objectSizeGreaterThan < v.size)) &&
    (rule.objectSizeLessThan = 0 || decide (v.size < rule.objectSizeLessThan))

/-- A marker has no tags and no size. -/
def matchesMarker (rule : Rule) (key : String) : Bool :=
  rule.keyStart.toList.isPrefixOf key.toList && rule.filterTags.isEmpty &&
    rule.objectSizeGreaterThan = 0 && rule.objectSizeLessThan = 0

def filteredIn (rule : Rule) (v : Version) : Bool :=
  if v.isDeleteMarker then matchesMarker rule v.key else «matches» rule v

section Due

variable (now day : Nat)

def aged (r : Rule) (v : Version) : Bool :=
  decide (0 < r.expirationDays) && decide (r.expirationDays * day ≤ now - v.timeMs)

/-- A date in milliseconds wraps at 64 bits. -/
def expires (v : Version) (r : Rule) : Bool :=
  «matches» r v &&
    (aged now day r v || decide (0 < r.expirationDate) && decide (r.expirationDate * 1000 % 2 ^ 64 ≤ now))

def noncurrent (rule : Rule) (s : Nat × List Action) (p : Version × Version) : Nat × List Action :=
  let (newer, v) := p
  if !filteredIn rule v then s
  else if s.1 < rule.newerNoncurrentVersions then (s.1 + 1, s.2)
  else if decide (rule.noncurrentVersionExpirationDays * day ≤ now - newer.timeMs) &&
      !s.2.any (fun | .deleteNoncurrent _ id => id = v.versionId | _ => false) then
    (s.1, s.2 ++ [.deleteNoncurrent rule.id v.versionId])
  else s

def due (rules : List Rule) (versions : List Version) (versioned : Bool) : List Action :=
  match versions with
  | [] => []
  | current :: older =>
    let enabled := rules.filter (·.enabled)
    let out := if current.isDeleteMarker then
        ((enabled.find? fun r => older.isEmpty && (r.expiredObjectDeleteMarker ||
          versioned && aged now day r current) && matchesMarker r current.key).map
            fun r => Action.removeMarker r.id current.versionId).toList
      else ((enabled.find? (expires now day current)).map fun r => Action.expire r.id).toList
    (enabled.filter fun r => decide (0 < r.noncurrentVersionExpirationDays)).foldl (fun out rule =>
      ((versions.zip older).foldl (noncurrent now day rule) (0, out)).2) out

end Due

def announced (made : Nat) (r : Rule) : Option Nat :=
  if 0 < r.expirationDays then some ((made / 1000 + r.expirationDays * 86400 + 86399) / 86400 * 86400)
  else if 0 < r.expirationDate then some r.expirationDate
  else none

def expiry (rules : List Rule) (object : Version) (made : Nat) : Option (Nat × String) :=
  ((rules.filter fun r => r.enabled && «matches» r object).filterMap fun r =>
    (announced made r).map fun date => (date, r.id)).argmin Prod.fst

/-! ## What is due and what is announced -/

section Announced

variable {rules : List Rule} {v : Version} {now : Nat}

theorem expire_mem_noncurrent {day : Nat} {id : String} (rule : Rule) (ps : List (Version × Version)) :
    ∀ s, Action.expire id ∈ (ps.foldl (noncurrent now day rule) s).2 ↔ Action.expire id ∈ s.2 := by
  induction ps with
  | nil => simp
  | cons p ps ih =>
    intro s
    rw [foldl_cons, ih, noncurrent]
    split
    · rfl
    · split
      · rfl
      · split <;> simp

/-- Noncurrent versions add no expiry. -/
theorem expire_mem_due {day : Nat} {id : String} (older : List Version) (versioned : Bool) :
    Action.expire id ∈ due now day rules (v :: older) versioned ↔ v.isDeleteMarker = false ∧
      ∃ r, (rules.filter (·.enabled)).find? (expires now day v) = some r ∧ r.id = id := by
  have hfold : ∀ (rs : List Rule) out, Action.expire id ∈ rs.foldl (fun out rule =>
      (((v :: older).zip older).foldl (noncurrent now day rule) (0, out)).2) out ↔
        Action.expire id ∈ out := by
    intro rs
    induction rs with
    | nil => simp
    | cons r rs ih =>
      intro out
      rw [foldl_cons, ih, expire_mem_noncurrent]
  simp only [due, hfold]
  cases v.isDeleteMarker <;> simp

/-- A rule's date for a version has passed: its days were over at the last midnight. -/
def Passed (v : Version) (now : Nat) (r : Rule) : Prop :=
  (0 < r.expirationDays ∧ v.timeMs / 1000 + r.expirationDays * 86400 ≤ now / 86400000 * 86400) ∨
    (r.expirationDays = 0 ∧ 0 < r.expirationDate ∧ r.expirationDate * 1000 ≤ now)

theorem passed_iff {r : Rule} :
    Passed v now r ↔ ∃ date, announced v.timeMs r = some date ∧ date * 1000 ≤ now := by
  unfold Passed announced
  by_cases hdays : 0 < r.expirationDays
  · simp only [hdays, if_true, true_and, Option.some.injEq, exists_eq_left']
    omega
  · by_cases hdate : 0 < r.expirationDate
    · simp [hdate, Nat.eq_zero_of_not_pos hdays]
    · simp [hdays, hdate]

theorem expiry_passed_iff : (∃ date rule, expiry rules v v.timeMs = some (date, rule) ∧ date * 1000 ≤ now) ↔
    ∃ r ∈ rules, r.enabled = true ∧ «matches» r v = true ∧ Passed v now r := by
  constructor
  · rintro ⟨date, rule, h, hdate⟩
    obtain ⟨r, hr, hd⟩ := mem_filterMap.1 (argmin_mem h)
    obtain ⟨hmem, hon⟩ := mem_filter.1 hr
    obtain ⟨d, hann, heq⟩ := Option.map_eq_some_iff.1 hd
    cases heq
    rw [Bool.and_eq_true] at hon
    exact ⟨r, hmem, hon.1, hon.2, passed_iff.2 ⟨date, hann, hdate⟩⟩
  · rintro ⟨r, hmem, hon, hfor, hpassed⟩
    obtain ⟨date, hann, hdate⟩ := passed_iff.1 hpassed
    have hin : (date, r.id) ∈ ((rules.filter fun r => r.enabled && «matches» r v).filterMap fun r =>
        (announced v.timeMs r).map fun date => (date, r.id)) :=
      mem_filterMap.2 ⟨r, mem_filter.2 ⟨hmem, by simp [hon, hfor]⟩, by simp [hann]⟩
    cases h : expiry rules v v.timeMs with
    | none =>
      rw [expiry, argmin_eq_none] at h
      simp [h] at hin
    | some e =>
      have hle : e.1 ≤ date := le_of_mem_argmin hin h
      exact ⟨e.1, e.2, rfl, (Nat.mul_le_mul_right 1000 hle).trans hdate⟩

end Announced

/-- An object is expired at or after the date announced exactly when, one of its rules being due, the days of
one were over at the last midnight, or its date has passed. -/
theorem expires_as_announced_iff (rules : List Rule) (v : Version) (older : List Version) (now : Nat)
    (versioned : Bool) :
    ((∃ id, Action.expire id ∈ due now 86400000 rules (v :: older) versioned) →
      ∃ date rule, expiry rules v v.timeMs = some (date, rule) ∧ date * 1000 ≤ now) ↔
    (v.isDeleteMarker = false → (∃ r ∈ rules, r.enabled = true ∧ expires now 86400000 v r = true) →
      ∃ r ∈ rules, r.enabled = true ∧ «matches» r v = true ∧ Passed v now r) := by
  have hdue : (∃ id, Action.expire id ∈ due now 86400000 rules (v :: older) versioned) ↔
      v.isDeleteMarker = false ∧ ∃ r ∈ rules, r.enabled = true ∧ expires now 86400000 v r = true := by
    simp only [expire_mem_due]
    constructor
    · rintro ⟨_, hv, r, hr, -⟩
      have hmem := mem_filter.1 (mem_of_find?_eq_some hr)
      exact ⟨hv, r, hmem.1, hmem.2, find?_some hr⟩
    · rintro ⟨hv, r, hmem, hon, hr⟩
      obtain ⟨r', hr'⟩ := Option.isSome_iff_exists.1
        (find?_isSome.2 ⟨r, mem_filter.2 ⟨hmem, hon⟩, hr⟩)
      exact ⟨r'.id, hv, r', hr', rfl⟩
  rw [hdue, expiry_passed_iff, and_imp]

def noonVersion : Version := { key := "a", timeMs := 129600000 }

/-- **Due half a day early**: after one day, at noon, with the midnight after it announced. -/
theorem expired_before_announced :
    due 216000000 86400000 [{ id := "r", expirationDays := 1 }] [noonVersion] false = [.expire "r"] ∧
    expiry [{ id := "r", expirationDays := 1 }] noonVersion noonVersion.timeMs = some (259200, "r") := by
  decide +kernel

theorem midnight_expired_as_announced : ∃ date rule,
    expiry [{ id := "r", expirationDays := 1 }] noonVersion noonVersion.timeMs = some (date, rule) ∧
      date * 1000 ≤ 259200000 :=
  (expires_as_announced_iff [{ id := "r", expirationDays := 1 }] noonVersion [] 259200000 false).2
    (fun _ _ => ⟨_, mem_singleton_self _, rfl, by decide +kernel, .inl (by decide)⟩) ⟨"r", by decide +kernel⟩

end IoLake.Gateway.Lifecycle
