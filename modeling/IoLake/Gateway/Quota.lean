import IoLake.Lib.Steps

/-!
# Quotas

A write is admitted against the usage of the last report and what was admitted since.  A part's bytes are
admitted when it is uploaded, and a report, which counts objects, drops what was admitted before it.
-/

namespace IoLake.Gateway.Quota

open List Function Steps

/-! ## Accounts -/

/-- Usage and limits; no limit is 0. -/
structure Account where
  bytes : Nat := 0
  objects : Nat := 0
  quotaBytes : Nat := 0
  quotaObjects : Nat := 0
deriving DecidableEq, Repr

def Account.limited (a : Account) : Bool := decide (0 < a.quotaBytes) || decide (0 < a.quotaObjects)

structure Limits where
  buckets : String → Option (String × Option Account) := fun _ => none
  tenants : String → Option Account := fun _ => none

structure Admitted where
  time : Nat
  bucket : String
  tenant : String
  bytes : Nat
  objects : Nat
deriving DecidableEq, Repr

structure BucketUsageRow where
  bucket : String
  tenant : String := ""
  logicalBytes : Nat := 0
  noncurrentBytes : Nat := 0
  objects : Nat := 0
  noncurrentVersions : Nat := 0
  quotaBytes : Nat := 0
  quotaObjects : Nat := 0
deriving DecidableEq, Repr

structure TenantUsageRow where
  tenant : String
  quotaBytes : Nat := 0
  quotaObjects : Nat := 0
deriving DecidableEq, Repr

structure UsageReport where
  buckets : List BucketUsageRow
  tenants : List TenantUsageRow := []
deriving DecidableEq, Repr

def BucketUsageRow.account (r : BucketUsageRow) : Account :=
  ⟨r.logicalBytes + r.noncurrentBytes, r.objects + r.noncurrentVersions, r.quotaBytes, r.quotaObjects⟩

def UsageReport.limits (report : UsageReport) : Limits where
  buckets b := (report.buckets.reverse.find? (·.bucket = b)).map fun r =>
    (r.tenant, if r.account.limited then some r.account else none)
  -- of a tenant's rows the last limited one is kept
  tenants t :=
    let own := report.buckets.filter (·.tenant = t)
    let accounts := (report.tenants.filter (·.tenant = t)).map fun r =>
      (⟨(own.map (·.account.bytes)).sum, (own.map (·.account.objects)).sum, r.quotaBytes,
        r.quotaObjects⟩ : Account)
    accounts.reverse.find? Account.limited

inductive Exceeded
  | bucketBytes
  | bucketObjects
  | tenantBytes
  | tenantObjects
deriving DecidableEq, Repr

def total (size : Admitted → Nat) (admitted : List Admitted) : Nat := (admitted.map size).sum

def overQuota (account : Account) (since : List Admitted) (bytes objects : Nat)
    (inBytes inObjects : Exceeded) : Option Exceeded :=
  if 0 < account.quotaBytes ∧ account.quotaBytes < account.bytes + total (·.bytes) since + bytes then
    some inBytes
  else if 0 < account.quotaObjects ∧ 0 < objects ∧
      account.quotaObjects < account.objects + total (·.objects) since + objects then some inObjects
  else none

/-- `admit`: what is admitted afterwards. -/
def admitWrite (limits : Limits) (admitted : List Admitted) (now : Nat) (bucket : String)
    (bytes objects : Nat) : Except Exceeded (List Admitted) :=
  match limits.buckets bucket with
  | none => .ok admitted
  | some (tenant, account) =>
    if account.isNone && (limits.tenants tenant).isNone then .ok admitted
    else
      match (account.bind fun a =>
          overQuota a (admitted.filter (·.bucket = bucket)) bytes objects .bucketBytes .bucketObjects).or
        ((limits.tenants tenant).bind fun a =>
          overQuota a (admitted.filter (·.tenant = tenant)) bytes objects .tenantBytes .tenantObjects) with
      | some e => .error e
      | none => .ok (admitted ++ [⟨now, bucket, tenant, bytes, objects⟩])

/-! ## Requests and reports -/

inductive Request
  | put (bucket : String) (size : Nat)
  | part (bucket upload : String) (number size : Nat)
  | complete (bucket upload : String)
deriving DecidableEq, Repr

def Request.bucket : Request → String
  | .put b _ | .part b _ _ _ | .complete b _ => b

def Request.bytes : Request → Nat
  | .put _ n | .part _ _ _ n => n
  | .complete _ _ => 0

/-- An object counts when it is put or its upload completes. -/
def Request.objects : Request → Nat
  | .part _ _ _ _ => 0
  | _ => 1

structure Part where
  bucket : String
  upload : String
  number : Nat
  size : Nat
deriving DecidableEq, Repr

structure World where
  now : Nat := 0
  limits : Limits := {}
  admitted : List Admitted := []
  inFlight : List Request := []
  stored : String → Nat := fun _ => 0
  parts : List Part := []
  gathered : Option (UsageReport × Nat) := none

/-- A request ends, done or failed: a write replaces `replaced` bytes, a completion takes the parts chosen. -/
inductive Event
  | request (r : Request)
  | finish (i : Nat) (ok : Bool) (replaced : Nat) (chosen : List Nat)
  | gather (report : UsageReport)
  | report
  | pass (time : Nat)
deriving DecidableEq, Repr

def Request.done (s : World) (replaced : Nat) (chosen : List Nat) : Request → World
  | .put b n => { s with stored := update s.stored b (s.stored b - replaced + n) }
  | .part b u k n => { s with
      parts := (s.parts.filter fun p => ¬ (p.bucket = b ∧ p.upload = u ∧ p.number = k)) ++ [⟨b, u, k, n⟩] }
  | .complete b u =>
    let own := s.parts.filter fun p => p.bucket = b ∧ p.upload = u
    { s with
      stored := update s.stored b
        (s.stored b - replaced + ((own.filter fun p => chosen.contains p.number).map (·.size)).sum)
      parts := s.parts.filter fun p => ¬ (p.bucket = b ∧ p.upload = u) }

/-- Requests, reports and the objects and parts of the buckets. -/
def step (s : World) : Event → Option World
  | .request r =>
    match admitWrite s.limits s.admitted s.now r.bucket r.bytes r.objects with
    | .error _ => some s
    | .ok admitted => some { s with admitted := admitted, inFlight := s.inFlight ++ [r] }
  | .finish i ok replaced chosen =>
    match s.inFlight[i]? with
    | none => none
    | some r =>
      let s := { s with inFlight := s.inFlight.eraseIdx i }
      some (if ok then r.done s replaced chosen else s)
  | .gather report => if s.inFlight = [] then some { s with gathered := some (report, s.now) } else none
  | .report =>
    match s.gathered with
    | none => none
    | some (report, since) => some { s with
        limits := report.limits
        admitted := s.admitted.filter fun a => decide (since ≤ a.time)
        gathered := none }
  | .pass time => some { s with now := s.now + time }

/-! ## What is counted -/

section Bucket

variable (b : String) (quota : Nat)

def Exact (s : World) : Event → Prop
  | .gather report => (report.buckets.reverse.find? (·.bucket = b)).any
      (fun r => r.account.bytes = s.stored b ∧ r.quotaBytes = quota) = true
  | _ => True

def Quiet (s : World) : Event → Prop
  | .gather _ => ∀ p ∈ s.parts, p.bucket ≠ b
  | _ => True

instance (s : World) (e : Event) : Decidable (Exact b quota s e) := by
  cases e <;> unfold Exact <;> infer_instance

instance (s : World) (e : Event) : Decidable (Quiet b s e) := by
  cases e <;> unfold Quiet <;> infer_instance

def partBytes (parts : List Part) : Nat := ((parts.filter (·.bucket = b)).map (·.size)).sum

/-- What a request brings into the bucket. -/
def Request.into (r : Request) : Nat := if r.bucket = b then r.bytes else 0

/-- Objects, parts and writes on their way. -/
def load (s : World) : Nat := s.stored b + partBytes b s.parts + (s.inFlight.map (Request.into b)).sum

def sinceBytes (admitted : List Admitted) : Nat := total (·.bytes) (admitted.filter (·.bucket = b))

structure Inv (s : World) : Prop where
  within : load b s ≤ quota
  known : ∃ tenant a, s.limits.buckets b = some (tenant, some a) ∧ a.quotaBytes = quota ∧
    load b s ≤ a.bytes + sinceBytes b s.admitted
  gathered : ∀ report since, s.gathered = some (report, since) → since ≤ s.now ∧
    ∃ r, report.buckets.reverse.find? (·.bucket = b) = some r ∧ r.quotaBytes = quota ∧
      load b s ≤ r.account.bytes + sinceBytes b (s.admitted.filter fun a => decide (since ≤ a.time))

end Bucket

section Runs

variable {b : String} {quota : Nat} {s s' : World}

theorem Inv.mono {s' : World} (hi : Inv b quota s) (hload : load b s' ≤ load b s)
    (hlimits : s'.limits = s.limits) (hadmitted : s'.admitted = s.admitted)
    (hgathered : s'.gathered = s.gathered) (hnow : s.now ≤ s'.now) : Inv b quota s' := by
  obtain ⟨tenant, a, ha, hquota, hle⟩ := hi.known
  refine ⟨hload.trans hi.within, ⟨tenant, a, hlimits ▸ ha, hquota, ?_⟩, fun report since hg => ?_⟩
  · rw [hadmitted]
    exact hload.trans hle
  · obtain ⟨hsince, r, hr, hrq, hrle⟩ := hi.gathered report since (hgathered ▸ hg)
    refine ⟨hsince.trans hnow, r, hr, hrq, ?_⟩
    rw [hadmitted]
    exact hload.trans hrle

theorem load_quiet (hparts : ∀ p ∈ s.parts, p.bucket ≠ b) (hflight : s.inFlight = []) :
    load b s = s.stored b := by
  have hnone : s.parts.filter (·.bucket = b) = [] := filter_eq_nil_iff.2 (by simpa using hparts)
  simp [load, hflight, partBytes, hnone]

theorem partBytes_append (x y : List Part) : partBytes b (x ++ y) = partBytes b x + partBytes b y := by
  simp [partBytes]

theorem partBytes_drop (p : Part → Bool) (parts : List Part) :
    partBytes b (parts.filter p) ≤ partBytes b parts := by
  induction parts with
  | nil => simp
  | cons x parts ih =>
    by_cases hp : p x = true <;> by_cases hx : x.bucket = b <;> simp_all [partBytes]
    omega

theorem partBytes_taken (u : String) (chosen : List Nat) (parts : List Part) :
    (((parts.filter fun p => p.bucket = b ∧ p.upload = u).filter fun p =>
      chosen.contains p.number).map (·.size)).sum +
      partBytes b (parts.filter fun p => ¬ (p.bucket = b ∧ p.upload = u)) ≤ partBytes b parts := by
  induction parts with
  | nil => simp
  | cons x parts ih =>
    by_cases hx : x.bucket = b <;> by_cases hu : x.upload = u <;> by_cases hc : chosen.contains x.number <;>
      simp_all [partBytes] <;> omega

theorem load_done (r : Request) (replaced : Nat) (chosen : List Nat) :
    load b (r.done s replaced chosen) ≤ load b s + r.into b := by
  cases r with
  | put b' n =>
    by_cases hb : b' = b
    · have hinto : (Request.put b' n).into b = n := if_pos hb
      subst hb
      simp only [load, Request.done, update_self, hinto]
      omega
    · simp only [load, Request.done, update_of_ne (Ne.symm hb)]
      omega
  | part b' u k n =>
    have hdrop := partBytes_drop (b := b)
      (fun p => decide ¬ (p.bucket = b' ∧ p.upload = u ∧ p.number = k)) s.parts
    have hone : partBytes b [⟨b', u, k, n⟩] = (Request.part b' u k n).into b := by
      by_cases hb : b' = b <;> simp [partBytes, Request.into, Request.bucket, Request.bytes, hb]
    simp only [load, Request.done, partBytes_append, hone]
    omega
  | complete b' u =>
    by_cases hb : b' = b
    · subst hb
      have htaken := partBytes_taken (b := b') u chosen s.parts
      simp only [load, Request.done, update_self]
      omega
    · have hdrop := partBytes_drop (b := b) (fun p => decide ¬ (p.bucket = b' ∧ p.upload = u)) s.parts
      simp only [load, Request.done, update_of_ne (Ne.symm hb)]
      omega

theorem sum_eraseIdx (f : Request → Nat) {requests : List Request} {i : Nat} {r : Request}
    (h : requests[i]? = some r) : ((requests.eraseIdx i).map f).sum + f r = (requests.map f).sum := by
  induction requests generalizing i with
  | nil => simp at h
  | cons x requests ih =>
    cases i with
    | zero =>
      cases h
      simp [Nat.add_comm]
    | succ i =>
      have ih := ih (i := i) (by simpa using h)
      simp only [eraseIdx_cons_succ, map_cons, sum_cons]
      omega

theorem sinceBytes_append (x y : List Admitted) :
    sinceBytes b (x ++ y) = sinceBytes b x + sinceBytes b y := by
  simp [sinceBytes, total]

section Admit

variable {limits : Limits} {admitted admitted' : List Admitted} {now bytes objects : Nat}

theorem admitWrite_within {tenant : String} {a : Account} (hq : 0 < a.quotaBytes)
    (ha : limits.buckets b = some (tenant, some a))
    (h : admitWrite limits admitted now b bytes objects = .ok admitted') :
    admitted' = admitted ++ [⟨now, b, tenant, bytes, objects⟩] ∧
      a.bytes + sinceBytes b admitted + bytes ≤ a.quotaBytes := by
  simp only [admitWrite, ha, Option.isNone_some, Bool.false_and, Bool.false_eq_true, if_false,
    Option.bind_some] at h
  split at h
  · cases h
  · rename_i hnone
    cases h
    refine ⟨rfl, ?_⟩
    have hown := (Option.or_eq_none_iff.1 hnone).1
    unfold overQuota at hown
    split at hown
    · cases hown
    · rename_i hover
      exact not_lt.1 fun hlt => hover ⟨hq, hlt⟩

theorem admitWrite_other {bucket : String} (hb : bucket ≠ b)
    (h : admitWrite limits admitted now bucket bytes objects = .ok admitted') (q : Admitted → Bool) :
    sinceBytes b (admitted'.filter q) = sinceBytes b (admitted.filter q) := by
  have hcases : admitted' = admitted ∨
      ∃ tenant, admitted' = admitted ++ [⟨now, bucket, tenant, bytes, objects⟩] := by
    unfold admitWrite at h
    split at h
    · cases h
      exact .inl rfl
    · split at h
      · cases h
        exact .inl rfl
      · split at h
        · cases h
        · cases h
          exact .inr ⟨_, rfl⟩
  rcases hcases with rfl | ⟨tenant, rfl⟩
  · rfl
  · rw [filter_append, sinceBytes_append]
    cases hx : q ⟨now, bucket, tenant, bytes, objects⟩ <;> simp [hx, sinceBytes, total, hb]

end Admit

theorem Inv.step {e : Event} (hq : 0 < quota) (hi : Inv b quota s) (hexact : Exact b quota s e)
    (hquiet : Quiet b s e) (h : step s e = some s') : Inv b quota s' := by
  obtain ⟨tenant, a, ha, hquota, hle⟩ := hi.known
  cases e with
  | request r =>
    simp only [Quota.step] at h
    split at h
    · cases h
      exact hi
    · rename_i admitted hok
      cases h
      have hload : load b { s with admitted := admitted, inFlight := s.inFlight ++ [r] } =
          load b s + r.into b := by
        simp [load, Nat.add_assoc]
      by_cases hb : r.bucket = b
      · rw [hb] at hok
        have hinto : r.into b = r.bytes := if_pos hb
        obtain ⟨rfl, hin⟩ := admitWrite_within (hquota ▸ hq) ha hok
        have hsince : ∀ since ≤ s.now, sinceBytes b
            ([(⟨s.now, b, tenant, r.bytes, r.objects⟩ : Admitted)].filter fun a =>
              decide (since ≤ a.time)) = r.bytes := by
          intro since h
          simp [sinceBytes, total, h]
        refine ⟨by omega, ⟨tenant, a, ha, hquota, ?_⟩, fun report since hg => ?_⟩
        · have hnew := hsince 0 (Nat.zero_le _)
          simp only [Nat.zero_le, decide_true, filter_true] at hnew
          rw [hload, sinceBytes_append, hnew]
          omega
        · obtain ⟨hs, x, hx, hxq, hxle⟩ := hi.gathered report since hg
          refine ⟨hs, x, hx, hxq, ?_⟩
          rw [hload, filter_append, sinceBytes_append, hsince since hs]
          omega
      · have hinto : r.into b = 0 := if_neg hb
        have hsame := admitWrite_other hb hok
        refine ⟨by rw [hload, hinto]; exact hi.within, ⟨tenant, a, ha, hquota, ?_⟩, fun report since hg => ?_⟩
        · have hall := hsame fun _ => true
          rw [filter_true, filter_true] at hall
          rw [hload, hinto, hall]
          exact hle
        · obtain ⟨hs, x, hx, hxq, hxle⟩ := hi.gathered report since hg
          refine ⟨hs, x, hx, hxq, ?_⟩
          rw [hload, hinto, hsame]
          exact hxle
  | finish i ok replaced chosen =>
    simp only [Quota.step] at h
    split at h
    · cases h
    · rename_i r hr
      have herase := sum_eraseIdx (Request.into b) hr
      have hdone := load_done (b := b) (s := { s with inFlight := s.inFlight.eraseIdx i }) r replaced chosen
      have hload : load b { s with inFlight := s.inFlight.eraseIdx i } + r.into b = load b s := by
        simp only [load]
        omega
      cases h
      cases ok with
      | true =>
        cases r <;> exact hi.mono (hdone.trans hload.le) rfl rfl rfl le_rfl
      | false => exact hi.mono ((Nat.le_add_right _ _).trans hload.le) rfl rfl rfl le_rfl
  | gather report =>
    simp only [Quota.step] at h
    split at h
    · rename_i hflight
      cases h
      obtain ⟨r, hr, hrow⟩ := (Option.any_eq_true _ _).1 hexact
      obtain ⟨hbytes, hrq⟩ := decide_eq_true_iff.1 hrow
      refine ⟨hi.within, ⟨tenant, a, ha, hquota, hle⟩, fun report' since hg => ?_⟩
      cases hg
      refine ⟨le_rfl, r, hr, hrq, ?_⟩
      have hload := load_quiet hquiet hflight
      simp only [load, hbytes] at hload ⊢
      omega
    · cases h
  | report =>
    simp only [Quota.step] at h
    split at h
    · cases h
    · rename_i report since hg
      cases h
      obtain ⟨-, r, hr, hrq, hrle⟩ := hi.gathered report since hg
      have hlimited : r.account.limited = true := by simp [Account.limited, BucketUsageRow.account, hrq, hq]
      exact ⟨hi.within, ⟨r.tenant, r.account, by simp [UsageReport.limits, hr, hlimited], hrq, hrle⟩, nofun⟩
  | pass time =>
    cases h
    exact hi.mono le_rfl rfl rfl rfl (Nat.le_add_right _ _)

/-- **A bucket's objects stay within its quota** in every run in which reports are exact, and none is gathered
while an unfinished upload into the bucket has parts. -/
theorem within_quota (b : String) (quota : Nat) (hq : 0 < quota) (s₀ s : World) (report : UsageReport)
    (hlimits : s₀.limits = report.limits) (hexact : Exact b quota s₀ (.gather report))
    (hle : s₀.stored b ≤ quota) (hparts : ∀ p ∈ s₀.parts, p.bucket ≠ b) (hflight : s₀.inFlight = [])
    (hgathered : s₀.gathered = none)
    (events : List Event) (hw : Along Quota.step (fun s e => Exact b quota s e ∧ Quiet b s e) s₀ events)
    (h : run Quota.step s₀ events = some s) : s.stored b ≤ quota := by
  obtain ⟨r, hr, hrow⟩ := (Option.any_eq_true _ _).1 hexact
  obtain ⟨hbytes, hrq⟩ := decide_eq_true_iff.1 hrow
  have hlimited : r.account.limited = true := by simp [Account.limited, BucketUsageRow.account, hrq, hq]
  have hload := load_quiet hparts hflight
  have hinit : Inv b quota s₀ := ⟨hload ▸ hle,
    ⟨r.tenant, r.account, by simp [hlimits, UsageReport.limits, hr, hlimited], hrq, by omega⟩,
    by simp [hgathered]⟩
  have hend := (run_invariant_along (I := Inv b quota)
    (fun _ _ _ hi hw hs => hi.step hq hw.1 hw.2 hs) events s₀ s hinit hw h).within
  simp only [load] at hend
  omega

end Runs

def emptyReport : UsageReport := ⟨[{ bucket := "b", quotaBytes := 100 }], []⟩

def reported : World := { limits := emptyReport.limits }

def partOf (upload : String) : List Event := [.request (.part "b" upload 1 60), .finish 0 true 0 []]

def completion (upload : String) : List Event := [.request (.complete "b" upload), .finish 0 true 0 [1]]

def reportTaken : List Event := [.pass 1, .gather emptyReport, .report]

/-- **Twice 60 bytes in a bucket for 100**: the first part is forgotten with the report. -/
theorem quota_passed :
    let events := partOf "u" ++ reportTaken ++ partOf "v" ++ completion "u" ++ completion "v"
    Along step (Exact "b" 100) reported events ∧
      (run step reported events).map (·.stored "b") = some 120 := by
  decide +kernel

theorem one_upload_within_quota :
    ∃ s, run step reported (reportTaken ++ partOf "u" ++ completion "u") = some s ∧
    s.stored "b" = 60 ∧ s.stored "b" ≤ 100 := by
  obtain ⟨s, hs, hstored⟩ : ∃ s, run step reported (reportTaken ++ partOf "u" ++ completion "u") = some s ∧
      s.stored "b" = 60 := Option.map_eq_some_iff.1 (by decide +kernel)
  exact ⟨s, hs, hstored, within_quota "b" 100 (by decide) reported s emptyReport rfl (by decide +kernel)
    (by decide) (by decide) rfl rfl _ (by decide +kernel) hs⟩

end IoLake.Gateway.Quota
