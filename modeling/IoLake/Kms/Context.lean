import IoLake.Lib.OrdMap

/-!
# The context of a wrapped data key

A data key is sealed with an encryption context, a map of texts, as associated data.  The pairs are written in
the order of their keys, and nothing in them is escaped.  AES-GCM is a parameter; what is assumed of it at the
wrapped key is `Aead.Binds`.

* `unwrap_wrap` — a wrapped key is accepted under exactly the contexts with its associated data;
* `opens_only_under_its_context_iff` — its own context alone has that data only where it is empty or one pair
  with no `=` in it.
-/

namespace IoLake.Kms

open List hiding Vector

abbrev Text := List Char

abbrev Context := OrdMap Text Text

def canonicalContextAad (context : Context) : ByteArray :=
  context.entries.foldl (fun out p => out ++ (String.ofList p.1).toByteArray ++ "=".toByteArray ++
    (String.ofList p.2).toByteArray ++ "\x1f".toByteArray) .empty

/-- AES-256-GCM: a message sealed under a key, a nonce and associated data, with its tag; and what opening it
gives. -/
structure Aead where
  encrypt : Vector UInt8 32 → List UInt8 → ByteArray → List UInt8 → List UInt8
  decrypt : Vector UInt8 32 → List UInt8 → ByteArray → List UInt8 → Option (List UInt8)

/-- What is assumed of the cipher at one sealed message: it has a tag of 16 bytes, opens under the associated
data it was sealed with, and is rejected under any other. -/
structure Aead.Binds (aead : Aead) (key : Vector UInt8 32) (nonce : List UInt8) (aad : ByteArray)
    (msg : List UInt8) : Prop where
  length : (aead.encrypt key nonce aad msg).length = msg.length + 16
  opens : aead.decrypt key nonce aad (aead.encrypt key nonce aad msg) = some msg
  rejects : ∀ other, other ≠ aad → aead.decrypt key nonce other (aead.encrypt key nonce aad msg) = none

inductive KmsError
  | invalidWrap (message : String)
deriving DecidableEq, Repr

variable (aead : Aead) (kek : Vector UInt8 32) (dek : Vector UInt8 32) (nonce : Vector UInt8 12)

/-- The nonce, drawn at random, and the box. -/
def wrapDekWithContext (context : Context) : List UInt8 :=
  nonce.toList ++ aead.encrypt kek nonce.toList (canonicalContextAad context) dek.toList

def unwrapDekWithContext (wrapped : List UInt8) (context : Context) : Except KmsError (List UInt8) :=
  if wrapped.length ≠ 60 then
    .error (.invalidWrap ("wrapped DEK length " ++ toString wrapped.length ++ " != expected 60"))
  else match aead.decrypt kek (wrapped.take 12) (canonicalContextAad context) (wrapped.drop 12) with
    | none => .error (.invalidWrap "aead::Error")
    | some pt =>
      if pt.length ≠ 32 then
        .error (.invalidWrap ("unwrapped DEK length " ++ toString pt.length ++ " != 32"))
      else .ok pt

variable {aead kek dek nonce}

theorem unwrap_wrap {c c' : Context}
    (haead : aead.Binds kek nonce.toList (canonicalContextAad c) dek.toList) :
    unwrapDekWithContext aead kek (wrapDekWithContext aead kek dek nonce c) c' = .ok dek.toList ↔
      canonicalContextAad c = canonicalContextAad c' := by
  have hlength : (wrapDekWithContext aead kek dek nonce c).length = 60 := by
    simp [wrapDekWithContext, haead.length]
  have htake : (wrapDekWithContext aead kek dek nonce c).take 12 = nonce.toList :=
    take_left' (by simp)
  have hdrop : (wrapDekWithContext aead kek dek nonce c).drop 12 =
      aead.encrypt kek nonce.toList (canonicalContextAad c) dek.toList := drop_left' (by simp)
  simp only [unwrapDekWithContext, hlength, htake, hdrop, ne_eq, not_true, if_false]
  by_cases h : canonicalContextAad c = canonicalContextAad c'
  · simp [← h, haead.opens]
  · simp [haead.rejects _ (Ne.symm h), h]

/-! ## The associated data as text -/

def contextText (l : List (Text × Text)) : Text :=
  l.flatMap fun p => p.1 ++ '=' :: (p.2 ++ ['\x1f'])

theorem aad_eq (c : Context) :
    canonicalContextAad c = (String.ofList (contextText c.entries)).toByteArray := by
  have hfold : ∀ (l : List (Text × Text)) (s : Text), l.foldl (fun out p => out ++
      (String.ofList p.1).toByteArray ++ "=".toByteArray ++ (String.ofList p.2).toByteArray ++
        "\x1f".toByteArray) (String.ofList s).toByteArray =
      (String.ofList (s ++ contextText l)).toByteArray := by
    intro l
    induction l with
    | nil => simp [contextText]
    | cons p l ih =>
      intro s
      have hnext : (String.ofList s).toByteArray ++ (String.ofList p.1).toByteArray ++ "=".toByteArray ++
          (String.ofList p.2).toByteArray ++ "\x1f".toByteArray =
          (String.ofList (s ++ (p.1 ++ '=' :: (p.2 ++ ['\x1f'])))).toByteArray := by
        rw [show "=" = String.ofList ['='] from rfl, show "\x1f" = String.ofList ['\x1f'] from rfl]
        simp only [← String.toByteArray_append, ← String.ofList_append]
        simp
      rw [foldl_cons, hnext, ih]
      simp [contextText]
  simpa [canonicalContextAad] using hfold c.entries []

theorem aad_inj {c c' : Context} :
    canonicalContextAad c = canonicalContextAad c' ↔ contextText c.entries = contextText c'.entries := by
  rw [aad_eq, aad_eq, String.toByteArray_inj, String.ofList_inj]

theorem context_ext {c c' : Context} (h : c.entries = c'.entries) : c = c' := by
  cases c
  cases c'
  simp_all

def single (k v : Text) : Context := ⟨[(k, v)], pairwise_singleton _ _⟩

theorem exists_value (l : List (Text × Text)) :
    ∀ v : Text, ∃ w, v ++ '\x1f' :: contextText l = w ++ ['\x1f'] := by
  induction l with
  | nil => exact fun v => ⟨v, rfl⟩
  | cons p l ih =>
    intro v
    obtain ⟨w, hw⟩ := ih (v ++ '\x1f' :: (p.1 ++ '=' :: p.2))
    exact ⟨w, by simpa [contextText] using hw⟩

theorem length_le_count (l : List (Text × Text)) : l.length ≤ (contextText l).count '=' := by
  induction l with
  | nil => simp
  | cons p l ih =>
    simp only [contextText, flatMap_cons, count_append, count_cons_self, length_cons] at ih ⊢
    omega

/-- A wrapped key is accepted under its own context only, exactly when that is empty or one pair with no `=`
in its key and value. -/
theorem opens_only_under_its_context_iff (c : Context)
    (haead : aead.Binds kek nonce.toList (canonicalContextAad c) dek.toList) :
    (∀ c', unwrapDekWithContext aead kek (wrapDekWithContext aead kek dek nonce c) c' = .ok dek.toList →
        c = c') ↔
      c.entries = [] ∨ ∃ k v, c.entries = [(k, v)] ∧ '=' ∉ k ∧ '=' ∉ v := by
  simp only [unwrap_wrap haead, aad_inj]
  constructor
  · intro h
    cases hc : c.entries with
    | nil => exact .inl rfl
    | cons p rest =>
      obtain ⟨k, v⟩ := p
      have hone : ∀ k' v', contextText ((k, v) :: rest) = contextText [(k', v')] →
          k = k' ∧ v = v' ∧ rest = [] := by
        intro k' v' htext
        have heq := congrArg OrdMap.entries (h (single k' v') (hc ▸ htext))
        rw [hc] at heq
        simpa [single, and_assoc] using heq
      obtain ⟨w, hw⟩ := exists_value rest v
      obtain ⟨-, -, rfl⟩ := hone k w (by simpa [contextText] using hw)
      refine .inr ⟨k, v, rfl, fun hk => ?_, fun hv => ?_⟩
      · obtain ⟨k₁, k₂, rfl⟩ := append_of_mem hk
        have hsame := congrArg length (hone k₁ (k₂ ++ '=' :: v) (by simp [contextText])).1
        simp at hsame
      · obtain ⟨v₁, v₂, rfl⟩ := append_of_mem hv
        have hsame := congrArg length (hone (k ++ '=' :: v₁) v₂ (by simp [contextText])).1
        simp at hsame
  · rintro (hc | ⟨k, v, hc, hk, hv⟩) c' htext
    · refine context_ext ?_
      rw [hc] at htext ⊢
      cases hc' : c'.entries with
      | nil => rfl
      | cons p rest => simp [hc', contextText] at htext
    · have hcount : (contextText c'.entries).count '=' = 1 := by
        rw [← htext, hc]
        simp [contextText, count_eq_zero.2 hk, count_eq_zero.2 hv]
      refine context_ext ?_
      have hlength : c'.entries.length ≤ 1 := hcount ▸ length_le_count c'.entries
      match hc' : c'.entries with
      | [] => simp [hc', contextText] at hcount
      | [(k', v')] =>
        have hvalue : '=' ∉ v ++ ['\x1f'] := by simp [hv]
        rw [hc, hc'] at htext
        simp only [contextText, flatMap_cons, flatMap_nil, append_nil] at htext
        obtain ⟨rfl, -, hsame⟩ := (append_cons_inj_of_notMem hk hvalue).1 htext
        rw [hc, append_cancel_right hsame]
      | p :: q :: rest => simp [hc'] at hlength

def sampleKey : Vector UInt8 32 := .replicate 32 7

def sampleNonce : Vector UInt8 12 := .replicate 12 1

/-- A cipher that opens boxes under the associated data `aad`. -/
def opensUnder (aad : ByteArray) : Aead where
  encrypt _ _ _ msg := msg ++ replicate 16 0
  decrypt _ _ other box := if other = aad then some (box.take (box.length - 16)) else none

theorem opensUnder_binds (key : Vector UInt8 32) (nonce : List UInt8) (aad : ByteArray) (msg : List UInt8) :
    (opensUnder aad).Binds key nonce aad msg :=
  ⟨by simp [opensUnder], by simp [opensUnder], fun _ hother => if_neg hother⟩

theorem plain_pair_opens_alone : ∃ aead : Aead, ∀ c', unwrapDekWithContext aead sampleKey
    (wrapDekWithContext aead sampleKey sampleKey sampleNonce (single ['a'] ['b'])) c' = .ok sampleKey.toList →
      single ['a'] ['b'] = c' :=
  ⟨_, (opens_only_under_its_context_iff _ (opensUnder_binds ..)).2 (.inr ⟨_, _, rfl, by decide, by decide⟩)⟩

/-- A key wrapped for `a` as `b=c` is unwrapped for `a=b` as `c`, whatever cipher binds the data. -/
theorem opened_under_another :
    (∃ aead : Aead, aead.Binds sampleKey sampleNonce.toList
      (canonicalContextAad (single ['a'] ['b', '=', 'c'])) sampleKey.toList) ∧
    (∀ aead : Aead, aead.Binds sampleKey sampleNonce.toList
        (canonicalContextAad (single ['a'] ['b', '=', 'c'])) sampleKey.toList →
      unwrapDekWithContext aead sampleKey (wrapDekWithContext aead sampleKey sampleKey sampleNonce
        (single ['a'] ['b', '=', 'c'])) (single ['a', '=', 'b'] ['c']) = .ok sampleKey.toList) ∧
    single ['a'] ['b', '=', 'c'] ≠ single ['a', '=', 'b'] ['c'] := by
  refine ⟨⟨_, opensUnder_binds ..⟩, fun aead haead => ?_, by decide +kernel⟩
  exact (unwrap_wrap haead).2 (aad_inj.2 rfl)

end IoLake.Kms
