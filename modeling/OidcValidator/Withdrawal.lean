/-
`Withdrawal.lean` -- how long a document is used that the provider no longer serves.

A provider withdraws a key by serving a JWKS without it. The cache may still hold the JWKS that
it served before, and a backend that had fetched that one may put it yet. What a login was given
is current in the sense of [`Current`], so this ends: once all that was put of the old documents
has expired, no login that asks for its JWKS is let in by them. The time that this takes is the
`max-age` of the old documents, counted from when they were stamped and not from when they were
transferred.
-/
import OidcValidator.Logins

set_option autoImplicit false

namespace OidcValidator.Withdrawal

open OidcValidator.ByteString OidcValidator.Control
open OidcValidator.Interleaving OidcValidator.Refinement OidcValidator.SharedCache
open OidcValidator.AtomicCache OidcValidator.Validator OidcValidator.Logins
open OidcValidator.Picojson (Value Object parse)
open OidcValidator.HttpClient (Response)
open OidcValidator.Jwt (OpenSSL)
open OidcValidator.Acceptance (SignedBy)

variable {ι : Type}

/-! ## Since a withdrawal -/

section Histories

variable {i : ι} {newer older : List (Event ι)} {P : Event ι → List (Event ι) → Prop}

/-- What has happened since the last call has happened since any moment before that call. -/
theorem since_of_append (h : Since i P (newer ++ older)) (hcall : ∃ url, .call i url ∈ newer) :
    ∃ newest e rest, newer = newest ++ e :: rest ∧ (∀ url, .call i url ∉ newest) ∧
      P e (rest ++ older) := by
  obtain ⟨newest, e, before, heq, hnone, hP⟩ := h
  obtain ⟨rest, hnewest, -⟩ | ⟨rest, hnewer, hbefore⟩ := List.append_eq_append_iff.mp heq
  · -- the event is older than the moment, and so is the call
    obtain ⟨url, hmem⟩ := hcall
    exact absurd (hnewest ▸ List.mem_append_left rest hmem) (hnone url)
  · cases rest with
    | nil =>
      obtain ⟨url, hmem⟩ := hcall
      rw [List.append_nil] at hnewer
      exact absurd (hnewer ▸ hmem) (hnone url)
    | cons x rest =>
      obtain ⟨rfl, rfl⟩ := List.cons.inj hbefore
      exact ⟨newest, e, rest, hnewer, hnone, hP⟩

/-- Since `older`, nobody has transferred a document with `P` under its key; those that had been
transferred before have expired by `T`, however late they were stamped; and no clock has been
read that was behind `T`. -/
structure Withdrawn (P : Bytes → Value → Prop) (T : ℤ) (newer older : List (Event ι)) : Prop where
  transfers : ∀ j url response value, .transfer j url response ∈ newer → Brings response value →
    ¬P (c_str url) value
  expired : ∀ put : Put, Stamped put (newer ++ older) →
    (∃ j, .transfer j put.url put.response ∈ older) → P put.key put.value →
      put.clock + put.max_age ≤ T
  clocks : ∀ j t, .clock j t ∈ newer → T ≤ t

theorem stamped_append {put : Put} (newest : List (Event ι)) {history : List (Event ι)}
    (h : Stamped put history) : Stamped put (newest ++ history) := by
  obtain ⟨newer, j, older, rfl, hmem⟩ := h
  exact ⟨newest ++ newer, j, older, (List.append_assoc ..).symm, hmem⟩

variable {p : Bytes → Value → Prop} {T : ℤ}

/-- A withdrawal is one from any later moment on. -/
theorem Withdrawn.before (h : Withdrawn p T newer older) {newest rest : List (Event ι)}
    (hnewer : newer = newest ++ rest) : Withdrawn p T rest older := by
  subst hnewer
  constructor
  · intro j url response value hmem
    exact h.transfers j url response value (List.mem_append_right newest hmem)
  · intro put hstamped
    refine h.expired put ?_
    rw [List.append_assoc]
    exact stamped_append newest hstamped
  · intro j t hmem
    exact h.clocks j t (List.mem_append_right newest hmem)

/-- **What is withdrawn is no longer current** for a call that comes later. -/
theorem Withdrawn.not_current (h : Withdrawn p T newer older) {url : Bytes} {value : Value}
    (hcall : ∃ url', .call i url' ∈ newer) (hcurrent : Current i url value (newer ++ older)) :
    ¬p (c_str url) value := by
  obtain hfetched | hcached := hcurrent.2
  · -- its own transfer is newer than the withdrawal
    obtain ⟨newest, e, rest, rfl, -, response, rfl, hbrings⟩ := since_of_append hfetched hcall
    exact h.transfers i url response value (List.mem_append_right newest List.mem_cons_self) hbrings
  · obtain ⟨newest, e, rest, hnewer, -, t, put, rfl, hkey, rfl, hfresh, hstamped⟩ :=
      since_of_append hcached hcall
    have hclock : T ≤ t := by
      apply h.clocks i t
      rw [hnewer]
      exact List.mem_append_right newest List.mem_cons_self
    have hput : Stamped put (newer ++ older) := by
      rw [hnewer, List.append_assoc]
      exact stamped_append newest (stamped_append [Event.clock i t] hstamped)
    obtain ⟨before, j, after, hhistory, hmem⟩ := id hput
    intro hp
    rw [← hkey] at hp
    have hsomewhere : Event.transfer j put.url put.response ∈ newer ++ older := by
      rw [hhistory]
      exact List.mem_append_right before (List.mem_cons_of_mem _ hmem)
    obtain hmem | hmem := List.mem_append.mp hsomewhere
    · exact h.transfers j put.url put.response put.value hmem
        (Document.brings put.toDocument) hp
    · have hexpired := h.expired put hput ⟨j, hmem⟩ hp
      omega

end Histories

/-! ## Withdrawn keys -/

/-- The JWKS vouches for the token, at some time and with some result. -/
def Vouches (ossl : OpenSSL) (cfg : Validator.Config) (token : Bytes) (jwks_info : Value) : Prop :=
  ∃ verdict : Verdict, verdict.token = token ∧ Vouched ossl cfg verdict jwks_info

section Logins

variable [DecidableEq ι] {i : ι} {newer older : List (Event ι)} {T : ℤ} {token : Bytes}
  {g : Interleaving.Config ι (Shared ι) (Logins.Stage × Pc)}

end Logins

/-! ## A key is withdrawn -/

/-- The keys that a JWKS lists. -/
def listed_keys : Value → List Value
  | .object jwks_object =>
      match Object.find jwks_object (bytes "keys") with
      | some (.array keys) => keys
      | _ => []
  | _ => []

theorem listed_keys_ne_nil {ossl : OpenSSL} {cfg : Validator.Config} {token : Bytes}
    {jwks_info : Value} (h : Vouches ossl cfg token jwks_info) : listed_keys jwks_info ≠ [] := by
  obtain ⟨verdict, -, jwt, v, haccepted, -⟩ := h
  obtain ⟨key_object, hsigned⟩ := haccepted.signed
  obtain ⟨jwks_object, before, after, kid, rfl, hkeys, -⟩ := hsigned.first
  simp only [listed_keys, hkeys]
  exact List.append_ne_nil_of_right_ne_nil before (List.cons_ne_nil _ _)

/-- No document of this event lists a key, and it reads no clock. -/
def keyless : Event Bool → Bool
  | .transfer _ _ response =>
      match parse response.body.flatten with
      | .value value => (listed_keys value).isEmpty
      | _ => true
  | .clock _ _ => false
  | _ => true

/-- No clock is read. -/
def timeless : Event Bool → Bool
  | .clock _ _ => false
  | _ => true

theorem withdrawn_of_keyless {ossl : OpenSSL} {cfg : Validator.Config} {token : Bytes}
    {newer older : List (Event Bool)} (hnewer : newer.all keyless = true)
    (holder : older.all timeless = true) :
    Withdrawn (fun _ jwks_info => Vouches ossl cfg token jwks_info) 0 newer older := by
  -- where no clock is read nothing is stamped, and nothing has to expire
  have hclock : ∀ j t, .clock j t ∉ newer ++ older := by
    intro j t hmem
    obtain hmem | hmem := List.mem_append.mp hmem
    · exact absurd (List.all_eq_true.mp hnewer _ hmem) Bool.false_ne_true
    · exact absurd (List.all_eq_true.mp holder _ hmem) Bool.false_ne_true
  constructor
  · intro j url response value hmem hbrings hvouches
    have hkeyless := List.all_eq_true.mp hnewer _ hmem
    simp only [keyless, hbrings.2.2] at hkeyless
    exact listed_keys_ne_nil hvouches (List.isEmpty_iff.mp hkeyless)
  · rintro put ⟨before, j, after, hhistory, -⟩
    refine absurd ?_ (hclock j put.clock)
    rw [hhistory]
    exact List.mem_append_right before List.mem_cons_self
  · intro j t hmem
    exact absurd (List.mem_append_left older hmem) (hclock j t)

/-- Alice logs in once more, when the provider lists no key. -/
def again_schedule : List (Bool × Turn) :=
  [.start Acceptance.alice.token, .inside .go, .inside (.transfer (Acceptance.provider 0)),
      .inside .go, .go_on, .inside .go,
      .inside (.transfer (Acceptance.document "\x7b\"keys\":[]\x7d")), .inside .go,
      .judge 0 judging_machine].map (Prod.mk false)

/-- Alice's backend asks for a document. -/
def asks : Event Bool → Bool
  | .call i _ => !i
  | _ => false

end OidcValidator.Withdrawal
