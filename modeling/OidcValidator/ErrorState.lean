/-
`ErrorState.lean` -- what `validate_token` leaves of PostgreSQL's error state.

Everything in the function that can fail runs under `pg_try`, except the one raw `PG_TRY`
block that copies the identity. The block is fine when it is left off its end. It has
three other ways out, and each leaves something behind: the `return false` for a missing
claim and a C++ exception skip `PG_END_TRY`, so that `PG_exception_stack` goes on
pointing into a frame that is gone; the `return false` of the `PG_CATCH` branch skips
`FlushErrorState`, so that the caught error stays on the error-data stack.
-/
import OidcValidator.Acceptance

set_option autoImplicit false

namespace OidcValidator.ErrorState

open OidcValidator.ByteString OidcValidator.Control OidcValidator.PgUtils
open OidcValidator.Picojson OidcValidator.Jwt OidcValidator.Jwk
open OidcValidator.Validator OidcValidator.Acceptance

/-! ## Before and after -/

/-- Names are handed out once: the current jump buffer and the errors on the stack have
names from before. -/
structure Sound (m : Proc) : Prop where
  buffer : ∀ b, m.exception_stack = some b → b < m.next_buffer
  errors : ∀ e ∈ m.error_data, e.1 < m.next_error

/-- `PG_exception_stack` is what it was, and no error raised in between is left. -/
structure Restored (m m' : Proc) : Prop where
  stack : m'.exception_stack = m.exception_stack
  errors : ∀ e ∈ m'.error_data, e.1 < m.next_error

theorem Sound.restored {m m' : Proc} (hm : Sound m) (h : Kept m m') : Restored m m' :=
  ⟨h.stack, fun e he => hm.errors e (h.errors.subset he)⟩

/-- Something of the block is left behind: its buffer, or an error raised in it. -/
def Spoiled (m m' : Proc) : Prop :=
  m'.exception_stack = some m.next_buffer ∨ ∃ e ∈ m'.error_data, m.next_error ≤ e.1

theorem Spoiled.not_restored {m m₁ m' : Proc} (hm : Sound m) (hk : Kept m m₁)
    (h : Spoiled m₁ m') : ¬ Restored m m' := by
  rintro ⟨hstack, herrors⟩
  rcases h with hleft | ⟨e, he, hle⟩
  · have hlt := hm.buffer m₁.next_buffer (hstack ▸ hleft)
    exact absurd hk.buffers (by omega)
  · have hlt := herrors e he
    exact absurd hk.raised (by omega)

/-! ## The block -/

/-- The block is left off its end: the claim is there, and neither the string nor the copy
of it runs out of memory. -/
structure Falls (cfg : Config) (payload : Object) (m : Proc) : Prop where
  claim : (payload.find cfg.authn_field).isSome
  alloc : ∀ e, m.faults m.ticks ≠ .cpp e
  pstrdup : ∀ msg, m.faults (m.ticks + 1) ≠ .pg msg

/-- What is known of the block by the way it was left. -/
def BlockPost (cfg : Config) (payload : Object) (m : Proc) :
    Outcome CppException (Leave Unit Bool) × Proc → Prop
  | (.ret (.fall _), m') => Falls cfg payload m ∧ Kept m m'
  | (.ret (.ret _), m') => ¬ Falls cfg payload m ∧ Spoiled m m'
  | (.throw _, m') => ¬ Falls cfg payload m ∧ m'.exception_stack = some m.next_buffer
  | _ => True

/-- The `PG_CATCH` branch returns with the error it was entered for. -/
theorem identify_handler_spoils {m : Proc} {n : ℕ} {msg : Option Bytes}
    (h : (n, msg) ∈ m.error_data) :
    match identify_handler m with
    | (.ret (.ret _), m') => (n, msg) ∈ m'.error_data
    | (.ret (.fall _), _) => False
    | (.throw _, _) => False
    | _ => True := by
  unfold identify_handler elog
  rw [bind_apply, bind_apply]
  by_cases hf : ∃ msg', m.faults m.ticks = .pg msg'
  · obtain ⟨msg', hf⟩ := hf
    rw [call_of_pg hf]
    unfold raise
    cases (tick m).exception_stack <;> trivial
  · rw [call_of_not_pg fun msg' heq => hf ⟨msg', heq⟩]
    exact h

/-- The block, when its body raises an `ERROR`. -/
theorem identify_of_jump {cfg : Config} {payload : Object} {m m₁ : Proc} {msg : Option Bytes}
    (hbody : identify_body cfg payload (enter_try m) = (.jump m.next_buffer, m₁))
    (herr : (m.next_error, msg) ∈ m₁.error_data) (hf : ¬ Falls cfg payload m) :
    BlockPost cfg payload m (identify cfg payload m) := by
  unfold identify pg_try_block
  rw [hbody]
  dsimp only
  rw [if_pos rfl]
  have hspoil := identify_handler_spoils (m := restore m.exception_stack m₁) herr
  rcases hh : identify_handler (restore m.exception_stack m₁) with ⟨(_ | r) | e | b | h, m₂⟩ <;>
    rw [hh] at hspoil
  · exact hspoil.elim
  · exact ⟨hf, .inr ⟨_, hspoil, le_rfl⟩⟩
  · exact hspoil.elim
  · trivial
  · trivial

/-- The block, when its body runs out of memory in C++. -/
theorem identify_of_throw {cfg : Config} {payload : Object} {m n : Proc} {e : CppException}
    (hbody : identify_body cfg payload (enter_try m) = (.throw e, n))
    (hstack : n.exception_stack = some m.next_buffer) (hf : ¬ Falls cfg payload m) :
    BlockPost cfg payload m (identify cfg payload m) := by
  unfold identify pg_try_block
  rw [hbody]
  exact ⟨hf, hstack⟩

/-- Both bodies start with an allocation and a call of PostgreSQL, and the block is not left
off its end if either fails. -/
theorem identify_of_rest {cfg : Config} {payload : Object} {m : Proc}
    {k : Unit → Cpp (Leave Unit Bool)}
    (hbody : identify_body cfg payload = Control.alloc >>= fun _ => Control.call >>= k)
    (hrest : (∀ e, m.faults m.ticks ≠ .cpp e) → (∀ msg, m.faults (m.ticks + 1) ≠ .pg msg) →
      identify_body cfg payload (enter_try m) = k () (tick (tick (enter_try m))) →
        BlockPost cfg payload m (identify cfg payload m)) :
    BlockPost cfg payload m (identify cfg payload m) := by
  by_cases hcpp : ∃ e, m.faults m.ticks = .cpp e
  · obtain ⟨e, hcpp⟩ := hcpp
    have halloc : Control.alloc (enter_try m) = (.throw e, tick (enter_try m)) := alloc_of_cpp hcpp
    refine identify_of_throw (e := e) (n := tick (enter_try m)) ?_ rfl fun h => h.alloc e hcpp
    rw [hbody]
    exact bind_of_throw halloc
  push Not at hcpp
  have halloc : Control.alloc (enter_try m) = (.ret (), tick (enter_try m)) :=
    alloc_of_not_cpp hcpp
  by_cases hpg : ∃ msg, m.faults (m.ticks + 1) = .pg msg
  · obtain ⟨msg, hpg⟩ := hpg
    have hcall : Control.call (tick (enter_try m)) = raise msg (tick (tick (enter_try m))) :=
      call_of_pg hpg
    have hjump : identify_body cfg payload (enter_try m)
        = raise msg (tick (tick (enter_try m))) := by
      rw [hbody, bind_of_ret halloc]
      exact bind_of_raise hcall
    -- the `ERROR` goes to the buffer of the block, with its entry on the stack
    exact identify_of_jump hjump List.mem_cons_self fun h => h.pstrdup msg hpg
  · push Not at hpg
    have hcall : Control.call (tick (enter_try m)) = (.ret (), tick (tick (enter_try m))) :=
      call_of_not_pg hpg
    refine hrest hcpp hpg ?_
    rw [hbody, bind_of_ret halloc, bind_of_ret hcall]

/-- The block without the claim never falls through. -/
theorem identify_missing {cfg : Config} {payload : Object} {m : Proc}
    (hv : payload.find cfg.authn_field = none) :
    BlockPost cfg payload m (identify cfg payload m) := by
  have hf : ¬ Falls cfg payload m := fun h => by
    have hclaim := h.claim
    rw [hv] at hclaim
    exact absurd hclaim nofun
  refine identify_of_rest (by unfold identify_body elog; rw [hv]; simp only [bind_assoc]; rfl) ?_
  -- `return false` does not put `PG_exception_stack` back
  intro _ _ hrun
  unfold identify pg_try_block
  rw [hrun]
  exact ⟨hf, .inl rfl⟩

/-- The block with the claim. -/
theorem identify_present {cfg : Config} {payload : Object} {m : Proc} {v : Value}
    (hv : payload.find cfg.authn_field = some v) :
    BlockPost cfg payload m (identify cfg payload m) := by
  refine identify_of_rest (by unfold identify_body; rw [hv]) ?_
  intro hcpp hpg hrun
  have hfalls : Falls cfg payload m := ⟨by rw [hv]; rfl, hcpp, hpg⟩
  unfold identify pg_try_block
  rw [hrun]
  exact ⟨hfalls, ⟨Nat.le_succ _, le_rfl, rfl⟩, rfl, List.suffix_refl _⟩

/-- The block falls through exactly when [`Falls`] says so, and is balanced then; left in any
other way that comes back, it leaves something behind. -/
theorem identify_post (cfg : Config) (payload : Object) (m : Proc) :
    BlockPost cfg payload m (identify cfg payload m) := by
  rcases hv : payload.find cfg.authn_field with _ | v
  · exact identify_missing hv
  · exact identify_present hv

/-! ## The function -/

theorem balanced_verified_token (ossl : OpenSSL) (hash : Bytes → ℕ) (cfg : Config) (now : ℤ)
    (token : Bytes) : Balanced (verified_token ossl hash cfg now token) :=
  Balanced.bind (Balanced.modify _) fun _ => (framed_obtain_token ossl hash cfg now token).balanced

theorem balanced_authorize (cfg : Config) (jwt : DecodedJwt) : Balanced (authorize cfg jwt) := by
  refine Balanced.bind (framed_azure_remark cfg).balanced fun _ => ?_
  refine Balanced.bind (Balanced.modify _) fun _ => ?_
  exact Balanced.bind (framed_log_decision cfg jwt).balanced fun _ => Balanced.pure _

/-- A run that comes back from a balanced part with `report` behind it. -/
theorem restored_of_balanced {m m₁ m' : Proc} {p : Cpp Bool} {r : Bool} (hm : Sound m)
    (hk : Kept m m₁) (hp : Balanced p) (h : try_catch p report m₁ = (.ret r, m')) :
    Restored m m' := by
  have hbal : Balanced (try_catch p report) :=
    Balanced.try_catch hp fun ex => (framed_report ex).balanced
  have hk' := hbal m₁
  rw [h] at hk'
  exact hm.restored (hk.trans hk')

/-- The part behind the block, seen from the block: it restores the state if the block fell
through, and cannot repair it otherwise. -/
theorem restored_after_verification {cfg : Config} {jwt : DecodedJwt} {m m₁ m' : Proc} {r : Bool}
    (hm : Sound m) (hk : Kept m m₁)
    (h : try_catch (after_verification cfg (some jwt)) report m₁ = (.ret r, m')) :
    Restored m m' ↔ Falls cfg jwt.payload_claims m₁ := by
  have hpost := identify_post cfg jwt.payload_claims m₁
  rw [after_verification_some] at h
  -- what is left behind is decided when the block ends
  rcases hid : identify cfg jwt.payload_claims m₁ with ⟨(u | r') | e | b | s, m₂⟩ <;>
    rw [hid] at hpost
  · rw [try_catch_bind_of_ret hid] at h
    exact iff_of_true (restored_of_balanced hm (hk.trans hpost.2) (balanced_authorize cfg jwt) h)
      hpost.1
  · rw [try_catch_bind_of_ret hid] at h
    obtain rfl : m₂ = m' := congrArg Prod.snd h
    exact iff_of_false (hpost.2.not_restored hm hk) hpost.1
  · rw [try_catch_bind_of_throw hid] at h
    have hk' := (framed_report e).balanced m₂
    rw [h] at hk'
    have hspoiled : Spoiled m₁ m' := .inl (hk'.stack.trans hpost.2)
    exact iff_of_false (hspoiled.not_restored hm hk) hpost.1
  · rw [try_catch_bind_of_jump hid] at h
    exact absurd (congrArg Prod.fst h) nofun
  · rw [try_catch_bind_of_stop hid] at h
    exact absurd (congrArg Prod.fst h) nofun

/-- **When the error state is restored.** When `validate_token` comes back,
`PG_exception_stack` is what it was and no error of the call is left exactly if the
`PG_TRY` block, should the token get that far, is left off its end. -/
theorem validate_token_restores_iff (ossl : OpenSSL) (hash : Bytes → ℕ) (cfg : Config) (now : ℤ)
    (token : Bytes) {m m' : Proc} {r : Bool} (hm : Sound m)
    (h : validate_token ossl hash cfg now token m = (.ret r, m')) :
    Restored m m' ↔ ∀ jwt m₁, verified_token ossl hash cfg now token m = (.ret (some jwt), m₁) →
      Falls cfg jwt.payload_claims m₁ := by
  have hbal := balanced_verified_token ossl hash cfg now token m
  unfold validate_token at h
  rcases hv : verified_token ossl hash cfg now token m with ⟨(_ | jwt) | e | b | s, m₁⟩ <;>
    rw [hv] at hbal
  · -- an early `return false`
    rw [try_catch_bind_of_ret hv] at h
    obtain rfl : m₁ = m' := congrArg Prod.snd h
    exact iff_of_true (hm.restored hbal) fun _ _ heq => absurd (congrArg Prod.fst heq) nofun
  · -- the token got as far as the block
    rw [try_catch_bind_of_ret hv] at h
    rw [restored_after_verification hm hbal h]
    constructor
    · rintro hfalls jwt' m₁' heq
      obtain ⟨hret, rfl⟩ := Prod.mk.inj heq
      obtain rfl := Option.some.inj (Outcome.ret.inj hret)
      exact hfalls
    · exact fun hall => hall jwt m₁ rfl
  · -- the exception is caught outside the block, and reported
    rw [try_catch_bind_of_throw hv] at h
    have hk := (framed_report e).balanced m₁
    rw [h] at hk
    exact iff_of_true (hm.restored (hbal.trans hk)) fun _ _ heq =>
      absurd (congrArg Prod.fst heq) nofun
  · rw [try_catch_bind_of_jump hv] at h
    exact absurd (congrArg Prod.fst h) nofun
  · rw [try_catch_bind_of_stop hv] at h
    exact absurd (congrArg Prod.fst h) nofun

/-- The token of `{"iss":"https://idp"}`. -/
def nameless : SignedToken where
  signing_input := bytes "eyJhbGciOiJIUzI1NiIsImtpZCI6ImsxIn0." ++
    bytes "eyJpc3MiOiJodHRwczovL2lkcCJ9"
  mac := [
    207, 89, 47, 90, 91, 156, 11, 95, 142, 78, 66, 167, 15, 49, 15, 37, 133, 95, 181, 250, 5,
    116, 7, 185, 171, 166, 255, 154, 102, 199, 138, 121]
  signature := bytes "z1kvWlucC1-OTkKnDzEPJYVftfoFdAe5q6b_mmbHink"

theorem sound_login_machine : Sound login_machine where
  buffer := by
    rintro b hb
    obtain rfl := Option.some.inj hb
    decide
  errors := nofun

/-- The token, if there is one, names a subject. -/
def has_sub : Outcome CppException (Option DecodedJwt) → Bool
  | .ret (some jwt) => (jwt.payload_claims.find (bytes "sub")).isSome
  | _ => true

/-- A login that succeeds restores the error state. -/
theorem validate_token_restores_alice :
    Restored login_machine (validate_token (openssl_for [alice]) List.length provider_config 0
      alice.token login_machine).2 := by
  have hrun : validate_token (openssl_for [alice]) List.length provider_config 0 alice.token
      login_machine = (.ret true, (validate_token (openssl_for [alice]) List.length
        provider_config 0 alice.token login_machine).2) :=
    Prod.ext (by decide +kernel) rfl
  have hclaim : has_sub (verified_token (openssl_for [alice]) List.length provider_config 0
      alice.token login_machine).1 = true := by decide +kernel
  have hfaults : (verified_token (openssl_for [alice]) List.length provider_config 0
      alice.token login_machine).2.faults = fun _ => .none := rfl
  refine (validate_token_restores_iff _ _ _ _ _ sound_login_machine hrun).mpr ?_
  intro jwt m₁ heq
  rw [heq] at hclaim hfaults
  have hnone : ∀ n, m₁.faults n = .none := fun n => congrFun hfaults n
  exact ⟨hclaim, fun e => by rw [hnone]; exact nofun, fun msg => by rw [hnone]; exact nofun⟩

/-- A token without the claim leaves `PG_exception_stack` pointing at the buffer of the
block. -/
theorem validate_token_leaves_buffer :
    (validate_token (openssl_for [nameless]) List.length provider_config 0 nameless.token
        login_machine).1 = .ret false ∧
      login_machine.exception_stack = some 0 ∧
      (validate_token (openssl_for [nameless]) List.length provider_config 0 nameless.token
        login_machine).2.exception_stack ≠ some 0 := by
  refine ⟨?_, rfl, ?_⟩ <;> decide +kernel

end OidcValidator.ErrorState
