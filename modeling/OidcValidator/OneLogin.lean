/-
`OneLogin.lean` -- `validate_token` is a schedule of the steps of the logins.

`Validator.lean` has `validate_token` as one function of one process. `Logins.lean` has it as
two calls of `get_json`, between whose steps other backends move, and a verdict. Here the
function is run next to the steps, as `OneBackend.lean` runs `get_json`: a call that returns has
taken its backend through a login to a verdict with the same answer and the same `*res`, with
the same table and the same locks. So what holds of every verdict of the steps holds of what
the function returns, and of one call after the other.

A call that does not return, because the process waits, exits or jumps to its caller, is not a
login that has a verdict.
-/
import OidcValidator.Logins
import OidcValidator.OneBackend

set_option autoImplicit false

namespace OidcValidator.OneLogin

open OidcValidator.ByteString OidcValidator.Control OidcValidator.PgUtils
open OidcValidator.Dshash OidcValidator.HttpCache OidcValidator.HttpClient
open OidcValidator.Interleaving OidcValidator.Refinement OidcValidator.SharedCache
open OidcValidator.CacheSteps (within_call)
open OidcValidator.AtomicCache OidcValidator.OneBackend OidcValidator.Validator
open OidcValidator.Logins
open OidcValidator.Picojson (Value Object)
open OidcValidator.Jwt (OpenSSL DecodedJwt)
open OidcValidator.Jwk (issuer_info_url)

/-! ## What leaves the cache alone -/

section Frames

variable {γ : Type}

/-- What is shared of a process with the cache. -/
def cached {τ : Type} (u : ClientWorld τ) : Table HttpCacheEntry × List (ℕ × Mode) :=
  (u.table, u.held)

theorem framed_attach_existing {τ : Type} (area : ℕ) (state : SharedState) :
    Framed cached (attach_existing area state : Prog CppException (ClientWorld τ) Attachment) := by
  refine Framed.bind Framed.call fun _ => Framed.bind Framed.call fun _ => ?_
  refine Framed.bind Framed.call fun _ => ?_
  cases state.table_handle with
  | none => exact Framed.halt _
  | some table => exact Framed.pure _

theorem framed_create_or_attach {τ : Type} (state : SharedState) :
    Framed cached (create_or_attach state : Prog CppException (ClientWorld τ) Attachment) := by
  unfold create_or_attach
  cases state.area_handle with
  | some area => exact framed_attach_existing _ _
  | none =>
    refine Framed.bind Framed.call fun _ => Framed.bind Framed.get fun _ => ?_
    refine Framed.bind (Framed.modify fun _ => rfl) fun _ => Framed.bind Framed.call fun _ => ?_
    refine Framed.bind Framed.call fun _ => Framed.bind Framed.call fun _ => ?_
    refine Framed.bind Framed.get fun _ => Framed.bind (Framed.modify fun _ => rfl) fun _ => ?_
    refine Framed.bind (Framed.modify fun _ => rfl) fun _ => ?_
    exact Framed.bind (Framed.modify fun _ => rfl) fun _ => Framed.pure _

theorem framed_attach {τ : Type} :
    Framed cached (attach : Prog CppException (ClientWorld τ) Unit) := by
  refine Framed.bind Framed.get fun u => ?_
  -- a process attaches once, and then has its table
  cases u.rest.cache_ with
  | some cache => exact Framed.pure _
  | none =>
    refine Framed.bind (framed_pg_try ?_) fun _ => Framed.modify fun _ => rfl
    refine Framed.bind Framed.call fun _ => Framed.bind Framed.get fun u => ?_
    cases u.segment with
    | none => exact Framed.throw _
    | some state =>
      dsimp only
      unfold attach_segment
      cases state.area_handle with
      | some area => exact framed_attach_existing _ _
      | none =>
        refine Framed.bind Framed.call fun _ => Framed.bind Framed.get fun _ => ?_
        refine Framed.ite (Framed.halt _) (Framed.bind (Framed.modify fun _ => rfl) fun _ => ?_)
        refine Framed.bind Framed.get fun _ => Framed.bind (framed_create_or_attach _) fun _ => ?_
        exact Framed.bind (Framed.modify fun _ => rfl) fun _ => Framed.pure _

theorem framed_try_attach : Framed cached try_attach :=
  Framed.try_catch (framed_pg_try framed_attach) fun _ =>
    Framed.ite (Framed.elog _ _) (Framed.throw _)

theorem framed_http_client : Framed cached (http_client : Cpp Unit) := by
  refine Framed.bind Framed.get fun _ => Framed.ite ?_ (Framed.throw _)
  exact Framed.modify fun _ => rfl

theorem framed_report {f : World → γ} (ex : CppException) : Framed f (report ex) := by
  have hfalse : Framed f (pure false : Cpp Bool) := Framed.pure _
  exact Framed.ite (Framed.bind (Framed.elog _ _) fun _ => hfalse)
    (Framed.bind (Framed.elog _ _) fun _ => hfalse)

variable {f : World → γ}

theorem preserves_check_token (ossl : OpenSSL) (cfg : Validator.Config) (now : ℤ) (token : Bytes)
    (jwks_info : Value) : Preserves f (check_token ossl cfg now token jwks_info) := by
  refine Preserves.bind (Preserves.of_except _) fun jwt => ?_
  refine Preserves.bind (Preserves.of_except _) fun kid => ?_
  have hrest : Preserves f (do
      let verifier ← of_except
        (Jwk.configure_verifier_with_jwks ossl cfg.oauth_issuer jwks_info kid)
      of_except (verifier.verify ossl jwt now)
      pure jwt) := by
    refine Preserves.bind (Preserves.of_except _) fun v => ?_
    exact Preserves.bind (Preserves.of_except _) fun _ => Preserves.pure _
  exact Preserves.ite (Preserves.bind (Preserves.elog _ _) fun _ => hrest) hrest

theorem preserves_accept_token (ossl : OpenSSL) (cfg : Validator.Config) (now : ℤ)
    (token : Bytes) (jwks_info : Value) :
    Preserves f (accept_token ossl cfg now token (some jwks_info)) := by
  refine Preserves.bind (preserves_check_token _ _ _ _ _) fun jwt => ?_
  refine Preserves.bind Preserves.alloc fun _ => Preserves.bind ?_ fun _ => ?_
  · refine Preserves.ite (Preserves.elog _ _) (Preserves.ite (Preserves.elog _ _) ?_)
    exact Preserves.pure _
  · exact Preserves.bind Preserves.alloc fun _ => Preserves.pure _

theorem preserves_identify (hf : ∀ g u, f (with_result g u) = f u) (cfg : Validator.Config)
    (payload : Object) : Preserves f (identify cfg payload) := by
  have hbody : Preserves f (identify_body cfg payload) := by
    unfold identify_body
    cases payload.find cfg.authn_field with
    | none =>
      refine Preserves.bind Preserves.alloc fun _ => ?_
      exact Preserves.bind (Preserves.elog _ _) fun _ => Preserves.pure _
    | some v =>
      refine Preserves.bind Preserves.alloc fun _ => Preserves.bind Preserves.call fun _ => ?_
      exact Preserves.bind (Preserves.modify fun u => hf _ u) fun _ => Preserves.pure _
  have hhandler : Preserves f identify_handler :=
    Preserves.bind (Preserves.elog _ _) fun _ => Preserves.pure _
  intro c
  exact Triple.pg_try_block (hbody c) (hhandler c) fun _ _ h => h

theorem preserves_authorize (hf : ∀ g u, f (with_result g u) = f u) (cfg : Validator.Config)
    (jwt : DecodedJwt) : Preserves f (authorize cfg jwt) := by
  refine Preserves.bind ?_ fun _ => Preserves.bind (Preserves.modify fun u => hf _ u) fun _ => ?_
  · unfold azure_remark
    refine Preserves.ite (Preserves.ite ?_ Preserves.alloc) (Preserves.pure _)
    exact Preserves.bind (Preserves.elog _ _) fun _ => Preserves.alloc
  · refine Preserves.bind (Preserves.bind Preserves.get fun u => ?_) fun _ => Preserves.pure _
    refine Preserves.ite (Preserves.elog _ _) ?_
    exact Preserves.bind Preserves.alloc fun _ => Preserves.elog _ _

/-- The end of `validate_token` writes to `*res` only. -/
theorem preserves_judge (hf : ∀ g u, f (with_result g u) = f u) (ossl : OpenSSL)
    (cfg : Validator.Config) (now : ℤ) (token : Bytes) (jwks_info : Value) :
    Preserves f (judge ossl cfg now token jwks_info) := by
  refine Preserves.try_catch ?_ fun ex => (framed_report ex).preserves
  refine Preserves.bind (preserves_accept_token _ _ _ _ _) fun jwt => ?_
  cases jwt with
  | none => exact Preserves.pure _
  | some jwt =>
    refine Preserves.bind (preserves_identify hf _ _) fun left => ?_
    cases left with
    | ret answer => exact Preserves.pure _
    | fall _ => exact preserves_authorize hf _ _

end Frames

/-! ## Where the login is -/

section Steps

variable {ι : Type} [DecidableEq ι] (ossl : OpenSSL) (hash : Bytes → ℕ) (cfg : Validator.Config)
  (i : ι)

/-- The runs of the logins in which `i` is at this stage of its login. -/
def login_course (stage : Logins.Stage) : Course hash i where
  Reached pc s := ∃ history g, (logins ossl hash cfg).Run start history g ∧
    g.locals i = (stage, pc) ∧ g.shared = s
  relies := by
    rintro pc s ⟨history, g, hrun, hi, rfl⟩
    have hg := (agree_of_run (known_of_run hrun).run).1
    have hrelies := hg.2 i
    rw [show (inside g).locals i = (g.locals i).2 from rfl, hi] at hrelies
    exact ⟨hg.1, hrelies⟩
  step := by
    rintro pc pc' s s' c ⟨history, g, hrun, hi, rfl⟩ hc hback
    have hlogin : login ossl hash cfg i (.inside c) g.shared (g.locals i) =
        some (s', (stage, pc')) := by
      rw [hi]
      simp only [login, hc, hback]
      rfl
    have hstep := step_eq_some.mpr ⟨s', (stage, pc'), hlogin, rfl⟩
    exact ⟨_, _, hrun.tail ⟨i, .inside c, hstep, rfl⟩, Function.update_self i _ g.locals, rfl⟩

variable {ossl hash cfg i} {stage stage' : Logins.Stage} {pc pc' : Pc} {u : World}

/-- A step from one stage to the next. -/
theorem At.turn (turn : Turn) (h : At (login_course ossl hash cfg i stage) pc u)
    (hstep : ∀ s, login ossl hash cfg i turn s (stage, pc) = some (s, (stage', pc'))) :
    At (login_course ossl hash cfg i stage') pc' u := by
  obtain ⟨s, ⟨history, g, hrun, hi, rfl⟩, hseen⟩ := h
  have hlogin : login ossl hash cfg i turn g.shared (g.locals i) =
      some (g.shared, (stage', pc')) := by
    rw [hi]
    exact hstep g.shared
  have hlast := step_eq_some.mpr ⟨g.shared, (stage', pc'), hlogin, rfl⟩
  exact ⟨g.shared, ⟨_, _, hrun.tail ⟨i, turn, hlast, rfl⟩,
    Function.update_self i _ g.locals, rfl⟩, hseen⟩

/-- What the function does and the login does not see. -/
theorem At.cached {u' : World} (h : At (login_course ossl hash cfg i stage) pc u)
    (hcached : cached u' = cached u) : At (login_course ossl hash cfg i stage) pc u' :=
  h.congr (Prod.mk.inj hcached).1 (Prod.mk.inj hcached).2

variable (ossl hash cfg i)

/-- Outside `get_json`, at this stage of the login. -/
def Outside (stage : Logins.Stage) (u : World) : Prop :=
  ∃ pc, pc.outside = true ∧ At (login_course ossl hash cfg i stage) pc u

/-- The login has ended early. -/
def Refused (token : Bytes) (u : World) : Prop :=
  Outside ossl hash cfg i (.out (some (refusal token))) u

/-- The JWKS is there, or the login has ended early. -/
def Fetched (token : Bytes) : Option Value → World → Prop
  | some jwks_info => fun u =>
      ∃ url hit, At (login_course ossl hash cfg i (.keys token)) (.returned url jwks_info hit) u
  | none => Refused ossl hash cfg i token

/-- An exception is one that the function reports, and ends the login early. -/
def Thrown (token : Bytes) (x : Exit) (u : World) : Prop :=
  x = .throw → Refused ossl hash cfg i token u

variable {ossl hash cfg i} {token : Bytes} {last : Option Verdict}

/-- A login begins with a call of `get_json`. -/
theorem Outside.called (h : Outside ossl hash cfg i (.out last) u) (token : Bytes) :
    At (login_course ossl hash cfg i (.discovery token))
      (.get (issuer_info_url cfg.discovery_url)) u := by
  obtain ⟨pc, hpc, hat⟩ := h
  refine At.turn (.start token) hat fun s => ?_
  cases pc with
  | idle | returned | failed => rfl
  | _ => exact absurd hpc nofun

/-- It may end at once. -/
theorem Outside.refused (h : Outside ossl hash cfg i (.out last) u) (token : Bytes) :
    Refused ossl hash cfg i token u := by
  have hfailed : At (login_course ossl hash cfg i (.discovery token)) .failed u :=
    (h.called token).go .fail rfl fun _ _ => rfl
  exact ⟨.failed, rfl, At.turn .give_up hfailed fun _ => rfl⟩

/-- It ends when a `get_json` has thrown. -/
theorem thrown_of_left (hstage : stage = .discovery token ∨ stage = .keys token) {x : Exit}
    (h : Left (login_course ossl hash cfg i stage) x u) : Thrown ossl hash cfg i token x u := by
  rintro rfl
  have hfailed := h nofun
  obtain rfl | rfl := hstage
  · exact ⟨.failed, rfl, At.turn .give_up hfailed fun _ => rfl⟩
  · exact ⟨.failed, rfl, At.turn .give_up hfailed fun _ => rfl⟩

/-- An early `return false` with a warning. -/
theorem triple_refuse {url msg : Bytes} {value : Value} {hit : Option (ℤ × List Put)}
    (huri : jwks_uri value = none) :
    Triple (At (login_course ossl hash cfg i (.discovery token)) (.returned url value hit))
      (refuse msg : Cpp (Option Value)) (Fetched ossl hash cfg i token)
      (Thrown ossl hash cfg i token) := by
  refine Triple.bind (R := fun _ => At (login_course ossl hash cfg i (.discovery token))
    (.returned url value hit)) ?_ fun _ => Triple.pure fun u hu => ?_
  · exact Triple.elog (fun _ h => h) (fun _ _ => nofun) fun _ _ => nofun
  refine ⟨.returned url value hit, rfl, At.turn .go_on hu fun s => ?_⟩
  simp only [login, huri]

/-- The second call of `get_json`. -/
theorem triple_fetch_keys {url uri : Bytes} {value : Value} {hit : Option (ℤ × List Put)}
    (huri : jwks_uri value = some uri) :
    Triple (At (login_course ossl hash cfg i (.discovery token)) (.returned url value hit))
      (do
        let jwks_info ← get_json hash uri
        pure (some jwks_info) : Cpp (Option Value))
      (Fetched ossl hash cfg i token) (Thrown ossl hash cfg i token) := by
  have hcall : ∀ u : World,
      At (login_course ossl hash cfg i (.discovery token)) (.returned url value hit) u →
      At (login_course ossl hash cfg i (.keys token)) (.get uri) u := by
    refine fun u hu => At.turn .go_on hu fun s => ?_
    simp only [login, huri]
    rfl
  refine Triple.bind ((triple_get_json uri).consequence hcall (fun _ _ h => h) fun x u h => ?_)
    fun jwks_info => Triple.pure fun u ⟨hit, hu⟩ => ⟨uri, hit, hu⟩
  exact thrown_of_left (.inr rfl) h

/-- The two documents. -/
theorem triple_fetch_jwks :
    Triple (Outside ossl hash cfg i (.out last)) (fetch_jwks hash cfg)
      (Fetched ossl hash cfg i token) (Thrown ossl hash cfg i token) := by
  refine Triple.bind ((triple_get_json _).consequence (fun u hu => hu.called token)
    (fun _ _ h => h) fun x u h => thrown_of_left (.inl rfl) h) fun issuer_info => ?_
  rintro m ⟨hit, hm⟩
  cases issuer_info with
  | object issuer_object =>
    dsimp only
    rcases hfind : Object.find issuer_object (bytes "jwks_uri") with _ | v
    · exact triple_refuse (by simp only [jwks_uri, hfind]) m hm
    · refine Triple.ite (fun hempty => triple_refuse ?_) (fun hne => triple_fetch_keys ?_) m hm
      · simp only [jwks_uri, hfind, if_pos hempty]
      · simp only [jwks_uri, hfind, if_neg hne]
  | _ => exact triple_refuse rfl m hm

/-- Everything up to the JWKS. -/
theorem triple_documents :
    Triple (Outside ossl hash cfg i (.out last)) (documents hash cfg)
      (Fetched ossl hash cfg i token) (Thrown ossl hash cfg i token) := by
  have hframed : ∀ {p : Cpp Unit}, Framed OneLogin.cached p →
      Triple (Outside ossl hash cfg i (.out last)) p (fun _ => Outside ossl hash cfg i (.out last))
        (Thrown ossl hash cfg i token) := by
    refine fun hp => Triple.of_states fun u hu => ?_
    obtain ⟨pc, hpc, hat⟩ := hu
    have hkeep : ∀ v, OneLogin.cached v = OneLogin.cached u →
        Outside ossl hash cfg i (.out last) v := fun v hv => ⟨pc, hpc, At.cached hat hv⟩
    exact (hp.preserves (OneLogin.cached u)).consequence (fun v hv => hv ▸ rfl)
      (fun _ v hv => hkeep v hv) fun x v hv _ => (hkeep v hv).refused token
  refine Triple.bind (hframed framed_try_attach) fun _ => ?_
  refine Triple.bind (hframed Framed.alloc) fun _ => ?_
  exact Triple.bind (hframed framed_http_client) fun _ => triple_fetch_jwks

/-! ## One call after the other -/

/-- The function from the documents on. -/
theorem validate_token_from {now : ℤ} {m m₁ : Proc}
    (hdeny : assign_result (fun _ => ⟨none, false⟩) m = (.ret (), m₁)) :
    validate_token ossl hash cfg now token m =
      try_catch (documents hash cfg >>= fun jwks_info =>
        accept_token ossl cfg now token jwks_info >>= after_verification cfg) report m₁ := by
  unfold validate_token verified_token obtain_token
  rw [bind_assoc, try_catch_bind_of_ret hdeny, bind_assoc]

/-- What is reported is a refusal, and changes nothing. -/
theorem report_eq_ret {ex : CppException} {m m' : Proc} {answer : Bool}
    (h : report ex m = (.ret answer, m')) :
    answer = false ∧ result m'.user = result m.user ∧
      OneLogin.cached m'.user = OneLogin.cached m.user := by
  have hfalse : Triple (fun _ => True) (report ex) (fun answer _ => answer = false)
      fun _ _ => True := by
    have hreturn : Triple (fun _ => True) (pure false : Cpp Bool) (fun answer _ => answer = false)
        fun _ _ => True := Triple.pure fun _ _ => rfl
    exact Triple.ite (fun _ => Triple.bind (Triple.trivial _) fun _ => hreturn)
      fun _ => Triple.bind (Triple.trivial _) fun _ => hreturn
  have hresult := (Validator.framed_report ex).preserves.apply m
  have hcached := (framed_report (f := OneLogin.cached) ex).preserves.apply m
  rw [h] at hresult hcached
  exact ⟨hfalse.of_eq_ret trivial h, hresult, hcached⟩

/-- A call that returns is a login, and returns its verdict. -/
theorem Outside.validate_token {now : ℤ} {m m' : Proc} {answer : Bool}
    (hm : Outside ossl hash cfg i (.out last) m.user)
    (h : validate_token ossl hash cfg now token m = (.ret answer, m')) :
    ∃ verdict, Outside ossl hash cfg i (.out (some verdict)) m'.user ∧ verdict.token = token ∧
      verdict.answer = answer ∧ verdict.result = result m'.user ∧
      (answer = true → verdict.now = now) := by
  let m₁ : Proc := { m with user := with_result (fun _ => ⟨none, false⟩) m.user }
  have hdeny : assign_result (fun _ => ⟨none, false⟩) m = (.ret (), m₁) := rfl
  have hm₁ : Outside ossl hash cfg i (.out last) m₁.user := by
    obtain ⟨pc, hpc, hat⟩ := hm
    exact ⟨pc, hpc, At.cached hat rfl⟩
  have htriple : Triple (Outside ossl hash cfg i (.out last)) (documents hash cfg)
      (Fetched ossl hash cfg i token) (Thrown ossl hash cfg i token) := triple_documents
  have hend := htriple m₁ hm₁
  have hdenied := (framed_documents hash cfg).preserves.apply m₁
  rw [validate_token_from hdeny] at h
  -- what the documents have come to decides how the login goes on
  rcases hdocs : documents hash cfg m₁ with ⟨(_ | jwks_info) | ex | b | x, m₂⟩ <;>
    rw [hdocs] at hend hdenied
  · rw [try_catch_bind_of_ret hdocs] at h
    obtain ⟨hanswer, rfl⟩ := Prod.mk.inj h
    obtain rfl := Outcome.ret.inj hanswer
    exact ⟨refusal token, hend, rfl, rfl, hdenied.symm, nofun⟩
  · rw [try_catch_bind_of_ret hdocs] at h
    obtain ⟨url, hit, hat⟩ := hend
    have hjudge : judge ossl cfg now token jwks_info m₂ = (.ret answer, m') := h
    have hjudged : At (login_course ossl hash cfg i
        (.out (some ⟨token, now, answer, result m'.user⟩))) (.returned url jwks_info hit) m₂.user := by
      refine At.turn (.judge now m₂) hat fun s => ?_
      have hnone : result m₂.user = ⟨none, false⟩ := hdenied
      simp only [login, if_pos hnone, hjudge, end_login]
    have hkept := (preserves_judge (f := OneLogin.cached) (fun _ _ => rfl) ossl cfg now token
      jwks_info).apply m₂
    rw [hjudge] at hkept
    exact ⟨_, ⟨_, rfl, At.cached hjudged hkept⟩, rfl, rfl, rfl, fun _ => rfl⟩
  · rw [try_catch_bind_of_throw hdocs] at h
    obtain ⟨rfl, hresult, hcached⟩ := report_eq_ret h
    obtain ⟨pc, hpc, hat⟩ := hend rfl
    exact ⟨refusal token, ⟨pc, hpc, At.cached hat hcached⟩, rfl, rfl,
      (hresult.trans hdenied).symm, nofun⟩
  · rw [try_catch_bind_of_jump hdocs] at h
    exact absurd (congrArg Prod.fst h) nofun
  · rw [try_catch_bind_of_stop hdocs] at h
    exact absurd (congrArg Prod.fst h) nofun

variable (ossl hash cfg) in
/-- A process that is given one token after the other, as long as its calls return. -/
def validate_tokens : List (ℤ × Bytes) → Proc → Option Proc
  | [], m => some m
  | (now, token) :: tokens, m =>
      match validate_token ossl hash cfg now token m with
      | (.ret _, m') => validate_tokens tokens m'
      | _ => none

/-- Between two calls the process is outside. -/
theorem Outside.validate_tokens {tokens : List (ℤ × Bytes)} {m m' : Proc}
    (hm : Outside ossl hash cfg i (.out last) m.user)
    (h : validate_tokens ossl hash cfg tokens m = some m') :
    ∃ last', Outside ossl hash cfg i (.out last') m'.user := by
  induction tokens generalizing m last with
  | nil =>
    obtain rfl := Option.some.inj h
    exact ⟨last, hm⟩
  | cons t tokens ih =>
    obtain ⟨now, token⟩ := t
    unfold OneLogin.validate_tokens at h
    rcases hcall : Validator.validate_token ossl hash cfg now token m with
      ⟨answer | ex | b | x, m₁⟩ <;> rw [hcall] at h
    · obtain ⟨verdict, hm₁, -⟩ := hm.validate_token hcall
      exact ih hm₁ h
    · exact absurd h nofun
    · exact absurd h nofun
    · exact absurd h nofun

/-- Before the first call, with nothing in the table. -/
theorem outside_start (htable : u.table = Table.empty) (hheld : u.held = []) :
    Outside ossl hash cfg i (.out none) u := by
  refine ⟨.idle, rfl, (start (ι := ι)).shared, ⟨[], start, .refl, rfl, rfl⟩, htable.symm, ?_, ?_⟩
  · rw [hheld]
    rfl
  · rw [hheld]
    exact List.nodup_nil

/-- **A process logs in by these steps.** However many tokens a process has validated since the
cache was empty, and whatever failed in between: if its next call of `validate_token` returns,
then there is a run of the logins that ends in a verdict with the same answer and the same
`*res`, over the same table and the same locks; and that verdict is justified by what the run
has shown. -/
theorem validate_token_is_a_login (ossl : OpenSSL) (hash : Bytes → ℕ) (cfg : Validator.Config)
    (i : ι) {tokens : List (ℤ × Bytes)} {now : ℤ} {token : Bytes} {m m₁ m' : Proc} {answer : Bool}
    (htable : m.user.table = Table.empty) (hheld : m.user.held = [])
    (htokens : validate_tokens ossl hash cfg tokens m = some m₁)
    (h : validate_token ossl hash cfg now token m₁ = (.ret answer, m')) :
    ∃ history g verdict pc, (logins ossl hash cfg).Run start history g ∧
      g.locals i = (.out (some verdict), pc) ∧ Seen i m'.user g.shared ∧
      verdict.token = token ∧ verdict.answer = answer ∧ verdict.result = result m'.user ∧
      (answer = true → verdict.now = now) ∧ Logins.Justified cfg ossl i verdict history := by
  have hm : Outside ossl hash cfg i (.out none) m.user := outside_start htable hheld
  obtain ⟨last, hm₁⟩ := hm.validate_tokens htokens
  obtain ⟨verdict, ⟨pc, -, s, ⟨history, g, hrun, hi, rfl⟩, hseen⟩, hverdict⟩ :=
    hm₁.validate_token h
  -- the run is one of the system, so its verdicts are justified
  have hjustified := (known_of_run hrun).stages i
  rw [hi] at hjustified
  obtain ⟨htoken, hanswer, hresult, hnow⟩ := hverdict
  exact ⟨history, g, verdict, pc, hrun, hi, hseen, htoken, hanswer, hresult, hnow, hjustified⟩

end Steps

/-- A process whose provider gives the two documents to every login. -/
def provided_machine : Proc :=
  { Acceptance.login_machine with
    user :=
      { Acceptance.login_machine.user with
        rest :=
          { Acceptance.login_machine.user.rest with
            rest :=
              { Acceptance.login_machine.user.rest.rest with
                responses := fun n => Acceptance.provider (n % 2) } } } }

theorem validate_token_is_a_login_alice :
    ∃ history, ∃ g : Interleaving.Config Bool (Shared Bool) (Logins.Stage × Pc), ∃ verdict pc,
      (logins (Acceptance.openssl_for [Acceptance.alice]) List.length
        Acceptance.provider_config).Run start history g ∧
      g.locals false = (.out (some verdict), pc) ∧ verdict.answer = true ∧
      Logins.Justified Acceptance.provider_config (Acceptance.openssl_for [Acceptance.alice]) false
        verdict history := by
  have hanswer : ((validate_tokens (Acceptance.openssl_for [Acceptance.alice]) List.length
      Acceptance.provider_config [(0, Acceptance.alice.token)] provided_machine).map fun m =>
        (validate_token (Acceptance.openssl_for [Acceptance.alice]) List.length
          Acceptance.provider_config 0 Acceptance.alice.token m).1) = some (.ret true) := by
    decide +kernel
  obtain ⟨m₁, htokens, hret⟩ := Option.map_eq_some_iff.mp hanswer
  obtain ⟨history, g, verdict, pc, hrun, hi, -, -, htrue, -, -, hjustified⟩ :=
    validate_token_is_a_login _ _ _ false rfl rfl htokens (Prod.ext hret rfl)
  exact ⟨history, g, verdict, pc, hrun, hi, htrue, hjustified⟩

end OidcValidator.OneLogin
