/-
`Logins.lean` -- many backends validate tokens over one cache.

Each backend runs `validate_token`: it asks `get_json` for the discovery document, then for the
JWKS that the document names, and then judges the token. Its two calls of `get_json` are the
steps of `SharedCache.lean`, so what one login caches another one may be given.

What is seen of the logins could be seen of the cache alone. So the two documents of a login
are worth what `AtomicCache.lean` says, and the verdict what `Acceptance.lean` says: nobody is
let in unless a JWKS that was really transferred, and was current when this login asked for it,
vouches for the token.
-/
import OidcValidator.Acceptance
import OidcValidator.AtomicCache

set_option autoImplicit false

namespace OidcValidator.Logins

open OidcValidator.ByteString OidcValidator.Control OidcValidator.PgUtils
open OidcValidator.Interleaving OidcValidator.Refinement OidcValidator.SharedCache
open OidcValidator.CacheSteps OidcValidator.AtomicCache OidcValidator.Validator
open OidcValidator.Acceptance (Denied Accepted)
open OidcValidator.Picojson (Value Object)
open OidcValidator.Jwt (OpenSSL DecodedJwt decode)
open OidcValidator.Jwk (issuer_info_url)

variable {ι : Type}

/-! ## What a login does with its documents -/

/-- The rest of `validate_token`, once it has the JWKS. -/
def judge (ossl : OpenSSL) (cfg : Validator.Config) (now : ℤ) (token : Bytes) (jwks_info : Value) :
    Cpp Bool :=
  try_catch (accept_token ossl cfg now token (some jwks_info) >>= after_verification cfg) report

/-- The `jwks_uri` of a discovery document that `validate_token` does not refuse. -/
def jwks_uri : Value → Option Bytes
  | .object issuer_object =>
      match Object.find issuer_object (bytes "jwks_uri") with
      | some v => if v.to_str = [] then none else some v.to_str
      | none => none
  | _ => none

/-- The answer to a token, what it leaves in `*res`, and when it was judged. -/
structure Verdict where
  token : Bytes
  now : ℤ
  answer : Bool
  result : ValidatorModuleResult
  deriving DecidableEq

/-- An early `return false`, or an exception that the function reports. -/
def refusal (token : Bytes) : Verdict := ⟨token, 0, false, ⟨none, false⟩⟩

/-! ## The steps -/

/-- Where a backend is in `validate_token`: outside, with the last verdict; or behind the first
or the second call of `get_json`. -/
inductive Stage where
  | out (verdict : Option Verdict)
  | discovery (token : Bytes)
  | keys (token : Bytes)

/-- What is not up to the backend. `judge` has the clock and the machine that the rest of the
function runs on. -/
inductive Turn where
  | start (token : Bytes)
  | inside (c : Choice)
  | go_on
  | judge (now : ℤ) (m : Proc)
  | give_up
  | exit

section Steps

variable [DecidableEq ι] (ossl : OpenSSL) (hash : Bytes → ℕ) (cfg : Validator.Config)

/-- The end of a login, unless the process ends first. -/
def end_login (s : Shared ι) (pc : Pc) (now : ℤ) (token : Bytes) :
    Outcome CppException Bool × Proc → Option (Shared ι × (Stage × Pc))
  | (.ret answer, m) => some (s, (.out (some ⟨token, now, answer, result m.user⟩), pc))
  | _ => none

/-- A backend. The machine that judges has denied at the top of the function. -/
def login : Threads ι Turn (Shared ι) (Stage × Pc) := fun i turn s l =>
  match turn, l with
  | .start token, (.out _, pc) =>
      (backend hash i (.call (issuer_info_url cfg.discovery_url)) s pc).map fun r =>
        (r.1, (.discovery token, r.2))
  | .inside c, (stage, pc) =>
      if within_call c then (backend hash i c s pc).map fun r => (r.1, (stage, r.2)) else none
  | .go_on, (.discovery token, .returned url value hit) =>
      match jwks_uri value with
      | some uri =>
          (backend hash i (.call uri) s (.returned url value hit)).map fun r =>
            (r.1, (.keys token, r.2))
      | none => some (s, (.out (some (refusal token)), .returned url value hit))
  | .judge now m, (.keys token, .returned url value hit) =>
      if result m.user = ⟨none, false⟩ then
        end_login s (.returned url value hit) now token (judge ossl cfg now token value m)
      else none
  | .give_up, (.discovery token, pc) =>
      if pc.outside then some (s, (.out (some (refusal token)), pc)) else none
  | .give_up, (.keys token, pc) =>
      if pc.outside then some (s, (.out (some (refusal token)), pc)) else none
  | .exit, (_, pc) => (backend hash i .exit s pc).map fun r => (r.1, (.out none, r.2))
  | _, _ => none

/-- What is seen of a step: what is seen of the cache. -/
def visible (i : ι) (turn : Turn) (l l' : Stage × Pc) : Option (Event ι) :=
  match turn, l'.2 with
  | .start _, .get url => some (.call i url)
  | .go_on, .get url => some (.call i url)
  | .inside c, pc' => seen i c l.2 pc'
  | _, _ => none

/-- Nobody has called, and the cache is empty. -/
def start : Config ι (Shared ι) (Stage × Pc) := ⟨init.shared, fun _ => (.out none, .idle)⟩

/-- The logins as a system. -/
def logins : System (Config ι (Shared ι) (Stage × Pc)) (Event ι) :=
  observed (login ossl hash cfg) (fun g => g = start) visible

end Steps

/-- What the cache is of the logins. -/
def inside (g : Config ι (Shared ι) (Stage × Pc)) : Config ι (Shared ι) Pc :=
  ⟨g.shared, fun i => (g.locals i).2⟩

/-! ## The verdict -/

/-- The verdict is that of the function, from the machine that has fetched the documents. -/
theorem validate_token_of_documents {ossl : OpenSSL} {hash : Bytes → ℕ} {cfg : Validator.Config}
    {now : ℤ} {token : Bytes} {jwks_info : Value} {m m₁ m₂ : Proc}
    (hdeny : assign_result (fun _ => ⟨none, false⟩) m = (.ret (), m₁))
    (hdocs : documents hash cfg m₁ = (.ret (some jwks_info), m₂)) :
    validate_token ossl hash cfg now token m = judge ossl cfg now token jwks_info m₂ := by
  unfold validate_token verified_token obtain_token judge
  rw [bind_assoc, bind_assoc, try_catch_bind_of_ret hdeny, try_catch_bind_of_ret hdocs]

/-- Every check of an accepted token was made and passed. -/
theorem accept_token_eq_ret {ossl : OpenSSL} {cfg : Validator.Config} {now : ℤ} {token : Bytes}
    {jwks_info : Value} {m m' : Proc} {jwt : DecodedJwt}
    (h : accept_token ossl cfg now token (some jwks_info) m = (.ret (some jwt), m')) :
    Accepted ossl cfg now token jwks_info jwt := by
  obtain ⟨jwt', m₁, hcheck, h⟩ := bind_eq_ret.mp h
  obtain ⟨_, _, -, h⟩ := bind_eq_ret.mp h
  obtain ⟨_, _, -, h⟩ := bind_eq_ret.mp h
  obtain ⟨_, _, -, h⟩ := bind_eq_ret.mp h
  obtain rfl := Option.some.inj (Outcome.ret.inj (congrArg Prod.fst h))
  obtain ⟨hdecode, kid, verifier, hkid, hconf, hver⟩ := Acceptance.check_token_eq_ret hcheck
  obtain ⟨hsigned, hissuer, hexp, hiat, hnbf⟩ := Acceptance.signedBy_of_verify hkid hconf hver
  exact ⟨hdecode, (Jwt.decode_eq_ok hdecode).1, hsigned, hissuer, hexp, hiat, hnbf⟩

/-- Until the decision nothing is allowed. -/
theorem denied_judge_body (ossl : OpenSSL) (cfg : Validator.Config) (now : ℤ) (token : Bytes)
    (jwks_info : Value) :
    Triple Denied (accept_token ossl cfg now token (some jwks_info) >>= after_verification cfg)
      (fun r u => r = false → Denied u) (fun x u => x = .throw → Denied u) :=
  Triple.bind ((Acceptance.Denied.invariant (framed_accept_token ossl cfg now token _)).consequence
    (fun _ h => h) (fun _ _ h => h) fun _ _ h _ => h) fun o =>
      Acceptance.denied_after_verification cfg o

/-- What the JWKS vouches for. -/
def Vouched (ossl : OpenSSL) (cfg : Validator.Config) (verdict : Verdict) (jwks_info : Value) :
    Prop :=
  ∃ jwt v, Accepted ossl cfg verdict.now verdict.token jwks_info jwt ∧
    jwt.payload_claims.find cfg.authn_field = some v ∧
    verdict.result = ⟨some (c_str v.to_str), decision cfg jwt⟩

/-- A `true` comes from the end of the function. -/
theorem judge_eq_true {ossl : OpenSSL} {cfg : Validator.Config} {now : ℤ} {token : Bytes}
    {jwks_info : Value} {m m' : Proc} (hm : Denied m.user)
    (h : judge ossl cfg now token jwks_info m = (.ret true, m')) :
    ∃ jwt m₁, accept_token ossl cfg now token (some jwks_info) m = (.ret (some jwt), m₁) ∧
      after_verification cfg (some jwt) m₁ = (.ret true, m') := by
  obtain hbody | ⟨ex, m₁, hbody, hreport⟩ := try_catch_eq_ret h
  · obtain ⟨o, m₁, haccept, hafter⟩ := bind_eq_ret.mp hbody
    cases o with
    | none => exact absurd (Outcome.ret.inj (congrArg Prod.fst hafter)) nofun
    | some jwt => exact ⟨jwt, m₁, haccept, hafter⟩
  · -- the handler reports and answers `false`
    have hden := denied_judge_body ossl cfg now token jwks_info m hm
    rw [hbody] at hden
    exact absurd ((Acceptance.report_false ex).of_eq_ret (hden rfl) hreport).1 nofun

theorem judge_sound {ossl : OpenSSL} {cfg : Validator.Config} {now : ℤ} {token : Bytes}
    {jwks_info : Value} {m m' : Proc} {r : Bool} (hm : Denied m.user)
    (h : judge ossl cfg now token jwks_info m = (.ret r, m')) :
    (r = false → (result m'.user).authorized = false) ∧
      (r = true → Vouched ossl cfg ⟨token, now, r, result m'.user⟩ jwks_info) := by
  constructor
  · obtain hbody | ⟨ex, m₁, hbody, hreport⟩ := try_catch_eq_ret h
    · exact (denied_judge_body ossl cfg now token jwks_info).of_eq_ret hm hbody
    · have hden := denied_judge_body ossl cfg now token jwks_info m hm
      rw [hbody] at hden
      exact fun _ => ((Acceptance.report_false ex).of_eq_ret (hden rfl) hreport).2
  · rintro rfl
    obtain ⟨jwt, m₁, haccept, hafter⟩ := judge_eq_true hm h
    have hden : Denied m₁.user :=
      (Acceptance.Denied.invariant (framed_accept_token _ _ _ _ _)).of_eq_ret hm haccept
    -- the block either returns `false` or falls through with the identity
    obtain ⟨leave, m₂, hident, hafter⟩ := bind_eq_ret.mp hafter
    have hpost := (Acceptance.triple_identify cfg jwt.payload_claims).of_eq_ret hden hident
    cases leave with
    | ret r =>
      obtain rfl := hpost.1
      exact absurd (Outcome.ret.inj (congrArg Prod.fst hafter)) nofun
    | fall a =>
      obtain ⟨hden₂, v, hv, hid⟩ := hpost
      have hauth := (Acceptance.triple_authorize cfg jwt _).of_eq_ret ⟨hden₂, hid⟩ hafter
      exact ⟨jwt, v, accept_token_eq_ret haccept, hv, hauth.2⟩

/-! ## What a login has been given -/

variable (cfg : Validator.Config) (ossl : OpenSSL) (hash : Bytes → ℕ)

/-- The last thing `i` was given is a discovery document, and it was current. -/
def Discovered (i : ι) (issuer_info : Value) (history : List (Event ι)) : Prop :=
  Since i (fun e older => e = .ret i (issuer_info_url cfg.discovery_url) issuer_info ∧
    Current i (issuer_info_url cfg.discovery_url) issuer_info older) history

/-- Since then `i` has called for what the document names as `jwks_uri`. -/
def Asked (i : ι) (uri : Bytes) (history : List (Event ι)) : Prop :=
  Since i (fun e older => e = .call i uri ∧
    ∃ issuer_info, jwks_uri issuer_info = some uri ∧ Discovered cfg i issuer_info older) history

/-- Since then `i` was given that, and it was current. -/
def Obtained (i : ι) (jwks_info : Value) (history : List (Event ι)) : Prop :=
  Since i (fun e older => ∃ uri, e = .ret i uri jwks_info ∧ Current i uri jwks_info older ∧
    Asked cfg i uri older) history

/-- What a verdict is worth. -/
def Justified (i : ι) (verdict : Verdict) (history : List (Event ι)) : Prop :=
  (verdict.answer = false → verdict.result.authorized = false) ∧
    (verdict.answer = true → ∃ jwks_info, Obtained cfg i jwks_info history ∧
      Vouched ossl cfg verdict jwks_info)

/-- What the history says of a login. -/
def traced (i : ι) (history : List (Event ι)) : Stage × Pc → Prop
  | (.out none, _) => True
  | (.out (some verdict), _) => Justified cfg ossl i verdict history
  | (.discovery _, pc) => Called i (issuer_info_url cfg.discovery_url) history ∧
      ∀ url value hit, pc = .returned url value hit → Discovered cfg i value history
  | (.keys _, pc) => (∃ uri, Asked cfg i uri history) ∧
      ∀ url value hit, pc = .returned url value hit → Obtained cfg i value history

variable {cfg ossl hash} {i j : ι} {history : List (Event ι)} {e : Event ι}

theorem Justified.cons {verdict : Verdict} (h : Justified cfg ossl i verdict history)
    (he : ∀ url, e ≠ .call i url) : Justified cfg ossl i verdict (e :: history) := by
  refine ⟨h.1, fun htrue => ?_⟩
  obtain ⟨jwks_info, hobtained, hvouched⟩ := h.2 htrue
  exact ⟨jwks_info, Since.cons hobtained he, hvouched⟩

/-- What others do leaves it alone. -/
theorem traced.cons {l : Stage × Pc} (h : traced cfg ossl i history l)
    (he : ∀ url, e ≠ .call i url) : traced cfg ossl i (e :: history) l := by
  obtain ⟨(_ | verdict) | token | token, pc⟩ := l
  · trivial
  · exact Justified.cons h he
  · exact ⟨h.1.cons he, fun url value hit hpc => (h.2 url value hit hpc).cons he⟩
  · obtain ⟨uri, hasked⟩ := h.1
    exact ⟨⟨uri, hasked.cons he⟩, fun url value hit hpc => (h.2 url value hit hpc).cons he⟩

theorem Asked.called {uri : Bytes} (h : Asked cfg i uri history) : Called i uri history :=
  Since.mono h fun _ _ he => he.1

/-! ## One step -/

section Step

variable [DecidableEq ι] {c : Choice} {s s' : Shared ι} {pc pc' : Pc} {url : Bytes} {value : Value}
  {hit : Option (ℤ × List Put)}

theorem fetched_ne_returned (url' : Bytes) (response : HttpClient.Response) :
    fetched url' response ≠ .returned url value hit := by
  intro h
  unfold fetched at h
  split_ifs at h
  · split at h
    · split at h
      · split_ifs at h
      · cases h
    · cases h

/-- Whoever returns is seen to. -/
theorem seen_of_returned (h : Move hash i s pc c s' pc') (hpc : pc' = .returned url value hit) :
    seen i c pc pc' = some (.ret i url value) := by
  cases h with
  | parse | finish =>
    obtain ⟨rfl, rfl, -⟩ := Pc.returned.inj hpc
    rfl
  | fail hfails =>
    cases pc with
    | get _ | parse _ _ _ _ | fetch _ | put _ | finish _ _ | erase _ _ | read_json _ _ _ _ =>
      obtain rfl := Option.some.inj hfails
      exact absurd hpc nofun
    | _ => exact absurd hfails nofun
  | @release_get _ _ got => cases got <;> exact absurd hpc nofun
  | transfer => exact absurd hpc (fetched_ne_returned _ _)
  | @write stage => cases stage <;> exact absurd hpc nofun
  | _ => exact absurd hpc nofun

omit [DecidableEq ι] in
/-- A step inside a call is not seen as a call. -/
theorem ne_call_of_seen {x : Event ι} (hc : within_call c = true) (hx : seen i c pc pc' = some x) (j : ι)
    (url : Bytes) : x ≠ .call j url := by
  rintro rfl
  cases c with
  | call _ | exit => exact absurd hc nofun
  | detached | clock _ => exact absurd hx nofun
  | _ =>
    unfold seen at hx
    split at hx <;> simp_all

variable {turn : Turn} {l l' : Stage × Pc}

/-- The steps of a login. -/
inductive LoginMove (ossl : OpenSSL) (hash : Bytes → ℕ) (cfg : Validator.Config) (i : ι)
    (s : Shared ι) : Turn → Stage × Pc → Shared ι → Stage × Pc → Prop
  | start {token : Bytes} {verdict : Option Verdict} {pc : Pc} (houtside : pc.outside = true) :
      LoginMove ossl hash cfg i s (.start token) (.out verdict, pc) s
        (.discovery token, .get (issuer_info_url cfg.discovery_url))
  | inside {c : Choice} {stage : Stage} {pc pc' : Pc} {s' : Shared ι} (hc : within_call c = true)
      (hback : backend hash i c s pc = some (s', pc')) :
      LoginMove ossl hash cfg i s (.inside c) (stage, pc) s' (stage, pc')
  | keys {token url uri : Bytes} {value : Value} {hit : Option (ℤ × List Put)}
      (huri : jwks_uri value = some uri) :
      LoginMove ossl hash cfg i s .go_on (.discovery token, .returned url value hit) s
        (.keys token, .get uri)
  | refuse {token url : Bytes} {value : Value} {hit : Option (ℤ × List Put)} :
      LoginMove ossl hash cfg i s .go_on (.discovery token, .returned url value hit) s
        (.out (some (refusal token)), .returned url value hit)
  | judge {now : ℤ} {token url : Bytes} {value : Value} {hit : Option (ℤ × List Put)}
      {m m' : Proc} {answer : Bool} (hm : result m.user = ⟨none, false⟩)
      (hjudge : judge ossl cfg now token value m = (.ret answer, m')) :
      LoginMove ossl hash cfg i s (.judge now m) (.keys token, .returned url value hit) s
        (.out (some ⟨token, now, answer, result m'.user⟩), .returned url value hit)
  | give_up {stage : Stage} {token : Bytes} {pc : Pc} :
      LoginMove ossl hash cfg i s .give_up (stage, pc) s (.out (some (refusal token)), pc)
  | exit {stage : Stage} {pc pc' : Pc} {s' : Shared ι}
      (hback : backend hash i .exit s pc = some (s', pc')) :
      LoginMove ossl hash cfg i s .exit (stage, pc) s' (.out none, pc')

theorem backend_call_eq_some {url : Bytes} (h : backend hash i (.call url) s pc = some (s', pc')) :
    pc.outside = true ∧ s' = s ∧ pc' = .get url := by
  have hmove : Move hash i s pc (.call url) s' pc' := call_of_step h
  cases hmove with
  | call houtside => exact ⟨houtside, rfl, rfl⟩

omit [DecidableEq ι] in
theorem end_login_eq_some {now : ℤ} {token : Bytes} {r : Outcome CppException Bool × Proc}
    (h : end_login s pc now token r = some (s', l')) :
    ∃ answer m, r = (.ret answer, m) ∧ s' = s ∧
      l' = (.out (some ⟨token, now, answer, result m.user⟩), pc) := by
  obtain ⟨answer | _ | _ | _, m⟩ := r
  · obtain ⟨rfl, rfl⟩ := Prod.mk.inj (Option.some.inj h)
    exact ⟨answer, m, rfl, rfl, rfl⟩
  · exact absurd h nofun
  · exact absurd h nofun
  · exact absurd h nofun

theorem move_of_go_on (h : login ossl hash cfg i .go_on s l = some (s', l')) :
    LoginMove ossl hash cfg i s .go_on l s' l' := by
  obtain ⟨_ | token | token, pc⟩ := l
  · exact absurd h nofun
  · cases pc with
    | returned url value hit =>
      simp only [login] at h
      rcases huri : jwks_uri value with _ | uri <;> rw [huri] at h
      · obtain ⟨rfl, rfl⟩ := Prod.mk.inj (Option.some.inj h)
        exact .refuse
      · obtain ⟨⟨s₁, pc₁⟩, hback, heq⟩ := Option.map_eq_some_iff.mp h
        obtain ⟨rfl, rfl⟩ := Prod.mk.inj heq
        obtain ⟨-, rfl, rfl⟩ := backend_call_eq_some hback
        exact .keys huri
    | _ => exact absurd h nofun
  · exact absurd h nofun

theorem move_of_judge {now : ℤ} {m : Proc}
    (h : login ossl hash cfg i (.judge now m) s l = some (s', l')) :
    LoginMove ossl hash cfg i s (.judge now m) l s' l' := by
  obtain ⟨_ | token | token, pc⟩ := l
  · exact absurd h nofun
  · exact absurd h nofun
  · cases pc with
    | returned url value hit =>
      simp only [login] at h
      split_ifs at h with hm
      obtain ⟨answer, m', hjudge, rfl, rfl⟩ := end_login_eq_some h
      exact .judge hm hjudge
    | _ => exact absurd h nofun

theorem move_of_login (h : login ossl hash cfg i turn s l = some (s', l')) :
    LoginMove ossl hash cfg i s turn l s' l' := by
  cases turn with
  | start token =>
    obtain ⟨verdict | _ | _, pc⟩ := l
    · -- a login starts only from outside
      obtain ⟨⟨s₁, pc₁⟩, hback, heq⟩ := Option.map_eq_some_iff.mp h
      obtain ⟨rfl, rfl⟩ := Prod.mk.inj heq
      obtain ⟨houtside, rfl, rfl⟩ := backend_call_eq_some hback
      exact .start houtside
    · exact absurd h nofun
    · exact absurd h nofun
  | inside c =>
    obtain ⟨hc, h⟩ := Option.ite_none_right_eq_some.mp h
    obtain ⟨⟨s₁, pc₁⟩, hback, heq⟩ := Option.map_eq_some_iff.mp h
    obtain ⟨rfl, rfl⟩ := Prod.mk.inj heq
    exact .inside hc hback
  | go_on => exact move_of_go_on h
  | judge now m => exact move_of_judge h
  | give_up =>
    obtain ⟨_ | token | token, pc⟩ := l
    · exact absurd h nofun
    · obtain ⟨-, heq⟩ := Option.ite_none_right_eq_some.mp h
      obtain ⟨rfl, rfl⟩ := Prod.mk.inj (Option.some.inj heq)
      exact .give_up
    · obtain ⟨-, heq⟩ := Option.ite_none_right_eq_some.mp h
      obtain ⟨rfl, rfl⟩ := Prod.mk.inj (Option.some.inj heq)
      exact .give_up
  | exit =>
    obtain ⟨⟨s₁, pc₁⟩, hback, heq⟩ := Option.map_eq_some_iff.mp h
    obtain ⟨rfl, rfl⟩ := Prod.mk.inj heq
    exact .exit hback

/-- What a step of a login is to the cache. -/
theorem cache_of_login (h : LoginMove ossl hash cfg i s turn l s' l') :
    (∃ c, (c = .fail_locked → turn = .inside .fail_locked) ∧
        backend hash i c s l.2 = some (s', l'.2) ∧ visible i turn l l' = seen i c l.2 l'.2) ∨
      (s' = s ∧ l'.2 = l.2 ∧ visible i turn l l' = none) := by
  cases h with
  | @start token verdict pc houtside =>
    refine .inl ⟨.call _, nofun, ?_, rfl⟩
    cases pc with
    | idle | returned _ _ _ | failed => rfl
    | _ => exact absurd houtside nofun
  | @inside c stage pc pc' s' hc hback => exact .inl ⟨c, congrArg Turn.inside, hback, rfl⟩
  | keys => exact .inl ⟨.call _, nofun, rfl, rfl⟩
  | refuse => exact .inr ⟨rfl, rfl, rfl⟩
  | judge => exact .inr ⟨rfl, rfl, rfl⟩
  | give_up => exact .inr ⟨rfl, rfl, rfl⟩
  | exit hback => exact .inl ⟨.exit, nofun, hback, rfl⟩

omit [DecidableEq ι] in
theorem justified_refusal (token : Bytes) :
    Justified cfg ossl i (refusal token) history :=
  ⟨fun _ => rfl, nofun⟩

/-- A step inside `get_json`. -/
theorem traced_inside {stage : Stage} (hs : Sound hash s) (hrelies : Relies hash i s pc)
    (hc : within_call c = true) (hback : backend hash i c s pc = some (s', pc'))
    (ht : traced cfg ossl i history (stage, pc))
    (hcurrent : ∀ url value, seen i c pc pc' = some (.ret i url value) →
      Current i url value history) :
    traced cfg ossl i ((seen i c pc pc').toList ++ history) (stage, pc') := by
  have hmove := move_of_step hs hrelies hback
  -- a step inside shows no call, so that what was since the last call still is
  have hcons : ∀ {P : Event ι → List (Event ι) → Prop}, Since i P history →
      Since i P ((seen i c pc pc').toList ++ history) := by
    intro P hsince
    rcases hseen : seen i c pc pc' with _ | x
    · exact hsince
    · exact hsince.cons (ne_call_of_seen hc hseen i)
  obtain (_ | verdict) | token | token := stage
  · trivial
  · refine ⟨ht.1, fun htrue => ?_⟩
    obtain ⟨jwks_info, hobtained, hvouched⟩ := ht.2 htrue
    exact ⟨jwks_info, hcons hobtained, hvouched⟩
  · obtain ⟨hcalled, -⟩ := ht
    refine ⟨hcons hcalled, fun url value hit hpc => ?_⟩
    have hseen := seen_of_returned hmove hpc
    have hvalue := hcurrent url value hseen
    obtain rfl := Called.unique hcalled hvalue.1
    rw [hseen]
    exact .now ⟨rfl, hvalue⟩
  · obtain ⟨⟨uri, hasked⟩, -⟩ := ht
    refine ⟨⟨uri, hcons hasked⟩, fun url value hit hpc => ?_⟩
    have hseen := seen_of_returned hmove hpc
    have hvalue := hcurrent url value hseen
    obtain rfl := Called.unique hasked.called hvalue.1
    rw [hseen]
    exact .now ⟨_, rfl, hvalue, hasked⟩

/-- A step of a login. -/
theorem traced_own (hs : Sound hash s) (hrelies : Relies hash i s l.2)
    (h : LoginMove ossl hash cfg i s turn l s' l') (ht : traced cfg ossl i history l)
    (hcurrent : ∀ url value, visible i turn l l' = some (.ret i url value) →
      Current i url value history) :
    traced cfg ossl i ((visible i turn l l').toList ++ history) l' := by
  cases h with
  | start => exact ⟨.now rfl, fun _ _ _ => nofun⟩
  | inside hc hback => exact traced_inside hs hrelies hc hback ht hcurrent
  | @keys token url uri value hit huri =>
    exact ⟨⟨uri, .now ⟨rfl, value, huri, ht.2 url value hit rfl⟩⟩, fun _ _ _ => nofun⟩
  | refuse => exact justified_refusal _
  | @judge now token url value hit m m' answer hm hjudge =>
    obtain ⟨hfalse, htrue⟩ := judge_sound (congrArg ValidatorModuleResult.authorized hm) hjudge
    exact ⟨hfalse, fun hanswer => ⟨value, ht.2 url value hit rfl, htrue hanswer⟩⟩
  | give_up => exact justified_refusal _
  | exit => trivial

/-- No backend is seen to call for another. -/
theorem ne_call_of_visible {x : Event ι} (h : LoginMove ossl hash cfg i s turn l s' l')
    (hx : visible i turn l l' = some x) (hij : j ≠ i) (url : Bytes) : x ≠ .call j url := by
  cases h with
  | start | keys =>
    obtain rfl := Option.some.inj hx
    intro heq
    exact hij (Event.call.inj heq).1.symm
  | inside hc => exact ne_call_of_seen hc hx j url
  | refuse | judge | give_up | exit => exact absurd hx nofun

end Step

/-! ## Every run -/

section Runs

variable [DecidableEq ι] {g g' : Config ι (Shared ι) (Stage × Pc)}

/-- What is true of a history and the logins that have shown it. -/
structure Known (ossl : OpenSSL) (hash : Bytes → ℕ) (cfg : Validator.Config)
    (history : List (Event ι)) (g : Config ι (Shared ι) (Stage × Pc)) : Prop where
  run : (cache hash).Run init history (inside g)
  stages : ∀ i, traced cfg ossl i history (g.locals i)

theorem inside_update (s : Shared ι) (i : ι) (l : Stage × Pc) :
    inside ⟨s, Function.update g.locals i l⟩ =
      ⟨s, Function.update (inside g).locals i l.2⟩ :=
  congrArg (Config.mk s) (funext (Function.apply_update (fun _ => Prod.snd) g.locals i l))

theorem Known.step {o : Option (Event ι)} (h : Known ossl hash cfg history g)
    (hstep : (logins ossl hash cfg).step g o g') : Known ossl hash cfg (o.toList ++ history) g' := by
  obtain ⟨i, turn, hstep, rfl⟩ := hstep
  obtain ⟨s', l', hlogin, rfl⟩ := step_eq_some.mp hstep
  dsimp only
  rw [Function.update_self]
  have hmove := move_of_login hlogin
  have hg := (agree_of_run h.run).1
  -- to the cache, the turn is a step of its own or nothing
  have hcache : (cache hash).Run init
      ((visible i turn (g.locals i) l').toList ++ history)
      (inside ⟨s', Function.update g.locals i l'⟩) := by
    obtain ⟨c, -, hback, hseen⟩ | ⟨rfl, hpc, hseen⟩ := cache_of_login hmove
    · rw [hseen]
      refine h.run.tail ⟨i, c, ?_, ?_⟩
      · rw [inside_update]
        exact step_eq_some.mpr ⟨s', l'.2, hback, rfl⟩
      · rw [inside_update]
        dsimp only
        rw [Function.update_self]
        rfl
    · rw [hseen, inside_update, hpc]
      have hself : (⟨g.shared, Function.update (inside g).locals i (g.locals i).2⟩ :
          Config ι (Shared ι) Pc) = inside g := by
        have heq : Function.update (inside g).locals i (g.locals i).2 = (inside g).locals :=
          Function.update_eq_self i _
        rw [heq]
        rfl
      rw [hself]
      exact h.run
  refine ⟨hcache, fun j => ?_⟩
  dsimp only
  by_cases hji : j = i
  · subst hji
    rw [Function.update_self]
    refine traced_own hg.1 (hg.2 j) hmove (h.stages j) fun url value hret => ?_
    rw [hret] at hcache
    exact justified_of_shows hash ⟨init, _, rfl, hcache⟩ [] _ _ rfl j url value rfl
  · rw [Function.update_of_ne hji]
    rcases hvisible : visible i turn (g.locals i) l' with _ | x
    · exact h.stages j
    · exact traced.cons (h.stages j) (ne_call_of_visible hmove hvisible hji)

theorem known_of_run {history : List (Event ι)} (h : (logins ossl hash cfg).Run start history g) :
    Known ossl hash cfg history g :=
  have hstart : Known ossl hash cfg [] (start (ι := ι)) := ⟨.refl, fun _ => trivial⟩
  h.keeps (fun hI hstep => Known.step hI hstep) hstart

/-- **Nobody is let in on a document that was not there.** Whatever any number of backends do,
in whatever order, and whatever fails: a verdict that refuses comes with `authorized` unset, and
one that accepts rests on a JWKS that `get_json` has given this login for the `jwks_uri` of the
discovery document that it had given this login before; both were current in the sense of
[`Current`], and that JWKS vouches for the token, its identity and the decision. -/
theorem logins_are_justified (ossl : OpenSSL) (hash : Bytes → ℕ) (cfg : Validator.Config)
    {history : List (Event ι)} (h : (logins ossl hash cfg).Run start history g) {i : ι}
    {verdict : Verdict} {pc : Pc} (hi : g.locals i = (.out (some verdict), pc)) :
    Justified cfg ossl i verdict history := by
  have htraced := (known_of_run h).stages i
  rw [hi] at htraced
  exact htraced

end Runs

/-! ## A login -/

/-- The backends of alice's provider. -/
abbrev provided : Threads Bool Turn (Shared Bool) (Stage × Pc) :=
  login (Acceptance.openssl_for [Acceptance.alice]) List.length Acceptance.provider_config

/-- The machine that judges alice's token. -/
def judging_machine : Proc :=
  { Acceptance.login_machine with
    user := with_result (fun _ => ⟨none, false⟩) Acceptance.login_machine.user }

/-- One backend logs alice in, with an empty cache. -/
def alice_schedule : List (Bool × Turn) :=
  [.start Acceptance.alice.token, .inside .go, .inside (.transfer (Acceptance.provider 0)),
      .inside .go, .go_on, .inside .go, .inside (.transfer (Acceptance.provider 1)), .inside .go,
      .judge 0 judging_machine].map (Prod.mk false)

/-- The verdict on alice's token. -/
def alice_verdict : Verdict := ⟨Acceptance.alice.token, 0, true, ⟨some (bytes "alice"), true⟩⟩

/-- The last verdict of a backend. -/
def Stage.verdict : Stage → Option Verdict
  | .out verdict => verdict
  | _ => none

theorem eq_out_of_verdict {stage : Stage} {verdict : Verdict} (h : stage.verdict = some verdict) :
    stage = .out (some verdict) := by
  cases stage with
  | out verdict' => exact congrArg Stage.out h
  | _ => exact absurd h nofun

theorem logins_are_justified_alice :
    ∃ history jwks_info, Obtained Acceptance.provider_config false jwks_info history ∧
      Vouched (Acceptance.openssl_for [Acceptance.alice]) Acceptance.provider_config alice_verdict
        jwks_info := by
  have hverdict : ((run (login (Acceptance.openssl_for [Acceptance.alice]) List.length
      Acceptance.provider_config) alice_schedule start).bind fun g =>
        (g.locals false).1.verdict) = some alice_verdict := by decide +kernel
  obtain ⟨g, hrun, hend⟩ := Option.bind_eq_some_iff.mp hverdict
  have hi : g.locals false = (.out (some alice_verdict), (g.locals false).2) :=
    Prod.ext (eq_out_of_verdict hend) rfl
  obtain ⟨jwks_info, hobtained, hvouched⟩ :=
    (logins_are_justified _ List.length _ (run_shown hrun) hi).2 rfl
  exact ⟨_, jwks_info, hobtained, hvouched⟩

end OidcValidator.Logins
