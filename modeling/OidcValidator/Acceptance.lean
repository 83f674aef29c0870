/-
`Acceptance.lean` -- what follows from the answer of `validate_token`.

A `false` never comes with `authorized` set: the assignments at the top deny, and after
the one that may allow there is no way left to answer `false`.

A `true` means that every check was made and passed. The checks are collected in
[`Accepted`], read off the run backwards from the answer.
-/
import OidcValidator.Validator

set_option autoImplicit false

namespace OidcValidator.Acceptance

open OidcValidator.ByteString OidcValidator.Control OidcValidator.PgUtils
open OidcValidator.HttpClient OidcValidator.Picojson OidcValidator.Jwt OidcValidator.Jwk
open OidcValidator.Validator

/-! ## A refusal denies -/

/-- `res->authorized` is not set. -/
def Denied (u : World) : Prop := (result u).authorized = false

theorem Denied.invariant {α : Type} {p : Cpp α} (h : Framed result p) : Invariant Denied p := by
  intro m hm
  have hend := h.preserves (result m.user) m rfl
  rcases hpm : p m with ⟨_ | _ | _ | _, m₁⟩ <;> rw [hpm] at hend <;>
    exact (congrArg ValidatorModuleResult.authorized hend).trans hm

theorem denied_verified_token (ossl : OpenSSL) (hash : Bytes → ℕ) (cfg : Config) (now : ℤ)
    (token : Bytes) :
    Triple (fun _ => True) (verified_token ossl hash cfg now token) (fun _ => Denied)
      (fun _ => Denied) :=
  triple_assign_result (R := Denied) (fun _ _ => rfl)
    (Denied.invariant (framed_obtain_token ossl hash cfg now token))

/-- What the block does to the state, by the way it is left. -/
def IdentifyPost (cfg : Config) (payload : Object) : Leave Unit Bool → World → Prop
  | .ret r, u => r = false ∧ Denied u
  | .fall _, u => Denied u ∧ ∃ v, payload.find cfg.authn_field = some v
      ∧ (result u).authn_id = some (c_str v.to_str)

theorem triple_identify (cfg : Config) (payload : Object) :
    Triple Denied (identify cfg payload) (IdentifyPost cfg payload) (fun _ => Denied) := by
  refine Triple.pg_try_block (Y := fun _ => Denied) ?_ ?_ (fun _ _ h => h)
  · unfold identify_body
    rcases hv : payload.find cfg.authn_field with _ | v
    · refine Triple.bind (Denied.invariant Framed.alloc) fun _ => ?_
      refine Triple.bind (Denied.invariant (Framed.elog _ _)) fun _ => ?_
      exact Triple.pure fun _ h => ⟨rfl, h⟩
    · refine Triple.bind (Denied.invariant Framed.alloc) fun _ => ?_
      refine Triple.bind (Denied.invariant Framed.call) fun _ => ?_
      refine triple_assign_result (R := fun u => Denied u
        ∧ (result u).authn_id = some (c_str v.to_str)) (fun _ h => ⟨h, rfl⟩) ?_
      exact Triple.pure fun _ h => ⟨h.1, v, hv, h.2⟩
  · refine Triple.bind (Denied.invariant (Framed.elog _ _)) fun _ => ?_
    exact Triple.pure fun _ h => ⟨rfl, h⟩

/-- The end of the function answers `true`, with the decision in `*res`; only before the
decision, or after a decision to deny, can it still throw. -/
theorem triple_authorize (cfg : Config) (jwt : DecodedJwt) (id : Option Bytes) :
    Triple (fun u => Denied u ∧ (result u).authn_id = id) (authorize cfg jwt)
      (fun r u => r = true ∧ result u = ⟨id, decision cfg jwt⟩)
      (fun x u => x = .throw → Denied u) := by
  have hremark : Triple (fun u => result u = ⟨id, false⟩) (azure_remark cfg)
      (fun _ u => result u = ⟨id, false⟩) (fun x u => x = .throw → Denied u) :=
    ((framed_azure_remark cfg).preserves ⟨id, false⟩).consequence (fun _ h => h) (fun _ _ h => h)
      fun _ _ h _ => congrArg ValidatorModuleResult.authorized h
  refine Triple.bind (hremark.consequence ?_ (fun _ _ h => h) fun _ _ h => h) fun _ => ?_
  · rintro u ⟨hd, rfl⟩
    exact congrArg (ValidatorModuleResult.mk _) hd
  -- behind the assignment only the remark on a denied login can still throw
  refine triple_assign_result (R := fun u => result u = ⟨id, decision cfg jwt⟩) ?_ ?_
  · intro u hu
    rw [result_with_result, hu]
  refine Triple.bind (R := fun _ u => result u = ⟨id, decision cfg jwt⟩) ?_ fun _ => ?_
  · refine Triple.get_bind fun u hu => Triple.ite (fun _ => ?_) fun hdenied => ?_
    · exact Triple.elog (fun _ h => h ▸ hu) (fun _ _ => nofun) fun _ _ => nofun
    · have hden : Denied u := Bool.eq_false_iff.mpr hdenied
      refine Triple.bind (R := fun _ v => v = u) ?_ fun _ => ?_
      · exact Triple.alloc (fun _ h => h) fun _ h _ => h ▸ hden
      · exact Triple.elog (fun _ h => h ▸ hu) (fun _ _ => nofun) fun _ _ => nofun
  · exact Triple.pure fun _ h => ⟨rfl, h⟩

theorem denied_after_verification (cfg : Config) (o : Option DecodedJwt) :
    Triple Denied (after_verification cfg o) (fun r u => r = false → Denied u)
      (fun x u => x = .throw → Denied u) := by
  cases o with
  | none => exact Triple.pure fun _ h _ => h
  | some jwt =>
    refine Triple.bind ((triple_identify cfg jwt.payload_claims).consequence (fun _ h => h)
      (fun _ _ h => h) fun _ _ h _ => h) fun leave => ?_
    cases leave with
    | ret r => exact Triple.pure fun _ h _ => h.2
    | fall a =>
      intro m hm
      refine (triple_authorize cfg jwt (result m.user).authn_id).consequence (P := fun u => u = m.user)
        ?_ ?_ (fun _ _ h => h) m rfl
      · rintro _ rfl
        exact ⟨hm.1, rfl⟩
      · rintro r u ⟨rfl, -⟩
        exact nofun

theorem report_false (ex : CppException) :
    Triple Denied (report ex) (fun r u => r = false ∧ Denied u) (fun _ _ => True) := by
  have hend : Triple Denied (pure false : Cpp Bool) (fun r u => r = false ∧ Denied u)
      (fun _ _ => True) := Triple.pure fun _ h => ⟨rfl, h⟩
  have helog : ∀ msg, Triple Denied (elog .WARNING msg >>= fun _ => pure false : Cpp Bool)
      (fun r u => r = false ∧ Denied u) (fun _ _ => True) := fun msg =>
    Triple.bind ((Denied.invariant (Framed.elog _ _)).consequence (fun _ h => h) (fun _ _ h => h)
      fun _ _ _ => trivial) fun _ => hend
  exact Triple.ite (fun _ => helog _) fun _ => helog _

theorem denied_body (ossl : OpenSSL) (hash : Bytes → ℕ) (cfg : Config) (now : ℤ)
    (token : Bytes) :
    Triple (fun _ => True) (verified_token ossl hash cfg now token >>= after_verification cfg)
      (fun r u => r = false → Denied u) (fun x u => x = .throw → Denied u) :=
  Triple.bind ((denied_verified_token ossl hash cfg now token).consequence (fun _ h => h)
    (fun _ _ h => h) fun _ _ h _ => h) fun o => denied_after_verification cfg o

/-- A `false` comes with `authorized` unset. -/
theorem denied_validate_token (ossl : OpenSSL) (hash : Bytes → ℕ) (cfg : Config) (now : ℤ)
    (token : Bytes) :
    Triple (fun _ => True) (validate_token ossl hash cfg now token)
      (fun r u => r = false → Denied u) (fun _ _ => True) := by
  refine Triple.try_catch (denied_body ossl hash cfg now token) (fun ex => ?_)
    (fun _ _ => trivial) fun _ _ => trivial
  exact (report_false ex).consequence (fun _ h => h rfl) (fun _ _ h _ => h.2) fun _ _ h => h

/-! ## An acceptance means -/

/-- The JWKS document is one that `get_json` returned for the `jwks_uri` of a discovery
document that `get_json` returned. -/
def Fetched (hash : Bytes → ℕ) (cfg : Config) (jwks_info : Value) : Prop :=
  ∃ (m₁ m₂ m₃ m₄ : Proc) (issuer_object : Object) (jwks_uri : Value),
    get_json hash (issuer_info_url cfg.discovery_url) m₁ = (.ret (.object issuer_object), m₂) ∧
      issuer_object.find (bytes "jwks_uri") = some jwks_uri ∧
      get_json hash jwks_uri.to_str m₃ = (.ret jwks_info, m₄)

/-- The name of the one algorithm that a JWK determines. -/
def algorithm_name (key_object : Object) : Bytes :=
  if key_alg key_object = [] then bytes "RS256" else key_alg key_object

/-- `key_object` is the first entry of the JWKS with use `sig` and the `kid` of the token,
its parameters are an accepted combination, the token is signed with the algorithm they
stand for, and the signature over header and payload is accepted with its material. -/
structure SignedBy (ossl : OpenSSL) (jwks_info : Value) (jwt : DecodedJwt) (key_object : Object) :
    Prop where
  first : ∃ (jwks_object : Object) (before after : List Value) (kid : Bytes),
    jwks_info = .object jwks_object ∧
      jwks_object.find (bytes "keys") = some (.array (before ++ .object key_object :: after)) ∧
      jwt.header_claims.find (bytes "kid") = some (.string kid) ∧
      (∀ k ∈ before, wanted kid k = false) ∧
      key_object.find (bytes "use") = some (.string (bytes "sig")) ∧
      (key_object.find (bytes "kid")).map Value.to_str = some kid
  verified : ∃ kty a key,
    (key_object.find (bytes "kty")).map Value.to_str = some kty ∧
      Combination ((key_object.find (bytes "crv")).map Value.to_str) kty (key_alg key_object) a ∧
      Material ossl key_object kty key ∧
      jwt.header_claims.find (bytes "alg") = some (.string a.name) ∧
      a.name = algorithm_name key_object ∧
      Algorithm.verify ossl ⟨a, key⟩ (jwt.header_base64 ++ 46 :: jwt.payload_base64)
        jwt.signature = none

/-- What every accepted token satisfies. -/
structure Accepted (ossl : OpenSSL) (cfg : Config) (now : ℤ) (token : Bytes) (jwks_info : Value)
    (jwt : DecodedJwt) : Prop where
  decoded : decode token = .ok jwt
  split : token = jwt.header_base64 ++ 46 :: (jwt.payload_base64 ++ 46 :: jwt.signature_base64)
  signed : ∃ key_object, SignedBy ossl jwks_info jwt key_object
  issuer : ∃ iss, expected_issuer cfg.oauth_issuer = .ok iss ∧
    jwt.payload_claims.find (bytes "iss") = some (.string iss)
  exp : DateOk jwt.payload_claims (bytes "exp") (fun d => decide (d < now))
  iat : DateOk jwt.payload_claims (bytes "iat") (fun d => decide (now < d))
  nbf : DateOk jwt.payload_claims (bytes "nbf") (fun d => decide (now < d))

theorem Combination.name_eq {crv : Option Bytes} {kty : Bytes} {key_object : Object} {a : Alg}
    (h : Combination crv kty (key_alg key_object) a) : a.name = algorithm_name key_object := by
  have hne : ∀ b : Alg, b.name ≠ [] := by
    intro b
    cases b <;> decide
  unfold algorithm_name
  generalize key_alg key_object = alg at h
  cases h with
  | rsa _ h => rw [if_neg (hne _)]
  | rsa_default => rfl
  | es256 h => rfl
  | es384 h => rfl
  | es512 h => rfl
  | oct _ h => rw [if_neg (hne _)]

/-- The document and the entry behind a verifier that was configured with a key. -/
theorem signedBy_of_verify {ossl : OpenSSL} {issuer kid : Bytes} {jwks_info : Value}
    {verifier : Verifier} {jwt : DecodedJwt} {now : ℤ}
    (hkid : jwt.header_claims.find (bytes "kid") = some (.string kid))
    (hconf : configure_verifier_with_jwks ossl issuer jwks_info kid = .ok verifier)
    (hver : verifier.verify ossl jwt now = .ok ()) :
    (∃ key_object, SignedBy ossl jwks_info jwt key_object) ∧
      (∃ iss, expected_issuer issuer = .ok iss ∧
        jwt.payload_claims.find (bytes "iss") = some (.string iss)) ∧
      DateOk jwt.payload_claims (bytes "exp") (fun d => decide (d < now)) ∧
      DateOk jwt.payload_claims (bytes "iat") (fun d => decide (now < d)) ∧
      DateOk jwt.payload_claims (bytes "nbf") (fun d => decide (now < d)) := by
  obtain ⟨iss, jwks_object, keys, hiss, rfl, hkeys, hconf⟩ :=
    configure_verifier_with_jwks_eq_ok hconf
  obtain ⟨rfl, -⟩ | ⟨before, key_object, after, rfl, hbefore, hsel, hkey⟩ :=
    configure_keys_eq_ok hconf
  · -- no key was configured, so the verifier knows no algorithm
    obtain ⟨⟨a, -, hfind, -⟩, -⟩ := verify_with_issuer_eq_ok.mp hver
    exact absurd hfind nofun
  · obtain ⟨kty, hkty, a, key, hcomb, hmat, rfl⟩ := configure_key_eq_ok hkey
    -- the verifier has one algorithm, which is the one it takes
    have hver' : (⟨(Jwt.verify.with_issuer iss).claims, [⟨a, key⟩]⟩ : Verifier).verify ossl jwt
        now = .ok () := hver
    obtain ⟨⟨b, hname, hfind, hsig⟩, hexp, hiat, hnbf, hissuer⟩ :=
      verify_with_issuer_eq_ok.mp hver'
    obtain rfl : b = ⟨a, key⟩ := List.mem_singleton.mp (List.mem_of_find?_eq_some hfind)
    unfold selected at hsel
    rw [Bool.and_eq_true, decide_eq_true_eq, decide_eq_true_eq] at hsel
    obtain ⟨use, huse, hsigtext⟩ := Option.map_eq_some_iff.mp hsel.1
    -- no other value has the text `sig`
    have hstring : use = .string (bytes "sig") :=
      Value.eq_string_of_to_str hsigtext rfl (by decide)
    refine ⟨⟨key_object, ⟨jwks_object, before, after, kid, rfl, hkeys, hkid, hbefore, ?_,
      hsel.2⟩, ⟨kty, a, key, hkty, hcomb, hmat, hname, Combination.name_eq hcomb, hsig⟩⟩,
      ⟨iss, hiss, hissuer⟩, hexp, hiat, hnbf⟩
    rw [huse, hstring]

theorem refuse_eq_ret {α : Type} {msg : Bytes} {m m' : Proc} {o : Option α}
    (h : refuse msg m = (.ret o, m')) : o = none := by
  obtain ⟨_, m₁, -, h⟩ := bind_eq_ret.mp h
  exact (Outcome.ret.inj (congrArg Prod.fst h)).symm

theorem fetch_jwks_eq_ret {hash : Bytes → ℕ} {cfg : Config} {m m' : Proc} {jwks_info : Value}
    (h : fetch_jwks hash cfg m = (.ret (some jwks_info), m')) : Fetched hash cfg jwks_info := by
  obtain ⟨issuer_info, m₁, hinfo, h⟩ := bind_eq_ret.mp h
  cases issuer_info with
  | object issuer_object =>
    dsimp only at h
    rcases huri : Object.find issuer_object (bytes "jwks_uri") with _ | jwks_uri
    · rw [huri] at h
      exact absurd (refuse_eq_ret h) nofun
    · rw [huri] at h
      dsimp only at h
      split_ifs at h
      · exact absurd (refuse_eq_ret h) nofun
      · -- the only way to a JWKS: a `jwks_uri` that is a string
        obtain ⟨jwks, m₂, hjwks, h⟩ := bind_eq_ret.mp h
        obtain rfl := Option.some.inj (Outcome.ret.inj (congrArg Prod.fst h))
        exact ⟨m, m₁, m₁, m₂, issuer_object, jwks_uri, hinfo, huri, hjwks⟩
  | null => exact absurd (refuse_eq_ret h) nofun
  | boolean b => exact absurd (refuse_eq_ret h) nofun
  | number x => exact absurd (refuse_eq_ret h) nofun
  | string t => exact absurd (refuse_eq_ret h) nofun
  | array a => exact absurd (refuse_eq_ret h) nofun
  | int64 i => exact absurd (refuse_eq_ret h) nofun

/-- A token that passes `check_token` has been decoded, and the verifier configured for its
`kid` has accepted it. -/
theorem check_token_eq_ret {ossl : OpenSSL} {cfg : Config} {now : ℤ} {token : Bytes}
    {jwks_info : Value} {m m' : Proc} {jwt : DecodedJwt}
    (h : check_token ossl cfg now token jwks_info m = (.ret jwt, m')) :
    decode token = .ok jwt ∧ ∃ kid verifier,
      jwt.header_claims.find (bytes "kid") = some (.string kid) ∧
      configure_verifier_with_jwks ossl cfg.oauth_issuer jwks_info kid = .ok verifier ∧
      verifier.verify ossl jwt now = .ok () := by
  obtain ⟨jwt', m₁, hdecode, h⟩ := bind_eq_ret.mp h
  obtain ⟨kid, m₂, hkid, h⟩ := bind_eq_ret.mp h
  obtain ⟨hdecode, -⟩ := of_except_eq_ret.mp hdecode
  obtain ⟨hkid, -⟩ := of_except_eq_ret.mp hkid
  -- the branches differ in a line of the log
  have hrest : ∀ {m₃ : Proc}, (do
      let verifier ← of_except (configure_verifier_with_jwks ossl cfg.oauth_issuer jwks_info kid)
      of_except (verifier.verify ossl jwt' now)
      pure jwt' : Cpp DecodedJwt) m₃ = (.ret jwt, m') →
      decode token = .ok jwt ∧ ∃ kid verifier,
        jwt.header_claims.find (bytes "kid") = some (.string kid) ∧
        configure_verifier_with_jwks ossl cfg.oauth_issuer jwks_info kid = .ok verifier ∧
        verifier.verify ossl jwt now = .ok () := by
    intro m₃ h
    obtain ⟨verifier, m₄, hconf, h⟩ := bind_eq_ret.mp h
    obtain ⟨_, m₅, hver, h⟩ := bind_eq_ret.mp h
    obtain rfl := Outcome.ret.inj (congrArg Prod.fst h)
    exact ⟨hdecode, kid, verifier, get_claim_as_string_eq_ok.mp hkid,
      (of_except_eq_ret.mp hconf).1, (of_except_eq_ret.mp hver).1⟩
  split_ifs at h
  · obtain ⟨_, m₃, -, h⟩ := bind_eq_ret.mp h
    exact hrest h
  · exact hrest h

theorem verified_token_eq_ret {ossl : OpenSSL} {hash : Bytes → ℕ} {cfg : Config} {now : ℤ}
    {token : Bytes} {m m' : Proc} {jwt : DecodedJwt}
    (h : verified_token ossl hash cfg now token m = (.ret (some jwt), m')) :
    ∃ jwks_info, Fetched hash cfg jwks_info ∧ Accepted ossl cfg now token jwks_info jwt := by
  obtain ⟨_, _, -, h⟩ := bind_eq_ret.mp h
  obtain ⟨jwks_info, m₁, hdocs, h⟩ := bind_eq_ret.mp h
  obtain ⟨_, _, -, hdocs⟩ := bind_eq_ret.mp hdocs
  obtain ⟨_, _, -, hdocs⟩ := bind_eq_ret.mp hdocs
  obtain ⟨_, _, -, hfetch⟩ := bind_eq_ret.mp hdocs
  cases jwks_info with
  | none => exact absurd (congrArg Prod.fst h) nofun
  | some jwks_info =>
    obtain ⟨jwt', m₂, hcheck, h⟩ := bind_eq_ret.mp h
    obtain ⟨_, _, -, h⟩ := bind_eq_ret.mp h
    obtain ⟨_, _, -, h⟩ := bind_eq_ret.mp h
    obtain ⟨_, _, -, h⟩ := bind_eq_ret.mp h
    obtain rfl := Option.some.inj (Outcome.ret.inj (congrArg Prod.fst h))
    -- behind the check there are only two allocations and a remark
    obtain ⟨hdecode, kid, verifier, hkid, hconf, hver⟩ := check_token_eq_ret hcheck
    obtain ⟨hsigned, hissuer, hexp, hiat, hnbf⟩ := signedBy_of_verify hkid hconf hver
    exact ⟨jwks_info, fetch_jwks_eq_ret hfetch,
      ⟨hdecode, (decode_eq_ok hdecode).1, hsigned, hissuer, hexp, hiat, hnbf⟩⟩

/-- A run that answers `true` has gone through every stage. -/
theorem validate_token_eq_true {ossl : OpenSSL} {hash : Bytes → ℕ} {cfg : Config} {now : ℤ}
    {token : Bytes} {m m' : Proc}
    (h : validate_token ossl hash cfg now token m = (.ret true, m')) :
    ∃ jwks_info jwt v, Fetched hash cfg jwks_info ∧
      Accepted ossl cfg now token jwks_info jwt ∧
      jwt.payload_claims.find cfg.authn_field = some v ∧
      result m'.user = ⟨some (c_str v.to_str), decision cfg jwt⟩ := by
  obtain h | ⟨ex, m₁, hbody, h⟩ := try_catch_eq_ret h
  · obtain ⟨o, m₁, htoken, h⟩ := bind_eq_ret.mp h
    have hden : Denied m₁.user :=
      (denied_verified_token ossl hash cfg now token).of_eq_ret trivial htoken
    cases o with
    -- an early `return false`
    | none => exact absurd (Outcome.ret.inj (congrArg Prod.fst h)) nofun
    | some jwt =>
      obtain ⟨jwks_info, hfetch, hacc⟩ := verified_token_eq_ret htoken
      obtain ⟨leave, m₂, hident, h⟩ := bind_eq_ret.mp h
      have hpost := (triple_identify cfg jwt.payload_claims).of_eq_ret hden hident
      cases leave with
      -- a `return false` from the block
      | ret r =>
        obtain rfl := hpost.1
        exact absurd (Outcome.ret.inj (congrArg Prod.fst h)) nofun
      | fall a =>
        obtain ⟨hden₂, v, hv, hid⟩ := hpost
        have hauth := (triple_authorize cfg jwt _).of_eq_ret ⟨hden₂, hid⟩ h
        exact ⟨jwks_info, jwt, v, hfetch, hacc, hv, hauth.2⟩
  · -- the handler reports and returns `false`
    have hden : Denied m₁.user := by
      have hend := denied_body ossl hash cfg now token m trivial
      rw [hbody] at hend
      exact hend rfl
    exact absurd ((report_false ex).of_eq_ret hden h).1 nofun

/-- A response with this body. -/
def document (body : String) : Response where
  headers := [bytes "HTTP/1.1 200 OK\r\n", bytes "\r\n"]
  body := [bytes body]
  error := none
  response_code := 200

/-- What the provider answers: its discovery document, then its JWKS. -/
def provider : ℕ → Response
  | 0 => document "\x7b\"jwks_uri\":\"https://idp/keys\"\x7d"
  | _ => document ("\x7b\"keys\":[\x7b\"kty\":\"oct\",\"use\":\"sig\",\"kid\":\"k1\"," ++
      "\"alg\":\"HS256\",\"k\":\"secret\"\x7d]\x7d")

/-- A backend that has not attached to the cache yet, with nothing failing. -/
def login_machine : Proc where
  exception_stack := some 0
  error_data := []
  memory_context := .other 0
  next_buffer := 1
  next_error := 0
  faults _ := .none
  ticks := 0
  log := []
  user :=
    { table := Dshash.Table.empty, held := [], trace := [], failures := fun _ => .none,
      memory := HttpCache.blank_entry, segment := some ⟨none, none⟩, state_lock := false,
      next_handle := 0,
      rest :=
        { cache_ := none, clock := fun _ => 0, clock_reads := 0,
          rest :=
            { curl := true, responses := provider, transfers := 0, last_max_age_ := none,
              rest := ⟨none, true⟩ } } }

/-- The provider's line of `pg_hba.conf`, without a scope. -/
def provider_config : Config := ⟨[], bytes "https://idp", bytes "sub", none⟩

/-- A token and the HMAC-SHA256 of its first two parts under the provider's secret. -/
structure SignedToken where
  signing_input : Bytes
  mac : Bytes
  signature : Bytes

/-- The token as it is sent. -/
def SignedToken.token (t : SignedToken) : Bytes := t.signing_input ++ 46 :: t.signature

/-- An OpenSSL that knows the HMACs of these tokens. -/
def openssl_for (tokens : List SignedToken) : OpenSSL :=
  OpenSSL.of_macs (tokens.map fun t => ((.HS256, bytes "secret", t.signing_input), t.mac))

/-- The answer to a token and what is left in `*res`. -/
def login (cfg : Config) (t : SignedToken) : Outcome CppException Bool × ValidatorModuleResult :=
  let r := validate_token (openssl_for [t]) List.length cfg 0 t.token login_machine
  (r.1, result r.2.user)

/-- The token of `{"iss":"https://idp","sub":"alice"}`. -/
def alice : SignedToken where
  signing_input := bytes "eyJhbGciOiJIUzI1NiIsImtpZCI6ImsxIn0." ++
    bytes "eyJpc3MiOiJodHRwczovL2lkcCIsInN1YiI6ImFsaWNlIn0"
  mac := [
    189, 41, 24, 168, 29, 232, 83, 34, 220, 31, 2, 121, 114, 48, 74, 181, 254, 96, 47, 142,
    112, 188, 49, 98, 199, 30, 170, 78, 108, 53, 185, 168]
  signature := bytes "vSkYqB3oUyLcHwJ5cjBKtf5gL45wvDFixx6qTmw1uag"

end OidcValidator.Acceptance
