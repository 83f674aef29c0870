/-
`Validator.lean` -- `pg_oidc_validator.cpp`: `validate_token`.

The function is one long body under a function-level `catch`. It is cut here at the
places where its control flow changes: up to the `PG_TRY` block everything leaves by a
`return false` or by an exception ([`verified_token`]); the block itself can also be left by a
`return` from inside it ([`identify`]); behind it the decision is made ([`authorize`]).

A `const char*` that PostgreSQL hands over -- the token, the settings, the fields of
`pg_hba.conf` -- is the C string it points to.
-/
import OidcValidator.HttpClient
import OidcValidator.Jwk

set_option autoImplicit false

namespace OidcValidator.Validator

open OidcValidator.ByteString OidcValidator.Control OidcValidator.PgUtils
open OidcValidator.HttpCache (attach)
open OidcValidator.HttpClient OidcValidator.Picojson OidcValidator.Jwt OidcValidator.Jwk
open OidcValidator.StdSet (SortedSet)

/-! ## State and settings -/

/-- `ValidatorModuleResult`. -/
structure ValidatorModuleResult where
  authn_id : Option Bytes
  authorized : Bool
  deriving DecidableEq

/-- What `validate_token` reads: `oauth_scope` and `oauth_issuer` of the `pg_hba.conf`
line, and the two settings of the module. -/
structure Config where
  oauth_scope : Bytes
  oauth_issuer : Bytes
  authn_field : Bytes
  discovery_url_override : Option Bytes

/-- A backend with the cache, a client and the result struct. -/
abbrev World := ClientWorld ValidatorModuleResult

/-- Programs of this file. -/
abbrev Cpp (α : Type) := Prog CppException World α

/-- The machine they run on. -/
abbrev Proc := Machine CppException World

/-- `*res`. -/
def result (u : World) : ValidatorModuleResult := u.rest.rest.rest

/-- The state with a new `*res`. -/
def with_result (f : ValidatorModuleResult → ValidatorModuleResult) (u : World) : World :=
  { u with rest := { u.rest with rest := { u.rest.rest with rest := f u.rest.rest.rest } } }

@[simp] theorem result_with_result (f : ValidatorModuleResult → ValidatorModuleResult) (u : World) :
    result (with_result f u) = f (result u) := rfl

/-- Write to `*res`. -/
def assign_result (f : ValidatorModuleResult → ValidatorModuleResult) : Cpp Unit :=
  modify (with_result f)

/-- `discovery_url`. -/
def Config.discovery_url (cfg : Config) : Bytes :=
  match cfg.discovery_url_override with
  | some (b :: url) => b :: url
  | _ => cfg.oauth_issuer

/-- `required_scopes`. -/
def Config.required_scopes (cfg : Config) : Scopes := SortedSet.ofList (words cfg.oauth_scope)

/-- The loops that list names for the log: a comma goes in front unless nothing has been
written yet. -/
def join (names : List Bytes) : Bytes :=
  names.foldl (fun acc s => (if acc = [] then acc else acc ++ bytes ", ") ++ s) []

/-! ## Up to the block -/

/-- The attempt to attach to the cache, which only a `postgres_exception` may spoil. -/
def try_attach : Cpp Unit :=
  try_catch (pg_try attach) fun ex =>
    if ex.cls = .postgres_exception then
      elog .WARNING (bytes "Failed to attach to HTTP cache: " ++ c_str ex.what)
    else throw ex

/-- An early `return false` with a warning. -/
def refuse {α : Type} (msg : Bytes) : Cpp (Option α) := do
  elog .WARNING msg
  pure none

/-- The two documents: `jwks_info`, or an early `return false`. -/
def fetch_jwks (hash : Bytes → ℕ) (cfg : Config) : Cpp (Option Value) := do
  let issuer_info ← get_json hash (issuer_info_url cfg.discovery_url)
  match issuer_info with
  | .object issuer_object =>
      match Object.find issuer_object (bytes "jwks_uri") with
      | none => refuse (bytes "jwks_uri not present in issuer info. Is this an OIDC provider?")
      | some v =>
          if v.to_str = [] then
            refuse (bytes "Could not parse JWKS URI from issuer configuration")
          else do
            let jwks_info ← get_json hash v.to_str
            pure (some jwks_info)
  | _ => refuse (bytes "OpenID configuration from issuer is not a JSON object")

/-- From `jwt::decode` to `verifier.verify`. -/
def check_token (ossl : OpenSSL) (cfg : Config) (now : ℤ) (token : Bytes) (jwks_info : Value) :
    Cpp DecodedJwt := do
  let decoded_token ← of_except (decode token)
  let jwt_kid ← of_except (get_claim decoded_token.header_claims (bytes "kid") >>= as_string)
  if issuer_is_azure cfg.oauth_issuer then
    elog .DEBUG1 (bytes "Detected Azure issuer, will use custom issuer validation")
  else pure ()
  let verifier ← of_except (configure_verifier_with_jwks ossl cfg.oauth_issuer jwks_info jwt_kid)
  of_except (verifier.verify ossl decoded_token now)
  pure decoded_token

/-- `get_payload_json()[name]`: a member that is missing is `null`. -/
def DecodedJwt.payload_member (jwt : DecodedJwt) (name : Bytes) : Value :=
  (jwt.payload_claims.find name).getD .null

/-- `received_scopes`. -/
def received_scopes (jwt : DecodedJwt) : Scopes :=
  (parse_jwt_scopes (DecodedJwt.payload_member jwt (bytes "scp"))).union
    (parse_jwt_scopes (DecodedJwt.payload_member jwt (bytes "scope")))

/-- The two remarks about empty scopes. -/
def remark_scopes (cfg : Config) (jwt : DecodedJwt) : Cpp Unit :=
  if cfg.required_scopes.toList = [] then
    elog .DEBUG1 (bytes "Configured scope is empty; skipping scope validation")
  else if (received_scopes jwt).toList = [] then
    elog .WARNING (bytes "Access token contains no scopes")
  else pure ()

/-- Everything up to the JWKS. -/
def documents (hash : Bytes → ℕ) (cfg : Config) : Cpp (Option Value) := do
  try_attach
  alloc
  http_client
  fetch_jwks hash cfg

/-- Everything from the JWKS to `PG_TRY`. -/
def accept_token (ossl : OpenSSL) (cfg : Config) (now : ℤ) (token : Bytes) :
    Option Value → Cpp (Option DecodedJwt)
  | none => pure none
  | some jwks_info => do
      let decoded_token ← check_token ossl cfg now token jwks_info
      alloc
      remark_scopes cfg decoded_token
      alloc
      pure (some decoded_token)

/-- Everything between the first assignments and `PG_TRY`. -/
def obtain_token (ossl : OpenSSL) (hash : Bytes → ℕ) (cfg : Config) (now : ℤ) (token : Bytes) :
    Cpp (Option DecodedJwt) :=
  documents hash cfg >>= accept_token ossl cfg now token

/-- Everything before `PG_TRY`: the verified token, or an early `return false`. -/
def verified_token (ossl : OpenSSL) (hash : Bytes → ℕ) (cfg : Config) (now : ℤ) (token : Bytes) :
    Cpp (Option DecodedJwt) := do
  assign_result fun _ => ⟨none, false⟩
  obtain_token ossl hash cfg now token

/-! ## The block -/

/-- The statements between `PG_TRY` and `PG_CATCH`. -/
def identify_body (cfg : Config) (payload : Object) : Cpp (Leave Unit Bool) :=
  match payload.find cfg.authn_field with
  | none => do
      alloc
      elog .WARNING (bytes "OAuth failed: claim '" ++ cfg.authn_field
        ++ bytes "' (authn_field) is missing. Available claims: "
        ++ c_str (join (payload.map Prod.fst)))
      pure (.ret false)
  | some v => do
      alloc
      call -- pstrdup
      assign_result fun res => { res with authn_id := some (c_str v.to_str) }
      pure (.fall ())

/-- The statements between `PG_CATCH` and `PG_END_TRY`. -/
def identify_handler : Cpp (Leave Unit Bool) := do
  elog .WARNING (bytes "OAuth failed: out of memory")
  pure (.ret false)

/-- The `PG_TRY` block. -/
def identify (cfg : Config) (payload : Object) : Cpp (Leave Unit Bool) :=
  pg_try_block (identify_body cfg payload) identify_handler

/-! ## Behind the block -/

/-- The value given to `res->authorized`. -/
def decision (cfg : Config) (jwt : DecodedJwt) : Bool :=
  if cfg.required_scopes.toList = [] then true
  else if issuer_is_azure cfg.oauth_issuer then
    azure_scopes_match cfg.required_scopes (received_scopes jwt)
  else (received_scopes jwt).includes cfg.required_scopes

/-- What the Azure branch does before it decides. -/
def azure_remark (cfg : Config) : Cpp Unit :=
  if cfg.required_scopes.toList ≠ [] ∧ issuer_is_azure cfg.oauth_issuer = true then do
    if cfg.authn_field = bytes "sub" then
      elog .WARNING (bytes "sub field is not guaranteed to be unique with Entra ID, "
        ++ bytes "consider using a different field for user matching.")
    else pure ()
    alloc
  else pure ()

/-- The last word in the log. -/
def log_decision (cfg : Config) (jwt : DecodedJwt) : Cpp Unit := do
  let u ← Control.get
  if (result u).authorized then
    elog .DEBUG1 (bytes "OIDC validator authorizing user as '" ++ (result u).authn_id.getD []
      ++ bytes "'")
  else do
    alloc
    elog .LOG (bytes "Authorization failed because of scope mismatch. Required scopes: "
      ++ c_str (join cfg.required_scopes.toList) ++ bytes ". Received scopes: "
      ++ c_str (join (received_scopes jwt).toList))

/-- From the decision to `return true`. -/
def authorize (cfg : Config) (jwt : DecodedJwt) : Cpp Bool := do
  azure_remark cfg
  assign_result fun res => { res with authorized := decision cfg jwt }
  log_decision cfg jwt
  pure true

/-- What follows the block, by the way it was left. -/
def after_block (cfg : Config) (jwt : DecodedJwt) : Leave Unit Bool → Cpp Bool
  | .ret r => pure r
  | .fall _ => authorize cfg jwt

/-- What follows the verification. -/
def after_verification (cfg : Config) : Option DecodedJwt → Cpp Bool
  | none => pure false
  | some jwt => identify cfg jwt.payload_claims >>= after_block cfg jwt

theorem after_verification_some (cfg : Config) (jwt : DecodedJwt) :
    after_verification cfg (some jwt) = identify cfg jwt.payload_claims >>= after_block cfg jwt :=
  rfl

/-- The two `catch` clauses of the function. -/
def report (ex : CppException) : Cpp Bool := do
  if ex.cls = .foreign then
    elog .WARNING (bytes "OAuth validation failed with unknown internal error")
  else
    elog .WARNING (bytes "OAuth validation failed with exception: " ++ c_str ex.what)
  pure false

/-- `validate_token`, with `now` the reading of the clock that `verifier.verify` makes. -/
def validate_token (ossl : OpenSSL) (hash : Bytes → ℕ) (cfg : Config) (now : ℤ)
    (token : Bytes) : Cpp Bool :=
  try_catch (verified_token ossl hash cfg now token >>= after_verification cfg) report

/-! ## Frames

Between the first assignments and the block nothing touches `*res`, and nothing touches
the error state except through `pg_try`. -/

theorem triple_assign_result {α : Type} {P R : World → Prop} {Q : α → World → Prop}
    {X : Exit → World → Prop} {f : ValidatorModuleResult → ValidatorModuleResult}
    {k : Unit → Cpp α} (hf : ∀ u, P u → R (with_result f u)) (h : Triple R (k ()) Q X) :
    Triple P (assign_result f >>= k) Q X :=
  Triple.modify_bind hf h

theorem framed_try_attach : Framed result try_attach := by
  refine Framed.try_catch (framed_pg_try (HttpCache.framed_attach.comp Client.rest)) fun ex => ?_
  exact Framed.ite (Framed.elog _ _) (Framed.throw _)

theorem framed_http_client : Framed result http_client := by
  refine Framed.bind Framed.get fun u => Framed.ite ?_ (Framed.throw _)
  exact Framed.modify fun _ => rfl

theorem framed_refuse {α : Type} (msg : Bytes) : Framed result (refuse msg : Cpp (Option α)) :=
  Framed.bind (Framed.elog _ _) fun _ => Framed.pure _

theorem framed_fetch_jwks (hash : Bytes → ℕ) (cfg : Config) :
    Framed result (fetch_jwks hash cfg) := by
  refine Framed.bind (framed_get_json _ _) fun issuer_info => ?_
  cases issuer_info with
  | object issuer_object =>
    dsimp only
    cases Object.find issuer_object (bytes "jwks_uri") with
    | none => exact framed_refuse _
    | some v =>
      refine Framed.ite (framed_refuse _) ?_
      exact Framed.bind (framed_get_json _ _) fun _ => Framed.pure _
  | null => exact framed_refuse _
  | boolean b => exact framed_refuse _
  | number x => exact framed_refuse _
  | string t => exact framed_refuse _
  | array a => exact framed_refuse _
  | int64 i => exact framed_refuse _

theorem framed_check_token (ossl : OpenSSL) (cfg : Config) (now : ℤ) (token : Bytes)
    (jwks_info : Value) : Framed result (check_token ossl cfg now token jwks_info) := by
  refine Framed.bind (Framed.of_except _) fun jwt => Framed.bind (Framed.of_except _) fun kid => ?_
  have hrest : Framed result (do
      let verifier ← of_except (configure_verifier_with_jwks ossl cfg.oauth_issuer jwks_info kid)
      of_except (verifier.verify ossl jwt now)
      pure jwt) := by
    refine Framed.bind (Framed.of_except _) fun v => Framed.bind (Framed.of_except _) fun _ => ?_
    exact Framed.pure _
  exact Framed.ite (Framed.bind (Framed.elog _ _) fun _ => hrest) hrest

theorem framed_documents (hash : Bytes → ℕ) (cfg : Config) :
    Framed result (documents hash cfg) := by
  refine Framed.bind framed_try_attach fun _ => Framed.bind Framed.alloc fun _ => ?_
  exact Framed.bind framed_http_client fun _ => framed_fetch_jwks _ _

theorem framed_accept_token (ossl : OpenSSL) (cfg : Config) (now : ℤ) (token : Bytes)
    (jwks_info : Option Value) : Framed result (accept_token ossl cfg now token jwks_info) := by
  cases jwks_info with
  | none => exact Framed.pure _
  | some jwks_info =>
    refine Framed.bind (framed_check_token _ _ _ _ _) fun jwt => ?_
    refine Framed.bind Framed.alloc fun _ => Framed.bind ?_ fun _ => ?_
    · exact Framed.ite (Framed.elog _ _) (Framed.ite (Framed.elog _ _) (Framed.pure _))
    · exact Framed.bind Framed.alloc fun _ => Framed.pure _

theorem framed_obtain_token (ossl : OpenSSL) (hash : Bytes → ℕ) (cfg : Config) (now : ℤ)
    (token : Bytes) : Framed result (obtain_token ossl hash cfg now token) :=
  Framed.bind (framed_documents hash cfg) fun _ => framed_accept_token _ _ _ _ _

theorem framed_azure_remark (cfg : Config) : Framed result (azure_remark cfg) := by
  unfold azure_remark
  refine Framed.ite ?_ (Framed.pure _)
  exact Framed.ite (Framed.bind (Framed.elog _ _) fun _ => Framed.alloc) Framed.alloc

theorem framed_log_decision (cfg : Config) (jwt : DecodedJwt) :
    Framed result (log_decision cfg jwt) := by
  refine Framed.bind Framed.get fun u => Framed.ite (Framed.elog _ _) ?_
  exact Framed.bind Framed.alloc fun _ => Framed.elog _ _

theorem framed_report (ex : CppException) : Framed result (report ex) := by
  have hrest : Framed result (pure false : Cpp Bool) := Framed.pure _
  exact Framed.ite (Framed.bind (Framed.elog _ _) fun _ => hrest)
    (Framed.bind (Framed.elog _ _) fun _ => hrest)

end OidcValidator.Validator
