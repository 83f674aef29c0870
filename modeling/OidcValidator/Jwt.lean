/-
`Jwt.lean` -- what the extension uses of jwt-cpp: base64url, `decoded_jwt`, claims,
and `verifier::verify`.

OpenSSL is outside the repository and enters as the structure [`OpenSSL`], one field
per thing jwt-cpp asks it to do. Everything that decides *which* of those questions
is asked -- which algorithm, which key, which bytes are signed, which claims are
compared -- is modelled.

`verifier::verify` reports through a `std::error_code` and turns it into an exception
at the end; here the exception is the result, since nothing happens in between.
-/
import OidcValidator.Picojson
import OidcValidator.PgUtils

set_option autoImplicit false

namespace OidcValidator.Jwt

open OidcValidator.ByteString OidcValidator.Picojson
open OidcValidator.PgUtils (CppException runtime_error bad_cast bind_eq_ok)

/-! ## base64url

The padding jwt-cpp uses for this alphabet is the three characters `%3d`, and
`decode` accepts at most two of them. -/

/-- `alphabet::index` on the reverse table of `alphabet::base64url`. -/
def index (symbol : UInt8) : Except CppException ℕ :=
  let n := symbol.toNat
  if 65 ≤ n ∧ n ≤ 90 then .ok (n - 65)
  else if 97 ≤ n ∧ n ≤ 122 then .ok (n - 71)
  else if 48 ≤ n ∧ n ≤ 57 then .ok (n + 4)
  else if n = 45 then .ok 62
  else if n = 95 then .ok 63
  else .error (runtime_error (bytes "Invalid input: not within alphabet"))

/-- `alphabet::base64url::fill()`. -/
def fill : Bytes := bytes "%3d"

/-- `details::pad`: as many fills as are missing to a multiple of four, so three of them
for a length of one modulo four. -/
def pad (base : Bytes) : Bytes := base ++ (List.replicate ((4 - base.length % 4) % 4) fill).flatten

/-- `details::count_padding`: how many fills the text ends with. -/
def count_padding : ℕ → Bytes → ℕ
  | 0, _ => 0
  | n + 1, base =>
      if ends_with base fill then 1 + count_padding n (base.take (base.length - fill.length)) else 0

/-- The bytes of one group: three for four symbols, and the one or two that a short last
group still determines. -/
def decode_groups : Bytes → Except CppException Bytes
  | a :: b :: c :: d :: rest => do
      let triple := (← index a) * 262144 + (← index b) * 4096 + (← index c) * 64 + (← index d)
      let res ← decode_groups rest
      .ok (UInt8.ofNat (triple / 65536) :: UInt8.ofNat (triple / 256 % 256)
        :: UInt8.ofNat (triple % 256) :: res)
  | [a, b, c] => do
      let triple := (← index a) * 262144 + (← index b) * 4096 + (← index c) * 64
      .ok [UInt8.ofNat (triple / 65536), UInt8.ofNat (triple / 256 % 256)]
  | [a, b] => do
      let triple := (← index a) * 262144 + (← index b) * 4096
      .ok [UInt8.ofNat (triple / 65536)]
  | _ => .ok []

/-- `details::decode`. -/
def base_decode (base : Bytes) : Except CppException Bytes :=
  let count := count_padding base.length base
  let size := base.length - count * fill.length
  if 2 < count then .error (runtime_error (bytes "Invalid input: too much fill"))
  else if (size + count) % 4 ≠ 0 then
    .error (runtime_error (bytes "Invalid input: incorrect total size"))
  else decode_groups (base.take size)

/-- The decoder that `decoded_jwt` and the key helpers use. -/
def base64url_decode (s : Bytes) : Except CppException Bytes := base_decode (pad s)

/-! ## Claims -/

/-- `details::map_of_claims::parse_claims`. -/
def parse_claims (str : Bytes) : Except CppException Object :=
  match parse str with
  | .value (.object o) => .ok o
  | .value _ => .error bad_cast
  | .error _ => .error ⟨.invalid_json_exception, bytes "invalid json"⟩
  | .overflow_error => .error ⟨.overflow_error, []⟩

/-- `details::map_of_claims::get_claim`. -/
def get_claim (claims : Object) (name : Bytes) : Except CppException Value :=
  match claims.find name with
  | some v => .ok v
  | none => .error ⟨.claim_not_present_exception, bytes "claim not found"⟩

/-- `basic_claim::as_string`. -/
def as_string : Value → Except CppException Bytes
  | .string s => .ok s
  | _ => .error bad_cast

/-- `system_clock::from_time_t`: nanoseconds in 64 bits, which wrap. -/
def from_time_t (t : ℤ) : ℤ := Int.bmod (t * 1000000000) (2 ^ 64)

/-- `basic_claim::as_date`. `get_type` has no answer for `null`. -/
def as_date : Value → Except CppException ℤ
  | .number x => .ok (from_time_t x.round_to_int64)
  | .int64 i => .ok (from_time_t i)
  | .null => .error ⟨.logic_error, bytes "invalid type"⟩
  | _ => .error bad_cast

/-! ## Tokens -/

/-- `jwt::decoded_jwt`. -/
structure DecodedJwt where
  token : Bytes
  header : Bytes
  header_base64 : Bytes
  payload : Bytes
  payload_base64 : Bytes
  signature : Bytes
  signature_base64 : Bytes
  header_claims : Object
  payload_claims : Object

/-- The constructor `decoded_jwt(token)`: split at the first two dots, decode the three
parts, parse the first two. -/
def decode (token : Bytes) : Except CppException DecodedJwt := do
  let invalid : CppException := ⟨.invalid_argument, bytes "invalid token supplied"⟩
  let (header_base64, rest) ← (split_first 46 token).elim (.error invalid) .ok
  let (payload_base64, signature_base64) ← (split_first 46 rest).elim (.error invalid) .ok
  let header ← base64url_decode header_base64
  let payload ← base64url_decode payload_base64
  let signature ← base64url_decode signature_base64
  let header_claims ← parse_claims header
  let payload_claims ← parse_claims payload
  .ok { token, header, header_base64, payload, payload_base64, signature, signature_base64,
        header_claims, payload_claims }

/-! ## Algorithms -/

/-- The algorithms the extension installs. -/
inductive Alg where
  | RS256 | RS384 | RS512 | PS256 | PS384 | PS512 | ES256 | ES384 | ES512 | HS256 | HS384 | HS512
  deriving DecidableEq

/-- `name()`. -/
def Alg.name : Alg → Bytes
  | .RS256 => bytes "RS256" | .RS384 => bytes "RS384" | .RS512 => bytes "RS512"
  | .PS256 => bytes "PS256" | .PS384 => bytes "PS384" | .PS512 => bytes "PS512"
  | .ES256 => bytes "ES256" | .ES384 => bytes "ES384" | .ES512 => bytes "ES512"
  | .HS256 => bytes "HS256" | .HS384 => bytes "HS384" | .HS512 => bytes "HS512"

/-- Whether the algorithm is one of the `hmacsha` family. -/
def Alg.is_hmac : Alg → Bool
  | .HS256 | .HS384 | .HS512 => true
  | _ => false

/-- What jwt-cpp asks of OpenSSL. -/
structure OpenSSL where
  /-- a PEM key from a raw modulus and exponent -/
  rsa_public_key : Bytes → Bytes → Except CppException Bytes
  /-- a PEM key from a curve name and two raw coordinates -/
  ec_public_key : Bytes → Bytes → Bytes → Except CppException Bytes
  /-- what constructing a public-key algorithm from a PEM key throws -/
  load_public_key : Alg → Bytes → Except CppException Unit
  /-- `HMAC(md, secret, data)` -/
  HMAC : Alg → Bytes → Bytes → Option Bytes
  /-- the error of a public-key verification of `data` and `signature` -/
  verify_signature : Alg → Bytes → Bytes → Bytes → Option CppException

/-- An OpenSSL that has no public-key algorithms and knows the HMACs of a table only. -/
def OpenSSL.of_macs (macs : List ((Alg × Bytes × Bytes) × Bytes)) : OpenSSL where
  rsa_public_key _ _ := .error ⟨.rsa_exception, bytes "unsupported"⟩
  ec_public_key _ _ _ := .error ⟨.ecdsa_exception, bytes "unsupported"⟩
  load_public_key _ _ := .error ⟨.rsa_exception, bytes "unsupported"⟩
  HMAC alg secret data := macs.lookup (alg, secret, data)
  verify_signature _ _ _ _ := some ⟨.signature_verification_exception, bytes "unsupported"⟩

/-- `helper::create_public_key_from_rsa_components`. -/
def create_public_key_from_rsa_components (ossl : OpenSSL) (modulus exponent : Bytes) :
    Except CppException Bytes := do
  let decoded_modulus ← base64url_decode modulus
  let decoded_exponent ← base64url_decode exponent
  ossl.rsa_public_key decoded_modulus decoded_exponent

/-- `helper::create_public_key_from_ec_components`. -/
def create_public_key_from_ec_components (ossl : OpenSSL) (curve x y : Bytes) :
    Except CppException Bytes := do
  let decoded_x ← base64url_decode x
  let decoded_y ← base64url_decode y
  ossl.ec_public_key curve decoded_x decoded_y

/-- An algorithm object: the algorithm and its key, a PEM text or a raw secret. -/
structure Algorithm where
  alg : Alg
  key : Bytes

/-- `hmacsha::verify`. -/
def hmacsha_verify (ossl : OpenSSL) (a : Algorithm) (data signature : Bytes) :
    Option CppException :=
  match ossl.HMAC a.alg a.key data with
  | none => some ⟨.signature_generation_exception, bytes "hmac failed"⟩
  | some res =>
      let matched := (res.zip signature).all (fun p => p.1 = p.2) && res.length = signature.length
      if matched then none else some ⟨.signature_verification_exception, bytes "invalid signature"⟩

/-- `algo_base::verify`; `none` is an accepted signature. -/
def Algorithm.verify (ossl : OpenSSL) (a : Algorithm) (data signature : Bytes) :
    Option CppException :=
  if a.alg.is_hmac then hmacsha_verify ossl a data signature
  else ossl.verify_signature a.alg a.key data signature

/-! ## The verifier -/

/-- A `verify_check_fn_t`: the three that the constructor installs and the one behind
`with_claim`. -/
inductive Check where
  | exp | iat | nbf
  | equals_claim (expected : Value)

/-- `jwt::verifier`. `claims` is an unordered map; its entries are listed in the order they
were inserted. -/
structure Verifier where
  claims : List (Bytes × Check)
  algs : List Algorithm

/-- `jwt::verify()`. -/
def verify : Verifier :=
  { claims := [(bytes "exp", .exp), (bytes "iat", .iat), (bytes "nbf", .nbf)], algs := [] }

/-- `with_issuer(iss)`. -/
def Verifier.with_issuer (v : Verifier) (iss : Bytes) : Verifier :=
  { v with claims := v.claims ++ [(bytes "iss", .equals_claim (.string iss))] }

/-- `allow_algorithm(alg)`: one entry per algorithm name. -/
def Verifier.allow_algorithm (v : Verifier) (a : Algorithm) : Verifier :=
  { v with algs := a :: v.algs.filter (fun b => b.alg.name ≠ a.alg.name) }

/-- `token_verification_exception` with the message of its error code. -/
def token_verification (what : String) : CppException :=
  ⟨.token_verification_exception, bytes what⟩

/-- The `exp`, `iat` and `nbf` checks: a claim that is absent is no obstacle, one that is
not a date is an exception, and `bad` compares the clock with the date. -/
def check_date (claims : Object) (key : Bytes) (bad : ℤ → Bool) : Except CppException Unit :=
  match claims.find key with
  | none => .ok ()
  | some v => do
      let d ← as_date v
      if bad d then .error (token_verification "token expired") else .ok ()

/-- `verify_ops::equals_claim`, for the string claims the extension expects. `get_type` of
a `null` claim throws before the types are compared. -/
def check_equals (claims : Object) (key expected : Bytes) : Except CppException Unit :=
  match claims.find key with
  | none => .error (token_verification "decoded JWT is missing required claim(s)")
  | some .null => .error ⟨.logic_error, bytes "invalid type"⟩
  | some (.string s) =>
      if s = expected then .ok ()
      else .error (token_verification "claim value does not match expected value")
  | some _ => .error (token_verification "claim type does not match expected type")

/-- One entry of `claims`, run on the payload at clock reading `now`. -/
def run_check (payload : Object) (now : ℤ) (key : Bytes) : Check → Except CppException Unit
  | .exp => check_date payload (bytes "exp") (fun d => decide (d < now))
  | .iat => check_date payload (bytes "iat") (fun d => decide (now < d))
  | .nbf => check_date payload (bytes "nbf") (fun d => decide (now < d))
  | .equals_claim (.string s) => check_equals payload key s
  | .equals_claim _ => .error ⟨.logic_error, bytes "internal error, should be unreachable"⟩

/-- The loop over `claims`. -/
def run_checks (payload : Object) (now : ℤ) : List (Bytes × Check) → Except CppException Unit
  | [] => .ok ()
  | (key, c) :: cs => do
      run_check payload now key c
      run_checks payload now cs

/-- What is signed: `header_base64 + "." + payload_base64`. -/
def DecodedJwt.signing_input (jwt : DecodedJwt) : Bytes :=
  jwt.header_base64 ++ 46 :: jwt.payload_base64

/-- `verifier::verify(jwt)` at clock reading `now`. -/
def Verifier.verify (ossl : OpenSSL) (v : Verifier) (jwt : DecodedJwt) (now : ℤ) :
    Except CppException Unit := do
  let algo ← get_claim jwt.header_claims (bytes "alg") >>= as_string
  match v.algs.find? (fun a => a.alg.name = algo) with
  | none => .error (token_verification "wrong algorithm")
  | some a =>
      match a.verify ossl jwt.signing_input jwt.signature with
      | some e => .error e
      | none => run_checks jwt.payload_claims now v.claims

/-! ## What an accepted token satisfies -/

/-- A token that can be decoded is three parts joined by dots, with none in the first two,
each part being the base64url of what it stands for. -/
theorem decode_eq_ok {token : Bytes} {jwt : DecodedJwt} (h : decode token = .ok jwt) :
    token = jwt.header_base64 ++ 46 :: (jwt.payload_base64 ++ 46 :: jwt.signature_base64) ∧
      46 ∉ jwt.header_base64 ∧ 46 ∉ jwt.payload_base64 ∧
      base64url_decode jwt.header_base64 = .ok jwt.header ∧
      base64url_decode jwt.payload_base64 = .ok jwt.payload ∧
      base64url_decode jwt.signature_base64 = .ok jwt.signature ∧
      parse_claims jwt.header = .ok jwt.header_claims ∧
      parse_claims jwt.payload = .ok jwt.payload_claims := by
  unfold decode at h
  obtain ⟨⟨header_base64, rest⟩, hfirst, h⟩ := bind_eq_ok.mp h
  obtain ⟨⟨payload_base64, signature_base64⟩, hsecond, h⟩ := bind_eq_ok.mp h
  obtain ⟨header, hheader, h⟩ := bind_eq_ok.mp h
  obtain ⟨payload, hpayload, h⟩ := bind_eq_ok.mp h
  obtain ⟨signature, hsignature, h⟩ := bind_eq_ok.mp h
  obtain ⟨header_claims, hhc, h⟩ := bind_eq_ok.mp h
  obtain ⟨payload_claims, hpc, h⟩ := bind_eq_ok.mp h
  obtain rfl := Except.ok.inj h
  -- the two dots are the first one and the first one behind it
  rcases hs₁ : split_first 46 token with _ | ⟨a, b⟩
  · rw [hs₁] at hfirst
    exact absurd hfirst nofun
  rw [hs₁] at hfirst
  obtain ⟨rfl, rfl⟩ := Prod.mk.inj (Except.ok.inj hfirst)
  rcases hs₂ : split_first 46 b with _ | ⟨c, d⟩
  · rw [hs₂] at hsecond
    exact absurd hsecond nofun
  rw [hs₂] at hsecond
  obtain ⟨rfl, rfl⟩ := Prod.mk.inj (Except.ok.inj hsecond)
  obtain ⟨htoken, hdot₁⟩ := split_first_eq_some hs₁
  obtain ⟨hrest, hdot₂⟩ := split_first_eq_some hs₂
  exact ⟨by rw [htoken, hrest], hdot₁, hdot₂, hheader, hpayload, hsignature, hhc, hpc⟩

theorem get_claim_as_string_eq_ok {claims : Object} {name s : Bytes} :
    (get_claim claims name >>= as_string) = .ok s ↔ claims.find name = some (.string s) := by
  unfold get_claim
  rcases claims.find name with _ | v
  · simp [bind, Except.bind]
  · cases v <;> simp [bind, Except.bind, as_string]

/-- The date in `key`, if there is one, is one that `bad` does not object to. -/
def DateOk (claims : Object) (key : Bytes) (bad : ℤ → Bool) : Prop :=
  ∀ v, claims.find key = some v → ∃ d, as_date v = .ok d ∧ bad d = false

theorem check_date_eq_ok {claims : Object} {key : Bytes} {bad : ℤ → Bool}
    : check_date claims key bad = .ok () ↔ DateOk claims key bad := by
  unfold check_date DateOk
  rcases claims.find key with _ | v
  · simp
  · simp only [bind_eq_ok, Option.some.injEq, forall_eq']
    refine exists_congr fun d => and_congr_right fun _ => ?_
    cases bad d <;> simp

theorem check_equals_eq_ok {claims : Object} {key expected : Bytes} :
    check_equals claims key expected = .ok () ↔ claims.find key = some (.string expected) := by
  unfold check_equals
  rcases claims.find key with _ | v
  · simp
  · cases v with
    | string s => simp
    | _ => simp

theorem run_checks_nil {payload : Object} {now : ℤ} : run_checks payload now [] = .ok () := rfl

theorem run_checks_cons {payload : Object} {now : ℤ} {key : Bytes} {c : Check}
    {cs : List (Bytes × Check)} :
    run_checks payload now ((key, c) :: cs) = .ok () ↔
      run_check payload now key c = .ok () ∧ run_checks payload now cs = .ok () := by
  rw [run_checks, bind_eq_ok]
  exact ⟨fun ⟨_, h, h'⟩ => ⟨h, h'⟩, fun ⟨h, h'⟩ => ⟨(), h, h'⟩⟩

/-- The verifier that `configure_verifier_with_jwks` builds accepts a token exactly when
the header names its algorithm, the signature is good, the dates are, and `iss` is the
expected issuer. -/
theorem verify_with_issuer_eq_ok {ossl : OpenSSL} {iss : Bytes} {algs : List Algorithm}
    {jwt : DecodedJwt} {now : ℤ} :
    (⟨(Jwt.verify.with_issuer iss).claims, algs⟩ : Verifier).verify ossl jwt now = .ok () ↔
      (∃ a, jwt.header_claims.find (bytes "alg") = some (.string a.alg.name) ∧
          algs.find? (fun b => b.alg.name = a.alg.name) = some a ∧
          a.verify ossl jwt.signing_input jwt.signature = none) ∧
        DateOk jwt.payload_claims (bytes "exp") (fun d => decide (d < now)) ∧
        DateOk jwt.payload_claims (bytes "iat") (fun d => decide (now < d)) ∧
        DateOk jwt.payload_claims (bytes "nbf") (fun d => decide (now < d)) ∧
        jwt.payload_claims.find (bytes "iss") = some (.string iss) := by
  -- the four checks, in the order of the map
  have hchecks : run_checks jwt.payload_claims now (Jwt.verify.with_issuer iss).claims = .ok () ↔
      DateOk jwt.payload_claims (bytes "exp") (fun d => decide (d < now)) ∧
        DateOk jwt.payload_claims (bytes "iat") (fun d => decide (now < d)) ∧
        DateOk jwt.payload_claims (bytes "nbf") (fun d => decide (now < d)) ∧
        jwt.payload_claims.find (bytes "iss") = some (.string iss) := by
    rw [← check_date_eq_ok, ← check_date_eq_ok, ← check_date_eq_ok, ← check_equals_eq_ok]
    simp only [Verifier.with_issuer, Jwt.verify, List.cons_append, List.nil_append,
      run_checks_cons, run_check, run_checks_nil, and_true]
  rw [← hchecks]
  unfold Verifier.verify
  rw [bind_eq_ok]
  constructor
  · -- the algorithm is looked up by the name in the header
    rintro ⟨algo, halgo, h⟩
    rw [get_claim_as_string_eq_ok] at halgo
    rcases hfind : algs.find? (fun a => a.alg.name = algo) with _ | a
    · rw [hfind] at h
      exact absurd h nofun
    · have hname : a.alg.name = algo := by simpa using List.find?_some hfind
      rw [hfind] at h
      dsimp only at h
      rcases hsig : a.verify ossl jwt.signing_input jwt.signature with _ | e
      · rw [hsig] at h
        subst hname
        exact ⟨⟨a, halgo, hfind, hsig⟩, h⟩
      · rw [hsig] at h
        exact absurd h nofun
  · rintro ⟨⟨a, halgo, hfind, hsig⟩, h⟩
    refine ⟨a.alg.name, get_claim_as_string_eq_ok.mpr halgo, ?_⟩
    rw [hfind]
    dsimp only
    rw [hsig]
    exact h

end OidcValidator.Jwt
