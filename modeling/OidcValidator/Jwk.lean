/-
`Jwk.lean` -- `jwk.cpp`: from the configured issuer and a JWKS document to a
verifier, and the two scope functions.

The file has three groups, in the order of the source: the issuer (which URL to
fetch, which `iss` to expect), the keys (which entry of the JWKS is used and with
which algorithm), and the scopes.

Members of a JWK are read through `to_str`, so a `kid` that is the number `7` and a
`kid` that is the string `"7"` are the same `kid` to this code; every statement below
says `to_str` where the code does.
-/
import OidcValidator.Jwt
import OidcValidator.Regex
import OidcValidator.StdSet

set_option autoImplicit false

namespace OidcValidator.Jwk

open OidcValidator.ByteString OidcValidator.Picojson OidcValidator.Jwt
open OidcValidator.PgUtils (CppException runtime_error bind_eq_ok)
open OidcValidator.StdSet (SortedSet)

/-- `scopes_t`. -/
abbrev Scopes := SortedSet Bytes

-- `operator<` of `std::string` is a strict linear order; these are the facts that a set of
-- scopes needs about it
instance : Std.Irrefl (α := Bytes) (· < ·) := inferInstance
instance : Trans (α := Bytes) (· < ·) (· < ·) (· < ·) := inferInstance
instance : Std.Trichotomous (α := Bytes) (· < ·) := inferInstance

/-! ## The issuer -/

/-- `[a-f0-9]`. -/
def hex : Regex.Class := fun b => (97 ≤ b && b ≤ 102) || (48 ≤ b && b ≤ 57)

/-- `[a-f0-9]{8}-[a-f0-9]{4}-[a-f0-9]{4}-[a-f0-9]{4}-[a-f0-9]{12}`. -/
def tenant_regex : List Regex.Class :=
  List.replicate 8 hex ++ Regex.lit 45 :: List.replicate 4 hex ++ Regex.lit 45 ::
    List.replicate 4 hex ++ Regex.lit 45 :: List.replicate 4 hex ++ Regex.lit 45 ::
    List.replicate 12 hex

/-- The host names that make an issuer an Azure issuer. -/
def microsoftonline : Bytes := bytes "login.microsoftonline.com"

/-- The other one. -/
def sts_windows : Bytes := bytes "sts.windows.net"

/-- `extract_azure_tenant_id`. -/
def extract_azure_tenant_id (issuer : Bytes) : Except CppException Bytes :=
  match Regex.search_row tenant_regex issuer with
  | some text => .ok text
  | none => .error (runtime_error (bytes "Couldn't extract tenant_id from azure issuer"))

/-- `convert_azure_issuer_to_jwt_format`. -/
def convert_azure_issuer_to_jwt_format (config_issuer : Bytes) : Except CppException Bytes := do
  let tenant_id ← extract_azure_tenant_id config_issuer
  if contains config_issuer microsoftonline then
    .ok (bytes "https://sts.windows.net/" ++ tenant_id ++ bytes "/")
  else .ok config_issuer

/-- `issuer_is_azure`. -/
def issuer_is_azure (issuer : Bytes) : Bool :=
  contains issuer microsoftonline || contains issuer sts_windows

/-- The path at the end of a discovery URL. -/
def info_end : Bytes := bytes "/.well-known/openid-configuration"

/-- `issuer_info_url`. -/
def issuer_info_url (issuer_url : Bytes) : Bytes :=
  if ends_with issuer_url info_end then issuer_url else issuer_url ++ info_end

/-- The `iss` that `configure_verifier_with_jwks` goes on to expect. -/
def expected_issuer (issuer : Bytes) : Except CppException Bytes :=
  if issuer_is_azure issuer then convert_azure_issuer_to_jwt_format issuer else .ok issuer

/-! ## The keys -/

/-- `" (kid: " + kid + ")"`. -/
def kid_note (kid : Bytes) : Bytes := bytes " (kid: " ++ kid ++ bytes ")"

/-- `verifier.allow_algorithm(alg(pem_key))`, whose argument may fail to load the key. -/
def allow_public_key (ossl : OpenSSL) (verifier : Verifier) (alg : Alg) (pem_key : Bytes) :
    Except CppException Verifier := do
  ossl.load_public_key alg pem_key
  .ok (verifier.allow_algorithm ⟨alg, pem_key⟩)

/-- `configure_rsa_key`. -/
def configure_rsa_key (ossl : OpenSSL) (keyObject : Object) (kid alg : Bytes)
    (verifier : Verifier) : Except CppException Verifier :=
  match keyObject.find (bytes "n"), keyObject.find (bytes "e") with
  | some n, some e => do
      let pem_key ← create_public_key_from_rsa_components ossl n.to_str e.to_str
      if alg = bytes "RS256" ∨ alg = [] then allow_public_key ossl verifier .RS256 pem_key
      else if alg = bytes "RS384" then allow_public_key ossl verifier .RS384 pem_key
      else if alg = bytes "RS512" then allow_public_key ossl verifier .RS512 pem_key
      else if alg = bytes "PS256" then allow_public_key ossl verifier .PS256 pem_key
      else if alg = bytes "PS384" then allow_public_key ossl verifier .PS384 pem_key
      else if alg = bytes "PS512" then allow_public_key ossl verifier .PS512 pem_key
      else .error (runtime_error (bytes "Unsupported RSA algorithm: " ++ alg ++ kid_note kid))
  | _, _ =>
      .error (runtime_error (bytes "RSA key missing required 'n'/'e' components" ++ kid_note kid))

/-- `configure_ec_key`. The key is built before the algorithm is looked at. -/
def configure_ec_key (ossl : OpenSSL) (keyObject : Object) (kid alg : Bytes)
    (verifier : Verifier) : Except CppException Verifier :=
  match keyObject.find (bytes "x"), keyObject.find (bytes "y"), keyObject.find (bytes "crv") with
  | some x, some y, some crv => do
      let pem_key ← create_public_key_from_ec_components ossl crv.to_str x.to_str y.to_str
      if alg = bytes "ES256" ∧ crv.to_str = bytes "P-256" then
        allow_public_key ossl verifier .ES256 pem_key
      else if alg = bytes "ES384" ∧ crv.to_str = bytes "P-384" then
        allow_public_key ossl verifier .ES384 pem_key
      else if alg = bytes "ES512" ∧ crv.to_str = bytes "P-521" then
        allow_public_key ossl verifier .ES512 pem_key
      else
        .error (runtime_error (bytes "Unsupported EC algorithm/curve combination: " ++ alg
          ++ bytes "/" ++ crv.to_str ++ kid_note kid))
  | _, _, _ =>
      .error (runtime_error
        (bytes "EC key missing required 'x'/'y'/'crv' components" ++ kid_note kid))

/-- `configure_hmac_key`. The secret is the text of `k` as it stands. -/
def configure_hmac_key (keyObject : Object) (kid alg : Bytes) (verifier : Verifier) :
    Except CppException Verifier :=
  match keyObject.find (bytes "k") with
  | some k =>
      if alg = bytes "HS256" then .ok (verifier.allow_algorithm ⟨.HS256, k.to_str⟩)
      else if alg = bytes "HS384" then .ok (verifier.allow_algorithm ⟨.HS384, k.to_str⟩)
      else if alg = bytes "HS512" then .ok (verifier.allow_algorithm ⟨.HS512, k.to_str⟩)
      else .error (runtime_error (bytes "Unsupported HMAC algorithm: " ++ alg ++ kid_note kid))
  | none =>
      .error (runtime_error (bytes "HMAC key missing required 'k' component" ++ kid_note kid))

/-- What `get_required_parameter` throws. -/
def missing_parameter (name : Bytes) : CppException :=
  runtime_error (bytes "Required parameter '" ++ name ++ bytes "' is missing")

/-- `get_required_parameter`. -/
def get_required_parameter (key_object : Object) (name : Bytes) : Except CppException Bytes :=
  match key_object.find name with
  | some v => .ok v.to_str
  | none => .error (missing_parameter name)

/-- `alg` of a JWK, empty when there is none. -/
def key_alg (key_object : Object) : Bytes :=
  match key_object.find (bytes "alg") with
  | some v => v.to_str
  | none => []

/-- The tail of the loop body, once an entry has been selected. -/
def configure_key (ossl : OpenSSL) (key_object : Object) (kid : Bytes) (verifier : Verifier) :
    Except CppException Verifier := do
  let kty ← get_required_parameter key_object (bytes "kty")
  if kty = bytes "RSA" then configure_rsa_key ossl key_object kid (key_alg key_object) verifier
  else if kty = bytes "EC" then configure_ec_key ossl key_object kid (key_alg key_object) verifier
  else if kty = bytes "oct" then configure_hmac_key key_object kid (key_alg key_object) verifier
  else .error (runtime_error (bytes "Unsupported key type: " ++ kty ++ kid_note kid))

/-- The loop over the `keys` array. -/
def configure_keys (ossl : OpenSSL) (required_kid : Bytes) (verifier : Verifier) :
    List Value → Except CppException Verifier
  | [] => .ok verifier
  | .object key_object :: keys => do
      let use ← get_required_parameter key_object (bytes "use")
      if use ≠ bytes "sig" then configure_keys ossl required_kid verifier keys
      else
        let kid ← get_required_parameter key_object (bytes "kid")
        if kid ≠ required_kid then configure_keys ossl required_kid verifier keys
        else configure_key ossl key_object kid verifier
  | _ :: _ => .error (runtime_error (bytes "Invalid JWKS format: not a json object"))

/-- `configure_verifier_with_jwks`. -/
def configure_verifier_with_jwks (ossl : OpenSSL) (issuer : Bytes) (jwksInfo : Value)
    (required_kid : Bytes) : Except CppException Verifier := do
  let iss ← expected_issuer issuer
  let verifier := Jwt.verify.with_issuer iss
  match jwksInfo with
  | .object jwks_object =>
      match Object.find jwks_object (bytes "keys") with
      | some (.array keys) => configure_keys ossl required_kid verifier keys
      | some _ =>
          .error (runtime_error
            (bytes "\"type mismatch! call is<type>() before get<type>()\" && is<array>()"))
      | none => .error ⟨.out_of_range, bytes "map::at"⟩
  | _ => .error (runtime_error (bytes "JWKS info is not a JSON object"))

/-! ## The scopes -/

/-- `parse_jwt_scopes`. -/
def parse_jwt_scopes : Value → Scopes
  | .array a => SortedSet.ofList (a.map Value.to_str)
  | .string s => SortedSet.ofList (words s)
  | _ => SortedSet.empty

/-- The loop of `azure_scopes_match`. -/
def azure_scopes_match_loop (received_scopes : Scopes) : List Bytes → Bool
  | [] => true
  | required_scope :: rest =>
      if required_scope = bytes "openid" then azure_scopes_match_loop received_scopes rest
      else if required_scope ∈ received_scopes then azure_scopes_match_loop received_scopes rest
      else
        match after_last 47 required_scope with
        | none => azure_scopes_match_loop received_scopes rest
        | some [] => azure_scopes_match_loop received_scopes rest
        | some scope_suffix =>
            if scope_suffix ∉ received_scopes then false
            else azure_scopes_match_loop received_scopes rest

/-- `azure_scopes_match`. -/
def azure_scopes_match (required_scopes received_scopes : Scopes) : Bool :=
  azure_scopes_match_loop received_scopes required_scopes.toList

/-! ## Which entry is used

Three things can happen to an object in the loop. It is the wanted key; it is passed
over; or it lacks a parameter that is read before the loop knows whether the entry
matters, and `get_required_parameter` ends the whole call. -/

/-- The wanted key: `use` is `sig` and `kid` is the required one. -/
def selected (required_kid : Bytes) (key_object : Object) : Bool :=
  (key_object.find (bytes "use")).map Value.to_str = some (bytes "sig") &&
    (key_object.find (bytes "kid")).map Value.to_str = some required_kid

/-- The entry has no `use`, or is a signing key without `kid`. -/
def obstructs (key_object : Object) : Bool :=
  (key_object.find (bytes "use")).isNone ||
    ((key_object.find (bytes "use")).map Value.to_str = some (bytes "sig") &&
      (key_object.find (bytes "kid")).isNone)

section Loop

variable (ossl : OpenSSL) (required_kid : Bytes) (verifier : Verifier)

theorem configure_keys_selected {key_object : Object} (h : selected required_kid key_object = true)
    (keys : List Value) :
    configure_keys ossl required_kid verifier (.object key_object :: keys)
      = configure_key ossl key_object required_kid verifier := by
  unfold selected at h
  rw [Bool.and_eq_true, decide_eq_true_eq, decide_eq_true_eq, Option.map_eq_some_iff,
    Option.map_eq_some_iff] at h
  obtain ⟨⟨use, huse, hsig⟩, ⟨kid, hkid, hreq⟩⟩ := h
  simp [configure_keys, get_required_parameter, huse, hkid, hsig, hreq, bind, Except.bind]

theorem configure_keys_obstructs {key_object : Object} (h : obstructs key_object = true)
    (keys : List Value) :
    ∃ name ∈ [bytes "use", bytes "kid"],
      configure_keys ossl required_kid verifier (.object key_object :: keys)
        = .error (missing_parameter name) := by
  unfold obstructs at h
  rcases huse : key_object.find (bytes "use") with _ | use
  · refine ⟨bytes "use", by simp, ?_⟩
    simp [configure_keys, get_required_parameter, huse, bind, Except.bind]
  · rw [huse] at h
    simp only [Option.isNone_some, Bool.false_or, Bool.and_eq_true, decide_eq_true_eq,
      Option.map_some, Option.some.injEq, Option.isNone_iff_eq_none] at h
    refine ⟨bytes "kid", by simp, ?_⟩
    simp [configure_keys, get_required_parameter, huse, h.1, h.2, bind, Except.bind]

theorem configure_keys_passed_over {key_object : Object}
    (hs : selected required_kid key_object = false) (ho : obstructs key_object = false)
    (keys : List Value) :
    configure_keys ossl required_kid verifier (.object key_object :: keys)
      = configure_keys ossl required_kid verifier keys := by
  unfold selected at hs
  unfold obstructs at ho
  rcases huse : key_object.find (bytes "use") with _ | use
  · simp [huse] at ho
  by_cases hsig : use.to_str = bytes "sig"
  · rcases hkid : key_object.find (bytes "kid") with _ | kid
    · simp [huse, hsig, hkid] at ho
    · have hne : kid.to_str ≠ required_kid := by
        intro heq
        simp [huse, hsig, hkid, heq] at hs
      simp [configure_keys, get_required_parameter, huse, hsig, hkid, hne, bind, Except.bind]
  · simp [configure_keys, get_required_parameter, huse, hsig, bind, Except.bind]

/-- No entry before the first wanted key ends the call. -/
def Unobstructed (required_kid : Bytes) (keys : List Object) : Prop :=
  ∀ key_object ∈ keys.takeWhile (fun o => !selected required_kid o), obstructs key_object = false

instance (required_kid : Bytes) (keys : List Object) : Decidable (Unobstructed required_kid keys) :=
  inferInstanceAs (Decidable (∀ key_object ∈ keys.takeWhile (fun o => !selected required_kid o),
    obstructs key_object = false))

/-- An unobstructed loop configures the first wanted key, if there is one. -/
theorem configure_keys_unobstructed {keys : List Object} (h : Unobstructed required_kid keys) :
    configure_keys ossl required_kid verifier (keys.map .object)
      = match (keys.filter (selected required_kid)).head? with
        | some key_object => configure_key ossl key_object required_kid verifier
        | none => .ok verifier := by
  induction keys with
  | nil => rfl
  | cons key_object keys ih =>
    rw [List.map_cons]
    -- the loop ends at the first selected key
    cases hs : selected required_kid key_object with
    | true =>
      rw [configure_keys_selected ossl required_kid verifier hs, List.filter_cons_of_pos hs]
      rfl
    | false =>
      unfold Unobstructed at h
      rw [List.takeWhile_cons_of_pos (by simp [hs]), List.forall_mem_cons] at h
      rw [configure_keys_passed_over ossl required_kid verifier hs h.1, ih h.2,
        List.filter_cons_of_neg (by simp [hs])]

/-- An obstructed loop fails, naming the parameter that is missing. -/
theorem configure_keys_obstructed {keys : List Object} (h : ¬ Unobstructed required_kid keys) :
    ∃ name ∈ [bytes "use", bytes "kid"],
      configure_keys ossl required_kid verifier (keys.map .object)
        = .error (missing_parameter name) := by
  induction keys with
  | nil => exact absurd (fun _ hmem => absurd hmem List.not_mem_nil) h
  | cons key_object keys ih =>
    unfold Unobstructed at h
    cases hs : selected required_kid key_object with
    | true => simp [hs] at h
    | false =>
      rw [List.takeWhile_cons_of_pos (by simp [hs]), List.forall_mem_cons] at h
      rw [List.map_cons]
      cases ho : obstructs key_object with
      | true => exact configure_keys_obstructs ossl required_kid verifier ho _
      | false =>
        rw [configure_keys_passed_over ossl required_kid verifier hs ho]
        exact ih fun hrest => h ⟨ho, hrest⟩

end Loop

/-- `selected`, of an entry that need not be an object. -/
def wanted (required_kid : Bytes) : Value → Bool
  | .object key_object => selected required_kid key_object
  | _ => false

/-- A loop that ends well has stopped at the first wanted entry and configured it, or has
found none and left the verifier alone. -/
theorem configure_keys_eq_ok {ossl : OpenSSL} {required_kid : Bytes} {verifier v : Verifier}
    {keys : List Value} (h : configure_keys ossl required_kid verifier keys = .ok v) :
    (v = verifier ∧ ∀ k ∈ keys, wanted required_kid k = false) ∨
      ∃ before key_object after, keys = before ++ .object key_object :: after ∧
        (∀ k ∈ before, wanted required_kid k = false) ∧ selected required_kid key_object = true ∧
        configure_key ossl key_object required_kid verifier = .ok v := by
  induction keys with
  | nil =>
    left
    exact ⟨(Except.ok.inj h).symm, by simp⟩
  | cons k keys ih =>
    cases k with
    | object key_object =>
      cases hs : selected required_kid key_object with
      | true =>
        right
        rw [configure_keys_selected ossl required_kid verifier hs] at h
        exact ⟨[], key_object, keys, rfl, by simp, hs, h⟩
      | false =>
        -- an entry that is not wanted is passed over, unless its members cannot be read
        cases ho : obstructs key_object with
        | true =>
          obtain ⟨name, -, herr⟩ := configure_keys_obstructs ossl required_kid verifier ho keys
          rw [herr] at h
          exact absurd h nofun
        | false =>
          rw [configure_keys_passed_over ossl required_kid verifier hs ho] at h
          obtain ⟨hv, hnone⟩ | ⟨before, o, after, hkeys, hbefore, hsel, hconf⟩ := ih h
          · exact .inl ⟨hv, List.forall_mem_cons.mpr ⟨hs, hnone⟩⟩
          · refine .inr ⟨.object key_object :: before, o, after, by rw [hkeys]; rfl, ?_, hsel, hconf⟩
            exact List.forall_mem_cons.mpr ⟨hs, hbefore⟩
    | null => exact absurd h nofun
    | boolean b => exact absurd h nofun
    | number x => exact absurd h nofun
    | string t => exact absurd h nofun
    | array a => exact absurd h nofun
    | int64 i => exact absurd h nofun

/-! ## What a key determines -/

/-- The accepted combinations of `kty`, `alg` and `crv`, each with the one algorithm it
stands for. -/
inductive Combination (crv : Option Bytes) : Bytes → Bytes → Alg → Prop
  | rsa (a : Alg) (h : a ∈ [Alg.RS256, .RS384, .RS512, .PS256, .PS384, .PS512]) :
      Combination crv (bytes "RSA") a.name a
  | rsa_default : Combination crv (bytes "RSA") [] .RS256
  | es256 (h : crv = some (bytes "P-256")) : Combination crv (bytes "EC") (bytes "ES256") .ES256
  | es384 (h : crv = some (bytes "P-384")) : Combination crv (bytes "EC") (bytes "ES384") .ES384
  | es512 (h : crv = some (bytes "P-521")) : Combination crv (bytes "EC") (bytes "ES512") .ES512
  | oct (a : Alg) (h : a ∈ [Alg.HS256, .HS384, .HS512]) : Combination crv (bytes "oct") a.name a

/-- The key material of a JWK of type `kty`: the public key built from its components, or
the text of `k`. -/
inductive Material (ossl : OpenSSL) (key_object : Object) : Bytes → Bytes → Prop
  | rsa {n e : Value} {key : Bytes} (hn : key_object.find (bytes "n") = some n)
      (he : key_object.find (bytes "e") = some e)
      (h : create_public_key_from_rsa_components ossl n.to_str e.to_str = .ok key) :
      Material ossl key_object (bytes "RSA") key
  | ec {x y crv : Value} {key : Bytes} (hx : key_object.find (bytes "x") = some x)
      (hy : key_object.find (bytes "y") = some y) (hc : key_object.find (bytes "crv") = some crv)
      (h : create_public_key_from_ec_components ossl crv.to_str x.to_str y.to_str = .ok key) :
      Material ossl key_object (bytes "EC") key
  | oct {k : Value} (hk : key_object.find (bytes "k") = some k) :
      Material ossl key_object (bytes "oct") k.to_str

/-- `v` is `verifier` with the one algorithm that the JWK, taken as a key of type `kty`,
determines. -/
def Configured (ossl : OpenSSL) (key_object : Object) (kty : Bytes) (verifier v : Verifier) :
    Prop :=
  ∃ a key, Combination ((key_object.find (bytes "crv")).map Value.to_str) kty
      (key_alg key_object) a ∧
    Material ossl key_object kty key ∧ v = verifier.allow_algorithm ⟨a, key⟩

theorem allow_public_key_eq_ok {ossl : OpenSSL} {verifier v : Verifier} {a : Alg} {key : Bytes}
    (h : allow_public_key ossl verifier a key = .ok v) :
    v = verifier.allow_algorithm ⟨a, key⟩ := by
  obtain ⟨-, -, hv⟩ := bind_eq_ok.mp h
  exact (Except.ok.inj hv).symm

section Configure

variable {ossl : OpenSSL} {key_object : Object} {kid : Bytes} {verifier v : Verifier}

theorem configure_rsa_key_eq_ok
    (h : configure_rsa_key ossl key_object kid (key_alg key_object) verifier = .ok v) :
    Configured ossl key_object (bytes "RSA") verifier v := by
  unfold configure_rsa_key at h
  rcases hn : key_object.find (bytes "n") with _ | n
  · rw [hn] at h
    exact absurd h nofun
  rcases he : key_object.find (bytes "e") with _ | e
  · rw [hn, he] at h
    exact absurd h nofun
  rw [hn, he] at h
  obtain ⟨key, hkey, h⟩ := bind_eq_ok.mp h
  have hmat : Material ossl key_object (bytes "RSA") key := .rsa hn he hkey
  split_ifs at h with h256 h384 h512 hp256 hp384 hp512
  · refine ⟨.RS256, key, ?_, hmat, allow_public_key_eq_ok h⟩
    -- `RS256`, also if there is no `alg`
    rcases h256 with halg | halg <;> rw [halg]
    · exact .rsa .RS256 (by decide)
    · exact .rsa_default
  · exact ⟨.RS384, key, h384 ▸ .rsa .RS384 (by decide), hmat, allow_public_key_eq_ok h⟩
  · exact ⟨.RS512, key, h512 ▸ .rsa .RS512 (by decide), hmat, allow_public_key_eq_ok h⟩
  · exact ⟨.PS256, key, hp256 ▸ .rsa .PS256 (by decide), hmat, allow_public_key_eq_ok h⟩
  · exact ⟨.PS384, key, hp384 ▸ .rsa .PS384 (by decide), hmat, allow_public_key_eq_ok h⟩
  · exact ⟨.PS512, key, hp512 ▸ .rsa .PS512 (by decide), hmat, allow_public_key_eq_ok h⟩

theorem configure_ec_key_eq_ok
    (h : configure_ec_key ossl key_object kid (key_alg key_object) verifier = .ok v) :
    Configured ossl key_object (bytes "EC") verifier v := by
  unfold configure_ec_key at h
  rcases hx : key_object.find (bytes "x") with _ | x
  · rw [hx] at h
    exact absurd h nofun
  rcases hy : key_object.find (bytes "y") with _ | y
  · rw [hx, hy] at h
    exact absurd h nofun
  rcases hc : key_object.find (bytes "crv") with _ | crv
  · rw [hx, hy, hc] at h
    exact absurd h nofun
  rw [hx, hy, hc] at h
  obtain ⟨key, hkey, h⟩ := bind_eq_ok.mp h
  have hmat : Material ossl key_object (bytes "EC") key := .ec hx hy hc hkey
  have hcrv : (key_object.find (bytes "crv")).map Value.to_str = some crv.to_str := by rw [hc]; rfl
  -- for `EC` the curve counts as well
  unfold Configured
  rw [hcrv]
  split_ifs at h with h256 h384 h512
  · exact ⟨.ES256, key, h256.1 ▸ .es256 (congrArg some h256.2), hmat, allow_public_key_eq_ok h⟩
  · exact ⟨.ES384, key, h384.1 ▸ .es384 (congrArg some h384.2), hmat, allow_public_key_eq_ok h⟩
  · exact ⟨.ES512, key, h512.1 ▸ .es512 (congrArg some h512.2), hmat, allow_public_key_eq_ok h⟩

theorem configure_hmac_key_eq_ok
    (h : configure_hmac_key key_object kid (key_alg key_object) verifier = .ok v) :
    Configured ossl key_object (bytes "oct") verifier v := by
  unfold configure_hmac_key at h
  rcases hk : key_object.find (bytes "k") with _ | k
  · rw [hk] at h
    exact absurd h nofun
  rw [hk] at h
  have hmat : Material ossl key_object (bytes "oct") k.to_str := .oct hk
  dsimp only at h
  split_ifs at h with h256 h384 h512
  · exact ⟨.HS256, k.to_str, h256 ▸ .oct .HS256 (by decide), hmat, (Except.ok.inj h).symm⟩
  · exact ⟨.HS384, k.to_str, h384 ▸ .oct .HS384 (by decide), hmat, (Except.ok.inj h).symm⟩
  · exact ⟨.HS512, k.to_str, h512 ▸ .oct .HS512 (by decide), hmat, (Except.ok.inj h).symm⟩

/-- A key that is configured is of an accepted combination and adds that one algorithm
with its own material. -/
theorem configure_key_eq_ok (h : configure_key ossl key_object kid verifier = .ok v) :
    ∃ kty, (key_object.find (bytes "kty")).map Value.to_str = some kty ∧
      Configured ossl key_object kty verifier v := by
  obtain ⟨kty, hkty, h⟩ := bind_eq_ok.mp h
  refine ⟨kty, ?_, ?_⟩
  · unfold get_required_parameter at hkty
    rcases hfind : key_object.find (bytes "kty") with _ | w <;> rw [hfind] at hkty
    · exact absurd hkty nofun
    · exact congrArg some (Except.ok.inj hkty)
  · split_ifs at h with hrsa hec hoct
    · exact hrsa ▸ configure_rsa_key_eq_ok h
    · exact hec ▸ configure_ec_key_eq_ok h
    · exact hoct ▸ configure_hmac_key_eq_ok h

end Configure

/-! ## The whole call -/

/-- The call on a JWKS document whose `keys` is an array. -/
theorem configure_verifier_with_jwks_keys (ossl : OpenSSL) (issuer required_kid : Bytes)
    {jwks_object : Object} {keys : List Value}
    (h : jwks_object.find (bytes "keys") = some (.array keys)) :
    configure_verifier_with_jwks ossl issuer (.object jwks_object) required_kid
      = expected_issuer issuer >>= fun iss =>
          configure_keys ossl required_kid (Jwt.verify.with_issuer iss) keys := by
  unfold configure_verifier_with_jwks
  simp only [h]

/-- A call that ends well has read a document whose `keys` is an array. -/
theorem configure_verifier_with_jwks_eq_ok {ossl : OpenSSL} {issuer required_kid : Bytes}
    {jwksInfo : Value} {v : Verifier}
    (h : configure_verifier_with_jwks ossl issuer jwksInfo required_kid = .ok v) :
    ∃ iss jwks_object keys, expected_issuer issuer = .ok iss ∧ jwksInfo = .object jwks_object ∧
      Object.find jwks_object (bytes "keys") = some (.array keys) ∧
      configure_keys ossl required_kid (Jwt.verify.with_issuer iss) keys = .ok v := by
  obtain ⟨iss, hiss, h⟩ := bind_eq_ok.mp h
  cases jwksInfo with
  | object jwks_object =>
    dsimp only at h
    rcases hkeys : Object.find jwks_object (bytes "keys") with _ | keys <;> rw [hkeys] at h
    · exact absurd h nofun
    · cases keys with
      | array keys => exact ⟨iss, jwks_object, keys, hiss, rfl, hkeys, h⟩
      | null => exact absurd h nofun
      | boolean b => exact absurd h nofun
      | number x => exact absurd h nofun
      | string t => exact absurd h nofun
      | object o => exact absurd h nofun
      | int64 i => exact absurd h nofun
  | null => exact absurd h nofun
  | boolean b => exact absurd h nofun
  | number x => exact absurd h nofun
  | string t => exact absurd h nofun
  | array a => exact absurd h nofun
  | int64 i => exact absurd h nofun

/-- An `oct` signing key with `kid` `k1`. -/
def oct_key : Object :=
  [(bytes "alg", .string (bytes "HS256")), (bytes "k", .string (bytes "secret")),
    (bytes "kid", .string (bytes "k1")), (bytes "kty", .string (bytes "oct")),
    (bytes "use", .string (bytes "sig"))]

/-- An encryption key with another `kid`. -/
def enc_key : Object := [(bytes "kid", .string (bytes "k2")), (bytes "use", .string (bytes "enc"))]

/-- A key that does not say what it is for. -/
def bare_key : Object := [(bytes "kid", .string (bytes "k3"))]

/-- A JWKS document with these keys. -/
def jwks_of (keys : List Object) : Object := [(bytes "keys", .array (keys.map .object))]

/-- `r` is received through its non-empty last path segment. -/
def ReceivedBySegment (received_scopes : Scopes) (r : Bytes) : Prop :=
  ∃ path segment, r = path ++ 47 :: segment ∧ 47 ∉ segment ∧ segment ≠ []
    ∧ segment ∈ received_scopes

/-- The intended decision on one required scope. -/
def Admitted (received_scopes : Scopes) (r : Bytes) : Prop :=
  r = bytes "openid" ∨ r ∈ received_scopes ∨ ReceivedBySegment received_scopes r

/-- `r` has a `/` that is not its last character. -/
def HasLastSegment (r : Bytes) : Prop :=
  ∃ path segment, r = path ++ 47 :: segment ∧ 47 ∉ segment ∧ segment ≠ []

/-- `r` is decided by neither of the first two tests of the loop. -/
def Undecided (received_scopes : Scopes) (r : Bytes) : Prop :=
  r ≠ bytes "openid" ∧ r ∉ received_scopes

theorem hasLastSegment_iff (r : Bytes) :
    HasLastSegment r ↔ ∃ segment, after_last 47 r = some segment ∧ segment ≠ [] := by
  constructor
  · rintro ⟨path, segment, hr, hseg, hne⟩
    exact ⟨segment, (after_last_eq_some_iff 47 r segment).mpr ⟨path, hr, hseg⟩, hne⟩
  · rintro ⟨segment, hlast, hne⟩
    obtain ⟨path, hr, hseg⟩ := (after_last_eq_some_iff 47 r segment).mp hlast
    exact ⟨path, segment, hr, hseg, hne⟩

theorem receivedBySegment_iff (received_scopes : Scopes) (r : Bytes) :
    ReceivedBySegment received_scopes r ↔
      ∃ segment, after_last 47 r = some segment ∧ segment ≠ [] ∧ segment ∈ received_scopes := by
  constructor
  · rintro ⟨path, segment, hr, hseg, hne, hrec⟩
    exact ⟨segment, (after_last_eq_some_iff 47 r segment).mpr ⟨path, hr, hseg⟩, hne, hrec⟩
  · rintro ⟨segment, hlast, hne, hrec⟩
    obtain ⟨path, hr, hseg⟩ := (after_last_eq_some_iff 47 r segment).mp hlast
    exact ⟨path, segment, hr, hseg, hne, hrec⟩

/-- One turn of the loop: it goes on unless the scope is undecided, has a last segment,
and that segment was not received. -/
theorem azure_scopes_match_loop_cons (received_scopes : Scopes) (r : Bytes) (rest : List Bytes) :
    azure_scopes_match_loop received_scopes (r :: rest) = true ↔
      (Undecided received_scopes r → HasLastSegment r → ReceivedBySegment received_scopes r)
        ∧ azure_scopes_match_loop received_scopes rest = true := by
  rw [hasLastSegment_iff, receivedBySegment_iff, azure_scopes_match_loop, Undecided]
  by_cases hopen : r = bytes "openid"
  · simp [hopen]
  by_cases hrec : r ∈ received_scopes
  · simp [hopen, hrec]
  rcases hlast : after_last 47 r with _ | ⟨_ | ⟨b, segment⟩⟩
  · simp [hopen, hrec]
  · simp [hopen, hrec]
  · by_cases hseg : (b :: segment) ∈ received_scopes
    · simp [hopen, hrec, hseg]
    · simp [hopen, hrec, hseg]

/-- The loop looks at every required scope on its own. -/
theorem azure_scopes_match_loop_iff (received_scopes : Scopes) (required : List Bytes) :
    azure_scopes_match_loop received_scopes required = true ↔
      ∀ r ∈ required, Undecided received_scopes r → HasLastSegment r →
        ReceivedBySegment received_scopes r := by
  induction required with
  | nil => simp [azure_scopes_match_loop]
  | cons r rest ih => rw [azure_scopes_match_loop_cons, ih, List.forall_mem_cons]

theorem ReceivedBySegment.hasLastSegment {received_scopes : Scopes} {r : Bytes}
    (h : ReceivedBySegment received_scopes r) : HasLastSegment r := by
  obtain ⟨path, segment, hr, hseg, hne, -⟩ := h
  exact ⟨path, segment, hr, hseg, hne⟩

/-- The intended decision, seen from the third test. -/
theorem admitted_iff (received_scopes : Scopes) (r : Bytes) :
    Admitted received_scopes r ↔
      (Undecided received_scopes r → ReceivedBySegment received_scopes r) := by
  unfold Admitted Undecided
  by_cases hopen : r = bytes "openid"
  · simp [hopen]
  · by_cases hrec : r ∈ received_scopes
    · simp [hopen, hrec]
    · simp [hopen, hrec]

/-- **When `azure_scopes_match` decides as intended.** Either every undecided required
scope has a last segment to look up, or some undecided one has a last segment that was
not received, which rejects the token whatever the loop skips. -/
theorem azure_scopes_match_exact_iff (required_scopes received_scopes : Scopes) :
    (azure_scopes_match required_scopes received_scopes = true ↔
        ∀ r ∈ required_scopes, Admitted received_scopes r) ↔
      ((∀ r ∈ required_scopes, Undecided received_scopes r → HasLastSegment r) ∨
        ∃ r ∈ required_scopes, Undecided received_scopes r ∧ HasLastSegment r
          ∧ ¬ ReceivedBySegment received_scopes r) := by
  -- the loop looks at the scopes that have a last segment, and only at those
  have hloop : azure_scopes_match required_scopes received_scopes = true ↔
      ∀ r ∈ required_scopes, Undecided received_scopes r → HasLastSegment r →
        ReceivedBySegment received_scopes r :=
    azure_scopes_match_loop_iff received_scopes required_scopes.toList
  have hadm : (∀ r ∈ required_scopes, Admitted received_scopes r) ↔
      ∀ r ∈ required_scopes, Undecided received_scopes r → ReceivedBySegment received_scopes r :=
    forall₂_congr fun r _ => admitted_iff received_scopes r
  rw [hloop, hadm]
  constructor
  · intro h
    by_cases hall : ∀ r ∈ required_scopes, Undecided received_scopes r → HasLastSegment r →
        ReceivedBySegment received_scopes r
    · -- the loop accepts, so every undecided scope is received by its last segment
      exact .inl fun r hr hund => (h.mp hall r hr hund).hasLastSegment
    · push Not at hall
      obtain ⟨r, hr, hund, hseg, hnot⟩ := hall
      exact .inr ⟨r, hr, hund, hseg, hnot⟩
  · rintro (hseg | ⟨r, hr, hund, hseg, hnot⟩)
    · exact ⟨fun h r hr hund => h r hr hund (hseg r hr hund), fun h r hr hund _ => h r hr hund⟩
    · exact ⟨fun h => absurd (h r hr hund hseg) hnot, fun h => absurd (h r hr hund) hnot⟩

/-- A token without scopes passes a requirement of `admin`, which is not admitted. -/
theorem azure_scopes_match_admits_unreceived :
    azure_scopes_match (SortedSet.ofList [bytes "admin"]) SortedSet.empty = true ∧
      ¬ ∀ r ∈ (SortedSet.ofList [bytes "admin"] : Scopes), Admitted SortedSet.empty r := by
  refine ⟨by decide, fun h => ?_⟩
  obtain hopen | hrec | hseg := h (bytes "admin") (by decide)
  · exact absurd hopen (by decide)
  · exact absurd hrec (by decide)
  · obtain ⟨path, segment, hr, -⟩ := hseg
    have hmem : 47 ∈ bytes "admin" := hr ▸ by simp
    exact absurd hmem (by decide)

end OidcValidator.Jwk
