/-
`HonestLogin.lean` -- which tokens a login accepts.

`Acceptance.lean` reads off an answer what must have been checked. Here is the other direction,
which is the one a user cares about: a token that deserves to be accepted is accepted, unless
something fails that has nothing to do with the token.

A token is made from two JSON objects and a signature, [`Issued`]. What is put into it comes out
of `jwt::decode` again, for every way to write the two objects that `Json.lean` knows. And what
`validate_token` answers about it is exactly what the keys, the dates and the issuer say,
[`Entitled`].
-/
import OidcValidator.Json
import OidcValidator.KeyMaterial
import OidcValidator.Logins

set_option autoImplicit false

namespace OidcValidator.HonestLogin

open OidcValidator.ByteString OidcValidator.Control OidcValidator.PgUtils
open OidcValidator.Picojson OidcValidator.Jwt OidcValidator.Jwk OidcValidator.Validator
open OidcValidator.KeyMaterial (base64url_encode base64url_decode_encode)
open OidcValidator.Logins (judge)

/-! ## Tokens as they are issued -/

/-- Two objects as they are written, and the signature. -/
structure Issued where
  header : Json.Members
  payload : Json.Members
  signature : Bytes
  header_need : header.need ≤ default_max_depths
  payload_need : payload.need ≤ default_max_depths

/-- The text of the header. -/
def Issued.header_text (t : Issued) : Bytes := (Json.Doc.object t.header).text

/-- The text of the payload. -/
def Issued.payload_text (t : Issued) : Bytes := (Json.Doc.object t.payload).text

/-- What is signed. -/
def Issued.signing_input (t : Issued) : Bytes :=
  base64url_encode t.header_text ++ 46 :: base64url_encode t.payload_text

/-- The token. -/
def Issued.token (t : Issued) : Bytes := t.signing_input ++ 46 :: base64url_encode t.signature

/-- What it should be decoded to. -/
def Issued.decoded (t : Issued) : DecodedJwt where
  token := t.token
  header := t.header_text
  header_base64 := base64url_encode t.header_text
  payload := t.payload_text
  payload_base64 := base64url_encode t.payload_text
  signature := t.signature
  signature_base64 := base64url_encode t.signature
  header_claims := t.header.enter []
  payload_claims := t.payload.enter []

theorem mem_encode {b : UInt8} {s : Bytes} (h : b ∈ base64url_encode s) :
    ∃ n < 64, b = KeyMaterial.alphabet n := by
  induction s using OidcValidator.KeyMaterial.base64url_encode.induct with
  | case1 x y z rest ih =>
    -- each character is one of the alphabet, for six bits are less than 64
    have hx := x.toNat_lt
    have hy := y.toNat_lt
    have hz := z.toNat_lt
    simp only [base64url_encode, List.mem_cons] at h
    rcases h with h | h | h | h | h
    · exact ⟨_, by omega, h⟩
    · exact ⟨_, by omega, h⟩
    · exact ⟨_, by omega, h⟩
    · exact ⟨_, by omega, h⟩
    · exact ih h
  | case2 x y =>
    have hx := x.toNat_lt
    have hy := y.toNat_lt
    simp only [base64url_encode, List.mem_cons, List.not_mem_nil, or_false] at h
    rcases h with h | h | h
    · exact ⟨_, by omega, h⟩
    · exact ⟨_, by omega, h⟩
    · exact ⟨_, by omega, h⟩
  | case3 x =>
    have hx := x.toNat_lt
    simp only [base64url_encode, List.mem_cons, List.not_mem_nil, or_false] at h
    rcases h with h | h
    · exact ⟨_, by omega, h⟩
    · exact ⟨_, by omega, h⟩
  | case4 => exact absurd h List.not_mem_nil

/-- The dots of a token are those between its parts. -/
theorem dot_notMem_encode (s : Bytes) : 46 ∉ base64url_encode s := by
  intro h
  obtain ⟨n, hn, heq⟩ := mem_encode h
  have hne : ∀ n < 64, KeyMaterial.alphabet n ≠ 46 := by decide
  exact hne n hn heq.symm

theorem split_first_append {c : UInt8} {s : Bytes} (hs : c ∉ s) (t : Bytes) :
    split_first c (s ++ c :: t) = some (s, t) := by
  induction s with
  | nil => rw [List.nil_append, split_first, if_pos rfl]
  | cons b s ih =>
    obtain ⟨hb, hs⟩ := not_or.mp (List.mem_cons.not.mp hs)
    rw [List.cons_append, split_first, if_neg (Ne.symm hb), ih hs]
    rfl

/-- An object that is written like this has these claims. -/
theorem parse_claims_text {members : Json.Members} (h : members.need ≤ default_max_depths) :
    parse_claims (Json.Doc.object members).text = .ok (members.enter []) := by
  have hneed : (Json.Doc.object members).need ≤ default_max_depths :=
    Nat.max_le.mpr ⟨by decide, h⟩
  have hparse := @Json.parse_of_written ⟨[], rfl⟩ (.object members) [] trivial hneed
  rw [List.append_nil] at hparse
  unfold parse_claims
  rw [show parse (Json.Doc.object members).text = .value (.object (members.enter [])) from hparse]

/-- What constructing the algorithm asks of the key. -/
def load (ossl : OpenSSL) (alg : Algorithm) : Except CppException Unit :=
  if alg.alg.is_hmac then .ok () else ossl.load_public_key alg.alg alg.key

/-- The JWK determines this algorithm and its key. -/
def Determines (ossl : OpenSSL) (key_object : Object) (alg : Algorithm) : Prop :=
  ∃ kty, (key_object.find (bytes "kty")).map Value.to_str = some kty ∧
    Combination ((key_object.find (bytes "crv")).map Value.to_str) kty (key_alg key_object)
      alg.alg ∧
    Material ossl key_object kty alg.key

section Keys

variable {ossl : OpenSSL} {key_object : Object} {kid : Bytes} {verifier v : Verifier}

theorem configure_rsa_key_eq {alg : Algorithm} {name : Bytes}
    (halg : alg.alg ∈ [Alg.RS256, .RS384, .RS512, .PS256, .PS384, .PS512])
    (hname : name = alg.alg.name ∨ name = [] ∧ alg.alg = .RS256)
    (hmat : Material ossl key_object (bytes "RSA") alg.key) :
    configure_rsa_key ossl key_object kid name verifier =
      load ossl alg >>= fun _ => .ok (verifier.allow_algorithm alg) := by
  obtain ⟨a, key⟩ := alg
  dsimp only at halg hname hmat
  generalize hkty : bytes "RSA" = kty at hmat
  cases hmat with
  | rsa hn he hkey =>
    unfold configure_rsa_key
    rw [hn, he]
    simp only [hkey, List.mem_cons, List.not_mem_nil, or_false] at halg ⊢
    obtain rfl | ⟨rfl, rfl⟩ := hname
    · rcases halg with rfl | rfl | rfl | rfl | rfl | rfl <;> rfl
    · rfl
  | ec _ _ _ _ => exact absurd hkty (by decide)
  | oct _ => exact absurd hkty (by decide)

theorem configure_ec_key_eq {alg : Algorithm} {name : Bytes}
    (hcomb : Combination ((key_object.find (bytes "crv")).map Value.to_str) (bytes "EC") name alg.alg)
    (hmat : Material ossl key_object (bytes "EC") alg.key) :
    configure_ec_key ossl key_object kid name verifier =
      load ossl alg >>= fun _ => .ok (verifier.allow_algorithm alg) := by
  obtain ⟨a, key⟩ := alg
  dsimp only at hcomb hmat
  -- so that the cases of `Material` see a variable
  generalize hkty : bytes "EC" = kty at hmat hcomb
  cases hmat with
  | @ec x y crv _ hx hy hc hkey =>
    unfold configure_ec_key
    rw [hx, hy, hc]
    rw [hc, Option.map_some] at hcomb
    simp only [hkey]
    cases hcomb with
    | es256 h =>
      have hcrv := Option.some.inj h
      simp only [hcrv]
      rfl
    | es384 h =>
      have hcrv := Option.some.inj h
      simp only [hcrv]
      rfl
    | es512 h =>
      have hcrv := Option.some.inj h
      simp only [hcrv]
      rfl
  | rsa _ _ _ => exact absurd hkty (by decide)
  | oct _ => exact absurd hkty (by decide)

theorem configure_hmac_key_eq {alg : Algorithm} (halg : alg.alg ∈ [Alg.HS256, .HS384, .HS512])
    (hmat : Material ossl key_object (bytes "oct") alg.key) :
    configure_hmac_key key_object kid alg.alg.name verifier =
      load ossl alg >>= fun _ => .ok (verifier.allow_algorithm alg) := by
  obtain ⟨a, key⟩ := alg
  dsimp only at halg hmat
  obtain ⟨k, hk, rfl⟩ := KeyMaterial.material_oct hmat
  unfold configure_hmac_key
  rw [hk]
  simp only [List.mem_cons, List.not_mem_nil, or_false] at halg
  rcases halg with rfl | rfl | rfl <;> rfl

/-- A key of an accepted combination is configured, if it can be loaded. -/
theorem configure_key_eq {alg : Algorithm} (h : Determines ossl key_object alg) :
    configure_key ossl key_object kid verifier =
      load ossl alg >>= fun _ => .ok (verifier.allow_algorithm alg) := by
  obtain ⟨a, key⟩ := alg
  obtain ⟨kty, hkty, hcomb, hmat⟩ := h
  obtain ⟨w, hw, rfl⟩ := Option.map_eq_some_iff.mp hkty
  have hparameter : get_required_parameter key_object (bytes "kty") = .ok w.to_str := by
    rw [get_required_parameter, hw]
  unfold configure_key
  rw [hparameter]
  simp only [bind, Except.bind]
  dsimp only at hcomb hmat
  generalize w.to_str = kty at hcomb hmat
  generalize key_alg key_object = name at hcomb
  -- each row of the table of combinations is one branch
  cases hcomb with
  | rsa a ha => exact configure_rsa_key_eq ha (.inl rfl) hmat
  | rsa_default =>
    have hmem : Alg.RS256 ∈ [Alg.RS256, .RS384, .RS512, .PS256, .PS384, .PS512] := by decide
    exact configure_rsa_key_eq hmem (.inr ⟨rfl, rfl⟩) hmat
  | es256 h => exact configure_ec_key_eq (.es256 h) hmat
  | es384 h => exact configure_ec_key_eq (.es384 h) hmat
  | es512 h => exact configure_ec_key_eq (.es512 h) hmat
  | oct a ha => exact @configure_hmac_key_eq _ _ _ _ ⟨a, key⟩ ha hmat

/-- Which keys are configured, and as what. -/
theorem configure_key_eq_ok_iff :
    configure_key ossl key_object kid verifier = .ok v ↔
      ∃ alg, Determines ossl key_object alg ∧ load ossl alg = .ok () ∧
        v = verifier.allow_algorithm alg := by
  constructor
  · intro h
    obtain ⟨kty, hkty, a, key, hcomb, hmat, hv⟩ := configure_key_eq_ok h
    have hdet : Determines ossl key_object ⟨a, key⟩ := ⟨kty, hkty, hcomb, hmat⟩
    rw [configure_key_eq hdet] at h
    obtain ⟨_, hload, -⟩ := bind_eq_ok.mp h
    exact ⟨⟨a, key⟩, hdet, hload, hv⟩
  · rintro ⟨alg, hdet, hload, rfl⟩
    rw [configure_key_eq hdet, hload]
    rfl

/-- An entry that the loop goes past. -/
def PassedOver (kid : Bytes) (k : Value) : Prop :=
  ∃ o, k = .object o ∧ selected kid o = false ∧ obstructs o = false

theorem configure_keys_append {before : List Value} (h : ∀ k ∈ before, PassedOver kid k)
    (keys : List Value) :
    configure_keys ossl kid verifier (before ++ keys) = configure_keys ossl kid verifier keys := by
  induction before with
  | nil => rfl
  | cons k before ih =>
    rw [List.forall_mem_cons] at h
    obtain ⟨⟨o, rfl, hselected, hobstructs⟩, hbefore⟩ := h
    rw [List.cons_append, configure_keys_passed_over ossl kid verifier hselected hobstructs,
      ih hbefore]

/-- What stands before the wanted key is gone past. -/
theorem passedOver_of_configure_keys {before after : List Value} {o : Object}
    (hbefore : ∀ k ∈ before, wanted kid k = false)
    (h : configure_keys ossl kid verifier (before ++ .object o :: after) = .ok v) :
    ∀ k ∈ before, PassedOver kid k := by
  induction before with
  | nil => exact fun k hk => absurd hk List.not_mem_nil
  | cons k before ih =>
    rw [List.forall_mem_cons] at hbefore ⊢
    cases k with
    | object o' =>
      have hselected : selected kid o' = false := hbefore.1
      -- an entry that obstructs would have ended the loop with an error
      rcases hobstructs : obstructs o' with _ | _
      · rw [List.cons_append, configure_keys_passed_over ossl kid verifier hselected hobstructs] at h
        exact ⟨⟨o', rfl, hselected, hobstructs⟩, ih hbefore.2 h⟩
      · obtain ⟨name, -, herr⟩ :=
          configure_keys_obstructs ossl kid verifier hobstructs (before ++ .object o :: after)
        rw [List.cons_append, herr] at h
        exact absurd h nofun
    | _ => exact absurd h nofun

/-- `alg` is the key that the document serves for `kid`. -/
def Serves (ossl : OpenSSL) (jwks_info : Value) (kid : Bytes) (alg : Algorithm) : Prop :=
  ∃ (jwks_object : Object) (before after : List Value) (key_object : Object),
    jwks_info = .object jwks_object ∧
      jwks_object.find (bytes "keys") = some (.array (before ++ .object key_object :: after)) ∧
      (∀ k ∈ before, PassedOver kid k) ∧ selected kid key_object = true ∧
      Determines ossl key_object alg ∧ load ossl alg = .ok ()

/-- A document that serves a key configures it. -/
theorem configure_of_serves {jwks_info : Value} {alg : Algorithm} {issuer iss : Bytes}
    (h : Serves ossl jwks_info kid alg) (hiss : expected_issuer issuer = .ok iss) :
    configure_verifier_with_jwks ossl issuer jwks_info kid =
      .ok ((Jwt.verify.with_issuer iss).allow_algorithm alg) := by
  obtain ⟨jwks_object, before, after, key_object, rfl, hkeys, hbefore, hselected, hdet, hload⟩ := h
  rw [configure_verifier_with_jwks_keys ossl issuer kid hkeys, hiss]
  show configure_keys _ _ _ _ = _
  rw [configure_keys_append hbefore, configure_keys_selected ossl kid _ hselected]
  exact configure_key_eq_ok_iff.mpr ⟨alg, hdet, hload, rfl⟩

/-- A verifier that accepts something has been configured with the key that is served. -/
theorem serves_of_verify {jwks_info : Value} {issuer : Bytes} {jwt : DecodedJwt} {now : ℤ}
    (hconf : configure_verifier_with_jwks ossl issuer jwks_info kid = .ok v)
    (hver : v.verify ossl jwt now = .ok ()) :
    ∃ iss alg, expected_issuer issuer = .ok iss ∧ Serves ossl jwks_info kid alg ∧
      v = (Jwt.verify.with_issuer iss).allow_algorithm alg := by
  obtain ⟨iss, jwks_object, keys, hiss, rfl, hkeys, hloop⟩ :=
    configure_verifier_with_jwks_eq_ok hconf
  obtain ⟨rfl, -⟩ | ⟨before, key_object, after, rfl, hbefore, hsel, hkey⟩ :=
    configure_keys_eq_ok hloop
  · -- no key was configured, so the verifier knows no algorithm
    obtain ⟨⟨a, -, hfind, -⟩, -⟩ := verify_with_issuer_eq_ok.mp hver
    exact absurd hfind nofun
  · obtain ⟨alg, hdet, hload, hv⟩ := configure_key_eq_ok_iff.mp hkey
    exact ⟨iss, alg, hiss, ⟨jwks_object, before, after, key_object, rfl, hkeys,
      passedOver_of_configure_keys hbefore hloop, hsel, hdet, hload⟩, hv⟩

end Keys

/-! ## Who is let in -/

/-- What a token must satisfy. Nothing here is about the run. -/
structure Entitled (ossl : OpenSSL) (issuer : Bytes) (now : ℤ) (jwks_info : Value)
    (jwt : DecodedJwt) : Prop where
  key : ∃ kid alg, jwt.header_claims.find (bytes "kid") = some (.string kid) ∧
    Serves ossl jwks_info kid alg ∧
    jwt.header_claims.find (bytes "alg") = some (.string alg.alg.name) ∧
    alg.verify ossl jwt.signing_input jwt.signature = none
  issuer : ∃ iss, expected_issuer issuer = .ok iss ∧
    jwt.payload_claims.find (bytes "iss") = some (.string iss)
  exp : DateOk jwt.payload_claims (bytes "exp") (fun d => decide (d < now))
  iat : DateOk jwt.payload_claims (bytes "iat") (fun d => decide (now < d))
  nbf : DateOk jwt.payload_claims (bytes "nbf") (fun d => decide (now < d))

theorem verify_allow_algorithm {ossl : OpenSSL} {iss : Bytes} {alg : Algorithm} {jwt : DecodedJwt}
    {now : ℤ} :
    ((Jwt.verify.with_issuer iss).allow_algorithm alg).verify ossl jwt now = .ok () ↔
      (jwt.header_claims.find (bytes "alg") = some (.string alg.alg.name) ∧
          alg.verify ossl jwt.signing_input jwt.signature = none) ∧
        DateOk jwt.payload_claims (bytes "exp") (fun d => decide (d < now)) ∧
        DateOk jwt.payload_claims (bytes "iat") (fun d => decide (now < d)) ∧
        DateOk jwt.payload_claims (bytes "nbf") (fun d => decide (now < d)) ∧
        jwt.payload_claims.find (bytes "iss") = some (.string iss) := by
  have hone : ((Jwt.verify.with_issuer iss).allow_algorithm alg) =
      ⟨(Jwt.verify.with_issuer iss).claims, [alg]⟩ := rfl
  rw [hone, verify_with_issuer_eq_ok]
  refine and_congr_left fun _ => ⟨?_, ?_⟩
  · rintro ⟨a, hname, hfind, hsig⟩
    obtain rfl : a = alg := List.mem_singleton.mp (List.mem_of_find?_eq_some hfind)
    exact ⟨hname, hsig⟩
  · rintro ⟨hname, hsig⟩
    exact ⟨alg, hname, List.find?_cons_of_pos (by simp), hsig⟩

/-! ## Runs in which nothing fails -/

section Quiet

variable {ossl : OpenSSL} {cfg : Config} {now : ℤ} {token : Bytes} {jwks_info : Value}
  {jwt : DecodedJwt} {u : World}

theorem evals_of_except {α : Type} {x : Except CppException α} {a : α} (h : x = .ok a) (u : World) :
    Evals (of_except x : Cpp α) u a u := by
  rw [h]
  exact Evals.pure a u

theorem evals_check_token (hdecode : decode token = .ok jwt)
    (h : Entitled ossl cfg.oauth_issuer now jwks_info jwt) (u : World) :
    Evals (check_token ossl cfg now token jwks_info) u jwt u := by
  obtain ⟨kid, alg, hkid, hserves, halg, hsig⟩ := h.key
  obtain ⟨iss, hiss, hissuer⟩ := h.issuer
  have hconf := configure_of_serves hserves hiss
  have hver := verify_allow_algorithm.mpr ⟨⟨halg, hsig⟩, h.exp, h.iat, h.nbf, hissuer⟩
  have hrest : Evals (do
      let verifier ← of_except (configure_verifier_with_jwks ossl cfg.oauth_issuer jwks_info kid)
      of_except (verifier.verify ossl jwt now)
      pure jwt : Cpp DecodedJwt) u jwt u :=
    Evals.bind (evals_of_except hconf u) (Evals.bind (evals_of_except hver u) (Evals.pure jwt u))
  refine Evals.bind (evals_of_except hdecode u) ?_
  refine Evals.bind (evals_of_except (get_claim_as_string_eq_ok.mpr hkid) u) ?_
  split_ifs
  · exact Evals.bind (Evals.elog _ _ u) hrest
  · exact hrest

theorem evals_accept_token (hdecode : decode token = .ok jwt)
    (h : Entitled ossl cfg.oauth_issuer now jwks_info jwt) (u : World) :
    Evals (accept_token ossl cfg now token (some jwks_info)) u (some jwt) u := by
  refine Evals.bind (evals_check_token hdecode h u) (Evals.bind (Evals.alloc u) ?_)
  have hremark : Evals (remark_scopes cfg jwt) u () u := by
    unfold remark_scopes
    split_ifs
    · exact Evals.elog _ _ u
    · exact Evals.elog _ _ u
    · exact Evals.pure () u
  exact Evals.bind hremark (Evals.bind (Evals.alloc u) (Evals.pure _ u))

theorem evals_identify {v : Value} (hv : jwt.payload_claims.find cfg.authn_field = some v)
    (u : World) : Evals (identify cfg jwt.payload_claims) u (.fall ())
      (with_result (fun res => { res with authn_id := some (c_str v.to_str) }) u) := by
  refine Evals.pg_try_block ?_ _
  unfold identify_body
  rw [hv]
  exact Evals.bind (Evals.alloc u) (Evals.bind (Evals.call u)
    (Evals.bind (Evals.modify _ u) (Evals.pure _ _)))

theorem evals_authorize (u : World) : Evals (authorize cfg jwt) u true
    (with_result (fun res => { res with authorized := decision cfg jwt }) u) := by
  have hremark : Evals (azure_remark cfg) u () u := by
    unfold azure_remark
    split_ifs
    · exact Evals.bind (Evals.elog _ _ u) (Evals.alloc u)
    · exact Evals.alloc u
    · exact Evals.pure () u
  have hlog : ∀ u, Evals (log_decision cfg jwt) u () u := by
    intro u
    refine Evals.get_bind ?_
    split_ifs
    · exact Evals.elog _ _ u
    · exact Evals.bind (Evals.alloc u) (Evals.elog _ _ u)
  exact Evals.bind hremark (Evals.bind (Evals.modify _ u) (Evals.bind (hlog _) (Evals.pure true _)))

/-- A token that is entitled to it gets a `true`. -/
theorem evals_judge {v : Value} (hdecode : decode token = .ok jwt)
    (h : Entitled ossl cfg.oauth_issuer now jwks_info jwt)
    (hv : jwt.payload_claims.find cfg.authn_field = some v) (u : World) :
    ∃ u', Evals (judge ossl cfg now token jwks_info) u true u' :=
  ⟨_, Evals.try_catch (Evals.bind (evals_accept_token hdecode h u)
    (Evals.bind (evals_identify hv u) (evals_authorize _))) _⟩

end Quiet

/-- A `true` is for a token that is entitled to it. -/
theorem entitled_of_judge {ossl : OpenSSL} {cfg : Config} {now : ℤ} {token : Bytes}
    {jwks_info : Value} {m m' : Proc} (hm : Acceptance.Denied m.user)
    (h : judge ossl cfg now token jwks_info m = (.ret true, m')) :
    ∃ jwt, decode token = .ok jwt ∧ Entitled ossl cfg.oauth_issuer now jwks_info jwt ∧
      (jwt.payload_claims.find cfg.authn_field).isSome := by
  obtain ⟨jwt, m₁, haccept, -⟩ := Logins.judge_eq_true hm h
  obtain ⟨jwt', v, haccepted, hv, -⟩ := (Logins.judge_sound hm h).2 rfl
  obtain ⟨jwt'', m₂, hcheck, hrest⟩ := bind_eq_ret.mp haccept
  obtain ⟨_, _, -, hrest⟩ := bind_eq_ret.mp hrest
  obtain ⟨_, _, -, hrest⟩ := bind_eq_ret.mp hrest
  obtain ⟨_, _, -, hrest⟩ := bind_eq_ret.mp hrest
  obtain rfl := Option.some.inj (Outcome.ret.inj (congrArg Prod.fst hrest))
  obtain ⟨hdecode, kid, verifier, hkid, hconf, hver⟩ := Acceptance.check_token_eq_ret hcheck
  -- both have decoded the same token
  obtain rfl := Except.ok.inj (haccepted.decoded.symm.trans hdecode)
  obtain ⟨iss, alg, hiss, hserves, rfl⟩ := serves_of_verify hconf hver
  obtain ⟨⟨halg, hsig⟩, hexp, hiat, hnbf, hissuer⟩ := verify_allow_algorithm.mp hver
  exact ⟨jwt', hdecode, ⟨⟨kid, alg, hkid, hserves, halg, hsig⟩, ⟨iss, hiss, hissuer⟩, hexp, hiat,
    hnbf⟩, by rw [hv]; rfl⟩

/-- The machine behind the first assignments. -/
def denied (m : Proc) : Proc := { m with user := with_result (fun _ => ⟨none, false⟩) m.user }

/-- **Who is let in.** If the two documents have been fetched and nothing fails from there on,
`validate_token` answers `true` for exactly the tokens that are entitled to it and have the member
that identifies the user. -/
theorem validate_token_true_iff (ossl : OpenSSL) (hash : Bytes → ℕ) (cfg : Config) (now : ℤ)
    (token : Bytes) {jwks_info : Value} {m m₁ : Proc}
    (hdocs : documents hash cfg (denied m) = (.ret (some jwks_info), m₁)) (hquiet : Quiet m₁) :
    (∃ m', validate_token ossl hash cfg now token m = (.ret true, m')) ↔
      ∃ jwt, decode token = .ok jwt ∧ Entitled ossl cfg.oauth_issuer now jwks_info jwt ∧
        (jwt.payload_claims.find cfg.authn_field).isSome := by
  have hdeny : assign_result (fun _ => ⟨none, false⟩) m = (.ret (), denied m) := rfl
  -- behind the documents only the judgement is left
  rw [Logins.validate_token_of_documents hdeny hdocs]
  constructor
  · rintro ⟨m', h⟩
    have hm : Acceptance.Denied (denied m).user := rfl
    exact entitled_of_judge
      ((Acceptance.Denied.invariant (framed_documents hash cfg)).of_eq_ret hm hdocs) h
  · rintro ⟨jwt, hdecode, hentitled, hfield⟩
    obtain ⟨v, hv⟩ := Option.isSome_iff_exists.mp hfield
    obtain ⟨u', heval⟩ := evals_judge hdecode hentitled hv m₁.user
    obtain ⟨m', hrun, -, -⟩ := heval m₁ hquiet rfl
    exact ⟨m', hrun⟩

/-- The documents of a run, if it fetches any. -/
def fetched_jwks : Outcome CppException (Option Value) × Proc → Option Value
  | (.ret jwks_info, _) => jwks_info
  | _ => none

theorem eq_ret_of_fetched_jwks {r : Outcome CppException (Option Value) × Proc} {jwks_info : Value}
    (h : fetched_jwks r = some jwks_info) : r = (.ret (some jwks_info), r.2) := by
  obtain ⟨o | _ | _ | _, m⟩ := r
  · exact congrArg (fun o => (Outcome.ret o, m)) h
  all_goals exact absurd h nofun

/-- Alice is entitled to be let in, by what her provider serves. -/
theorem validate_token_true_alice :
    ∃ jwks_info jwt, decode Acceptance.alice.token = .ok jwt ∧
      Entitled (Acceptance.openssl_for [Acceptance.alice]) (bytes "https://idp") 0 jwks_info jwt ∧
      (jwt.payload_claims.find (bytes "sub")).isSome := by
  have hfetched : (fetched_jwks (documents List.length Acceptance.provider_config
      (denied Acceptance.login_machine))).isSome = true := by decide +kernel
  obtain ⟨jwks_info, hjwks⟩ := Option.isSome_iff_exists.mp hfetched
  have hdocs := eq_ret_of_fetched_jwks hjwks
  have hstart : Quiet (denied Acceptance.login_machine) := fun _ => rfl
  have hkept := (framed_documents List.length Acceptance.provider_config).balanced
    (denied Acceptance.login_machine)
  rw [hdocs] at hkept
  have htrue := validate_token_true_iff (Acceptance.openssl_for [Acceptance.alice]) List.length
    Acceptance.provider_config 0 Acceptance.alice.token hdocs (hstart.kept hkept)
  have hrun : (validate_token (Acceptance.openssl_for [Acceptance.alice]) List.length
      Acceptance.provider_config 0 Acceptance.alice.token Acceptance.login_machine).1 = .ret true := by
    decide +kernel
  exact ⟨jwks_info, htrue.mp ⟨_, Prod.ext hrun rfl⟩⟩

end OidcValidator.HonestLogin
