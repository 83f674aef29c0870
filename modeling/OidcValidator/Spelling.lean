/-
`Spelling.lean` -- the two spellings of an issuer.

`issuer_info_url` takes an issuer with or without `/.well-known/openid-configuration`
behind it and makes the same URL of both. The same string is also what the `iss` claim is
compared with, and there the two spellings are two issuers.

Only the expected `iss` tells the two runs apart: the documents, the scopes and the
Azure question are the same. So the runs are compared at the one place where they can
part, the verification of the token.
-/
import OidcValidator.ErrorState

set_option autoImplicit false

namespace OidcValidator.Spelling

open OidcValidator.ByteString OidcValidator.Control OidcValidator.PgUtils
open OidcValidator.Picojson OidcValidator.Jwt OidcValidator.Jwk
open OidcValidator.Validator OidcValidator.Acceptance OidcValidator.ErrorState

/-! ## The expected issuer -/

/-- The settings with the longer spelling of the issuer. -/
def respelled (cfg : Config) : Config :=
  { cfg with oauth_issuer := cfg.oauth_issuer ++ info_end }

/-- The issuers whose two spellings expect the same `iss`: the host name of the device
flow, for which a new issuer is made from the tenant id, and the other Azure host name
without a tenant id, for which the call fails. -/
def ExpectsSame (issuer : Bytes) : Prop :=
  contains issuer microsoftonline = true ∨
    (contains issuer sts_windows = true ∧ Regex.search_row tenant_regex issuer = none)

/-- The path starts with a slash, which no host name and no tenant id contains. -/
theorem info_end_eq : info_end = 47 :: bytes ".well-known/openid-configuration" := by decide

theorem contains_append_info_end {needle : Bytes} (hn : 47 ∉ needle)
    (htail : ¬ needle <:+: bytes ".well-known/openid-configuration") (issuer : Bytes) :
    contains (issuer ++ info_end) needle = contains issuer needle := by
  rw [Bool.eq_iff_iff, contains_iff, contains_iff, info_end_eq, infix_append_cons_iff hn]
  exact or_iff_left htail

theorem contains_microsoftonline_append (issuer : Bytes) :
    contains (issuer ++ info_end) microsoftonline = contains issuer microsoftonline := by
  refine contains_append_info_end (by decide) ?_ issuer
  rw [← contains_iff]
  decide

theorem contains_sts_windows_append (issuer : Bytes) :
    contains (issuer ++ info_end) sts_windows = contains issuer sts_windows := by
  refine contains_append_info_end (by decide) ?_ issuer
  rw [← contains_iff]
  decide

theorem issuer_is_azure_append (issuer : Bytes) :
    issuer_is_azure (issuer ++ info_end) = issuer_is_azure issuer := by
  unfold issuer_is_azure
  rw [contains_microsoftonline_append, contains_sts_windows_append]

theorem search_tenant_append (issuer : Bytes) :
    Regex.search_row tenant_regex (issuer ++ info_end) = Regex.search_row tenant_regex issuer := by
  have hall : tenant_regex.all (fun p => !p 47) = true := rfl
  have hslash : ∀ p ∈ tenant_regex, p 47 = false := by simpa using hall
  have htail : Regex.search_row tenant_regex (bytes ".well-known/openid-configuration") = none := by
    decide
  rw [info_end_eq, Regex.search_row_append_cons (by decide) hslash, htail, Option.or_none]

theorem extract_azure_tenant_id_append (issuer : Bytes) :
    extract_azure_tenant_id (issuer ++ info_end) = extract_azure_tenant_id issuer := by
  unfold extract_azure_tenant_id
  rw [search_tenant_append]

theorem expected_issuer_of_expectsSame {issuer : Bytes} (h : ExpectsSame issuer) :
    expected_issuer (issuer ++ info_end) = expected_issuer issuer := by
  have hazure : issuer_is_azure issuer = true := by
    rcases h with hms | ⟨hsts, -⟩
    · simp [issuer_is_azure, hms]
    · simp [issuer_is_azure, hsts]
  unfold expected_issuer convert_azure_issuer_to_jwt_format
  rw [issuer_is_azure_append, extract_azure_tenant_id_append, contains_microsoftonline_append]
  simp only [hazure, if_true]
  rcases h with hms | ⟨-, hnone⟩
  · simp only [hms, if_true]
  · unfold extract_azure_tenant_id
    rw [hnone]
    rfl

/-- Any other issuer is expected as it is written. -/
theorem expected_issuer_of_not_expectsSame {issuer : Bytes} (h : ¬ ExpectsSame issuer) :
    expected_issuer issuer = .ok issuer := by
  unfold ExpectsSame at h
  rw [not_or, Bool.not_eq_true, not_and] at h
  obtain ⟨hms, hsts⟩ := h
  unfold expected_issuer convert_azure_issuer_to_jwt_format
  split_ifs with hazure hmem
  · rw [hms] at hmem
    exact absurd hmem nofun
  · -- an Azure issuer of the other host name, with a tenant id
    rw [issuer_is_azure, hms, Bool.false_or] at hazure
    obtain ⟨tenant_id, htenant⟩ := Option.ne_none_iff_exists'.mp (hsts hazure)
    unfold extract_azure_tenant_id
    rw [htenant]
    rfl
  · rfl

theorem expectsSame_append (issuer : Bytes) : ExpectsSame (issuer ++ info_end) ↔ ExpectsSame issuer := by
  unfold ExpectsSame
  rw [contains_microsoftonline_append, contains_sts_windows_append, search_tenant_append]

/-! ## The keys do not depend on the issuer -/

/-- `f` adds the same algorithms whatever the claims of the verifier are. -/
def Blind (f : Verifier → Except CppException Verifier) : Prop :=
  ∀ claims v, f { v with claims := claims } = (f v).map fun w => { w with claims := claims }

theorem Blind.ok (a : Algorithm) : Blind fun v => .ok (v.allow_algorithm a) := fun _ _ => rfl

theorem Blind.error (e : CppException) : Blind fun _ => .error e := fun _ _ => rfl

theorem Blind.bind {α : Type} (x : Except CppException α)
    {f : α → Verifier → Except CppException Verifier} (hf : ∀ a, Blind (f a)) :
    Blind fun v => x >>= fun a => f a v := by
  intro claims v
  cases x with
  | ok a => exact hf a claims v
  | error e => rfl

theorem Blind.ite {c : Prop} [Decidable c] {f g : Verifier → Except CppException Verifier}
    (hf : Blind f) (hg : Blind g) : Blind fun v => if c then f v else g v := by
  intro claims v
  dsimp only
  split_ifs
  · exact hf claims v
  · exact hg claims v

theorem blind_allow_public_key (ossl : OpenSSL) (a : Alg) (key : Bytes) :
    Blind fun v => allow_public_key ossl v a key :=
  Blind.bind (ossl.load_public_key a key) fun _ => Blind.ok ⟨a, key⟩

theorem blind_configure_rsa_key (ossl : OpenSSL) (key_object : Object) (kid alg : Bytes) :
    Blind (configure_rsa_key ossl key_object kid alg) := by
  show Blind fun v => configure_rsa_key ossl key_object kid alg v
  unfold configure_rsa_key
  rcases key_object.find (bytes "n") with _ | n
  · exact Blind.error _
  rcases key_object.find (bytes "e") with _ | e
  · exact Blind.error _
  refine Blind.bind _ fun key => ?_
  have hkey : ∀ a, Blind fun v => allow_public_key ossl v a key :=
    fun a => blind_allow_public_key ossl a key
  exact Blind.ite (hkey _) (Blind.ite (hkey _) (Blind.ite (hkey _) (Blind.ite (hkey _)
    (Blind.ite (hkey _) (Blind.ite (hkey _) (Blind.error _))))))

theorem blind_configure_ec_key (ossl : OpenSSL) (key_object : Object) (kid alg : Bytes) :
    Blind (configure_ec_key ossl key_object kid alg) := by
  show Blind fun v => configure_ec_key ossl key_object kid alg v
  unfold configure_ec_key
  rcases key_object.find (bytes "x") with _ | x
  · exact Blind.error _
  rcases key_object.find (bytes "y") with _ | y
  · exact Blind.error _
  rcases key_object.find (bytes "crv") with _ | crv
  · exact Blind.error _
  refine Blind.bind _ fun key => ?_
  have hkey : ∀ a, Blind fun v => allow_public_key ossl v a key :=
    fun a => blind_allow_public_key ossl a key
  exact Blind.ite (hkey _) (Blind.ite (hkey _) (Blind.ite (hkey _) (Blind.error _)))

theorem blind_configure_hmac_key (key_object : Object) (kid alg : Bytes) :
    Blind (configure_hmac_key key_object kid alg) := by
  show Blind fun v => configure_hmac_key key_object kid alg v
  unfold configure_hmac_key
  rcases key_object.find (bytes "k") with _ | k
  · exact Blind.error _
  exact Blind.ite (Blind.ok _) (Blind.ite (Blind.ok _) (Blind.ite (Blind.ok _) (Blind.error _)))

theorem blind_configure_key (ossl : OpenSSL) (key_object : Object) (kid : Bytes) :
    Blind (configure_key ossl key_object kid) := by
  refine Blind.bind _ fun kty => ?_
  exact Blind.ite (blind_configure_rsa_key _ _ _ _) (Blind.ite (blind_configure_ec_key _ _ _ _)
    (Blind.ite (blind_configure_hmac_key _ _ _) (Blind.error _)))

theorem blind_configure_keys (ossl : OpenSSL) (kid : Bytes) (keys : List Value) :
    Blind fun v => configure_keys ossl kid v keys := by
  induction keys with
  | nil => exact fun _ _ => rfl
  | cons key keys ih =>
    cases key with
    | object key_object =>
      refine Blind.bind _ fun use => Blind.ite ih ?_
      exact Blind.bind _ fun k => Blind.ite ih (blind_configure_key _ _ _)
    | null => exact Blind.error _
    | boolean b => exact Blind.error _
    | number x => exact Blind.error _
    | string t => exact Blind.error _
    | array a => exact Blind.error _
    | int64 i => exact Blind.error _

/-- The algorithms that a JWKS document and a `kid` determine: those of the call with an
issuer of no significance. -/
def algorithms (ossl : OpenSSL) (jwks_info : Value) (kid : Bytes) :
    Except CppException (List Algorithm) :=
  (configure_verifier_with_jwks ossl [] jwks_info kid).map Verifier.algs

theorem configure_verifier_with_jwks_eq (ossl : OpenSSL) (issuer : Bytes) (jwks_info : Value)
    (kid : Bytes) :
    configure_verifier_with_jwks ossl issuer jwks_info kid
      = expected_issuer issuer >>= fun iss =>
          (algorithms ossl jwks_info kid).map fun algs =>
            ⟨(Jwt.verify.with_issuer iss).claims, algs⟩ := by
  have hnil : expected_issuer [] = .ok [] := by decide
  unfold algorithms configure_verifier_with_jwks
  rw [hnil]
  congr 1
  funext iss
  cases jwks_info with
  | object jwks_object =>
    dsimp only
    rcases Object.find jwks_object (bytes "keys") with _ | keys
    · rfl
    cases keys with
    | array keys =>
      -- the loop over the keys does not look at the claims
      have hblind : configure_keys ossl kid (Jwt.verify.with_issuer iss) keys
          = (configure_keys ossl kid (Jwt.verify.with_issuer []) keys).map fun w =>
              { w with claims := (Jwt.verify.with_issuer iss).claims } :=
        blind_configure_keys ossl kid keys (Jwt.verify.with_issuer iss).claims
          (Jwt.verify.with_issuer [])
      show configure_keys ossl kid (Jwt.verify.with_issuer iss) keys
        = ((configure_keys ossl kid (Jwt.verify.with_issuer []) keys).map Verifier.algs).map _
      rw [hblind]
      rcases configure_keys ossl kid (Jwt.verify.with_issuer []) keys with e | v <;> rfl
    | null => rfl
    | boolean b => rfl
    | number x => rfl
    | string t => rfl
    | object o => rfl
    | int64 i => rfl
  | null => rfl
  | boolean b => rfl
  | number x => rfl
  | string t => rfl
  | array a => rfl
  | int64 i => rfl

/-! ## The verification, without the machine -/

/-- The token and its `kid`. -/
def read_token (token : Bytes) : Except CppException (DecodedJwt × Bytes) := do
  let jwt ← decode token
  let kid ← get_claim jwt.header_claims (bytes "kid") >>= as_string
  .ok (jwt, kid)

/-- The two calls that look at the issuer. -/
def verify_token (ossl : OpenSSL) (issuer : Bytes) (now : ℤ) (jwks_info : Value)
    (t : DecodedJwt × Bytes) : Except CppException Unit := do
  let verifier ← configure_verifier_with_jwks ossl issuer jwks_info t.2
  verifier.verify ossl t.1 now

/-- The token passes every check but the one of its issuer. -/
structure Unobjectionable (ossl : OpenSSL) (now : ℤ) (jwks_info : Value) (t : DecodedJwt × Bytes) :
    Prop where
  signed : ∃ algs a, algorithms ossl jwks_info t.2 = .ok algs ∧
    t.1.header_claims.find (bytes "alg") = some (.string a.alg.name) ∧
    algs.find? (fun b => b.alg.name = a.alg.name) = some a ∧
    a.verify ossl t.1.signing_input t.1.signature = none
  exp : DateOk t.1.payload_claims (bytes "exp") (fun d => decide (d < now))
  iat : DateOk t.1.payload_claims (bytes "iat") (fun d => decide (now < d))
  nbf : DateOk t.1.payload_claims (bytes "nbf") (fun d => decide (now < d))

/-- The token names this issuer. -/
def IssuedBy (iss : Bytes) (t : DecodedJwt × Bytes) : Prop :=
  t.1.payload_claims.find (bytes "iss") = some (.string iss)

theorem IssuedBy.unique {iss iss' : Bytes} {t : DecodedJwt × Bytes} (h : IssuedBy iss t)
    (h' : IssuedBy iss' t) : iss = iss' := by
  unfold IssuedBy at h h'
  rw [h] at h'
  exact Value.string.inj (Option.some.inj h')

theorem verify_token_eq_ok {ossl : OpenSSL} {issuer : Bytes} {now : ℤ} {jwks_info : Value}
    {t : DecodedJwt × Bytes} :
    verify_token ossl issuer now jwks_info t = .ok () ↔
      Unobjectionable ossl now jwks_info t ∧
        ∃ iss, expected_issuer issuer = .ok iss ∧ IssuedBy iss t := by
  unfold verify_token
  rw [configure_verifier_with_jwks_eq]
  constructor
  · intro h
    obtain ⟨verifier, hconf, hver⟩ := bind_eq_ok.mp h
    obtain ⟨iss, hiss, hconf⟩ := bind_eq_ok.mp hconf
    rcases halgs : algorithms ossl jwks_info t.2 with e | algs
    · rw [halgs] at hconf
      exact absurd hconf nofun
    · rw [halgs] at hconf
      obtain rfl := Except.ok.inj hconf
      obtain ⟨⟨a, halg, hfind, hsig⟩, hexp, hiat, hnbf, hissuer⟩ := verify_with_issuer_eq_ok.mp hver
      exact ⟨⟨⟨algs, a, halgs, halg, hfind, hsig⟩, hexp, hiat, hnbf⟩, iss, hiss, hissuer⟩
  · rintro ⟨⟨⟨algs, a, halgs, halg, hfind, hsig⟩, hexp, hiat, hnbf⟩, iss, hiss, hissuer⟩
    rw [hiss, halgs]
    exact verify_with_issuer_eq_ok.mpr ⟨⟨a, halg, hfind, hsig⟩, hexp, hiat, hnbf, hissuer⟩

/-- The two spellings disagree about a token only if it is issued by one of them, and only if
they expect different issuers. -/
theorem verify_token_agree_iff {ossl : OpenSSL} {issuer : Bytes} {now : ℤ} {jwks_info : Value}
    {t : DecodedJwt × Bytes} :
    (verify_token ossl issuer now jwks_info t = .ok () ↔
        verify_token ossl (issuer ++ info_end) now jwks_info t = .ok ()) ↔
      ExpectsSame issuer ∨ ¬ (Unobjectionable ossl now jwks_info t ∧
        (IssuedBy issuer t ∨ IssuedBy (issuer ++ info_end) t)) := by
  rw [verify_token_eq_ok, verify_token_eq_ok]
  by_cases hsame : ExpectsSame issuer
  · rw [expected_issuer_of_expectsSame hsame]
    exact iff_of_true Iff.rfl (.inl hsame)
  have hlong : ¬ ExpectsSame (issuer ++ info_end) := by rwa [expectsSame_append]
  rw [expected_issuer_of_not_expectsSame hsame, expected_issuer_of_not_expectsSame hlong]
  simp only [Except.ok.injEq, exists_eq_left', hsame, false_or]
  -- the two issuers differ in length, so no token is issued by both
  have hne : ¬ (IssuedBy issuer t ∧ IssuedBy (issuer ++ info_end) t) := by
    rintro ⟨h, h'⟩
    have hlen := congrArg List.length (h.unique h')
    rw [List.length_append] at hlen
    exact absurd hlen (by simp [info_end_eq])
  tauto

/-! ## The two runs -/

/-- `*res` after the first two assignments. -/
def reset (m : Proc) : Proc := { m with user := with_result (fun _ => ⟨none, false⟩) m.user }

/-- The remark that only an Azure issuer gets. -/
def azure_note (cfg : Config) : Cpp Unit :=
  if issuer_is_azure cfg.oauth_issuer then
    elog .DEBUG1 (bytes "Detected Azure issuer, will use custom issuer validation")
  else pure ()

/-- From the verification to the block. -/
def remark (cfg : Config) (jwt : DecodedJwt) : Cpp Unit := do
  alloc
  remark_scopes cfg jwt
  alloc

/-- From the verification to the end. -/
def settle (cfg : Config) (jwt : DecodedJwt) : Cpp Bool := do
  remark cfg jwt
  after_verification cfg (some jwt)

/-- From the answer `x` of the verification to the end. -/
def decide_on (cfg : Config) (jwt : DecodedJwt) (x : Except CppException Unit) : Cpp Bool := do
  azure_note cfg
  of_except x
  settle cfg jwt

/-- From the documents to the end. -/
def conclude (ossl : OpenSSL) (cfg : Config) (now : ℤ) (token : Bytes) : Option Value → Cpp Bool
  | none => pure false
  | some jwks_info => do
      let t ← of_except (read_token token)
      decide_on cfg t.1 (verify_token ossl cfg.oauth_issuer now jwks_info t)

theorem accept_token_conclude (ossl : OpenSSL) (cfg : Config) (now : ℤ) (token : Bytes)
    (jwks_info : Option Value) :
    accept_token ossl cfg now token jwks_info >>= after_verification cfg
      = conclude ossl cfg now token jwks_info := by
  cases jwks_info with
  | none => rfl
  | some jwks_info =>
    unfold accept_token check_token conclude decide_on settle remark azure_note read_token
      verify_token
    simp only [of_except_bind, bind_assoc]
    congr 1
    funext jwt
    congr 1
    funext kid
    split_ifs <;> simp only [bind_assoc, pure_bind] <;> rfl

theorem validate_token_eq (ossl : OpenSSL) (hash : Bytes → ℕ) (cfg : Config) (now : ℤ)
    (token : Bytes) (m : Proc) :
    validate_token ossl hash cfg now token m
      = try_catch (documents hash cfg >>= conclude ossl cfg now token) report (reset m) := by
  -- the same program, grouped at the documents
  have hbody : verified_token ossl hash cfg now token >>= after_verification cfg
      = assign_result (fun _ => ⟨none, false⟩) >>= fun _ =>
          documents hash cfg >>= conclude ossl cfg now token := by
    unfold verified_token obtain_token
    rw [bind_assoc]
    congr 1
    funext _
    rw [bind_assoc]
    congr 1
    funext jwks_info
    exact accept_token_conclude ossl cfg now token jwks_info
  have hassign : assign_result (fun _ => ⟨none, false⟩) m = (.ret (), reset m) := rfl
  unfold validate_token
  rw [hbody]
  exact try_catch_bind_of_ret hassign

/-! ## What the spellings share -/

theorem documents_respelled (hash : Bytes → ℕ) {cfg : Config}
    (hover : cfg.discovery_url_override.getD [] = [])
    (hurl : ends_with cfg.oauth_issuer info_end = false) :
    documents hash (respelled cfg) = documents hash cfg := by
  -- without an override the issuer is the discovery URL
  have hissuer : ∀ c : Config, c.discovery_url_override.getD [] = [] →
      c.discovery_url = c.oauth_issuer := by
    intro c hc
    unfold Config.discovery_url
    rcases h : c.discovery_url_override with _ | _ | ⟨b, url⟩
    · rfl
    · rfl
    · rw [h] at hc
      exact absurd hc (List.cons_ne_nil b url)
  have hsame : issuer_info_url (respelled cfg).discovery_url
      = issuer_info_url cfg.discovery_url := by
    rw [hissuer cfg hover, hissuer (respelled cfg) hover]
    have hend : ends_with (cfg.oauth_issuer ++ info_end) info_end = true :=
      (ends_with_iff _ _).mpr (List.suffix_append _ _)
    unfold issuer_info_url respelled
    rw [hend, hurl]
    rfl
  unfold documents fetch_jwks
  rw [hsame]

theorem azure_note_respelled (cfg : Config) : azure_note (respelled cfg) = azure_note cfg := by
  unfold azure_note respelled
  rw [issuer_is_azure_append]

theorem settle_respelled (cfg : Config) (jwt : DecodedJwt) :
    settle (respelled cfg) jwt = settle cfg jwt := by
  -- behind the verification the issuer only tells whether it is Azure
  have hdecision : decision (respelled cfg) jwt = decision cfg jwt := by
    unfold decision respelled
    rw [issuer_is_azure_append]
    rfl
  have hremark : azure_remark (respelled cfg) = azure_remark cfg := by
    unfold azure_remark respelled
    rw [issuer_is_azure_append]
    rfl
  have hauthorize : authorize (respelled cfg) jwt = authorize cfg jwt := by
    unfold authorize
    rw [hremark, hdecision]
    rfl
  have hblock : after_block (respelled cfg) jwt = after_block cfg jwt := by
    funext leave
    cases leave with
    | fall _ => exact hauthorize
    | ret r => rfl
  unfold settle
  rw [after_verification_some, after_verification_some, hblock]
  rfl

theorem decide_on_respelled (cfg : Config) (jwt : DecodedJwt) (x : Except CppException Unit) :
    decide_on (respelled cfg) jwt x = decide_on cfg jwt x := by
  unfold decide_on
  rw [azure_note_respelled, settle_respelled]

/-! ## What a caller sees -/

/-- The answer and `*res`. -/
def observe (r : Outcome CppException Bool × Proc) :
    Outcome CppException Bool × ValidatorModuleResult :=
  (r.1, result r.2.user)

/-- What was thrown only shows in the log. -/
theorem observe_report (e e' : CppException) (m : Proc) :
    observe (report e m) = observe (report e' m) := by
  have helog : ∀ msg msg' : Bytes,
      observe ((elog .WARNING msg >>= fun _ => pure false : Cpp Bool) m)
        = observe ((elog .WARNING msg' >>= fun _ => pure false : Cpp Bool) m) := by
    intro msg msg'
    unfold elog
    rw [bind_assoc, bind_assoc, bind_apply, bind_apply]
    rcases (call m : Outcome CppException Unit × Proc) with ⟨_ | _ | _ | _, m₁⟩ <;> rfl
  unfold report
  split_ifs <;> exact helog _ _

/-- Two verifications that both pass or both fail lead to the same end. -/
theorem observe_decide_on_congr (cfg : Config) (jwt : DecodedJwt) {x x' : Except CppException Unit}
    (h : x = .ok () ↔ x' = .ok ()) (m : Proc) :
    observe (try_catch (decide_on cfg jwt x) report m)
      = observe (try_catch (decide_on cfg jwt x') report m) := by
  unfold decide_on
  rcases hnote : azure_note cfg m with ⟨_ | e | b | s, m₁⟩
  · rw [try_catch_bind_of_ret hnote, try_catch_bind_of_ret hnote]
    cases x with
    | ok _ =>
      obtain rfl := h.mp rfl
      rfl
    | error e =>
      cases x' with
      | ok _ => exact absurd (h.mpr rfl) nofun
      | error e' => exact observe_report e e' m₁
  · rw [try_catch_bind_of_throw hnote, try_catch_bind_of_throw hnote]
  · rw [try_catch_bind_of_jump hnote, try_catch_bind_of_jump hnote]
  · rw [try_catch_bind_of_stop hnote, try_catch_bind_of_stop hnote]

/-! ## When nothing fails -/

theorem framed_azure_note (cfg : Config) : Framed result (azure_note cfg) :=
  Framed.ite (Framed.elog _ _) (Framed.pure _)

theorem returns_azure_note (cfg : Config) : Returns (azure_note cfg) :=
  Returns.ite (Returns.elog _ _) (Returns.pure _)

theorem framed_remark (cfg : Config) (jwt : DecodedJwt) : Framed result (remark cfg jwt) := by
  refine Framed.bind Framed.alloc fun _ => Framed.bind ?_ fun _ => Framed.alloc
  exact Framed.ite (Framed.elog _ _) (Framed.ite (Framed.elog _ _) (Framed.pure _))

theorem returns_remark (cfg : Config) (jwt : DecodedJwt) : Returns (remark cfg jwt) := by
  refine Returns.bind Returns.alloc fun _ => Returns.bind ?_ fun _ => Returns.alloc
  exact Returns.ite (Returns.elog _ _) (Returns.ite (Returns.elog _ _) (Returns.pure _))

theorem returns_authorize (cfg : Config) (jwt : DecodedJwt) : Returns (authorize cfg jwt) := by
  have hremark : Returns (azure_remark cfg) := by
    unfold azure_remark
    refine Returns.ite ?_ (Returns.pure _)
    exact Returns.ite (Returns.bind (Returns.elog _ _) fun _ => Returns.alloc) Returns.alloc
  have hlog : Returns (log_decision cfg jwt) := by
    refine Returns.bind Returns.get fun u => Returns.ite (Returns.elog _ _) ?_
    exact Returns.bind Returns.alloc fun _ => Returns.elog _ _
  refine Returns.bind hremark fun _ => Returns.bind (Returns.modify _) fun _ => ?_
  exact Returns.bind hlog fun _ => Returns.pure _

/-- What a caller sees of a verified token. -/
def accepted (cfg : Config) (jwt : DecodedJwt) :
    Outcome CppException Bool × ValidatorModuleResult :=
  match jwt.payload_claims.find cfg.authn_field with
  | some v => (.ret true, ⟨some (c_str v.to_str), decision cfg jwt⟩)
  | none => (.ret false, ⟨none, false⟩)

theorem identify_quiet_some {cfg : Config} {payload : Object} {v : Value} {m : Proc}
    (hv : payload.find cfg.authn_field = some v) (hm : Quiet m) :
    ∃ m', identify cfg payload m = (.ret (.fall ()), m') ∧ Quiet m' ∧
      result m'.user = { result m.user with authn_id := some (c_str v.to_str) } := by
  have halloc := hm.enter_try.alloc_eq
  have hcall := hm.enter_try.tick.call_eq
  unfold identify pg_try_block identify_body
  rw [hv]
  dsimp only
  rw [bind_of_ret halloc, bind_of_ret hcall]
  exact ⟨_, rfl, hm, rfl⟩

theorem identify_quiet_none {cfg : Config} {payload : Object} {m : Proc}
    (hv : payload.find cfg.authn_field = none) (hm : Quiet m) :
    ∃ m', identify cfg payload m = (.ret (.ret false), m') ∧ Quiet m' ∧
      result m'.user = result m.user := by
  have halloc := hm.enter_try.alloc_eq
  have hcall := hm.enter_try.tick.call_eq
  unfold identify pg_try_block identify_body elog
  rw [hv]
  dsimp only
  rw [bind_of_ret halloc, bind_apply, bind_of_ret hcall]
  exact ⟨_, rfl, hm, rfl⟩

/-- From the block to the end, with the claim that names the user there. -/
theorem answers_quiet {cfg : Config} {jwt : DecodedJwt} {v : Value} {m : Proc}
    (hv : jwt.payload_claims.find cfg.authn_field = some v) (hm : Quiet m) (hden : Denied m.user) :
    ∃ m', try_catch (after_verification cfg (some jwt)) report m = (.ret true, m') ∧
      result m'.user = ⟨some (c_str v.to_str), decision cfg jwt⟩ := by
  obtain ⟨m₁, hident, hm₁, hres₁⟩ := identify_quiet_some hv hm
  obtain ⟨r, m₂, hauth, -⟩ := returns_authorize cfg jwt m₁ hm₁
  have hstart : Denied m₁.user ∧ (result m₁.user).authn_id = some (c_str v.to_str) := by
    rw [Denied, hres₁]
    exact ⟨hden, rfl⟩
  obtain ⟨rfl, hres₂⟩ := (triple_authorize cfg jwt (some (c_str v.to_str))).of_eq_ret hstart hauth
  refine ⟨m₂, ?_, hres₂⟩
  rw [after_verification_some, try_catch_bind_of_ret hident]
  exact try_catch_of_ret hauth

theorem observe_decide_on_ok (cfg : Config) (jwt : DecodedJwt) {m : Proc} (hm : Quiet m)
    (hres : result m.user = ⟨none, false⟩) :
    observe (try_catch (decide_on cfg jwt (.ok ())) report m) = accepted cfg jwt := by
  obtain ⟨_, m₁, hnote, hm₁, hres₁⟩ := (returns_azure_note cfg).framed (framed_azure_note cfg) hm
  obtain ⟨_, m₂, hremark, hm₂, hres₂⟩ :=
    (returns_remark cfg jwt).framed (framed_remark cfg jwt) hm₁
  -- the two remarks change nothing that is observed
  have hrun : try_catch (decide_on cfg jwt (.ok ())) report m
      = try_catch (after_verification cfg (some jwt)) report m₂ := by
    unfold decide_on settle
    rw [try_catch_bind_of_ret hnote]
    show try_catch (remark cfg jwt >>= fun _ => after_verification cfg (some jwt)) report m₁ = _
    rw [try_catch_bind_of_ret hremark]
  have hstart : result m₂.user = ⟨none, false⟩ := by rw [hres₂, hres₁, hres]
  rw [hrun]
  unfold accepted
  rcases hv : jwt.payload_claims.find cfg.authn_field with _ | v
  · obtain ⟨m₃, hident, -, hres₃⟩ := identify_quiet_none hv hm₂
    rw [after_verification_some, try_catch_bind_of_ret hident]
    exact Prod.ext rfl (hres₃.trans hstart)
  · obtain ⟨m₃, hend, hres₃⟩ := answers_quiet hv hm₂ (by rw [Denied, hstart])
    rw [hend]
    exact Prod.ext rfl hres₃

theorem returns_report (e : CppException) : Returns (report e) := by
  have hend : Returns (pure false : Cpp Bool) := Returns.pure _
  exact Returns.ite (Returns.bind (Returns.elog _ _) fun _ => hend)
    (Returns.bind (Returns.elog _ _) fun _ => hend)

theorem observe_decide_on_error (cfg : Config) (jwt : DecodedJwt) (e : CppException) {m : Proc}
    (hm : Quiet m) (hres : result m.user = ⟨none, false⟩) :
    observe (try_catch (decide_on cfg jwt (.error e)) report m) = (.ret false, ⟨none, false⟩) := by
  obtain ⟨_, m₁, hnote, hm₁, hres₁⟩ := (returns_azure_note cfg).framed (framed_azure_note cfg) hm
  obtain ⟨r, m₂, hrun, -, hres₂⟩ := (returns_report e).framed (framed_report e) hm₁
  have hstart : result m₁.user = ⟨none, false⟩ := hres₁.trans hres
  obtain ⟨rfl, -⟩ := (report_false e).of_eq_ret (by rw [Denied, hstart]) hrun
  unfold decide_on
  rw [try_catch_bind_of_ret hnote]
  show observe (report e m₁) = _
  rw [hrun]
  exact Prod.ext rfl (hres₂.trans hstart)

/-! ## The comparison -/

/-- Both spellings give the same answer and the same `*res`. -/
def SameDecision (ossl : OpenSSL) (hash : Bytes → ℕ) (cfg : Config) (now : ℤ) (token : Bytes)
    (m : Proc) : Prop :=
  observe (validate_token ossl hash cfg now token m)
    = observe (validate_token ossl hash (respelled cfg) now token m)

/-- The documents come in, and the token is one that passes every check under one of the
two spellings. -/
def GoodForOne (ossl : OpenSSL) (hash : Bytes → ℕ) (cfg : Config) (now : ℤ) (token : Bytes)
    (m : Proc) (t : DecodedJwt × Bytes) : Prop :=
  ∃ jwks_info m₁, documents hash cfg (reset m) = (.ret (some jwks_info), m₁) ∧
    read_token token = .ok t ∧ Unobjectionable ossl now jwks_info t ∧
    (IssuedBy cfg.oauth_issuer t ∨ IssuedBy (cfg.oauth_issuer ++ info_end) t)

/-- The two runs once the documents are there and the token can be read. -/
theorem sameDecision_of_documents {ossl : OpenSSL} {hash : Bytes → ℕ} {cfg : Config} {now : ℤ}
    {token : Bytes} {m m₁ : Proc} {jwks_info : Value} {t : DecodedJwt × Bytes}
    (hover : cfg.discovery_url_override.getD [] = [])
    (hurl : ends_with cfg.oauth_issuer info_end = false)
    (hdocs : documents hash cfg (reset m) = (.ret (some jwks_info), m₁))
    (ht : read_token token = .ok t) :
    SameDecision ossl hash cfg now token m ↔
      observe (try_catch (decide_on cfg t.1
          (verify_token ossl cfg.oauth_issuer now jwks_info t)) report m₁)
        = observe (try_catch (decide_on cfg t.1
          (verify_token ossl (cfg.oauth_issuer ++ info_end) now jwks_info t)) report m₁) := by
  -- once the token is read, the issuer is used by the verifier alone
  have hconclude : ∀ c : Config, conclude ossl c now token (some jwks_info)
      = decide_on c t.1 (verify_token ossl c.oauth_issuer now jwks_info t) := by
    intro c
    unfold conclude
    rw [ht]
    rfl
  unfold SameDecision
  rw [validate_token_eq, validate_token_eq, documents_respelled hash hover hurl,
    try_catch_bind_of_ret hdocs, try_catch_bind_of_ret hdocs, hconclude, hconclude,
    decide_on_respelled]
  rfl

/-- Without the documents, or with a token that cannot be read, the spelling plays no part. -/
theorem sameDecision_of_not_read {ossl : OpenSSL} {hash : Bytes → ℕ} {cfg : Config} {now : ℤ}
    {token : Bytes} {m : Proc} (hover : cfg.discovery_url_override.getD [] = [])
    (hurl : ends_with cfg.oauth_issuer info_end = false)
    (h : ∀ jwks_info m₁ t, documents hash cfg (reset m) = (.ret (some jwks_info), m₁) →
      read_token token ≠ .ok t) :
    SameDecision ossl hash cfg now token m := by
  unfold SameDecision
  rw [validate_token_eq, validate_token_eq, documents_respelled hash hover hurl]
  rcases hdocs : documents hash cfg (reset m) with ⟨(_ | jwks_info) | e | b | s, m₁⟩
  · rw [try_catch_bind_of_ret hdocs, try_catch_bind_of_ret hdocs]
    rfl
  · rw [try_catch_bind_of_ret hdocs, try_catch_bind_of_ret hdocs]
    unfold conclude
    rcases ht : read_token token with e | t
    · rfl
    · exact absurd ht (h jwks_info m₁ t hdocs)
  · rw [try_catch_bind_of_throw hdocs, try_catch_bind_of_throw hdocs]
  · rw [try_catch_bind_of_jump hdocs, try_catch_bind_of_jump hdocs]
  · rw [try_catch_bind_of_stop hdocs, try_catch_bind_of_stop hdocs]

section Agree

variable {ossl : OpenSSL} {cfg : Config} {now : ℤ} {jwks_info : Value} {t : DecodedJwt × Bytes}
  {m : Proc}

theorem observe_decide_on_agree
    (h : ExpectsSame cfg.oauth_issuer ∨ ¬ (Unobjectionable ossl now jwks_info t ∧
      (IssuedBy cfg.oauth_issuer t ∨ IssuedBy (cfg.oauth_issuer ++ info_end) t))) :
    observe (try_catch (decide_on cfg t.1
        (verify_token ossl cfg.oauth_issuer now jwks_info t)) report m)
      = observe (try_catch (decide_on cfg t.1
        (verify_token ossl (cfg.oauth_issuer ++ info_end) now jwks_info t)) report m) :=
  observe_decide_on_congr cfg t.1 (verify_token_agree_iff.mpr h) m

/-- An accepted token is seen as a rejected one exactly if it does not name the user. -/
theorem accepted_eq_iff (jwt : DecodedJwt) :
    accepted cfg jwt = (.ret false, ⟨none, false⟩) ↔
      jwt.payload_claims.find cfg.authn_field = none := by
  unfold accepted
  cases jwt.payload_claims.find cfg.authn_field <;> simp

theorem observe_decide_on_agree_iff (hm : Quiet m) (hres : result m.user = ⟨none, false⟩) :
    observe (try_catch (decide_on cfg t.1
        (verify_token ossl cfg.oauth_issuer now jwks_info t)) report m)
      = observe (try_catch (decide_on cfg t.1
        (verify_token ossl (cfg.oauth_issuer ++ info_end) now jwks_info t)) report m) ↔
      ExpectsSame cfg.oauth_issuer ∨ (Unobjectionable ossl now jwks_info t ∧
        (IssuedBy cfg.oauth_issuer t ∨ IssuedBy (cfg.oauth_issuer ++ info_end) t) →
          t.1.payload_claims.find cfg.authn_field = none) := by
  by_cases hsame : ExpectsSame cfg.oauth_issuer
  · exact iff_of_true (observe_decide_on_agree (.inl hsame)) (.inl hsame)
  by_cases hgood : Unobjectionable ossl now jwks_info t ∧
      (IssuedBy cfg.oauth_issuer t ∨ IssuedBy (cfg.oauth_issuer ++ info_end) t)
  swap
  · exact iff_of_true (observe_decide_on_agree (.inr hgood)) (.inr fun h => absurd h hgood)
  rw [or_iff_right hsame, imp_iff_right hgood, ← accepted_eq_iff]
  -- one of the two verifications passes and the other fails
  have hdiffer := verify_token_agree_iff.not.mpr (not_or.mpr ⟨hsame, not_not.mpr hgood⟩)
  rcases hshort : verify_token ossl cfg.oauth_issuer now jwks_info t with e | _ <;>
    rcases hlong : verify_token ossl (cfg.oauth_issuer ++ info_end) now jwks_info t with e' | _ <;>
    rw [hshort, hlong] at hdiffer
  · exact absurd (iff_of_false nofun nofun) hdiffer
  · rw [observe_decide_on_error cfg t.1 e hm hres, observe_decide_on_ok cfg t.1 hm hres]
    exact eq_comm
  · rw [observe_decide_on_error cfg t.1 e' hm hres, observe_decide_on_ok cfg t.1 hm hres]
  · exact absurd Iff.rfl hdiffer

end Agree

/-- **When the spelling does not matter.** Whatever fails on the way, the two spellings give
the same answer and the same `*res` if they expect the same `iss`, or if the token is not
good for either of them. Where nothing fails they do so exactly if they expect the same
`iss`, or the token is not good for either or lacks the claim that names the user. -/
theorem spellings_agree_iff (ossl : OpenSSL) (hash : Bytes → ℕ) (cfg : Config) (now : ℤ)
    (token : Bytes) (m : Proc) (hover : cfg.discovery_url_override.getD [] = [])
    (hurl : ends_with cfg.oauth_issuer info_end = false) :
    ((ExpectsSame cfg.oauth_issuer ∨ ∀ t, ¬ GoodForOne ossl hash cfg now token m t) →
        SameDecision ossl hash cfg now token m) ∧
      (Quiet m → (SameDecision ossl hash cfg now token m ↔
        ExpectsSame cfg.oauth_issuer ∨ ∀ t, GoodForOne ossl hash cfg now token m t →
          t.1.payload_claims.find cfg.authn_field = none)) := by
  by_cases hread : ∃ jwks_info m₁ t, documents hash cfg (reset m) = (.ret (some jwks_info), m₁) ∧
      read_token token = .ok t
  swap
  · -- no token is good for anything
    have hsame : SameDecision ossl hash cfg now token m :=
      sameDecision_of_not_read hover hurl fun jwks_info m₁ t hdocs ht =>
        hread ⟨jwks_info, m₁, t, hdocs, ht⟩
    have hgood : ∀ t, ¬ GoodForOne ossl hash cfg now token m t :=
      fun t ⟨jwks_info, m₁, hdocs, ht, _⟩ => hread ⟨jwks_info, m₁, t, hdocs, ht⟩
    exact ⟨fun _ => hsame, fun _ => iff_of_true hsame (.inr fun t ht => absurd ht (hgood t))⟩
  -- both spellings get the same documents, and read the same token
  obtain ⟨jwks_info, m₁, t, hdocs, ht⟩ := hread
  have hgood : ∀ t', GoodForOne ossl hash cfg now token m t' ↔ t' = t ∧
      Unobjectionable ossl now jwks_info t ∧
        (IssuedBy cfg.oauth_issuer t ∨ IssuedBy (cfg.oauth_issuer ++ info_end) t) := by
    intro t'
    constructor
    · rintro ⟨jwks_info', m₁', hdocs', ht', hrest⟩
      rw [hdocs] at hdocs'
      rw [ht] at ht'
      obtain rfl := Except.ok.inj ht'
      obtain rfl := Option.some.inj (Outcome.ret.inj (congrArg Prod.fst hdocs'))
      exact ⟨rfl, hrest⟩
    · rintro ⟨rfl, hrest⟩
      exact ⟨jwks_info, m₁, hdocs, ht, hrest⟩
  have hnone : (∀ t', ¬ GoodForOne ossl hash cfg now token m t') ↔
      ¬ (Unobjectionable ossl now jwks_info t ∧
        (IssuedBy cfg.oauth_issuer t ∨ IssuedBy (cfg.oauth_issuer ++ info_end) t)) := by
    simp only [hgood, not_and, forall_eq]
  have hunnamed : (∀ t', GoodForOne ossl hash cfg now token m t' →
        t'.1.payload_claims.find cfg.authn_field = none) ↔
      (Unobjectionable ossl now jwks_info t ∧
        (IssuedBy cfg.oauth_issuer t ∨ IssuedBy (cfg.oauth_issuer ++ info_end) t) →
        t.1.payload_claims.find cfg.authn_field = none) := by
    simp only [hgood, and_imp, forall_eq]
  rw [sameDecision_of_documents hover hurl hdocs ht, hnone, hunnamed]
  refine ⟨observe_decide_on_agree, fun hm => ?_⟩
  -- fetching the documents leaves a quiet machine quiet, and `*res` as it was
  have hkept := (framed_documents hash cfg).balanced (reset m)
  have hres := (framed_documents hash cfg).preserves.apply (reset m)
  rw [hdocs] at hkept hres
  exact observe_decide_on_agree_iff (Quiet.kept (m := reset m) hm hkept) hres

/-- The provider's line with an Azure issuer in place of its own. -/
def azure_config : Config :=
  { provider_config with oauth_issuer := bytes "https://login.microsoftonline.com/t/v2.0" }

theorem spellings_agree_azure :
    SameDecision (openssl_for [alice]) List.length azure_config 0 alice.token login_machine ∧
      (SameDecision (openssl_for [alice]) List.length azure_config 0 alice.token login_machine ↔
        ExpectsSame azure_config.oauth_issuer ∨ ∀ t,
          GoodForOne (openssl_for [alice]) List.length azure_config 0 alice.token login_machine t →
            t.1.payload_claims.find azure_config.authn_field = none) :=
  have h := spellings_agree_iff (openssl_for [alice]) List.length azure_config 0 alice.token
    login_machine rfl (by decide)
  ⟨h.1 (.inl (.inl (by decide))), h.2 fun _ => rfl⟩

/-- With the longer spelling of her provider's issuer, which leads to the same documents,
alice is turned away. -/
theorem spellings_differ_for_alice :
    ends_with provider_config.oauth_issuer info_end = false ∧
      issuer_info_url (respelled provider_config).discovery_url
        = issuer_info_url provider_config.discovery_url ∧
      login provider_config alice = (.ret true, ⟨some (bytes "alice"), true⟩) ∧
      login (respelled provider_config) alice = (.ret false, ⟨none, false⟩) := by
  refine ⟨?_, ?_, ?_, ?_⟩ <;> decide +kernel

end OidcValidator.Spelling
