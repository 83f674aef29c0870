/-
`ScopeDecision.lean` -- what an issuer that is not Azure has to put into a token.

The code splits `oauth_scope` and the two claims `scp` and `scope` into sorted sets and runs
a merge over two of them. What comes out is a statement about words: every word of
`oauth_scope` is a word of one of the claims, or an element of one that is an array.

So only the words matter. Order, repetition, the amount and kind of whitespace, which of the
two claims a scope is in, and whether that claim is a string or an array, do not.
-/
import OidcValidator.Words
import OidcValidator.Spelling
import Mathlib.Data.Set.Basic

set_option autoImplicit false

namespace OidcValidator.ScopeDecision

open OidcValidator.ByteString OidcValidator.Control OidcValidator.PgUtils OidcValidator.Picojson
open OidcValidator.Jwt OidcValidator.Jwk OidcValidator.HttpClient OidcValidator.Validator
open OidcValidator.Acceptance OidcValidator.ErrorState OidcValidator.Spelling
open OidcValidator.StdSet (SortedSet)

/-! ## The decision -/

/-- The scopes in a claim: the words of a string, the texts of the elements of an array, and
nothing for any other value or a claim that is absent. -/
def claim_scopes : Option Value → Set Bytes
  | some (.string s) => {w | IsWord w s}
  | some (.array a) => {w | ∃ v ∈ a, v.to_str = w}
  | _ => ∅

/-- Every word of `oauth_scope` is in one of the two claims. -/
def Granted (oauth_scope : Bytes) (payload : Object) : Prop :=
  ∀ w, IsWord w oauth_scope →
    w ∈ claim_scopes (payload.find (bytes "scp")) ∪ claim_scopes (payload.find (bytes "scope"))

theorem mem_parse_jwt_scopes (v : Option Value) (w : Bytes) :
    w ∈ parse_jwt_scopes (v.getD .null) ↔ w ∈ claim_scopes v := by
  have hempty : w ∉ (SortedSet.empty : Scopes) := List.not_mem_nil
  cases v with
  | none => exact iff_of_false hempty (Set.notMem_empty w)
  | some v =>
    cases v with
    | string s =>
      exact SortedSet.mem_ofList.trans (isWord_iff w s).symm
    | array a =>
      refine SortedSet.mem_ofList.trans ?_
      rw [List.mem_map]
      rfl
    | null => exact iff_of_false hempty (Set.notMem_empty w)
    | boolean b => exact iff_of_false hempty (Set.notMem_empty w)
    | number x => exact iff_of_false hempty (Set.notMem_empty w)
    | object o => exact iff_of_false hempty (Set.notMem_empty w)
    | int64 i => exact iff_of_false hempty (Set.notMem_empty w)

theorem mem_received_scopes (jwt : DecodedJwt) (w : Bytes) :
    w ∈ received_scopes jwt ↔ w ∈ claim_scopes (jwt.payload_claims.find (bytes "scp")) ∪
      claim_scopes (jwt.payload_claims.find (bytes "scope")) := by
  unfold received_scopes DecodedJwt.payload_member
  rw [SortedSet.mem_union, mem_parse_jwt_scopes, mem_parse_jwt_scopes]
  rfl

theorem mem_required_scopes (cfg : Config) (w : Bytes) :
    w ∈ cfg.required_scopes ↔ IsWord w cfg.oauth_scope :=
  SortedSet.mem_ofList.trans (isWord_iff w cfg.oauth_scope).symm

/-- The merge over the two sorted sets decides whether the words are granted. -/
theorem decision_iff {cfg : Config} (hazure : issuer_is_azure cfg.oauth_issuer = false)
    (jwt : DecodedJwt) : decision cfg jwt = true ↔ Granted cfg.oauth_scope jwt.payload_claims := by
  unfold decision Granted
  simp only [hazure, Bool.false_eq_true, if_false]
  split_ifs with hnone
  · -- no scope is required: there is no word to be granted
    refine iff_of_true rfl fun w hw => ?_
    have hmem : w ∈ cfg.required_scopes.toList := (mem_required_scopes cfg w).mpr hw
    rw [hnone] at hmem
    exact absurd hmem List.not_mem_nil
  · rw [SortedSet.includes_iff]
    exact forall_congr' fun w =>
      imp_congr (mem_required_scopes cfg w) (mem_received_scopes jwt w)

/-! ## What it does not depend on -/

/-- A claim carries a list of scopes, in one of the two forms, or is absent and carries
none. -/
inductive Carries : Option Value → List Bytes → Prop
  | absent : Carries none []
  | array {l : List Bytes} (h : ∀ w ∈ l, Solid w) : Carries (some (.array (l.map .string))) l
  | string {l : List Bytes} {s : Bytes} (h : Spells l s) : Carries (some (.string s)) l

theorem Carries.mem_iff {v : Option Value} {l : List Bytes} (h : Carries v l) (w : Bytes) :
    w ∈ claim_scopes v ↔ w ∈ l := by
  cases h with
  | absent => exact iff_of_false (Set.notMem_empty w) List.not_mem_nil
  | array h =>
    show (∃ v ∈ l.map Value.string, v.to_str = w) ↔ w ∈ l
    simp [Value.to_str]
  | string h => exact h.isWord_iff w

/-- Two settings and two tokens with the same scopes, however these are written down. -/
structure SameScopes (cfg cfg' : Config) (jwt jwt' : DecodedJwt) : Prop where
  required : ∃ l l', Spells l cfg.oauth_scope ∧ Spells l' cfg'.oauth_scope ∧
    ∀ w, w ∈ l ↔ w ∈ l'
  received : ∃ scp scope scp' scope',
    Carries (jwt.payload_claims.find (bytes "scp")) scp ∧
    Carries (jwt.payload_claims.find (bytes "scope")) scope ∧
    Carries (jwt'.payload_claims.find (bytes "scp")) scp' ∧
    Carries (jwt'.payload_claims.find (bytes "scope")) scope' ∧
    ∀ w, w ∈ scp ++ scope ↔ w ∈ scp' ++ scope'

theorem SameScopes.granted_iff {cfg cfg' : Config} {jwt jwt' : DecodedJwt}
    (h : SameScopes cfg cfg' jwt jwt') :
    Granted cfg.oauth_scope jwt.payload_claims ↔ Granted cfg'.oauth_scope jwt'.payload_claims := by
  obtain ⟨⟨l, l', hl, hl', hsame⟩, scp, scope, scp', scope', hscp, hscope, hscp', hscope', hrec⟩ := h
  unfold Granted
  refine forall_congr' fun w => imp_congr ?_ ?_
  · rw [hl.isWord_iff, hl'.isWord_iff, hsame]
  · rw [Set.mem_union, Set.mem_union, hscp.mem_iff, hscope.mem_iff, hscp'.mem_iff,
      hscope'.mem_iff, ← List.mem_append, ← List.mem_append, hrec]

/-! ## The runs -/

/-- **The scope decision.** For an issuer that is not Azure, and a token that is verified and
has the claim that names the user: a run that answers `true` has set `authorized` exactly if
the scopes are granted; a run in which nothing fails does answer `true`; and the same scopes,
however they are written, get the same decision. -/
theorem validate_token_scope_decision {ossl : OpenSSL} {hash : Bytes → ℕ} {cfg : Config} {now : ℤ}
    {token : Bytes} {m m₁ : Proc} {jwt : DecodedJwt} {v : Value}
    (hazure : issuer_is_azure cfg.oauth_issuer = false)
    (hverified : verified_token ossl hash cfg now token m = (.ret (some jwt), m₁))
    (hv : jwt.payload_claims.find cfg.authn_field = some v) :
    (∀ m', validate_token ossl hash cfg now token m = (.ret true, m') →
        ((result m'.user).authorized = true ↔ Granted cfg.oauth_scope jwt.payload_claims)) ∧
      (Quiet m → ∃ m', validate_token ossl hash cfg now token m = (.ret true, m')) ∧
      ∀ cfg' jwt', issuer_is_azure cfg'.oauth_issuer = false → SameScopes cfg cfg' jwt jwt' →
        decision cfg jwt = decision cfg' jwt' := by
  obtain ⟨_, -, haccepted⟩ := verified_token_eq_ret hverified
  refine ⟨fun m' hrun => ?_, fun hquiet => ?_, fun cfg' jwt' hazure' hsame => ?_⟩
  · obtain ⟨_, jwt', v', -, haccepted', -, hres⟩ := validate_token_eq_true hrun
    -- both are what the token decodes to
    obtain rfl : jwt = jwt' := Except.ok.inj (haccepted.decoded.symm.trans haccepted'.decoded)
    rw [hres, ← decision_iff hazure]
  · -- the second half of the run starts on a machine that is still quiet
    have hkept := balanced_verified_token ossl hash cfg now token m
    rw [hverified] at hkept
    have hdenied := (denied_verified_token ossl hash cfg now token).of_eq_ret trivial hverified
    obtain ⟨m', hrun, -⟩ := answers_quiet hv (hquiet.kept hkept) hdenied
    refine ⟨m', ?_⟩
    unfold validate_token
    rw [try_catch_bind_of_ret hverified]
    exact hrun
  · rw [Bool.eq_iff_iff, decision_iff hazure, decision_iff hazure', hsame.granted_iff]

/-- The token of `{"iss":"https://idp","scope":["write"],"scp":" openid\tread","sub":"alice"}`. -/
def with_scopes : SignedToken where
  signing_input := bytes "eyJhbGciOiJIUzI1NiIsImtpZCI6ImsxIn0." ++
    bytes "eyJpc3MiOiJodHRwczovL2lkcCIsInNjb3BlIjpbIndyaXRlIl0sInNjcCI6" ++
    bytes "IiBvcGVuaWRcdHJlYWQiLCJzdWIiOiJhbGljZSJ9"
  mac := [
    59, 88, 244, 176, 81, 8, 230, 136, 154, 236, 220, 119, 254, 77, 107, 197, 255, 99, 15, 28,
    192, 208, 104, 208, 176, 128, 30, 216, 188, 118, 45, 160]
  signature := bytes "O1j0sFEI5oia7Nx3_k1rxf9jDxzA0GjQsIAe2Lx2LaA"

/-- The provider's line with two scopes. -/
def scopes_config : Config := { provider_config with oauth_scope := bytes "write  read write" }

/-- The claim `sub` of a verified token. -/
def subject : Outcome CppException (Option DecodedJwt) → Option Value
  | .ret (some jwt) => jwt.payload_claims.find (bytes "sub")
  | _ => none

theorem eq_of_subject {x : Outcome CppException (Option DecodedJwt)} {v : Value}
    (h : subject x = some v) :
    ∃ jwt, x = .ret (some jwt) ∧ jwt.payload_claims.find (bytes "sub") = some v := by
  cases x with
  | ret o =>
    cases o with
    | none => exact absurd h nofun
    | some jwt => exact ⟨jwt, rfl, h⟩
  | throw e => exact absurd h nofun
  | jump b => exact absurd h nofun
  | stop s => exact absurd h nofun

theorem validate_token_scope_decision_with_scopes :
    ∃ (jwt : DecodedJwt) (m' : Proc), validate_token (openssl_for [with_scopes]) List.length
        scopes_config 0 with_scopes.token login_machine = (.ret true, m') ∧
      (result m'.user).authorized = true ∧ Granted scopes_config.oauth_scope jwt.payload_claims := by
  have hsome : (subject (verified_token (openssl_for [with_scopes]) List.length scopes_config 0
      with_scopes.token login_machine).1).isSome = true := by decide +kernel
  have hauthorized : (result (validate_token (openssl_for [with_scopes]) List.length scopes_config 0
      with_scopes.token login_machine).2.user).authorized = true := by decide +kernel
  obtain ⟨v, hv⟩ := Option.isSome_iff_exists.mp hsome
  rcases hverified : verified_token (openssl_for [with_scopes]) List.length scopes_config 0
    with_scopes.token login_machine with ⟨x, m₁⟩
  rw [hverified] at hv
  obtain ⟨jwt, rfl, hsub⟩ := eq_of_subject hv
  have h := validate_token_scope_decision (by decide) hverified hsub
  obtain ⟨m', hrun⟩ := h.2.1 fun _ => rfl
  rw [hrun] at hauthorized
  exact ⟨jwt, m', hrun, hauthorized, (h.1 m' hrun).mp hauthorized⟩

end OidcValidator.ScopeDecision
