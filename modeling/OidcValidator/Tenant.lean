/-
`Tenant.lean` -- which issuer is expected of an Azure tenant.

The tenant id is the leftmost text of the shape of a GUID anywhere in the configured issuer.
Behind the host name of the device flow that is what stands directly after the slash: the
slash belongs to no GUID, so nothing on its left can take part in a match that reaches over
it, and what is on the left is the host name, which contains none. Whatever follows the
tenant id comes too late.

The rewritten issuer has the same slash before the same id, and another host name, so
rewriting it again changes nothing.
-/
import OidcValidator.Jwk

set_option autoImplicit false

namespace OidcValidator.Tenant

open OidcValidator.ByteString OidcValidator.Picojson OidcValidator.Jwt OidcValidator.Jwk
open OidcValidator.PgUtils (CppException bind_eq_ok)

/-- Lower-case hexadecimal groups of 8, 4, 4, 4 and 12 digits, with dashes between them. -/
def IsGuid (t : Bytes) : Prop :=
  ∃ a b c d e : Bytes, t = a ++ 45 :: b ++ 45 :: c ++ 45 :: d ++ 45 :: e ∧
    (a.length = 8 ∧ b.length = 4 ∧ c.length = 4 ∧ d.length = 4 ∧ e.length = 12) ∧
    ∀ x ∈ a ++ b ++ c ++ d ++ e, hex x = true

theorem forall₂_replicate {p : Regex.Class} {a : Bytes} {n : ℕ} (hn : a.length = n)
    (h : ∀ x ∈ a, p x = true) :
    List.Forall₂ (fun p b => p b = true) (List.replicate n p) a := by
  subst hn
  induction a with
  | nil => exact .nil
  | cons x a ih =>
    rw [List.forall_mem_cons] at h
    exact .cons h.1 (ih h.2)

/-- A GUID is a text for the row of classes. -/
theorem IsGuid.forall₂ {t : Bytes} (h : IsGuid t) :
    List.Forall₂ (fun p b => p b = true) tenant_regex t := by
  obtain ⟨a, b, c, d, e, rfl, ⟨ha, hb, hc, hd, he⟩, hhex⟩ := h
  simp only [List.forall_mem_append] at hhex
  obtain ⟨⟨⟨⟨hhexa, hhexb⟩, hhexc⟩, hhexd⟩, hhexe⟩ := hhex
  have hdash : Regex.lit 45 45 = true := rfl
  refine List.rel_append (List.rel_append (List.rel_append (List.rel_append ?_ ?_) ?_) ?_) ?_
  · exact forall₂_replicate ha hhexa
  · exact .cons hdash (forall₂_replicate hb hhexb)
  · exact .cons hdash (forall₂_replicate hc hhexc)
  · exact .cons hdash (forall₂_replicate hd hhexd)
  · exact .cons hdash (forall₂_replicate he hhexe)

theorem tenant_regex_ne_nil : tenant_regex ≠ [] := by decide

/-- A slash is in no class of the expression. -/
theorem slash_in_no_class : ∀ p ∈ tenant_regex, p 47 = false := by
  have hall : tenant_regex.all (fun p => !p 47) = true := rfl
  simpa using hall

/-- Behind a host name without tenant ids, and a slash, the tenant id is what comes first. -/
theorem search_tenant_behind {host t : Bytes} (hhost : Regex.search_row tenant_regex host = none)
    (ht : List.Forall₂ (fun p b => p b = true) tenant_regex t) (r : Bytes) :
    Regex.search_row tenant_regex (host ++ 47 :: (t ++ r)) = some t := by
  rw [Regex.search_row_append_cons tenant_regex_ne_nil slash_in_no_class, hhost,
    Regex.search_row_append tenant_regex_ne_nil ht]
  rfl

/-! ## The device flow's host name -/

/-- `https://login.microsoftonline.com/`, and what follows. -/
def login (rest : Bytes) : Bytes := bytes "https://login.microsoftonline.com/" ++ rest

/-- `https://sts.windows.net/`, the tenant id, and a slash. -/
def sts (t : Bytes) : Bytes := bytes "https://sts.windows.net/" ++ t ++ bytes "/"

theorem login_eq (rest : Bytes) :
    login rest = bytes "https://login.microsoftonline.com" ++ 47 :: rest := rfl

theorem contains_login (rest : Bytes) : contains (login rest) microsoftonline = true := by
  rw [contains_iff]
  exact ⟨bytes "https://", 47 :: rest, rfl⟩

theorem expected_issuer_login {t : Bytes} (ht : IsGuid t) (r : Bytes) :
    expected_issuer (login (t ++ r)) = .ok (sts t) := by
  have hazure : issuer_is_azure (login (t ++ r)) = true := by
    unfold issuer_is_azure
    rw [contains_login, Bool.true_or]
  have hhost : Regex.search_row tenant_regex (bytes "https://login.microsoftonline.com") = none := by
    decide
  have htenant : extract_azure_tenant_id (login (t ++ r)) = .ok t := by
    unfold extract_azure_tenant_id
    rw [login_eq, search_tenant_behind hhost ht.forall₂]
  unfold expected_issuer convert_azure_issuer_to_jwt_format
  rw [if_pos hazure, htenant, contains_login]
  rfl

/-- Two tenants have two issuers. -/
theorem sts_inj {t u : Bytes} : sts t = sts u ↔ t = u := by
  unfold sts
  rw [List.append_left_inj, List.append_right_inj]

/-! ## Rewriting twice -/

/-- No text for the row contains the device flow's host name. -/
theorem microsoftonline_not_infix {t : Bytes}
    (ht : List.Forall₂ (fun p b => p b = true) tenant_regex t) : ¬microsoftonline <:+: t := by
  intro hsub
  have hmem : 108 ∈ t := hsub.subset (by decide)
  -- the `l` in `microsoftonline` is no hexadecimal digit
  obtain ⟨p, hp, hl⟩ := Regex.exists_class_of_mem ht hmem
  have hall : tenant_regex.all (fun p => !p 108) = true := rfl
  have hnone : p 108 = false := by simpa using List.all_eq_true.mp hall p hp
  exact absurd (hl.symm.trans hnone) (by decide)

theorem convert_sts {t : Bytes} (ht : List.Forall₂ (fun p b => p b = true) tenant_regex t) :
    convert_azure_issuer_to_jwt_format (sts t) = .ok (sts t) := by
  have hsts : sts t = bytes "https://sts.windows.net" ++ 47 :: (t ++ 47 :: []) := by
    unfold sts
    rw [List.append_assoc]
    rfl
  have hhost : Regex.search_row tenant_regex (bytes "https://sts.windows.net") = none := by decide
  have htenant : extract_azure_tenant_id (sts t) = .ok t := by
    unfold extract_azure_tenant_id
    rw [hsts, search_tenant_behind hhost ht]
  -- the slashes keep the host name and the tenant id apart, and neither contains the other host
  have hother : contains (sts t) microsoftonline = false := by
    rw [← Bool.not_eq_true, contains_iff, hsts, infix_append_cons_iff (by decide),
      infix_append_cons_iff (by decide)]
    rintro (hsub | hsub | hsub)
    · exact absurd ((contains_iff _ _).mpr hsub) (by decide)
    · exact microsoftonline_not_infix ht hsub
    · exact absurd (List.infix_nil.mp hsub) (by decide)
  unfold convert_azure_issuer_to_jwt_format
  rw [htenant, hother]
  rfl

/-- The rewriting is idempotent. -/
theorem convert_idempotent {s s' : Bytes} (h : convert_azure_issuer_to_jwt_format s = .ok s') :
    convert_azure_issuer_to_jwt_format s' = .ok s' := by
  obtain ⟨t, ht, h'⟩ := bind_eq_ok.mp h
  split_ifs at h' with hlogin
  · -- the result is made from a tenant id that was found
    obtain rfl := Except.ok.inj h'
    unfold extract_azure_tenant_id at ht
    rcases hrow : Regex.search_row tenant_regex s with _ | text <;> rw [hrow] at ht
    · exact absurd ht nofun
    · obtain rfl : text = t := Except.ok.inj ht
      exact convert_sts (Regex.forall₂_of_search_row hrow)
  · obtain rfl : s = s' := Except.ok.inj h'
    exact h

/-! ## What the verifier expects -/

/-- The verifier checks `iss` against the expected issuer, whatever the keys are. -/
theorem claims_of_configure {ossl : OpenSSL} {issuer required_kid iss : Bytes} {jwksInfo : Value}
    {v : Verifier} (hiss : expected_issuer issuer = .ok iss)
    (h : configure_verifier_with_jwks ossl issuer jwksInfo required_kid = .ok v) :
    v.claims = (Jwt.verify.with_issuer iss).claims := by
  obtain ⟨iss', jwks_object, keys, hiss', -, -, h⟩ := configure_verifier_with_jwks_eq_ok h
  obtain rfl : iss = iss' := Except.ok.inj (hiss.symm.trans hiss')
  obtain ⟨rfl, -⟩ | ⟨_, key_object, _, -, -, -, hkey⟩ := configure_keys_eq_ok h
  · rfl
  · obtain ⟨kty, -, a, key, -, -, rfl⟩ := configure_key_eq_ok hkey
    rfl

/-- **Tenants are kept apart.** The issuer expected behind the device flow's host name is that
of the tenant which stands there, whatever follows; two tenants have the same only if they are
the same; the verifier checks that issuer; and the rewriting is idempotent. -/
theorem azure_tenants_isolated :
    (∀ t r, IsGuid t → expected_issuer (login (t ++ r)) = .ok (sts t)) ∧
      (∀ t u r q, IsGuid t → IsGuid u →
        (expected_issuer (login (t ++ r)) = expected_issuer (login (u ++ q)) ↔ t = u)) ∧
      (∀ (ossl : OpenSSL) t r jwksInfo required_kid v, IsGuid t →
        configure_verifier_with_jwks ossl (login (t ++ r)) jwksInfo required_kid = .ok v →
        v.claims = (Jwt.verify.with_issuer (sts t)).claims) ∧
      ∀ s s', convert_azure_issuer_to_jwt_format s = .ok s' →
        convert_azure_issuer_to_jwt_format s' = .ok s' := by
  refine ⟨fun t r ht => expected_issuer_login ht r, fun t u r q ht hu => ?_, ?_, ?_⟩
  · rw [expected_issuer_login ht, expected_issuer_login hu, Except.ok.injEq, sts_inj]
  · exact fun ossl t r jwksInfo required_kid v ht h =>
      claims_of_configure (expected_issuer_login ht r) h
  · exact fun s s' h => convert_idempotent h

/-- A tenant id. -/
def tenant : Bytes := bytes "0123abcd-4567-89ef-0123-456789abcdef"

/-- Another one. -/
def neighbour : Bytes := bytes "fedcba98-7654-3210-fedc-ba9876543210"

theorem isGuid_tenant : IsGuid tenant :=
  ⟨bytes "0123abcd", bytes "4567", bytes "89ef", bytes "0123", bytes "456789abcdef", by decide,
    by decide, List.all_eq_true.mp (by decide)⟩

theorem isGuid_neighbour : IsGuid neighbour :=
  ⟨bytes "fedcba98", bytes "7654", bytes "3210", bytes "fedc", bytes "ba9876543210", by decide,
    by decide, List.all_eq_true.mp (by decide)⟩

/-- Another tenant's id behind the first one changes nothing. -/
theorem azure_tenants_isolated_neighbour :
    expected_issuer (login (tenant ++ bytes "/v2.0?t=" ++ neighbour)) = .ok (sts tenant) ∧
      expected_issuer (login (tenant ++ (bytes "/v2.0?t=" ++ neighbour))) ≠
        expected_issuer (login (neighbour ++ bytes "/v2.0")) ∧
      convert_azure_issuer_to_jwt_format (sts tenant) = .ok (sts tenant) := by
  obtain ⟨hexpects, hiff, -, hidem⟩ := azure_tenants_isolated
  have hfirst := hexpects tenant (bytes "/v2.0?t=" ++ neighbour) isGuid_tenant
  refine ⟨by rw [List.append_assoc]; exact hfirst, fun heq => ?_, ?_⟩
  · exact absurd ((hiff _ _ _ _ isGuid_tenant isGuid_neighbour).mp heq) (by decide)
  · have hconvert : convert_azure_issuer_to_jwt_format
        (login (tenant ++ (bytes "/v2.0?t=" ++ neighbour))) = .ok (sts tenant) := by
      unfold expected_issuer at hfirst
      rw [if_pos (by unfold issuer_is_azure; rw [contains_login, Bool.true_or])] at hfirst
      exact hfirst
    exact hidem _ _ hconvert

end OidcValidator.Tenant
