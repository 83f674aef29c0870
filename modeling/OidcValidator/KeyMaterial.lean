/-
`KeyMaterial.lean` -- which key a JWK stands for, and which one is installed.

RFC 7518 has the binary members of a JWK in base64url: `n` and `e` of an RSA key, `x` and
`y` of an EC key, `k` of a symmetric one. The three `configure_*_key` functions pass all of
them on as text. jwt-cpp's helpers for the two public-key types decode what they are given;
its HMAC algorithms take the secret as it is.

So the installed key is the one that the JWK stands for exactly when the type is not `oct`,
or the text of `k` decodes to itself, and only the empty text does.
-/
import OidcValidator.Jwk

set_option autoImplicit false

namespace OidcValidator.KeyMaterial

open OidcValidator.ByteString OidcValidator.Picojson OidcValidator.Jwt OidcValidator.Jwk
open OidcValidator.PgUtils (CppException bind_eq_ok)

/-! ## base64url, the other way -/

/-- `alphabet::base64url::data()`. -/
def alphabet (n : ℕ) : UInt8 :=
  if n < 26 then UInt8.ofNat (n + 65)
  else if n < 52 then UInt8.ofNat (n + 71)
  else if n < 62 then UInt8.ofNat (n - 4)
  else if n = 62 then 45
  else 95

/-- `base::trim(base::encode(bin))`. -/
def base64url_encode : Bytes → Bytes
  | a :: b :: c :: rest =>
      let triple := a.toNat * 65536 + b.toNat * 256 + c.toNat
      alphabet (triple / 262144) :: alphabet (triple / 4096 % 64) :: alphabet (triple / 64 % 64)
        :: alphabet (triple % 64) :: base64url_encode rest
  | [a, b] =>
      let triple := a.toNat * 65536 + b.toNat * 256
      [alphabet (triple / 262144), alphabet (triple / 4096 % 64), alphabet (triple / 64 % 64)]
  | [a] =>
      let triple := a.toNat * 65536
      [alphabet (triple / 262144), alphabet (triple / 4096 % 64)]
  | [] => []

example : base64url_encode (bytes "secret") = bytes "c2VjcmV0" := by decide

theorem index_alphabet {n : ℕ} (h : n < 64) : index (alphabet n) = .ok n := by
  revert n
  decide

/-- The first character of the padding is not in the alphabet. -/
theorem alphabet_ne {n : ℕ} (h : n < 64) : alphabet n ≠ 37 := by
  revert n
  decide

theorem ofNat_eq {n : ℕ} {a : UInt8} (h : n = a.toNat) : UInt8.ofNat n = a := by
  rw [h, UInt8.ofNat_toNat]

/-- A number of 24 bits is its four sextets. -/
theorem sextets (t : ℕ) :
    t / 262144 * 262144 + t / 4096 % 64 * 4096 + t / 64 % 64 * 64 + t % 64 = t := by
  omega

/-- Decoding the groups of an encoded text. -/
theorem decode_groups_encode (s : Bytes) : decode_groups (base64url_encode s) = .ok s := by
  induction s using base64url_encode.induct with
  | case1 a b c rest ih =>
    have ha := a.toNat_lt
    have hb := b.toNat_lt
    have hc := c.toNat_lt
    rw [base64url_encode]
    -- the group is one number of 24 bits from here on
    generalize ht : a.toNat * 65536 + b.toNat * 256 + c.toNat = t
    rw [decode_groups, index_alphabet (by omega), index_alphabet (by omega),
      index_alphabet (by omega), index_alphabet (by omega), ih]
    simp only [bind, Except.bind]
    rw [sextets]
    rw [ofNat_eq (a := a) (by omega), ofNat_eq (a := b) (by omega), ofNat_eq (a := c) (by omega)]
  | case2 a b =>
    have ha := a.toNat_lt
    have hb := b.toNat_lt
    rw [base64url_encode]
    generalize ht : a.toNat * 65536 + b.toNat * 256 = t
    rw [decode_groups, index_alphabet (by omega), index_alphabet (by omega),
      index_alphabet (by omega)]
    simp only [bind, Except.bind]
    rw [ofNat_eq (a := a) (by omega), ofNat_eq (a := b) (by omega)]
  | case3 a =>
    have ha := a.toNat_lt
    rw [base64url_encode]
    generalize ht : a.toNat * 65536 = t
    rw [decode_groups, index_alphabet (by omega), index_alphabet (by omega)]
    simp only [bind, Except.bind]
    rw [ofNat_eq (a := a) (by omega)]
  | case4 => rfl

/-- There is no padding in an encoded text. -/
theorem notMem_encode (s : Bytes) : 37 ∉ base64url_encode s := by
  induction s using base64url_encode.induct with
  | case1 a b c rest ih =>
    -- every character comes from the alphabet, which has no `%`
    have ha := a.toNat_lt
    have hb := b.toNat_lt
    have hc := c.toNat_lt
    simp only [base64url_encode, List.mem_cons, not_or]
    exact ⟨(alphabet_ne (by omega)).symm, (alphabet_ne (by omega)).symm,
      (alphabet_ne (by omega)).symm, (alphabet_ne (by omega)).symm, ih⟩
  | case2 a b =>
    have ha := a.toNat_lt
    have hb := b.toNat_lt
    simp only [base64url_encode, List.mem_cons, not_or]
    exact ⟨(alphabet_ne (by omega)).symm, (alphabet_ne (by omega)).symm,
      (alphabet_ne (by omega)).symm, List.not_mem_nil⟩
  | case3 a =>
    have ha := a.toNat_lt
    simp only [base64url_encode, List.mem_cons, not_or]
    exact ⟨(alphabet_ne (by omega)).symm, (alphabet_ne (by omega)).symm, List.not_mem_nil⟩
  | case4 => exact List.not_mem_nil

/-- An encoded text never is one character longer than whole groups. -/
theorem length_encode_mod (s : Bytes) : (base64url_encode s).length % 4 ≠ 1 := by
  induction s using base64url_encode.induct with
  | case1 a b c rest ih =>
    simp only [base64url_encode, List.length_cons]
    omega
  | case2 a b => simp [base64url_encode]
  | case3 a => simp [base64url_encode]
  | case4 => simp [base64url_encode]

/-! ### Padding -/

/-- `j` fills. -/
def fills (j : ℕ) : Bytes := (List.replicate j fill).flatten

theorem fills_succ (j : ℕ) : fills (j + 1) = fills j ++ fill := by
  unfold fills
  rw [List.replicate_succ', List.flatten_append]
  simp

theorem length_fills (j : ℕ) : (fills j).length = 3 * j := by
  induction j with
  | zero => rfl
  | succ j ih =>
    rw [fills_succ, List.length_append, ih]
    rfl

/-- The fills that `pad` adds are counted, and then those that were there. -/
theorem count_padding_append_fills (n j : ℕ) (base : Bytes) :
    count_padding (n + j) (base ++ fills j) = j + count_padding n base := by
  induction j with
  | zero => simp [fills]
  | succ j ih =>
    rw [fills_succ, ← List.append_assoc, ← Nat.add_assoc, count_padding,
      if_pos ((ends_with_iff _ _).mpr (List.suffix_append _ _)), List.length_append,
      Nat.add_sub_cancel, List.take_left, ih]
    omega

theorem count_padding_of_notMem (n : ℕ) {base : Bytes} (h : 37 ∉ base) :
    count_padding n base = 0 := by
  cases n with
  | zero => rfl
  | succ n =>
    have hends : ¬ends_with base fill = true := by
      intro hends
      exact h (((ends_with_iff base fill).mp hends).subset (by decide))
    rw [count_padding, if_neg hends]

/-- `base64url_decode`, with the fills that `pad` adds and those that were there told apart. -/
theorem base64url_decode_eq {s : Bytes} {added present : ℕ} (ha : (4 - s.length % 4) % 4 = added)
    (hp : count_padding (s.length + 2 * added) s = present) :
    base64url_decode s =
      if 2 < added + present then
        .error (PgUtils.runtime_error (bytes "Invalid input: too much fill"))
      else if (s.length - 3 * present + (added + present)) % 4 ≠ 0 then
        .error (PgUtils.runtime_error (bytes "Invalid input: incorrect total size"))
      else decode_groups (s.take (s.length - 3 * present)) := by
  -- the fills that are added are the last ones, and are counted first
  have hpad : pad s = s ++ fills added := by
    unfold pad fills
    rw [ha]
  have hlength : (pad s).length = s.length + 2 * added + added := by
    rw [hpad, List.length_append, length_fills]
    omega
  have hcount : count_padding (pad s).length (pad s) = added + present := by
    rw [hlength, hpad, count_padding_append_fills, hp]
  have hsize : (pad s).length - (added + present) * fill.length = s.length - 3 * present := by
    have hfill : fill.length = 3 := rfl
    rw [hlength, hfill]
    omega
  unfold base64url_decode base_decode
  simp only [hcount, hsize]
  rw [hpad, List.take_append_of_le_length (Nat.sub_le _ _)]

/-- **Decoding undoes encoding.** -/
theorem base64url_decode_encode (s : Bytes) : base64url_decode (base64url_encode s) = .ok s := by
  have hmod := length_encode_mod s
  have hpresent := count_padding_of_notMem ((base64url_encode s).length
    + 2 * ((4 - (base64url_encode s).length % 4) % 4)) (notMem_encode s)
  rw [base64url_decode_eq rfl hpresent, if_neg (by omega), if_neg (by omega), Nat.mul_zero,
    Nat.sub_zero, List.take_length, decode_groups_encode]

/-- Three bytes for four characters. -/
theorem length_decode_groups {t s : Bytes} (h : decode_groups t = .ok s) :
    4 * s.length ≤ 3 * t.length := by
  -- by groups of four, and one that is shorter at the end
  induction t using decode_groups.induct generalizing s with
  | case1 a b c d rest ih =>
    simp only [decode_groups, bind_eq_ok] at h
    obtain ⟨_, -, _, -, _, -, _, -, res, hres, h⟩ := h
    obtain rfl := Except.ok.inj h
    have hlength := ih hres
    simp only [List.length_cons]
    omega
  | case2 a b c =>
    simp only [decode_groups, bind_eq_ok] at h
    obtain ⟨_, -, _, -, _, -, h⟩ := h
    obtain rfl := Except.ok.inj h
    simp
  | case3 a b =>
    simp only [decode_groups, bind_eq_ok] at h
    obtain ⟨_, -, _, -, h⟩ := h
    obtain rfl := Except.ok.inj h
    simp
  | case4 t h₁ h₂ h₃ =>
    rw [decode_groups.eq_4 t h₁ h₂ h₃] at h
    obtain rfl := Except.ok.inj h
    simp

theorem length_base64url_decode {k s : Bytes} (h : base64url_decode k = .ok s) :
    4 * s.length ≤ 3 * k.length := by
  rw [base64url_decode_eq rfl rfl] at h
  split_ifs at h
  have hgroups := length_decode_groups h
  rw [List.length_take] at hgroups
  omega

/-- No text but the empty one decodes to itself. -/
theorem base64url_decode_eq_self {k : Bytes} : base64url_decode k = .ok k ↔ k = [] := by
  constructor
  · intro h
    have hlength := length_base64url_decode h
    exact List.length_eq_zero_iff.mp (by omega)
  · rintro rfl
    rfl

/-! ## The key that a JWK stands for -/

/-- The key that RFC 7518 assigns to a JWK of type `kty`: every binary member is decoded, and
the public key, if it is one, is made from the results. -/
inductive RfcKey (ossl : OpenSSL) (key_object : Object) : Bytes → Bytes → Prop
  | rsa {n e : Value} {modulus exponent key : Bytes} (hn : key_object.find (bytes "n") = some n)
      (he : key_object.find (bytes "e") = some e)
      (hmodulus : base64url_decode n.to_str = .ok modulus)
      (hexponent : base64url_decode e.to_str = .ok exponent)
      (h : ossl.rsa_public_key modulus exponent = .ok key) :
      RfcKey ossl key_object (bytes "RSA") key
  | ec {x y crv : Value} {x' y' key : Bytes} (hx : key_object.find (bytes "x") = some x)
      (hy : key_object.find (bytes "y") = some y) (hc : key_object.find (bytes "crv") = some crv)
      (hx' : base64url_decode x.to_str = .ok x') (hy' : base64url_decode y.to_str = .ok y')
      (h : ossl.ec_public_key crv.to_str x' y' = .ok key) :
      RfcKey ossl key_object (bytes "EC") key
  | oct {k : Value} {key : Bytes} (hk : key_object.find (bytes "k") = some k)
      (h : base64url_decode k.to_str = .ok key) : RfcKey ossl key_object (bytes "oct") key

/-- The verifier has one algorithm, with the key that the JWK stands for; and if the JWK is a
symmetric key for the secret `s`, what it accepts are the HMACs under `s`. -/
def ReadsKey (ossl : OpenSSL) (key_object : Object) (kty : Bytes) (v : Verifier) : Prop :=
  ∃ a, v.algs = [a] ∧ RfcKey ossl key_object kty a.key ∧
    (kty = bytes "oct" → ∀ k s, key_object.find (bytes "k") = some k →
      k.to_str = base64url_encode s → ∀ data signature,
        (a.verify ossl data signature = none ↔ ossl.HMAC a.alg s data = some signature))

/-- The public-key types are read as they should be. -/
theorem rfcKey_of_material {ossl : OpenSSL} {key_object : Object} {kty key : Bytes}
    (h : Material ossl key_object kty key) (hkty : kty ≠ bytes "oct") :
    RfcKey ossl key_object kty key := by
  cases h with
  | rsa hn he h =>
    obtain ⟨modulus, hmodulus, h⟩ := bind_eq_ok.mp h
    obtain ⟨exponent, hexponent, h⟩ := bind_eq_ok.mp h
    exact .rsa hn he hmodulus hexponent h
  | ec hx hy hc h =>
    obtain ⟨x', hx', h⟩ := bind_eq_ok.mp h
    obtain ⟨y', hy', h⟩ := bind_eq_ok.mp h
    exact .ec hx hy hc hx' hy' h
  | oct hk => exact absurd rfl hkty

theorem zip_all_eq_iff {a b : Bytes} :
    ((a.zip b).all (fun p => p.1 = p.2) && a.length = b.length) = true ↔ a = b := by
  induction a generalizing b with
  | nil => cases b <;> simp
  | cons x a ih =>
    cases b with
    | nil => simp
    | cons y b =>
      have htail := ih (b := b)
      simp only [Bool.and_eq_true, decide_eq_true_eq] at htail
      simp only [List.zip_cons_cons, List.all_cons, List.length_cons, Nat.add_right_cancel_iff,
        Bool.and_eq_true, decide_eq_true_eq, List.cons.injEq, and_assoc, htail]

/-- `hmacsha::verify` compares with the HMAC of the data. -/
theorem hmacsha_verify_eq_none {ossl : OpenSSL} {a : Algorithm} {data signature : Bytes} :
    hmacsha_verify ossl a data signature = none ↔
      ossl.HMAC a.alg a.key data = some signature := by
  unfold hmacsha_verify
  rcases ossl.HMAC a.alg a.key data with _ | res
  · simp
  · dsimp only
    rw [Option.some.injEq, ← zip_all_eq_iff]
    split_ifs with hmatch
    · simp [hmatch]
    · simp [hmatch]

/-- A combination with type `oct` is an HMAC. -/
theorem is_hmac_of_oct {crv : Option Bytes} {alg : Bytes} {a : Alg}
    (h : Combination crv (bytes "oct") alg a) : a.is_hmac = true := by
  generalize hkty : bytes "oct" = kty at h
  cases h with
  | oct a ha =>
    simp only [List.mem_cons, List.not_mem_nil, or_false] at ha
    rcases ha with rfl | rfl | rfl
    · rfl
    · rfl
    · rfl
  | rsa a ha => exact absurd hkty (by decide)
  | rsa_default => exact absurd hkty (by decide)
  | es256 _ => exact absurd hkty (by decide)
  | es384 _ => exact absurd hkty (by decide)
  | es512 _ => exact absurd hkty (by decide)

theorem material_oct {ossl : OpenSSL} {key_object : Object} {key : Bytes}
    (h : Material ossl key_object (bytes "oct") key) :
    ∃ k, key_object.find (bytes "k") = some k ∧ key = k.to_str := by
  generalize hkty : bytes "oct" = kty at h
  cases h with
  | oct hk => exact ⟨_, hk, rfl⟩
  | rsa _ _ _ => exact absurd hkty (by decide)
  | ec _ _ _ _ => exact absurd hkty (by decide)

theorem rfcKey_oct {ossl : OpenSSL} {key_object : Object} {key : Bytes}
    (h : RfcKey ossl key_object (bytes "oct") key) :
    ∃ k, key_object.find (bytes "k") = some k ∧ base64url_decode k.to_str = .ok key := by
  generalize hkty : bytes "oct" = kty at h
  cases h with
  | oct hk h => exact ⟨_, hk, h⟩
  | rsa _ _ _ _ _ => exact absurd hkty (by decide)
  | ec _ _ _ _ _ _ => exact absurd hkty (by decide)

/-- The key type and the text of `k` decide whether a configured key is the right one. -/
theorem readsKey_iff {ossl : OpenSSL} {key_object : Object} {kty iss : Bytes} {v : Verifier}
    (h : Configured ossl key_object kty (Jwt.verify.with_issuer iss) v) :
    ReadsKey ossl key_object kty v ↔
      kty ≠ bytes "oct" ∨ ∃ k, key_object.find (bytes "k") = some k ∧ k.to_str = [] := by
  obtain ⟨a, key, hcomb, hmat, rfl⟩ := h
  have halgs : ((Jwt.verify.with_issuer iss).allow_algorithm ⟨a, key⟩).algs = [⟨a, key⟩] := rfl
  by_cases hkty : kty = bytes "oct"
  · subst hkty
    obtain ⟨k, hk, rfl⟩ := material_oct hmat
    constructor
    · -- the installed key is the text of `k`, so that text has to decode to itself
      rintro ⟨b, hb, hrfc, -⟩
      obtain rfl : ⟨a, k.to_str⟩ = b := List.singleton_inj.mp (halgs.symm.trans hb)
      obtain ⟨k', hk', hdecode⟩ := rfcKey_oct hrfc
      obtain rfl : k = k' := Option.some.inj (hk.symm.trans hk')
      exact .inr ⟨k, hk, base64url_decode_eq_self.mp hdecode⟩
    · rintro (hne | ⟨k', hk', hempty⟩)
      · exact absurd rfl hne
      obtain rfl : k = k' := Option.some.inj (hk.symm.trans hk')
      have hself : base64url_decode k.to_str = .ok k.to_str := base64url_decode_eq_self.mpr hempty
      refine ⟨⟨a, k.to_str⟩, halgs, .oct hk hself, ?_⟩
      intro _ k'' s hk'' hs data signature
      obtain rfl : k = k'' := Option.some.inj (hk.symm.trans hk'')
      -- only the empty secret has the empty text
      have hsecret : s = k.to_str := by
        have hdecode := base64url_decode_encode s
        rw [← hs, hself] at hdecode
        exact (Except.ok.inj hdecode).symm
      unfold Algorithm.verify
      rw [if_pos (is_hmac_of_oct hcomb), hmacsha_verify_eq_none, hsecret]
  · refine iff_of_true ⟨⟨a, key⟩, halgs, rfcKey_of_material hmat hkty, ?_⟩ (.inl hkty)
    exact fun hoct => absurd hoct hkty

/-- **When the installed key is the one the JWK stands for.** For every JWKS document and the
key that is selected in it: it is not a symmetric key, or its secret is empty. -/
theorem configure_verifier_with_jwks_reads_key_iff {ossl : OpenSSL} {issuer required_kid kty : Bytes}
    {jwks_object key_object : Object} {keys : List Value} {v : Verifier}
    (hkeys : jwks_object.find (bytes "keys") = some (.array keys))
    (hselected : keys.find? (wanted required_kid) = some (.object key_object))
    (hkty : (key_object.find (bytes "kty")).map Value.to_str = some kty)
    (h : configure_verifier_with_jwks ossl issuer (.object jwks_object) required_kid = .ok v) :
    ReadsKey ossl key_object kty v ↔
      kty ≠ bytes "oct" ∨ ∃ k, key_object.find (bytes "k") = some k ∧ k.to_str = [] := by
  rw [configure_verifier_with_jwks_keys ossl issuer required_kid hkeys] at h
  obtain ⟨iss, -, h⟩ := bind_eq_ok.mp h
  obtain ⟨-, hnone⟩ | ⟨before, o, after, rfl, hbefore, hsel, hconf⟩ := configure_keys_eq_ok h
  · -- the loop has passed over the selected key: it was not wanted
    have hwanted := List.find?_some hselected
    rw [hnone _ (List.mem_of_find?_eq_some hselected)] at hwanted
    exact absurd hwanted (by decide)
  · -- the loop stops at the first key that is wanted, which is the one selected
    have hfirst : (before ++ .object o :: after).find? (wanted required_kid) = some (.object o) := by
      have hwanted : wanted required_kid (.object o) = true := hsel
      rw [List.find?_append, List.find?_eq_none.mpr fun k hk => by simp [hbefore k hk],
        List.find?_cons_of_pos hwanted, Option.none_or]
    obtain rfl : o = key_object := Value.object.inj (Option.some.inj (hfirst.symm.trans hselected))
    obtain ⟨kty', hkty', hconfigured⟩ := configure_key_eq_ok hconf
    obtain rfl : kty = kty' := Option.some.inj (hkty.symm.trans hkty')
    exact readsKey_iff hconfigured

/-- The JWK of the secret `secret`. -/
def secret_key : Object :=
  [(bytes "alg", .string (bytes "HS256")), (bytes "k", .string (bytes "c2VjcmV0")),
    (bytes "kid", .string (bytes "k1")), (bytes "kty", .string (bytes "oct")),
    (bytes "use", .string (bytes "sig"))]

/-- The JWK of the empty secret. -/
def empty_key : Object :=
  [(bytes "alg", .string (bytes "HS256")), (bytes "k", .string []),
    (bytes "kid", .string (bytes "k1")), (bytes "kty", .string (bytes "oct")),
    (bytes "use", .string (bytes "sig"))]

theorem configure_verifier_with_jwks_reads_empty_key :
    ∃ v, configure_verifier_with_jwks (OpenSSL.of_macs []) (bytes "https://idp")
        (.object (jwks_of [empty_key])) (bytes "k1") = .ok v ∧
      ReadsKey (OpenSSL.of_macs []) empty_key (bytes "oct") v := by
  have hkeys : (jwks_of [empty_key]).find (bytes "keys") = some (.array [.object empty_key]) := rfl
  have hselected : [Value.object empty_key].find? (wanted (bytes "k1"))
      = some (.object empty_key) := rfl
  have hkty : (empty_key.find (bytes "kty")).map Value.to_str = some (bytes "oct") := rfl
  have hconf : configure_verifier_with_jwks (OpenSSL.of_macs []) (bytes "https://idp")
      (.object (jwks_of [empty_key])) (bytes "k1")
      = .ok ((Jwt.verify.with_issuer (bytes "https://idp")).allow_algorithm ⟨.HS256, []⟩) := rfl
  refine ⟨_, hconf, ?_⟩
  exact (configure_verifier_with_jwks_reads_key_iff hkeys hselected hkty hconf).mpr
    (.inr ⟨.string [], rfl, rfl⟩)

/-- The header and payload of a token that the provider signs. -/
def signing_input : Bytes := bytes "eyJhbGciOiJIUzI1NiIsImtpZCI6ImsxIn0.e30"

/-- Its HMAC-SHA256 under `secret`. -/
def genuine : Bytes := [
  187, 60, 39, 202, 10, 100, 177, 28, 113, 209, 185, 222, 145, 12, 149, 28, 138, 115, 115, 158,
  68, 224, 157, 42, 181, 111, 253, 237, 0, 175, 114, 208]

/-- Its HMAC-SHA256 under the text `c2VjcmV0`. -/
def textual : Bytes := [
  8, 41, 176, 42, 202, 162, 165, 212, 43, 63, 118, 100, 31, 36, 204, 109, 95, 151, 186, 206, 15,
  139, 137, 179, 174, 252, 39, 226, 22, 190, 206, 126]

/-- An OpenSSL that knows these two. -/
def two_macs : OpenSSL :=
  OpenSSL.of_macs [((.HS256, bytes "secret", signing_input), genuine),
    ((.HS256, bytes "c2VjcmV0", signing_input), textual)]

/-- The verifier for the secret `secret` rejects the genuine signature, and accepts one made
with the text that is in the document. -/
theorem configure_verifier_with_jwks_secret_not_decoded :
    base64url_encode (bytes "secret") = bytes "c2VjcmV0" ∧
      ∃ a iss, configure_verifier_with_jwks two_macs (bytes "https://idp")
          (.object (jwks_of [secret_key])) (bytes "k1")
          = .ok ((Jwt.verify.with_issuer iss).allow_algorithm a) ∧
        two_macs.HMAC a.alg (bytes "secret") signing_input = some genuine ∧
        a.verify two_macs signing_input genuine ≠ none ∧
        a.verify two_macs signing_input textual = none := by
  refine ⟨by decide, ⟨.HS256, bytes "c2VjcmV0"⟩, bytes "https://idp", rfl, by decide, by decide,
    by decide⟩

end OidcValidator.KeyMaterial
