/-
`Identity.lean` -- which JSON value an `authn_id` stands for.

The identity handed to PostgreSQL is the C string of `to_str` of the `authn_field`
member. Both steps lose information: `to_str` gives every array and every object one
text and prints the other kinds as a string could be spelled, and the C string ends at
the first NUL. [`Confusable`] lists the pairs of values that the first step merges.
-/
import OidcValidator.Acceptance

set_option autoImplicit false

namespace OidcValidator.Identity

open OidcValidator.ByteString OidcValidator.Number OidcValidator.Control
open OidcValidator.Picojson OidcValidator.Jwt OidcValidator.Jwk
open OidcValidator.Validator OidcValidator.Acceptance

/-! ## What `to_str` merges -/

/-- A number of either kind. -/
inductive Numeral : Value → Prop
  | number (x : Double) : Numeral (.number x)
  | int64 (i : ℤ) : Numeral (.int64 i)

/-- Different values with one text: two arrays, two objects, a string that spells out a
value that is not a string, two numbers that print alike. -/
inductive Confusable : Value → Value → Prop
  | arrays {a b : List Value} (h : a ≠ b) : Confusable (.array a) (.array b)
  | objects {o p : List (Bytes × Value)} (h : o ≠ p) : Confusable (.object o) (.object p)
  | spelled {s : Bytes} {v : Value} (hv : ∀ t, v ≠ .string t) (hs : s = v.to_str) :
      Confusable (.string s) v
  | spelled' {s : Bytes} {v : Value} (hv : ∀ t, v ≠ .string t) (hs : s = v.to_str) :
      Confusable v (.string s)
  | numerals {v w : Value} (hv : Numeral v) (hw : Numeral w) (hne : v ≠ w)
      (ht : v.to_str = w.to_str) : Confusable v w

theorem Confusable.ne {v w : Value} (h : Confusable v w) : v ≠ w := by
  cases h with
  | arrays h => simpa using h
  | objects h => simpa using h
  | spelled hv hs => exact fun heq => hv _ heq.symm
  | spelled' hv hs => exact hv _
  | numerals hv hw hne ht => exact hne

theorem Confusable.to_str_eq {v w : Value} (h : Confusable v w) : v.to_str = w.to_str := by
  cases h with
  | arrays h => rfl
  | objects h => rfl
  | spelled hv hs => exact hs
  | spelled' hv hs => exact hs.symm
  | numerals hv hw hne ht => exact ht

/-- The text of a number. -/
theorem Numeral.numeric {v : Value} (h : Numeral v) : v.to_str.all numeric = true := by
  cases h with
  | number x => exact x.text_numeric
  | int64 i => exact dec_int_numeric i

theorem Numeral.ne_string {v : Value} (h : Numeral v) (t : Bytes) : v ≠ .string t := by
  cases h <;> exact nofun

/-- The kinds with a text of their own. -/
inductive Constant : Value → Prop
  | null : Constant .null
  | boolean (b : Bool) : Constant (.boolean b)
  | array (a : List Value) : Constant (.array a)
  | object (o : List (Bytes × Value)) : Constant (.object o)

theorem Constant.mem_kind_texts {v : Value} (h : Constant v) : v.to_str ∈ kind_texts := by
  cases h with
  | boolean b => cases b <;> simp [kind_texts, Value.to_str]
  | _ => simp [kind_texts, Value.to_str]

theorem Constant.ne_string {v : Value} (h : Constant v) (t : Bytes) : v ≠ .string t := by
  cases h <;> exact nofun

theorem value_cases (v : Value) : (∃ s, v = .string s) ∨ Numeral v ∨ Constant v := by
  cases v with
  | string s => exact .inl ⟨s, rfl⟩
  | number x => exact .inr (.inl (.number x))
  | int64 i => exact .inr (.inl (.int64 i))
  | null => exact .inr (.inr .null)
  | boolean b => exact .inr (.inr (.boolean b))
  | array a => exact .inr (.inr (.array a))
  | object o => exact .inr (.inr (.object o))

/-- The five texts are different, so among the constants only arrays and objects are
merged. -/
theorem Constant.eq_or_confusable {v w : Value} (hv : Constant v) (hw : Constant w)
    (h : v.to_str = w.to_str) : v = w ∨ Confusable v w := by
  cases hv with
  | null =>
    cases hw with
    | null => exact .inl rfl
    | boolean c => cases c <;> exact absurd h (by decide)
    | array b => exact absurd h (by simp only [Value.to_str]; decide)
    | object p => exact absurd h (by simp only [Value.to_str]; decide)
  | boolean b =>
    cases hw with
    | null => cases b <;> exact absurd h (by decide)
    | boolean c =>
      cases b <;> cases c
      · exact .inl rfl
      · exact absurd h (by decide)
      · exact absurd h (by decide)
      · exact .inl rfl
    -- the text does not depend on the elements
    | array a => cases b <;> exact absurd h (by simp only [Value.to_str]; decide)
    | object p => cases b <;> exact absurd h (by simp only [Value.to_str]; decide)
  | array a =>
    cases hw with
    | null => exact absurd h (by simp only [Value.to_str]; decide)
    | boolean c => cases c <;> exact absurd h (by simp only [Value.to_str]; decide)
    | array b =>
      by_cases hab : a = b
      · exact .inl (congrArg Value.array hab)
      · exact .inr (.arrays hab)
    | object p => exact absurd h (by simp only [Value.to_str]; decide)
  | object o =>
    cases hw with
    | null => exact absurd h (by simp only [Value.to_str]; decide)
    | boolean c => cases c <;> exact absurd h (by simp only [Value.to_str]; decide)
    | array b => exact absurd h (by simp only [Value.to_str]; decide)
    | object p =>
      by_cases hop : o = p
      · exact .inl (congrArg Value.object hop)
      · exact .inr (.objects hop)

/-- The text of a number is not the text of a constant. -/
theorem Numeral.to_str_ne {v w : Value} (hv : Numeral v) (hw : Constant w) :
    v.to_str ≠ w.to_str := by
  intro h
  have hnum := hv.numeric
  rw [h, not_numeric_of_mem_kind_texts hw.mem_kind_texts] at hnum
  exact absurd hnum nofun

/-- The list of confusable pairs is complete. -/
theorem to_str_eq_iff {v w : Value} : v.to_str = w.to_str ↔ v = w ∨ Confusable v w := by
  constructor
  · intro h
    rcases value_cases v with ⟨s, rfl⟩ | hv | hv
    · rcases value_cases w with ⟨t, rfl⟩ | hw | hw
      · exact .inl (congrArg Value.string h)
      · exact .inr (.spelled hw.ne_string h)
      · exact .inr (.spelled hw.ne_string h)
    · rcases value_cases w with ⟨t, rfl⟩ | hw | hw
      · exact .inr (.spelled' hv.ne_string h.symm)
      · by_cases hne : v = w
        · exact .inl hne
        · exact .inr (.numerals hv hw hne h)
      · exact absurd h (hv.to_str_ne hw)
    · rcases value_cases w with ⟨t, rfl⟩ | hw | hw
      · exact .inr (.spelled' hv.ne_string h.symm)
      · exact absurd h.symm (hw.to_str_ne hv)
      · exact hv.eq_or_confusable hw h
  · rintro (rfl | h)
    · rfl
    · exact h.to_str_eq

/-! ## What the C string merges -/

/-- If the value is a string, there is no NUL in it. -/
def NulFree (v : Value) : Prop := ∀ s, v = .string s → 0 ∉ s

theorem zero_notMem_of_mem_kind_texts {s : Bytes} (h : s ∈ kind_texts) : 0 ∉ s := by
  simp only [kind_texts, List.mem_cons, List.not_mem_nil, or_false] at h
  rcases h with rfl | rfl | rfl | rfl | rfl <;> decide

/-- Only the text of a string can contain a NUL. -/
theorem c_str_to_str {v : Value} (h : NulFree v) : c_str v.to_str = v.to_str := by
  rw [c_str_eq_self_iff]
  rcases value_cases v with ⟨s, rfl⟩ | hv | hv
  · exact h s rfl
  · exact zero_notMem_of_numeric hv.numeric
  · exact zero_notMem_of_mem_kind_texts hv.mem_kind_texts

/-! ## Two logins -/

/-- The `authn_field` member of the payload of a token. -/
def claimed_identity (field token : Bytes) : Option Value :=
  match decode token with
  | .ok jwt => jwt.payload_claims.find field
  | .error _ => none

/-- The identity of an accepted token. -/
theorem authn_id_of_accepted {ossl : OpenSSL} {hash : Bytes → ℕ} {cfg : Config} {now : ℤ}
    {token : Bytes} {m m' : Proc} {v : Value}
    (h : validate_token ossl hash cfg now token m = (.ret true, m'))
    (hv : claimed_identity cfg.authn_field token = some v) :
    (result m'.user).authn_id = some (c_str v.to_str) := by
  obtain ⟨jwks_info, jwt, w, -, hacc, hw, hres⟩ := validate_token_eq_true h
  unfold claimed_identity at hv
  rw [hacc.decoded] at hv
  obtain rfl : w = v := Option.some.inj (hw.symm.trans hv)
  rw [hres]

/-- The token of `{"iss":"https://idp","sub":"null"}`. -/
def null_string : SignedToken where
  signing_input := bytes "eyJhbGciOiJIUzI1NiIsImtpZCI6ImsxIn0." ++
    bytes "eyJpc3MiOiJodHRwczovL2lkcCIsInN1YiI6Im51bGwifQ"
  mac := [
    225, 47, 33, 7, 222, 190, 118, 25, 194, 98, 127, 169, 198, 79, 150, 143, 32, 204, 204, 131,
    255, 98, 73, 9, 41, 135, 215, 254, 225, 218, 75, 208]
  signature := bytes "4S8hB96-dhnCYn-pxk-WjyDMzIP_YkkJKYfX_uHaS9A"

/-- The token of `{"iss":"https://idp","sub":null}`. -/
def null_literal : SignedToken where
  signing_input := bytes "eyJhbGciOiJIUzI1NiIsImtpZCI6ImsxIn0." ++
    bytes "eyJpc3MiOiJodHRwczovL2lkcCIsInN1YiI6bnVsbH0"
  mac := [
    78, 114, 133, 224, 119, 204, 128, 233, 227, 67, 150, 243, 125, 210, 140, 102, 131, 214, 14,
    110, 242, 18, 118, 130, 155, 145, 6, 92, 243, 30, 18, 179]
  signature := bytes "TnKF4HfMgOnjQ5bzfdKMZoPWDm7yEnaCm5EGXPMeErM"

/-- The run of `validate_token` on a token of the provider, when it answers `true`. -/
theorem login_eq_true {t : SignedToken} (h : (login provider_config t).1 = .ret true) :
    validate_token (openssl_for [t]) List.length provider_config 0 t.token login_machine
      = (.ret true, (validate_token (openssl_for [t]) List.length provider_config 0 t.token
          login_machine).2) :=
  Prod.ext h rfl

end OidcValidator.Identity
