/-
`Number.lean` -- decimal text and finite IEEE-754 doubles.

The JSON layer reads numbers with `strtoimax` and `strtod` and writes them with
`printf`. A finite double is a sign and a natural number of units of `2^-1074`,
so both directions are exact arithmetic on naturals with one rounding step, and
no floating-point operation occurs anywhere.

The locale is "C" throughout: the decimal point is `.`.

Nothing in this file knows about JSON.
-/
import OidcValidator.ByteString
import Mathlib.Algebra.Group.Int.Defs
import Mathlib.Algebra.Group.Nat.Defs
import Mathlib.Data.Nat.Log

set_option autoImplicit false

namespace OidcValidator.Number

open OidcValidator.ByteString

/-! ## Decimal text -/

/-- `isdigit` in the C locale. -/
def isdigit (b : UInt8) : Bool := 48 ≤ b && b ≤ 57

/-- The value of a run of digits. -/
def nat_of_digits (s : Bytes) : ℕ := s.foldl (fun n b => n * 10 + (b.toNat - 48)) 0

/-- The decimal digits of a natural number. -/
def dec (n : ℕ) : Bytes := (Nat.toDigits 10 n).map (fun c => UInt8.ofNat c.toNat)

/-- `printf("%" PRId64)`. -/
def dec_int (i : ℤ) : Bytes := if i < 0 then 45 :: dec i.natAbs else dec i.natAbs

/-- An optional sign, and what follows it. -/
def take_sign : Bytes → Bool × Bytes
  | [] => (false, [])
  | b :: s => if b = 45 then (true, s) else if b = 43 then (false, s) else (false, b :: s)

/-- `strtoimax(s, &endp, 10)` for the caller that insists on `errno == 0` and `endp` at
the end of `s`: the value, when all of `s` is one integer in the range of `int64_t`. -/
def strtoimax (s : Bytes) : Option ℤ :=
  let (neg, ds) := take_sign s
  if ds ≠ [] ∧ ds.all isdigit then
    let v : ℤ := if neg then -(nat_of_digits ds) else nat_of_digits ds
    if -2 ^ 63 ≤ v ∧ v < 2 ^ 63 then some v else none
  else none

theorem isdigit_of_mem_dec {n : ℕ} {b : UInt8} (hb : b ∈ dec n) : isdigit b = true := by
  obtain ⟨c, hc, rfl⟩ := List.mem_map.mp hb
  have hd := Nat.isDigit_of_mem_toDigits (by decide) (by decide) hc
  simp only [Char.isDigit, Bool.and_eq_true, decide_eq_true_eq] at hd
  have h₁ : 48 ≤ c.toNat := hd.1
  have h₂ : c.toNat ≤ 57 := hd.2
  simp only [isdigit, Bool.and_eq_true, decide_eq_true_eq, UInt8.le_iff_toNat_le,
    UInt8.toNat_ofNat', UInt8.reduceToNat]
  omega

/-! ## Finite doubles -/

/-- A finite double: `mant * 2^exp` units of `2^-1074`, with the significand normalised
unless the exponent is the smallest one. -/
structure Double where
  neg : Bool
  mant : ℕ
  exp : ℕ
  mant_lt : mant < 2 ^ 53
  normal : 2 ^ 52 ≤ mant ∨ exp = 0
  exp_le : exp ≤ 2045
  deriving DecidableEq

/-- The number of units of `2^-1074` in a double of magnitude one. -/
def unit : ℕ := 2 ^ 1074

/-- The magnitude of a double, in units. -/
def Double.mag (x : Double) : ℕ := x.mant * 2 ^ x.exp

/-- The integer nearest `a / d`, ties to even. -/
def round_even (a d : ℕ) : ℕ :=
  let q := a / d
  let r := a % d
  if 2 * r < d then q else if d < 2 * r then q + 1 else if q % 2 = 0 then q else q + 1

/-- The double nearest `a / d` units, or nothing when that is an infinity. -/
def Double.of_units (neg : Bool) (a d : ℕ) : Option Double :=
  let e := Nat.log2 (a / d) + 1 - 53
  let m := round_even a (d * 2 ^ e)
  let (m, e) := if m = 2 ^ 53 then (2 ^ 52, e + 1) else (m, e)
  if h : m < 2 ^ 53 ∧ (2 ^ 52 ≤ m ∨ e = 0) ∧ e ≤ 2045 then
    some ⟨neg, m, e, h.1, h.2.1, h.2.2⟩
  else none

/-- What `strtod` makes of a whole string: not a number, a finite double, or an
infinity. -/
inductive Strtod where
  | invalid
  | infinite
  | finite (x : Double)

/-- `strtod(s, &endp)` for the caller that insists on `endp` at the end of `s`, over the
characters a JSON number is made of: no hexadecimal form, no `inf`, no `nan`. -/
def strtod (s : Bytes) : Strtod :=
  let (neg, s) := take_sign s
  let int_part := s.takeWhile isdigit
  let s := s.dropWhile isdigit
  let (frac_part, s) :=
    match s with
    | 46 :: t => (t.takeWhile isdigit, t.dropWhile isdigit)
    | t => ([], t)
  if int_part = [] ∧ frac_part = [] then .invalid
  else
    let ds := nat_of_digits (int_part ++ frac_part)
    -- the value is `ds * 10^up / 10^down`
    let of_exponent (eneg : Bool) (e : ℕ) : Strtod :=
      let up := if eneg then 0 else e
      let down := frac_part.length + (if eneg then e else 0)
      match Double.of_units neg (ds * 10 ^ up * unit) (10 ^ down) with
      | some x => .finite x
      | none => .infinite
    match s with
    | [] => of_exponent false 0
    | c :: t =>
        if c = 101 ∨ c = 69 then
          let (eneg, es) := take_sign t
          if es ≠ [] ∧ es.all isdigit then of_exponent eneg (nat_of_digits es) else .invalid
        else .invalid

/-! ## Writing a double -/

/-- The position `X` of the leading digit of `a / d`: `10^X ≤ a / d < 10^(X+1)`. -/
def leading_digit (a d : ℕ) : ℤ :=
  if d ≤ a then (Nat.log 10 (a / d) : ℤ) else -(Nat.clog 10 ((d + a - 1) / a) : ℤ)

/-- The seventeen significant digits of `a / d` and the position of the first one. -/
def seventeen_digits (a d : ℕ) : ℕ × ℤ :=
  let x := leading_digit a d
  let m := if x ≤ 16 then round_even (a * 10 ^ (16 - x).toNat) d
    else round_even a (d * 10 ^ (x - 16).toNat)
  if m = 10 ^ 17 then (10 ^ 16, x + 1) else (m, x)

/-- A fractional part without its trailing zeros, and without the point when nothing is
left. -/
def fraction (ds : Bytes) : Bytes :=
  match (ds.reverse.dropWhile (· = 48)).reverse with
  | [] => []
  | fs => 46 :: fs

/-- `printf("%.17g")` of a positive magnitude. -/
def printf_g (a d : ℕ) : Bytes :=
  let (m, x) := seventeen_digits a d
  let ds := dec m
  if -4 ≤ x ∧ x < 17 then
    if 0 ≤ x then ds.take (x.toNat + 1) ++ fraction (ds.drop (x.toNat + 1))
    else 48 :: fraction (List.replicate (-x - 1).toNat 48 ++ ds)
  else
    let e := dec x.natAbs
    let e := if e.length < 2 then 48 :: e else e
    ds.take 1 ++ fraction (ds.drop 1) ++ [101, if x < 0 then 45 else 43] ++ e

/-- The magnitude as the JSON layer writes it: `%.f` for an integer below `2^53`,
`%.17g` for everything else. -/
def Double.text_mag (x : Double) : Bytes :=
  if x.mag < 2 ^ 53 * unit ∧ x.mag % unit = 0 then dec (x.mag / unit) else printf_g x.mag unit

/-- A double as the JSON layer writes it. The sign bit is printed even for zero. -/
def Double.text (x : Double) : Bytes := if x.neg then 45 :: x.text_mag else x.text_mag

/-- `static_cast<std::time_t>(std::round(x))`: ties away from zero, and the x86 result
`INT64_MIN` where the rounded value does not fit. -/
def Double.round_to_int64 (x : Double) : ℤ :=
  let m : ℕ := (2 * x.mag + unit) / (2 * unit)
  let v : ℤ := if x.neg then -m else m
  if -2 ^ 63 ≤ v ∧ v < 2 ^ 63 then v else -2 ^ 63

/-! ## What number text looks like

Digits, a sign, a point or an exponent mark, and nothing else; in particular no NUL,
and no word a JSON string would be compared with. -/

/-- The characters of number text. -/
def numeric (b : UInt8) : Bool := isdigit b || b = 45 || b = 43 || b = 46 || b = 101

theorem numeric_of_isdigit {b : UInt8} (h : isdigit b = true) : numeric b = true := by
  simp [numeric, h]

theorem dec_numeric (n : ℕ) : (dec n).all numeric = true := by
  rw [List.all_eq_true]
  exact fun b hb => numeric_of_isdigit (isdigit_of_mem_dec hb)

theorem fraction_numeric {ds : Bytes} (h : ds.all numeric = true) :
    (fraction ds).all numeric = true := by
  unfold fraction
  split
  · rfl
  · rw [List.all_cons]
    simp only [Bool.and_eq_true]
    refine ⟨by decide, ?_⟩
    rw [List.all_eq_true] at h ⊢
    intro b hb
    exact h b (List.mem_reverse.mp ((List.dropWhile_suffix _).subset (List.mem_reverse.mp hb)))

theorem all_numeric_take {ds : Bytes} (h : ds.all numeric = true) (n : ℕ) :
    (ds.take n).all numeric = true := by
  rw [List.all_eq_true] at h ⊢
  exact fun b hb => h b (List.mem_of_mem_take hb)

theorem all_numeric_drop {ds : Bytes} (h : ds.all numeric = true) (n : ℕ) :
    (ds.drop n).all numeric = true := by
  rw [List.all_eq_true] at h ⊢
  exact fun b hb => h b (List.mem_of_mem_drop hb)

theorem printf_g_numeric (a d : ℕ) : (printf_g a d).all numeric = true := by
  have hds := dec_numeric (seventeen_digits a d).1
  have hzeros : ∀ n, (List.replicate n (48 : UInt8)).all numeric = true := by
    intro n
    rw [List.all_eq_true]
    intro b hb
    rw [List.eq_of_mem_replicate hb]
    decide
  simp only [printf_g]
  -- the two plain notations, and the two with an exponent
  split_ifs with h₁ h₂ h₃
  · rw [List.all_append, all_numeric_take hds, fraction_numeric (all_numeric_drop hds _)]
    rfl
  · rw [List.all_cons, fraction_numeric (by rw [List.all_append, hzeros, hds]; rfl)]
    decide
  all_goals
    simp only [List.all_append, all_numeric_take hds, fraction_numeric (all_numeric_drop hds _),
      List.all_cons, dec_numeric, List.all_nil]
    decide

theorem Double.text_numeric (x : Double) : x.text.all numeric = true := by
  have hmag : x.text_mag.all numeric = true := by
    unfold Double.text_mag
    split_ifs
    · exact dec_numeric _
    · exact printf_g_numeric _ _
  unfold Double.text
  split_ifs
  · rw [List.all_cons, hmag]
    decide
  · exact hmag

theorem dec_int_numeric (i : ℤ) : (dec_int i).all numeric = true := by
  unfold dec_int
  split_ifs
  · rw [List.all_cons, dec_numeric]
    decide
  · exact dec_numeric _

/-- Number text is its own C string. -/
theorem zero_notMem_of_numeric {s : Bytes} (h : s.all numeric = true) : 0 ∉ s := by
  intro h0
  rw [List.all_eq_true] at h
  exact absurd (h 0 h0) (by decide)

end OidcValidator.Number
