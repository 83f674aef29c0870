/-
`Json.lean` -- the texts that `picojson::parse` accepts, and what they say.

`Picojson.lean` has the parser as the source has it, a function that reads from left to right.
Here the texts come first: a [`Doc`] is a syntax tree down to the last blank and the last digit,
with the text that it stands for and the value that it says. The parser accepts a text exactly
if it begins with such a tree, after blanks, and returns the value of the tree.

Where the language is wider or narrower than JSON can be read off the trees. A number may begin
with zeros and lack the digits on one side of its point, but must be in the range of a double;
nothing is asked of what follows the document; a name may come twice, and the last member of that
name counts; at most a hundred arrays, but any number of objects, stand inside one another.
-/
import OidcValidator.Picojson
import OidcValidator.StdSet

set_option autoImplicit false

namespace OidcValidator.Json

open OidcValidator.ByteString OidcValidator.Number OidcValidator.Picojson OidcValidator.StdSet

/-! ## Blanks -/

/-- What `skip_ws` skips. -/
def blank (b : UInt8) : Bool := b = 32 || b = 9 || b = 10 || b = 13

/-- Any number of blanks. -/
abbrev Blanks := { ws : Bytes // ws.all blank = true }

theorem skip_ws_cons {b : UInt8} (hb : blank b = false) (s : Bytes) : skip_ws (b :: s) = b :: s :=
  List.dropWhile_cons_of_neg (by simpa [blank] using hb)

theorem skip_ws_append (ws : Blanks) (s : Bytes) : skip_ws (ws.1 ++ s) = skip_ws s :=
  List.dropWhile_append_of_pos fun b hb => List.all_eq_true.mp ws.2 b hb

theorem skip_ws_blanks (ws : Blanks) {b : UInt8} (hb : blank b = false) (s : Bytes) :
    skip_ws (ws.1 ++ b :: s) = b :: s := by
  rw [skip_ws_append, skip_ws_cons hb]

/-- What is skipped is blank, and what follows is not. -/
theorem skip_ws_eq (s : Bytes) : ∃ ws : Blanks, s = ws.1 ++ skip_ws s := by
  refine ⟨⟨s.takeWhile blank, ?_⟩, (List.takeWhile_append_dropWhile (p := blank)).symm⟩
  exact List.all_eq_true.mpr fun b hb => List.mem_takeWhile_imp hb

theorem skip_ws_idem (s : Bytes) : skip_ws (skip_ws s) = skip_ws s := by
  obtain ⟨ws, hws⟩ := skip_ws_eq s
  conv_rhs => rw [hws, skip_ws_append]

/-! ## Strings -/

/-- A hexadecimal digit. -/
structure HexDigit where
  char : UInt8
  value : ℕ
  is_digit : hex_digit char = some value

/-- The four digits of a `\u` escape. -/
structure Quad where
  a : HexDigit
  b : HexDigit
  c : HexDigit
  d : HexDigit

/-- The digits. -/
def Quad.text (q : Quad) : Bytes := [q.a.char, q.b.char, q.c.char, q.d.char]

/-- Their value. -/
def Quad.code (q : Quad) : ℕ :=
  ((q.a.value * 16 + q.b.value) * 16 + q.c.value) * 16 + q.d.value

/-- One character of a string, as it is written. -/
inductive Piece where
  | plain (b : UInt8) (hb : 32 ≤ b ∧ b ≠ 34 ∧ b ≠ 92)
  | escaped (e c : UInt8) (hc : escape e = some c)
  | codepoint (q : Quad) (hq : ¬(0xd800 ≤ q.code ∧ q.code ≤ 0xdfff))
  | pair (high low : Quad) (hhigh : 0xd800 ≤ high.code ∧ high.code < 0xdc00)
      (hlow : 0xdc00 ≤ low.code ∧ low.code ≤ 0xdfff)

/-- How it is written. -/
def Piece.text : Piece → Bytes
  | .plain b _ => [b]
  | .escaped e _ _ => [92, e]
  | .codepoint q _ => 92 :: 117 :: q.text
  | .pair high low _ _ => 92 :: 117 :: high.text ++ 92 :: 117 :: low.text

/-- The bytes that it stands for. -/
def Piece.value : Piece → Bytes
  | .plain b _ => [b]
  | .escaped _ c _ => [c]
  | .codepoint q _ => push_codepoint q.code
  | .pair high low _ _ =>
      push_codepoint ((high.code - 0xd800) * 1024 + (low.code - 0xdc00) + 0x10000)

/-- What stands between two quotes. -/
abbrev Body := List Piece

/-- A string as it is written, with its closing quote. -/
def Body.text (body : Body) : Bytes := body.flatMap Piece.text ++ [34]

/-- The string. -/
def Body.value (body : Body) : Bytes := body.flatMap Piece.value

theorem Body.text_cons (p : Piece) (body : Body) :
    Body.text (p :: body) = p.text ++ Body.text body := by
  unfold Body.text
  rw [List.flatMap_cons, List.append_assoc]

theorem Body.value_cons (p : Piece) (body : Body) :
    Body.value (p :: body) = p.value ++ Body.value body :=
  List.flatMap_cons

theorem parse_quadhex_text (q : Quad) (rest : Bytes) :
    parse_quadhex 4 0 (q.text ++ rest) = .ok q.code rest := by
  simp only [Quad.text, List.cons_append, List.nil_append, parse_quadhex, q.a.is_digit,
    q.b.is_digit, q.c.is_digit, q.d.is_digit, Nat.zero_mul, Nat.zero_add, Quad.code]

theorem parse_quadhex_succ_eq_ok {n u v : ℕ} {s r : Bytes}
    (h : parse_quadhex (n + 1) u s = .ok v r) :
    ∃ (d : HexDigit) (t : Bytes), s = d.char :: t ∧
      parse_quadhex n (u * 16 + d.value) t = .ok v r := by
  cases s with
  | nil => cases h
  | cons b t =>
    simp only [parse_quadhex] at h
    rcases hb : hex_digit b with _ | k <;> rw [hb] at h
    · cases h
    · exact ⟨⟨b, k, hb⟩, t, rfl, h⟩

theorem parse_quadhex_eq_ok {s r : Bytes} {v : ℕ} (h : parse_quadhex 4 0 s = .ok v r) :
    ∃ q : Quad, s = q.text ++ r ∧ v = q.code := by
  obtain ⟨a, s₁, hs, h₁⟩ := parse_quadhex_succ_eq_ok h
  obtain ⟨b, s₂, hs₁, h₂⟩ := parse_quadhex_succ_eq_ok h₁
  obtain ⟨c, s₃, hs₂, h₃⟩ := parse_quadhex_succ_eq_ok h₂
  obtain ⟨d, s₄, hs₃, h₄⟩ := parse_quadhex_succ_eq_ok h₃
  obtain ⟨hv, hr⟩ := Parsed.ok.inj h₄
  refine ⟨⟨a, b, c, d⟩, ?_, ?_⟩
  · rw [hs, hs₁, hs₂, hs₃, hr]
    rfl
  · rw [← hv, Nat.zero_mul, Nat.zero_add, Quad.code]

theorem parse_codepoint_text (q : Quad) (hq : ¬(0xd800 ≤ q.code ∧ q.code ≤ 0xdfff)) (rest : Bytes) :
    parse_codepoint (q.text ++ rest) = .ok (push_codepoint q.code) rest := by
  unfold parse_codepoint
  rw [parse_quadhex_text, Parsed.bind, if_neg hq]

theorem parse_codepoint_pair (high low : Quad) (hhigh : 0xd800 ≤ high.code ∧ high.code < 0xdc00)
    (hlow : 0xdc00 ≤ low.code ∧ low.code ≤ 0xdfff) (rest : Bytes) :
    parse_codepoint (high.text ++ (92 :: 117 :: low.text) ++ rest) =
      .ok (Piece.pair high low hhigh hlow).value rest := by
  unfold parse_codepoint
  rw [List.append_assoc, parse_quadhex_text, Parsed.bind, if_pos (by omega), if_neg (by omega)]
  simp only [List.cons_append, parse_low_surrogate, ne_eq, not_true, if_false, parse_quadhex_text,
    Parsed.bind]
  rw [if_pos hlow]
  rfl

theorem parse_low_surrogate_eq_ok {high : ℕ} {s out r : Bytes}
    (h : parse_low_surrogate high s = .ok out r) :
    ∃ low : Quad, s = 92 :: 117 :: low.text ++ r ∧ (0xdc00 ≤ low.code ∧ low.code ≤ 0xdfff) ∧
      out = push_codepoint ((high - 0xd800) * 1024 + (low.code - 0xdc00) + 0x10000) := by
  match s with
  | [] => exact absurd h nofun
  | [b] =>
    simp only [parse_low_surrogate] at h
    split_ifs at h
  | b :: c :: s =>
    simp only [parse_low_surrogate] at h
    split_ifs at h with hb hc
    obtain ⟨v, t, hquad, h⟩ := Parsed.bind_eq_ok.mp h
    obtain ⟨low, rfl, rfl⟩ := parse_quadhex_eq_ok hquad
    split_ifs at h with hlow
    obtain ⟨rfl, rfl⟩ := Parsed.ok.inj h
    rw [not_not] at hb hc
    subst hb hc
    exact ⟨low, rfl, hlow, rfl⟩

/-- A `\u` escape is one character of a string. -/
theorem parse_codepoint_eq_ok {s out r : Bytes} (h : parse_codepoint s = .ok out r) :
    ∃ p : Piece, 92 :: 117 :: s = p.text ++ r ∧ out = p.value := by
  obtain ⟨v, t, hquad, hcode⟩ := Parsed.bind_eq_ok.mp h
  obtain ⟨q, rfl, rfl⟩ := parse_quadhex_eq_ok hquad
  split_ifs at hcode with hsurrogate hlow
  · obtain ⟨low, ht, hlow', hout⟩ := parse_low_surrogate_eq_ok hcode
    refine ⟨.pair q low ⟨hsurrogate.1, not_le.mp hlow⟩ hlow', ?_, ?_⟩
    · rw [ht]
      simp only [Piece.text, List.cons_append, List.append_assoc]
    · rw [hout, Piece.value]
  · obtain ⟨rfl, rfl⟩ := Parsed.ok.inj hcode
    refine ⟨.codepoint q hsurrogate, ?_, ?_⟩
    · simp only [Piece.text, List.cons_append]
    · simp only [Piece.value]

/-- One character of a string is one turn of the loop. -/
theorem parse_string_piece (n : ℕ) (out : Bytes) (p : Piece) (s : Bytes) :
    parse_string (n + 1) out (p.text ++ s) = parse_string n (out ++ p.value) s := by
  cases p with
  | plain b hb =>
    obtain ⟨hcontrol, hquote, hslash⟩ := hb
    simp only [Piece.text, List.singleton_append, parse_string, if_neg (UInt8.not_lt.mpr hcontrol),
      if_neg hquote, if_neg hslash, Piece.value]
  | escaped e c hc =>
    have hslash : ¬((92 : UInt8) < 32) := by decide
    have hquote : ¬((92 : UInt8) = 34) := by decide
    simp only [Piece.text, List.cons_append, List.nil_append, parse_string, if_neg hslash,
      if_neg hquote, if_pos, hc, Piece.value]
  -- `u` is no escape of its own, so that the four digits are read
  | codepoint q hq =>
    have hslash : ¬((92 : UInt8) < 32) := by decide
    have hquote : ¬((92 : UInt8) = 34) := by decide
    have hescape : escape 117 = none := by decide
    simp only [Piece.text, List.cons_append, parse_string, if_neg hslash, if_neg hquote, if_pos,
      hescape, parse_codepoint_text q hq, Parsed.bind, Piece.value]
  | pair high low hhigh hlow =>
    have hslash : ¬((92 : UInt8) < 32) := by decide
    have hquote : ¬((92 : UInt8) = 34) := by decide
    have hescape : escape 117 = none := by decide
    have hpair := parse_codepoint_pair high low hhigh hlow s
    simp only [List.cons_append, List.append_assoc] at hpair
    simp only [Piece.text, List.cons_append, List.append_assoc, parse_string, if_neg hslash,
      if_neg hquote, if_pos, hescape, hpair, Parsed.bind]

theorem Piece.text_length_pos (p : Piece) : 0 < p.text.length := by
  cases p <;> simp [Piece.text]

/-- A string that is written like this is read. -/
theorem parse_string_text (body : Body) {n : ℕ} {rest : Bytes} (out : Bytes)
    (hn : (Body.text body ++ rest).length ≤ n) :
    parse_string n out (Body.text body ++ rest) = .ok (out ++ Body.value body) rest := by
  induction body generalizing n out with
  | nil =>
    obtain ⟨n, rfl⟩ : ∃ k, n = k + 1 := ⟨n - 1, by simp [Body.text] at hn; omega⟩
    have hcontrol : ¬((34 : UInt8) < 32) := by decide
    simp only [Body.text, List.flatMap_nil, List.nil_append, List.singleton_append, parse_string,
      if_neg hcontrol, if_true, Body.value, List.append_nil]
  | cons p body ih =>
    have hp := p.text_length_pos
    rw [Body.text_cons, List.append_assoc] at hn ⊢
    rw [List.length_append] at hn
    obtain ⟨n, rfl⟩ : ∃ k, n = k + 1 := ⟨n - 1, by omega⟩
    rw [parse_string_piece, ih _ (by omega), Body.value_cons, List.append_assoc]

/-- A string that is read is written like this. -/
theorem parse_string_eq_ok {n : ℕ} {out s o r : Bytes} (h : parse_string n out s = .ok o r) :
    ∃ body : Body, s = Body.text body ++ r ∧ o = out ++ Body.value body := by
  induction n generalizing out s with
  | zero => cases h
  | succ n ih =>
    -- one more character
    have hpiece : ∀ (p : Piece) {t : Bytes}, s = p.text ++ t →
        parse_string n (out ++ p.value) t = .ok o r →
        ∃ body : Body, s = Body.text body ++ r ∧ o = out ++ Body.value body := by
      rintro p t rfl hrest
      obtain ⟨body, rfl, rfl⟩ := ih hrest
      refine ⟨p :: body, ?_, ?_⟩
      · rw [Body.text_cons, List.append_assoc]
      · rw [Body.value_cons, List.append_assoc]
    cases s with
    | nil => cases h
    | cons ch t =>
      simp only [parse_string] at h
      split_ifs at h with hcontrol hquote hslash
      · obtain ⟨rfl, rfl⟩ := Parsed.ok.inj h
        subst hquote
        exact ⟨[], rfl, (List.append_nil _).symm⟩
      · subst hslash
        cases t with
        | nil => cases h
        | cons e t =>
          rcases he : escape e with _ | c <;> simp only [he] at h
          · split_ifs at h with hu
            subst hu
            obtain ⟨u, t', hcode, h⟩ := Parsed.bind_eq_ok.mp h
            obtain ⟨p, htext, rfl⟩ := parse_codepoint_eq_ok hcode
            exact hpiece p htext h
          · exact hpiece (.escaped e c he) rfl h
      · exact hpiece (.plain ch ⟨UInt8.not_lt.mp hcontrol, hquote, hslash⟩) rfl h

/-! ## Numbers -/

/-- A run of digits, possibly empty. -/
abbrev Digits := { ds : Bytes // ds.all isdigit = true }

/-- The exponent of a number. -/
structure Exponent where
  mark : UInt8
  is_mark : mark = 101 ∨ mark = 69
  /-- The sign, if one is written, and whether it is a minus. -/
  sign : Option Bool
  digits : Digits
  digits_ne : digits.1 ≠ []

/-- A sign that is written. -/
def sign_text : Option Bool → Bytes
  | none => []
  | some true => [45]
  | some false => [43]

/-- The exponent as it is written. -/
def Exponent.text (e : Exponent) : Bytes := e.mark :: (sign_text e.sign ++ e.digits.1)

/-- A number as it is written. A plus sign in front is not among the characters that `_parse`
takes for the beginning of a number, and neither is a point. -/
structure Numeral where
  neg : Bool
  int_part : Digits
  frac_part : Option Digits
  exponent : Option Exponent
  has_digit : ¬(int_part.1 = [] ∧ (frac_part.elim [] Subtype.val) = [])
  first : neg = true ∨ int_part.1 ≠ []

/-- The digits after the point. -/
def Numeral.fraction (n : Numeral) : Bytes := n.frac_part.elim [] Subtype.val

/-- The exponent as it is written, if there is one. -/
def Numeral.exponent_text (n : Numeral) : Bytes := n.exponent.elim [] Exponent.text

/-- What follows the digits before the point. -/
def Numeral.suffix (n : Numeral) : Bytes :=
  n.frac_part.elim [] (fun ds => 46 :: ds.1) ++ n.exponent_text

/-- The number as it is written. -/
def Numeral.text (n : Numeral) : Bytes :=
  sign_text (if n.neg then some true else none) ++ (n.int_part.1 ++ n.suffix)

/-- The integer, for a number without a point and an exponent, if it fits an `int64_t`. -/
def Numeral.integer (n : Numeral) : Option ℤ :=
  if n.frac_part.isNone ∧ n.exponent.isNone then
    let v : ℤ := if n.neg then -(nat_of_digits n.int_part.1) else nat_of_digits n.int_part.1
    if -2 ^ 63 ≤ v ∧ v < 2 ^ 63 then some v else none
  else none

/-- The double nearest to a number, if it is not an infinity. The power of ten divides if `eneg`
is set. The numbers in it are too large to be looked at by unfolding. -/
@[irreducible] def nearest (neg : Bool) (int_part frac_part : List UInt8) (eneg : Bool) (e : ℕ) :
    Option Double :=
  Double.of_units neg
    (nat_of_digits (int_part ++ frac_part) * 10 ^ (if eneg then 0 else e) * unit)
    (10 ^ (frac_part.length + (if eneg then e else 0)))

/-- The double nearest to the number. -/
def Numeral.double (n : Numeral) : Option Double :=
  n.exponent.elim (nearest n.neg n.int_part.1 n.fraction false 0) fun e =>
    nearest n.neg n.int_part.1 n.fraction (e.sign.getD false) (nat_of_digits e.digits.1)

/-- The value that a number says, if it says one. -/
def Numeral.value (n : Numeral) : Option Value :=
  match n.integer with
  | some i => some (.int64 i)
  | none => n.double.map .number

theorem Numeral.value_ne_object (n : Numeral) {o : Object} : n.value ≠ some (.object o) := by
  unfold Numeral.value
  rcases n.integer with _ | i
  · rcases n.double with _ | x <;> exact nofun
  · exact nofun

/-- A number that says a value: one that is not out of the range of a double. -/
structure Numeral.Says (n : Numeral) (v : Value) : Prop where
  value_eq : n.value = some v

/-- What is left after a longest run does not begin with one more. -/
def Stops (p : UInt8 → Bool) (s : Bytes) : Prop := ∀ b ∈ s.head?, p b = false

theorem takeWhile_append_of_stops {p : UInt8 → Bool} {s t : Bytes} (hs : s.all p = true)
    (ht : Stops p t) : (s ++ t).takeWhile p = s ∧ (s ++ t).dropWhile p = t := by
  have hall := List.all_eq_true.mp hs
  rw [List.takeWhile_append_of_pos hall, List.dropWhile_append_of_pos hall]
  cases t with
  | nil => exact ⟨List.append_nil s, rfl⟩
  | cons b t =>
    have hb : ¬(p b = true) := by rw [ht b rfl]; exact Bool.false_ne_true
    rw [List.takeWhile_cons_of_neg hb, List.dropWhile_cons_of_neg hb]
    exact ⟨List.append_nil s, rfl⟩

theorem stops_dropWhile (p : UInt8 → Bool) (s : Bytes) : Stops p (s.dropWhile p) := by
  intro b hb
  have := List.head?_dropWhile_not p s
  rw [Option.mem_def.mp hb] at this
  simpa using this

theorem take_sign_digits {neg : Bool} {s : Bytes} (h : ∀ b ∈ s.head?, b ≠ 45 ∧ b ≠ 43) :
    take_sign (sign_text (if neg then some true else none) ++ s) = (neg, s) := by
  cases neg with
  | true => rfl
  | false =>
    cases s with
    | nil => rfl
    | cons b s =>
      obtain ⟨hminus, hplus⟩ := h b rfl
      simp only [Bool.false_eq_true, if_false, sign_text, List.nil_append, take_sign,
        if_neg hminus, if_neg hplus]

theorem Numeral.exponent_text_head (n : Numeral) :
    ∀ b ∈ n.exponent_text.head?, b = 101 ∨ b = 69 := by
  unfold Numeral.exponent_text
  rcases n.exponent with _ | e
  · exact fun b hb => absurd hb nofun
  · intro b hb
    obtain rfl : e.mark = b := Option.some.inj hb
    exact e.is_mark

theorem Numeral.exponent_text_stops (n : Numeral) : Stops isdigit n.exponent_text := by
  intro b hb
  rcases n.exponent_text_head b hb with rfl | rfl <;> decide

/-- After the digits before the point comes the point or the exponent. -/
theorem Numeral.suffix_head (n : Numeral) : ∀ b ∈ n.suffix.head?, b = 46 ∨ b = 101 ∨ b = 69 := by
  unfold Numeral.suffix
  rcases n.frac_part with _ | ds
  · exact fun b hb => .inr (n.exponent_text_head b hb)
  · exact fun b hb => .inl (Option.some.inj hb).symm

theorem Numeral.suffix_stops (n : Numeral) : Stops isdigit n.suffix := by
  intro b hb
  rcases n.suffix_head b hb with rfl | rfl | rfl <;> decide

/-- The characters in front are the sign alone. -/
theorem Numeral.take_sign_text (n : Numeral) :
    take_sign n.text = (n.neg, n.int_part.1 ++ n.suffix) := by
  refine take_sign_digits fun b hb => ?_
  have hint := List.all_eq_true.mp n.int_part.2
  rcases hds : n.int_part.1 with _ | ⟨d, ds⟩
  · rw [hds] at hb
    rcases n.suffix_head b hb with rfl | rfl | rfl <;> decide
  · rw [hds] at hb hint
    obtain rfl : d = b := Option.some.inj hb
    have hd := hint d List.mem_cons_self
    constructor <;> rintro rfl <;> exact absurd hd (by decide)

theorem Numeral.suffix_eq_nil {n : Numeral} :
    n.suffix = [] ↔ n.frac_part.isNone ∧ n.exponent.isNone := by
  unfold Numeral.suffix Numeral.exponent_text
  rcases n.frac_part with _ | ds <;> rcases n.exponent with _ | e <;>
    simp [Exponent.text]

/-- `strtoimax` reads an integer. -/
theorem strtoimax_text (n : Numeral) : strtoimax n.text = n.integer := by
  unfold strtoimax Numeral.integer
  rw [n.take_sign_text]
  by_cases hsuffix : n.suffix = []
  · have hnone := Numeral.suffix_eq_nil.mp hsuffix
    have hint : n.int_part.1 ≠ [] := fun hint => n.has_digit
      ⟨hint, by rw [Option.isNone_iff_eq_none.mp hnone.1]; rfl⟩
    simp only [hsuffix, List.append_nil, if_pos hnone, if_pos (And.intro hint n.int_part.2)]
  · have hall : ¬((n.int_part.1 ++ n.suffix) ≠ [] ∧ (n.int_part.1 ++ n.suffix).all isdigit) := by
      rintro ⟨-, hall⟩
      obtain ⟨b, s, hs⟩ := List.exists_cons_of_ne_nil hsuffix
      have hb := n.suffix_stops b (by rw [hs]; rfl)
      rw [hs, List.all_append, List.all_cons, hb, Bool.false_and, Bool.and_false] at hall
      exact absurd hall Bool.false_ne_true
    simp only [if_neg hall, if_neg (fun h => hsuffix (Numeral.suffix_eq_nil.mpr h))]

theorem Exponent.take_sign_text (e : Exponent) :
    take_sign (sign_text e.sign ++ e.digits.1) = (e.sign.getD false, e.digits.1) := by
  rcases e.sign with _ | ⟨_ | _⟩
  · refine @take_sign_digits false _ fun b hb => ?_
    have hd := List.all_eq_true.mp e.digits.2 b (List.mem_of_mem_head? hb)
    constructor <;> rintro rfl <;> exact absurd hd (by decide)
  · rfl
  · rfl

/-- What `strtod` says about the nearest double. -/
def Strtod.of_double : Option Double → Strtod
  | some x => .finite x
  | none => .infinite

/-- What `strtod` does with what follows the digits, if `number` is what it makes of an
exponent. -/
def strtod_of (number : Bool → ℕ → Strtod) (int_part frac_part s : Bytes) : Strtod :=
  if int_part = [] ∧ frac_part = [] then .invalid
  else
    match s with
    | [] => number false 0
    | c :: t =>
        if c = 101 ∨ c = 69 then
          let (eneg, es) := take_sign t
          if es ≠ [] ∧ es.all isdigit then number eneg (nat_of_digits es) else .invalid
        else .invalid

/-- What `strtod` does with the digits on both sides of the point and with what follows. -/
def strtod_from (neg : Bool) (int_part frac_part s : Bytes) : Strtod :=
  strtod_of
    (fun eneg e =>
      match Double.of_units neg
          (nat_of_digits (int_part ++ frac_part) * 10 ^ (if eneg then 0 else e) * unit)
          (10 ^ (frac_part.length + (if eneg then e else 0))) with
      | some x => .finite x
      | none => .infinite)
    int_part frac_part s

/-- `strtod` looks for a sign, for digits, and for digits behind a point. -/
theorem strtod_eq_of_point {s t r : Bytes} {neg : Bool} (hsign : take_sign s = (neg, t))
    (hr : t.dropWhile isdigit = 46 :: r) :
    strtod s =
      strtod_from neg (t.takeWhile isdigit) (r.takeWhile isdigit) (r.dropWhile isdigit) := by
  unfold strtod strtod_from strtod_of
  -- with these two as variables nothing here can be calculated
  generalize Double.of_units = of_units, unit = u
  rw [hsign]
  split
  rename_i _ _ _ hpair
  cases hpair
  dsimp -iota -proj only
  split
  rename_i _ frac_part rest hfrac
  split at hfrac
  · rename_i r' hr'
    obtain rfl : r' = r := (List.cons.inj (hr'.symm.trans hr)).2
    cases hfrac
    rfl
  · rename_i hne
    exact absurd hr (hne r)

/-- And there may be no point. -/
theorem strtod_eq_of_no_point {s t : Bytes} {neg : Bool} (hsign : take_sign s = (neg, t))
    (hne : ∀ r, t.dropWhile isdigit ≠ 46 :: r) :
    strtod s = strtod_from neg (t.takeWhile isdigit) [] (t.dropWhile isdigit) := by
  unfold strtod strtod_from strtod_of
  generalize Double.of_units = of_units, unit = u
  rw [hsign]
  split
  rename_i _ _ _ hpair
  cases hpair
  dsimp -iota -proj only
  split
  rename_i _ frac_part rest hfrac
  split at hfrac
  · rename_i r hr
    exact absurd hr (hne r)
  · cases hfrac
    rfl

theorem strtod_of_text (n : Numeral) (number : Bool → ℕ → Strtod) :
    strtod_of number n.int_part.1 n.fraction n.exponent_text =
      n.exponent.elim (number false 0)
        fun e => number (e.sign.getD false) (nat_of_digits e.digits.1) := by
  unfold strtod_of Numeral.exponent_text
  rw [if_neg (show ¬(n.int_part.1 = [] ∧ n.fraction = []) from n.has_digit)]
  rcases n.exponent with _ | e
  · rfl
  · simp only [Option.elim_some, Exponent.text, if_pos e.is_mark, e.take_sign_text,
      if_pos (And.intro e.digits_ne e.digits.2)]

theorem strtod_from_text (n : Numeral) :
    strtod_from n.neg n.int_part.1 n.fraction n.exponent_text = Strtod.of_double n.double := by
  unfold strtod_from Numeral.double nearest
  rw [strtod_of_text]
  generalize Double.of_units = of_units, unit = u
  rcases n.exponent with _ | e
  · rw [Option.elim_none, Option.elim_none]
    generalize of_units _ _ _ = x
    cases x <;> rfl
  · rw [Option.elim_some, Option.elim_some]
    generalize of_units _ _ _ = x
    cases x <;> rfl

/-- `strtod` reads a number. -/
theorem strtod_text (n : Numeral) : strtod n.text = Strtod.of_double n.double := by
  rw [← strtod_from_text]
  obtain ⟨htake, hdrop⟩ := takeWhile_append_of_stops n.int_part.2 n.suffix_stops
  -- the two forms of a number differ in the point
  rcases hfrac : n.frac_part with _ | ds
  · have hsuffix : n.suffix = n.exponent_text := by
      rw [Numeral.suffix, hfrac]
      rfl
    have hfraction : n.fraction = [] := by
      rw [Numeral.fraction, hfrac]
      rfl
    have hne : ∀ r, (n.int_part.1 ++ n.suffix).dropWhile isdigit ≠ 46 :: r := by
      intro r hr
      rw [hdrop, hsuffix] at hr
      have := n.exponent_text_head 46 (by rw [hr]; rfl)
      exact absurd this (by decide)
    rw [strtod_eq_of_no_point n.take_sign_text hne, htake, hdrop, hfraction, hsuffix]
  · have hsuffix : n.suffix = 46 :: (ds.1 ++ n.exponent_text) := by
      rw [Numeral.suffix, hfrac]
      rfl
    have hfraction : n.fraction = ds.1 := by
      rw [Numeral.fraction, hfrac]
      rfl
    obtain ⟨htake', hdrop'⟩ := takeWhile_append_of_stops ds.2 n.exponent_text_stops
    rw [strtod_eq_of_point n.take_sign_text (hdrop.trans hsuffix), htake, htake', hdrop', hfraction]

theorem exists_sign (s : Bytes) :
    ∃ sign : Option Bool, s = sign_text sign ++ (take_sign s).2 ∧
      (take_sign s).1 = sign.getD false := by
  rcases s with _ | ⟨b, s⟩
  · exact ⟨none, rfl, rfl⟩
  · simp only [take_sign]
    split_ifs with hminus hplus
    · exact ⟨some true, by rw [hminus]; rfl, rfl⟩
    · exact ⟨some false, by rw [hplus]; rfl, rfl⟩
    · exact ⟨none, rfl, rfl⟩

theorem strtod_of_valid {number : Bool → ℕ → Strtod} {int_part frac_part s : Bytes}
    (h : strtod_of number int_part frac_part s ≠ .invalid) :
    ¬(int_part = [] ∧ frac_part = []) ∧ ∃ e : Option Exponent, s = e.elim [] Exponent.text := by
  unfold strtod_of at h
  split_ifs at h with hdigit
  · exact absurd rfl h
  refine ⟨hdigit, ?_⟩
  rcases s with _ | ⟨c, t⟩
  · exact ⟨none, rfl⟩
  · dsimp only at h
    split_ifs at h with hmark hdigits
    · obtain ⟨sign, ht, -⟩ := exists_sign t
      refine ⟨some ⟨c, hmark, sign, ⟨(take_sign t).2, hdigits.2⟩, hdigits.1⟩, ?_⟩
      rw [Option.elim_some, Exponent.text, ← ht]
    · exact absurd rfl h
    · exact absurd rfl h

/-- A text that begins like a number. -/
def Begins (s : Bytes) : Prop := ∃ b t, s = b :: t ∧ (isdigit b = true ∨ b = 45)

theorem Begins.sign {s : Bytes} (h : Begins s) :
    s = sign_text (if (take_sign s).1 then some true else none) ++ (take_sign s).2 ∧
      ((take_sign s).1 = true ∨ (take_sign s).2.takeWhile isdigit ≠ []) := by
  obtain ⟨b, t, rfl, hb⟩ := h
  by_cases hminus : b = 45
  · subst hminus
    exact ⟨rfl, .inl rfl⟩
  · have hdigit := hb.resolve_right hminus
    have hplus : b ≠ 43 := by
      rintro rfl
      exact absurd hdigit (by decide)
    have hsign : take_sign (b :: t) = (false, b :: t) := by
      rw [take_sign, if_neg hminus, if_neg hplus]
    rw [hsign, List.takeWhile_cons_of_pos hdigit]
    exact ⟨rfl, .inr (List.cons_ne_nil _ _)⟩

/-- What `strtod` reads is a number. -/
theorem exists_numeral_of_strtod {s : Bytes} (hs : Begins s) (h : strtod s ≠ .invalid) :
    ∃ n : Numeral, s = n.text := by
  obtain ⟨hsign, hfirst⟩ := hs.sign
  have hpair : take_sign s = ((take_sign s).1, (take_sign s).2) := rfl
  have hint := (List.takeWhile_append_dropWhile (p := isdigit) (l := (take_sign s).2)).symm
  -- with a point or without one
  by_cases hpoint : ∃ r, (take_sign s).2.dropWhile isdigit = 46 :: r
  · obtain ⟨r, hr⟩ := hpoint
    rw [strtod_eq_of_point hpair hr] at h
    obtain ⟨hdigit, e, he⟩ := strtod_of_valid h
    refine ⟨⟨(take_sign s).1, ⟨_, List.all_takeWhile⟩, some ⟨_, List.all_takeWhile⟩, e, hdigit,
      hfirst⟩, ?_⟩
    rw [hr, ← List.takeWhile_append_dropWhile (p := isdigit) (l := r), he] at hint
    conv_lhs => rw [hsign, hint]
    rfl
  · rw [strtod_eq_of_no_point hpair (not_exists.mp hpoint)] at h
    obtain ⟨hdigit, e, he⟩ := strtod_of_valid h
    refine ⟨⟨(take_sign s).1, ⟨_, List.all_takeWhile⟩, none, e, hdigit, hfirst⟩, ?_⟩
    rw [he] at hint
    conv_lhs => rw [hsign, hint]
    rfl

/-- What `strtoimax` reads is a number. -/
theorem exists_numeral_of_strtoimax {s : Bytes} (hs : Begins s) {i : ℤ}
    (h : strtoimax s = some i) : ∃ n : Numeral, s = n.text := by
  obtain ⟨hsign, -⟩ := hs.sign
  have hdigits : (take_sign s).2 ≠ [] ∧ (take_sign s).2.all isdigit = true := by
    by_contra hno
    simp only [strtoimax, if_neg hno] at h
    exact absurd h nofun
  refine ⟨⟨(take_sign s).1, ⟨(take_sign s).2, hdigits.2⟩, none, none, fun h => hdigits.1 h.1,
    .inr hdigits.1⟩, ?_⟩
  conv_lhs => rw [hsign]
  rw [Numeral.text, Numeral.suffix, Numeral.exponent_text]
  simp only [Option.elim_none, List.append_nil]

theorem number_char_of_digits (ds : Digits) : ds.1.all number_char = true :=
  List.all_eq_true.mpr fun b hb => by
    rw [number_char, List.all_eq_true.mp ds.2 b hb]
    rfl

theorem number_char_of_sign (sign : Option Bool) : (sign_text sign).all number_char = true := by
  rcases sign with _ | ⟨_ | _⟩ <;> rfl

theorem Exponent.number_char_text (e : Exponent) : e.text.all number_char = true := by
  have hmark : number_char e.mark = true := by
    rcases e.is_mark with h | h <;> rw [h] <;> decide
  rw [Exponent.text, List.all_cons, List.all_append, hmark, number_char_of_sign,
    number_char_of_digits]
  rfl

/-- The characters of a number are collected together. -/
theorem Numeral.number_char_text (n : Numeral) : n.text.all number_char = true := by
  have hfrac : (n.frac_part.elim [] fun ds => (46 : UInt8) :: ds.1).all number_char = true := by
    rcases n.frac_part with _ | ds
    · rfl
    · rw [Option.elim_some, List.all_cons, number_char_of_digits]
      rfl
  have hexponent : n.exponent_text.all number_char = true := by
    unfold Numeral.exponent_text
    rcases n.exponent with _ | e
    · rfl
    · exact e.number_char_text
  rw [Numeral.text, Numeral.suffix, List.all_append, List.all_append, List.all_append,
    number_char_of_sign, number_char_of_digits, hfrac, hexponent]
  rfl

/-- A number that no further character of a number follows is read for what it says. -/
theorem parse_number_text (n : Numeral) {rest : Bytes} (hrest : Stops number_char rest) :
    parse_number (n.text ++ rest) = n.value.elim .overflow fun v => .ok v rest := by
  obtain ⟨htake, hdrop⟩ := takeWhile_append_of_stops n.number_char_text hrest
  unfold parse_number
  simp only [htake, hdrop]
  rw [strtoimax_text, strtod_text, Numeral.value]
  rcases n.integer with _ | i
  · rcases n.double with _ | x <;> rfl
  · rfl

theorem Begins.takeWhile {s : Bytes} (h : Begins s) : Begins (s.takeWhile number_char) := by
  obtain ⟨b, t, rfl, hb⟩ := h
  have hchar : number_char b = true := by
    rcases hb with hb | rfl
    · rw [number_char, hb]
      rfl
    · decide
  exact ⟨b, t.takeWhile number_char, List.takeWhile_cons_of_pos hchar, hb⟩

/-- What is read as a number is one. -/
theorem parse_number_eq_ok {s r : Bytes} {v : Value} (hs : Begins s)
    (h : parse_number s = .ok v r) :
    ∃ n : Numeral, s = n.text ++ r ∧ n.value = some v ∧ Stops number_char r := by
  have hn : ∃ n : Numeral, s.takeWhile number_char = n.text := by
    unfold parse_number at h
    -- an integer is tried first, and a double if that fails
    rcases hi : strtoimax (s.takeWhile number_char) with _ | i
    · refine exists_numeral_of_strtod hs.takeWhile fun hinvalid => ?_
      simp only [hi, hinvalid] at h
      exact absurd h nofun
    · exact exists_numeral_of_strtoimax hs.takeWhile hi
  obtain ⟨n, hn⟩ := hn
  have hsplit := (List.takeWhile_append_dropWhile (p := number_char) (l := s)).symm
  have hstops := stops_dropWhile number_char s
  rw [hn] at hsplit
  rw [hsplit, parse_number_text n hstops] at h
  rcases hv : n.value with _ | w <;> rw [hv] at h
  · exact absurd h nofun
  · obtain ⟨rfl, rfl⟩ := Parsed.ok.inj h
    exact ⟨n, hsplit, hv, hstops⟩

/-! ## Documents -/

/-- The name of a member, with all that stands around it: `before "body" after : next`. -/
structure Key where
  before : Blanks
  body : Body
  after : Blanks
  next : Blanks

/-- The name as it is written. -/
def Key.text (k : Key) : Bytes :=
  k.before.1 ++ 34 :: (k.body.text ++ (k.after.1 ++ 58 :: k.next.1))

mutual

/-- A value as it is written. -/
inductive Doc where
  | null
  | boolean (b : Bool)
  | number (n : Numeral) (v : Value) (hv : n.Says v)
  | string (body : Body)
  | empty_array (inside : Blanks)
  | array (items : Items)
  | empty_object (inside : Blanks)
  | object (members : Members)

/-- The items of an array, with the bracket that closes it. -/
inductive Items where
  | last (before : Blanks) (item : Doc) (after : Blanks)
  | more (before : Blanks) (item : Doc) (after : Blanks) (items : Items)

/-- The members of an object, with the brace that closes it. -/
inductive Members where
  | last (key : Key) (value : Doc) (after : Blanks)
  | more (key : Key) (value : Doc) (after : Blanks) (members : Members)

end

mutual

/-- The text. -/
def Doc.text : Doc → Bytes
  | .null => bytes "null"
  | .boolean b => if b then bytes "true" else bytes "false"
  | .number n _ _ => n.text
  | .string body => 34 :: body.text
  | .empty_array inside => 91 :: (inside.1 ++ [93])
  | .array items => 91 :: items.text
  | .empty_object inside => 123 :: (inside.1 ++ [125])
  | .object members => 123 :: members.text

/-- The text. -/
def Items.text : Items → Bytes
  | .last before item after => before.1 ++ (item.text ++ (after.1 ++ [93]))
  | .more before item after items => before.1 ++ (item.text ++ (after.1 ++ 44 :: items.text))

/-- The text. -/
def Members.text : Members → Bytes
  | .last key value after => key.text ++ (value.text ++ (after.1 ++ [125]))
  | .more key value after members => key.text ++ (value.text ++ (after.1 ++ 44 :: members.text))

end

mutual

/-- What is said. -/
def Doc.value : Doc → Value
  | .null => .null
  | .boolean b => .boolean b
  | .number _ v _ => v
  | .string body => .string body.value
  | .empty_array _ => .array []
  | .array items => .array items.values
  | .empty_object _ => .object []
  | .object members => .object (members.enter [])

/-- The items. -/
def Items.values : Items → List Value
  | .last _ item _ => [item.value]
  | .more _ item _ items => item.value :: items.values

/-- The members are entered one after the other. -/
def Members.enter : Members → Object → Object
  | .last key value _, o => Object.insert key.body.value value.value o
  | .more key value _ members, o => members.enter (Object.insert key.body.value value.value o)

end

mutual

/-- The depth that a value takes: one for an array and what its items take, and one for an object
unless its members take more. -/
def Doc.need : Doc → ℕ
  | .empty_array _ => 1
  | .array items => items.need + 1
  | .empty_object _ => 1
  | .object members => max 1 members.need
  | _ => 0

/-- The depth that the items take. -/
def Items.need : Items → ℕ
  | .last _ item _ => item.need
  | .more _ item _ items => max item.need items.need

/-- The depth that the members take. -/
def Members.need : Members → ℕ
  | .last _ value _ => value.need
  | .more _ value _ members => max value.need members.need

end

/-- What follows a number does not lengthen it. -/
def Doc.Ends : Doc → Bytes → Prop
  | .number _ _ _, rest => Stops number_char rest
  | _, _ => True

theorem Doc.ends_of_stops (doc : Doc) {rest : Bytes} (h : Stops number_char rest) :
    doc.Ends rest := by
  cases doc with
  | number n v hv => exact h
  | _ => exact trivial

theorem stops_blanks (ws : Blanks) {c : UInt8} (hc : number_char c = false) (s : Bytes) :
    Stops number_char (ws.1 ++ c :: s) := by
  intro b hb
  rcases hws : ws.1 with _ | ⟨w, t⟩ <;> rw [hws] at hb
  · obtain rfl : c = b := Option.some.inj hb
    exact hc
  · obtain rfl : w = b := Option.some.inj hb
    have hblank := List.all_eq_true.mp ws.2 w (by rw [hws]; exact List.mem_cons_self)
    simp only [blank, Bool.or_eq_true, decide_eq_true_eq] at hblank
    rcases hblank with ((rfl | rfl) | rfl) | rfl <;> decide

theorem Numeral.text_begins (n : Numeral) : Begins n.text := by
  rw [Numeral.text]
  rcases hneg : n.neg with _ | _
  · have hint : n.int_part.1 ≠ [] := by
      simpa [hneg] using n.first
    obtain ⟨b, t, hb⟩ := List.exists_cons_of_ne_nil hint
    refine ⟨b, t ++ n.suffix, by rw [hb]; rfl, .inl ?_⟩
    exact List.all_eq_true.mp n.int_part.2 b (by rw [hb]; exact List.mem_cons_self)
  · exact ⟨45, _, rfl, .inr rfl⟩

theorem Begins.cons {b : UInt8} {t : Bytes} (h : Begins (b :: t)) :
    isdigit b = true ∨ b = 45 := by
  obtain ⟨b', t', heq, hb⟩ := h
  obtain ⟨rfl, rfl⟩ := List.cons.inj heq
  exact hb

/-- The first character of a number is no blank and begins nothing else. -/
theorem Begins.other {b : UInt8} {t : Bytes} (h : Begins (b :: t)) :
    blank b = false ∧ b ≠ 110 ∧ b ≠ 102 ∧ b ≠ 116 ∧ b ≠ 34 ∧ b ≠ 91 ∧ b ≠ 123 ∧ b ≠ 93 := by
  rcases h.cons with hb | rfl
  · have hne : ∀ c, isdigit c = false → b ≠ c := by
      rintro c hc rfl
      exact absurd (hb.symm.trans hc) (by decide)
    have hblank : blank b = false := by
      simp only [blank, Bool.or_eq_false_iff, decide_eq_false_iff_not]
      exact ⟨⟨⟨hne _ (by decide), hne _ (by decide)⟩, hne _ (by decide)⟩, hne _ (by decide)⟩
    exact ⟨hblank, hne _ (by decide), hne _ (by decide), hne _ (by decide), hne _ (by decide),
      hne _ (by decide), hne _ (by decide), hne _ (by decide)⟩
  · decide

/-- A value does not begin with a blank, nor with the bracket that closes an array. -/
theorem Doc.text_head (doc : Doc) :
    ∃ b t, doc.text = b :: t ∧ blank b = false ∧ b ≠ 93 := by
  cases doc with
  | null => exact ⟨_, _, rfl, by decide, by decide⟩
  | boolean b => cases b <;> exact ⟨_, _, rfl, by decide, by decide⟩
  | number n v hv =>
    obtain ⟨b, t, htext, hb⟩ := n.text_begins
    have hother := Begins.other ⟨b, t, rfl, hb⟩
    exact ⟨b, t, htext, hother.1, hother.2.2.2.2.2.2.2⟩
  | _ => exact ⟨_, _, rfl, by decide, by decide⟩

/-! ## What is written is read -/

theorem match_text_eq_ok {ps s r : Bytes} {u : Unit} :
    match_text ps s = .ok u r ↔ s = ps ++ r := by
  induction ps generalizing s with
  | nil => simp [match_text]
  | cons p ps ih =>
    cases s with
    | nil => simp [match_text]
    | cons b s =>
      by_cases hb : b = p
      · subst hb
        simp [match_text, ih]
      · simp [match_text, hb]

theorem match_text_append (ps s : Bytes) : match_text ps (ps ++ s) = .ok () s :=
  match_text_eq_ok.mpr rfl

section

variable {α : Type} {yes no : Bytes → Parsed α}

theorem on_expect_of_skip {c b : UInt8} {s t : Bytes} (h : skip_ws s = b :: t) :
    on_expect c s yes no = if b = c then yes t else no (b :: t) := by
  by_cases hb : b = c
  · simp only [on_expect, expect, h, if_pos hb]
  · simp only [on_expect, expect, h, if_neg hb]

theorem on_expect_hit (ws : Blanks) {c : UInt8} (hc : blank c = false) (t : Bytes) :
    on_expect c (ws.1 ++ c :: t) yes no = yes t := by
  rw [on_expect_of_skip (skip_ws_blanks ws hc t), if_pos rfl]

theorem on_expect_self {c : UInt8} (hc : blank c = false) (t : Bytes) :
    on_expect c (c :: t) yes no = yes t := by
  rw [on_expect_of_skip (skip_ws_cons hc t), if_pos rfl]

theorem on_expect_miss (ws : Blanks) {b c : UInt8} (hb : blank b = false) (hbc : b ≠ c)
    (t : Bytes) : on_expect c (ws.1 ++ b :: t) yes no = no (b :: t) := by
  rw [on_expect_of_skip (skip_ws_blanks ws hb t), if_neg hbc]

theorem on_expect_skip (c : UInt8) (s : Bytes) :
    on_expect c (skip_ws s) yes no = on_expect c s yes no := by
  simp only [on_expect, expect, skip_ws_idem]

/-- An expected character is there, after blanks, or the other branch is taken. -/
theorem on_expect_eq_ok {c : UInt8} {s r : Bytes} {a : α} (h : on_expect c s yes no = .ok a r) :
    (∃ (ws : Blanks) (t : Bytes), s = ws.1 ++ c :: t ∧ yes t = .ok a r) ∨
      no (skip_ws s) = .ok a r := by
  obtain ⟨ws, hws⟩ := skip_ws_eq s
  rcases hs : skip_ws s with _ | ⟨b, t⟩
  · simp only [on_expect, expect, hs] at h
    exact .inr h
  · rw [on_expect_of_skip hs] at h
    split_ifs at h with hb
    · subst hb
      exact .inl ⟨ws, t, by rw [← hs]; exact hws, h⟩
    · exact .inr h

end

/-- Blanks in front of the items do not matter, -/
theorem parse_items_skip (n depths k : ℕ) (a : Picojson.Array) (s : Bytes) :
    parse_items (parse_value n depths) k a (skip_ws s) =
      parse_items (parse_value n depths) k a s := by
  have hvalue : parse_value n depths (skip_ws s) = parse_value n depths s := by
    cases n with
    | zero => rfl
    | succ n => simp only [parse_value, skip_ws_idem]
  cases k with
  | zero => rfl
  | succ k => simp only [parse_items, hvalue]

/-- and neither do blanks in front of the members. -/
theorem parse_members_skip (item : Bytes → Parsed Value) (n k : ℕ) (o : Object) (s : Bytes) :
    parse_members item n k o (skip_ws s) = parse_members item n k o s := by
  cases k with
  | zero => rfl
  | succ k => simp only [parse_members, on_expect_skip]

/-- What begins an array that is not empty. -/
theorem Items.text_head (items : Items) :
    ∃ (ws : Blanks) (b : UInt8) (t : Bytes), items.text = ws.1 ++ b :: t ∧ blank b = false ∧
      b ≠ 93 := by
  cases items with
  | last before item after =>
    obtain ⟨b, t, htext, hb⟩ := item.text_head
    exact ⟨before, b, _, by rw [Items.text, htext]; rfl, hb⟩
  | more before item after items =>
    obtain ⟨b, t, htext, hb⟩ := item.text_head
    exact ⟨before, b, _, by rw [Items.text, htext]; rfl, hb⟩

/-- What begins an object that is not empty. -/
theorem Members.text_head (members : Members) :
    ∃ (ws : Blanks) (t : Bytes), members.text = ws.1 ++ 34 :: t := by
  cases members with
  | last key value after =>
    exact ⟨key.before, _, by rw [Members.text, Key.text, List.append_assoc]; rfl⟩
  | more key value after members =>
    exact ⟨key.before, _, by rw [Members.text, Key.text, List.append_assoc]; rfl⟩

/-- A word is read. -/
theorem parse_value_word (n depths : ℕ) (ws : Blanks) (rest : Bytes) :
    parse_value (n + 1) depths (ws.1 ++ (bytes "null" ++ rest)) = .ok .null rest ∧
      parse_value (n + 1) depths (ws.1 ++ (bytes "false" ++ rest)) = .ok (.boolean false) rest ∧
      parse_value (n + 1) depths (ws.1 ++ (bytes "true" ++ rest)) = .ok (.boolean true) rest := by
  have hnull := skip_ws_blanks ws (b := 110) (by decide) (bytes "ull" ++ rest)
  have hfalse := skip_ws_blanks ws (b := 102) (by decide) (bytes "alse" ++ rest)
  have htrue := skip_ws_blanks ws (b := 116) (by decide) (bytes "rue" ++ rest)
  refine ⟨?_, ?_, ?_⟩
  · rw [show bytes "null" ++ rest = 110 :: (bytes "ull" ++ rest) from rfl]
    simp only [parse_value, hnull, if_pos, match_text_append]
    rfl
  · rw [show bytes "false" ++ rest = 102 :: (bytes "alse" ++ rest) from rfl]
    simp only [parse_value, hfalse]
    rw [if_neg (by decide), if_pos trivial, match_text_append]
    rfl
  · rw [show bytes "true" ++ rest = 116 :: (bytes "rue" ++ rest) from rfl]
    simp only [parse_value, htrue]
    rw [if_neg (by decide), if_neg (by decide), if_pos trivial, match_text_append]
    rfl

/-- A string is read, -/
theorem parse_value_string (body : Body) {n depths : ℕ} (ws : Blanks) {rest : Bytes}
    (hn : (body.text ++ rest).length ≤ n) :
    parse_value (n + 1) depths (ws.1 ++ 34 :: (body.text ++ rest)) =
      .ok (.string body.value) rest := by
  simp only [parse_value, skip_ws_blanks ws (b := 34) (by decide)]
  rw [if_neg (by decide), if_neg (by decide), if_neg (by decide), if_pos trivial,
    parse_string_text body [] hn]
  rfl

/-- and so is a number. -/
theorem parse_value_number (num : Numeral) {v : Value} (hv : num.value = some v) {n depths : ℕ}
    (ws : Blanks) {rest : Bytes} (hrest : Stops number_char rest) :
    parse_value (n + 1) depths (ws.1 ++ (num.text ++ rest)) = .ok v rest := by
  obtain ⟨b, t, htext, hb⟩ := num.text_begins
  obtain ⟨hblank, hn, hf, ht, hquote, hbracket, hbrace, -⟩ := Begins.other ⟨b, t, rfl, hb⟩
  have hnumber := parse_number_text num hrest
  have hdigit : (isdigit b || b = 45) = true := by
    rcases hb with hb | rfl
    · rw [hb, Bool.true_or]
    · decide
  rw [htext, List.cons_append] at hnumber ⊢
  simp only [parse_value, skip_ws_blanks ws hblank]
  rw [if_neg hn, if_neg hf, if_neg ht, if_neg hquote, if_neg hbracket, if_neg hbrace,
    if_pos hdigit, hnumber, hv, Option.elim_some]

/-- What an opening bracket leads to. -/
theorem parse_value_bracket (n depths : ℕ) (ws : Blanks) (s : Bytes) :
    parse_value (n + 1) (depths + 1) (ws.1 ++ 91 :: s) =
      on_expect 93 s (fun r => .ok (.array []) r) fun r =>
        parse_items (parse_value n depths) n [] r := by
  simp only [parse_value, skip_ws_blanks ws (b := 91) (by decide)]
  rw [if_neg (by decide), if_neg (by decide), if_neg (by decide), if_neg (by decide), if_pos trivial,
    if_neg (Nat.succ_ne_zero _), Nat.add_sub_cancel]

/-- What an opening brace leads to. -/
theorem parse_value_brace {n depths : ℕ} (hdepths : depths ≠ 0) (ws : Blanks) (s : Bytes) :
    parse_value (n + 1) depths (ws.1 ++ 123 :: s) =
      on_expect 125 s (fun r => .ok (.object []) r) fun r =>
        parse_members (parse_value n depths) n n [] r := by
  simp only [parse_value, skip_ws_blanks ws (b := 123) (by decide)]
  rw [if_neg (by decide), if_neg (by decide), if_neg (by decide), if_neg (by decide),
    if_neg (by decide), if_pos trivial, if_neg hdepths]

/-- An item is followed by the next one or by the end. -/
theorem parse_items_step {n depths k : ℕ} {a : Picojson.Array} {s t : Bytes} {v : Value}
    {ws : Blanks} (hitem : parse_value n depths s = .ok v (ws.1 ++ t)) :
    (∀ r, t = 44 :: r → parse_items (parse_value n depths) (k + 1) a s =
      parse_items (parse_value n depths) k (a ++ [v]) r) ∧
    (∀ r, t = 93 :: r → parse_items (parse_value n depths) (k + 1) a s =
      .ok (.array (a ++ [v])) r) := by
  refine ⟨?_, ?_⟩ <;> rintro r rfl <;> simp only [parse_items, hitem, Parsed.bind]
  · exact on_expect_hit ws (by decide) r
  · rw [on_expect_miss ws (by decide) (by decide), on_expect_self (by decide)]

/-- A name leads to its value. -/
theorem parse_members_step {item : Bytes → Parsed Value} {n k : ℕ} {o : Object} (key : Key)
    {s t : Bytes} {v : Value} {ws : Blanks} (hitem : item (key.next.1 ++ s) = .ok v (ws.1 ++ t))
    (hn : (key.text ++ s).length ≤ n) :
    (∀ r, t = 44 :: r → parse_members item n (k + 1) o (key.text ++ s) =
      parse_members item n k (Object.insert key.body.value v o) r) ∧
    (∀ r, t = 125 :: r → parse_members item n (k + 1) o (key.text ++ s) =
      .ok (.object (Object.insert key.body.value v o)) r) := by
  have htext : key.text ++ s =
      key.before.1 ++ 34 :: (key.body.text ++ (key.after.1 ++ 58 :: (key.next.1 ++ s))) := by
    simp only [Key.text, List.append_assoc, List.cons_append]
  have hbody : (key.body.text ++ (key.after.1 ++ 58 :: (key.next.1 ++ s))).length ≤ n := by
    rw [htext, List.length_append, List.length_cons] at hn
    omega
  refine ⟨?_, ?_⟩ <;> rintro r rfl <;> rw [htext] <;>
    simp only [parse_members, on_expect_hit _ (c := 34) (by decide), parse_string_text _ [] hbody,
      Parsed.bind, on_expect_hit _ (c := 58) (by decide), hitem, List.nil_append]
  · exact on_expect_hit ws (by decide) r
  · rw [on_expect_miss ws (by decide) (by decide), on_expect_self (by decide)]

mutual

/-- A value that is written is read. -/
theorem Doc.read : ∀ (doc : Doc) {n depths : ℕ} (ws : Blanks) {rest : Bytes}, doc.Ends rest →
    doc.need ≤ depths → (doc.text ++ rest).length ≤ n →
    parse_value (n + 1) depths (ws.1 ++ (doc.text ++ rest)) = .ok doc.value rest
  | .null, n, depths, ws, rest, _, _, _ => (parse_value_word n depths ws rest).1
  | .boolean false, n, depths, ws, rest, _, _, _ => (parse_value_word n depths ws rest).2.1
  | .boolean true, n, depths, ws, rest, _, _, _ => (parse_value_word n depths ws rest).2.2
  | .number num _ hv, _, _, ws, _, hends, _, _ => parse_value_number num hv.value_eq ws hends
  | .string body, _, _, ws, _, _, _, hn => parse_value_string body ws (Nat.le_of_succ_le hn)
  | .empty_array inside, n, depths + 1, ws, rest, _, _, _ => by
    rw [Doc.text, List.cons_append, parse_value_bracket, List.append_assoc]
    exact on_expect_hit inside (by decide) rest
  | .array items, n, depths + 1, ws, rest, _, hneed, hn => by
    obtain ⟨before, b, t, htext, hb, hclose⟩ := items.text_head
    have hsplit : items.text ++ rest = before.1 ++ b :: (t ++ rest) := by
      rw [htext, List.append_assoc, List.cons_append]
    have hitems := items.read (a := []) (Nat.le_of_succ_le_succ hneed) hn hn
    rw [Doc.text, List.cons_append, parse_value_bracket, hsplit, on_expect_miss before hb hclose,
      ← skip_ws_blanks before hb, ← hsplit, parse_items_skip, hitems]
    rfl
  | .empty_object inside, n, depths + 1, ws, rest, _, _, _ => by
    rw [Doc.text, List.cons_append, parse_value_brace (Nat.succ_ne_zero _), List.append_assoc]
    exact on_expect_hit inside (by decide) rest
  | .object members, n, depths + 1, ws, rest, _, hneed, hn => by
    obtain ⟨before, t, htext⟩ := members.text_head
    have hsplit : members.text ++ rest = before.1 ++ 34 :: (t ++ rest) := by
      rw [htext, List.append_assoc, List.cons_append]
    have hmembers := members.read (o := []) (Nat.max_le.mp hneed).2 hn hn
    rw [Doc.text, List.cons_append, parse_value_brace (Nat.succ_ne_zero _), hsplit,
      on_expect_miss before (by decide) (by decide), ← skip_ws_blanks before (by decide), ← hsplit,
      parse_members_skip, hmembers]
    rfl
  | .object members, n, 0, ws, rest, _, hneed, hn =>
    absurd (Nat.max_le.mp hneed).1 (by decide)

/-- The items that are written are read. -/
theorem Items.read : ∀ (items : Items) {n depths k : ℕ} {a : Picojson.Array} {rest : Bytes},
    items.need ≤ depths → (items.text ++ rest).length < n → (items.text ++ rest).length < k →
    parse_items (parse_value n depths) k a (items.text ++ rest) =
      .ok (.array (a ++ items.values)) rest
  | _, _, _, 0, _, _, _, _, hk => absurd hk (Nat.not_lt_zero _)
  | _, 0, _, _, _, _, _, hn, _ => absurd hn (Nat.not_lt_zero _)
  | .last before item after, n + 1, depths, k + 1, a, rest, hneed, hn, hk => by
    have htext : (Items.last before item after).text ++ rest =
        before.1 ++ (item.text ++ (after.1 ++ 93 :: rest)) := by
      simp only [Items.text, List.append_assoc, List.singleton_append]
    rw [htext] at hn ⊢
    rw [List.length_append] at hn
    have hends := item.ends_of_stops (stops_blanks after (c := 93) (by decide) rest)
    have hitem := item.read before hends hneed (n := n) (by omega)
    exact (parse_items_step hitem).2 rest rfl
  | .more before item after items, n + 1, depths, k + 1, a, rest, hneed, hn, hk => by
    have htext : (Items.more before item after items).text ++ rest =
        before.1 ++ (item.text ++ (after.1 ++ 44 :: (items.text ++ rest))) := by
      simp only [Items.text, List.append_assoc, List.cons_append]
    rw [htext] at hn hk ⊢
    have hitem := item.read before
      (item.ends_of_stops (stops_blanks after (c := 44) (by decide) (items.text ++ rest)))
      (Nat.max_le.mp hneed).1 (n := n) (by rw [List.length_append] at hn; omega)
    simp only [List.length_append, List.length_cons] at hn hk
    rw [(parse_items_step hitem).1 _ rfl, items.read (Nat.max_le.mp hneed).2
      (by rw [List.length_append]; omega) (by rw [List.length_append]; omega), Items.values,
      List.append_assoc, List.singleton_append]

/-- The members that are written are read. -/
theorem Members.read : ∀ (members : Members) {n depths k : ℕ} {o : Object} {rest : Bytes},
    members.need ≤ depths → (members.text ++ rest).length < n →
    (members.text ++ rest).length < k →
    parse_members (parse_value n depths) n k o (members.text ++ rest) =
      .ok (.object (members.enter o)) rest
  | _, _, _, 0, _, _, _, _, hk => absurd hk (Nat.not_lt_zero _)
  | _, 0, _, _, _, _, _, hn, _ => absurd hn (Nat.not_lt_zero _)
  | .last key value after, n + 1, depths, k + 1, o, rest, hneed, hn, hk => by
    have htext : (Members.last key value after).text ++ rest =
        key.text ++ (value.text ++ (after.1 ++ 125 :: rest)) := by
      simp only [Members.text, List.append_assoc, List.singleton_append]
    rw [htext] at hn ⊢
    have hvalue := value.read key.next
      (value.ends_of_stops (stops_blanks after (c := 125) (by decide) rest)) hneed (n := n)
      (by rw [List.length_append] at hn; omega)
    exact (parse_members_step key hvalue (Nat.le_of_lt hn)).2 rest rfl
  | .more key value after members, n + 1, depths, k + 1, o, rest, hneed, hn, hk => by
    have htext : (Members.more key value after members).text ++ rest =
        key.text ++ (value.text ++ (after.1 ++ 44 :: (members.text ++ rest))) := by
      simp only [Members.text, List.append_assoc, List.cons_append]
    rw [htext] at hn hk ⊢
    have hvalue := value.read key.next
      (value.ends_of_stops (stops_blanks after (c := 44) (by decide) (members.text ++ rest)))
      (Nat.max_le.mp hneed).1 (n := n) (by rw [List.length_append] at hn; omega)
    rw [(parse_members_step key hvalue (Nat.le_of_lt hn)).1 _ rfl]
    simp only [List.length_append, List.length_cons] at hn hk
    exact members.read (Nat.max_le.mp hneed).2 (by rw [List.length_append]; omega)
      (by rw [List.length_append]; omega)

end

/-! ## What is read is written -/

/-- The text begins with a value that takes no more than this depth, and goes on with `r`. -/
def Written (depths : ℕ) (s : Bytes) (v : Value) (r : Bytes) : Prop :=
  ∃ (ws : Blanks) (doc : Doc), s = ws.1 ++ (doc.text ++ r) ∧ doc.Ends r ∧ doc.need ≤ depths ∧
    doc.value = v

/-- The items that are read are written, if a value that is read is. -/
theorem parse_items_eq_ok {item : Bytes → Parsed Value} {depths : ℕ}
    (hitem : ∀ {s v r}, item s = .ok v r → Written depths s v r) {k : ℕ} {a : Picojson.Array}
    {s r : Bytes} {v : Value} (h : parse_items item k a s = .ok v r) :
    ∃ items : Items, s = items.text ++ r ∧ items.need ≤ depths ∧
      v = .array (a ++ items.values) := by
  induction k generalizing a s with
  | zero => exact absurd h nofun
  | succ k ih =>
    obtain ⟨w, t, hw, hcomma⟩ := Parsed.bind_eq_ok.mp h
    obtain ⟨before, doc, hs, -, hneed, rfl⟩ := hitem hw
    -- a comma goes on, a bracket ends the array
    obtain ⟨after, t', ht, hrest⟩ | hclose := on_expect_eq_ok hcomma
    · obtain ⟨items, rfl, hmore, rfl⟩ := ih hrest
      refine ⟨.more before doc after items, ?_, Nat.max_le.mpr ⟨hneed, hmore⟩, ?_⟩
      · rw [hs, ht]
        simp only [Items.text, List.append_assoc, List.cons_append]
      · rw [Items.values, List.append_assoc, List.singleton_append]
    · rw [on_expect_skip] at hclose
      obtain ⟨after, t', ht, hend⟩ | hfail := on_expect_eq_ok hclose
      · obtain ⟨rfl, rfl⟩ := Parsed.ok.inj hend
        refine ⟨.last before doc after, ?_, hneed, rfl⟩
        rw [hs, ht]
        simp only [Items.text, List.append_assoc, List.singleton_append]
      · exact absurd hfail nofun

/-- The members that are read are written, if a value that is read is. -/
theorem parse_members_eq_ok {item : Bytes → Parsed Value} {depths : ℕ}
    (hitem : ∀ {s v r}, item s = .ok v r → Written depths s v r) {n k : ℕ} {o : Object}
    {s r : Bytes} {v : Value} (h : parse_members item n k o s = .ok v r) :
    ∃ members : Members, s = members.text ++ r ∧ members.need ≤ depths ∧
      v = .object (members.enter o) := by
  induction k generalizing o s with
  | zero => exact absurd h nofun
  | succ k ih =>
    obtain ⟨before, t₁, hs, hquote⟩ | hfail := on_expect_eq_ok h
    swap
    · exact absurd hfail nofun
    -- name, colon and value, in this order
    obtain ⟨name, t₂, hname, hcolon⟩ := Parsed.bind_eq_ok.mp hquote
    obtain ⟨body, ht₁, rfl⟩ := parse_string_eq_ok hname
    obtain ⟨colon, t₃, ht₂, hvalue⟩ | hfail := on_expect_eq_ok hcolon
    swap
    · exact absurd hfail nofun
    obtain ⟨w, t₄, hw, hcomma⟩ := Parsed.bind_eq_ok.mp hvalue
    obtain ⟨next, doc, ht₃, -, hneed, rfl⟩ := hitem hw
    obtain ⟨after, t', ht₄, hrest⟩ | hclose := on_expect_eq_ok hcomma
    · obtain ⟨members, rfl, hmore, rfl⟩ := ih hrest
      refine ⟨.more ⟨before, body, colon, next⟩ doc after members, ?_,
        Nat.max_le.mpr ⟨hneed, hmore⟩, rfl⟩
      rw [hs, ht₁, ht₂, ht₃, ht₄]
      simp only [Members.text, Key.text, List.append_assoc, List.cons_append]
    · rw [on_expect_skip] at hclose
      obtain ⟨after, t', ht₄, hend⟩ | hfail := on_expect_eq_ok hclose
      · obtain ⟨rfl, rfl⟩ := Parsed.ok.inj hend
        refine ⟨.last ⟨before, body, colon, next⟩ doc after, ?_, hneed, rfl⟩
        rw [hs, ht₁, ht₂, ht₃, ht₄]
        simp only [Members.text, Key.text, List.append_assoc, List.cons_append, List.nil_append]
      · exact absurd hfail nofun

/-- A value that is read is written. -/
theorem parse_value_eq_ok {n depths : ℕ} {s r : Bytes} {v : Value}
    (h : parse_value n depths s = .ok v r) : Written depths s v r := by
  induction n generalizing depths s v r with
  | zero => cases h
  | succ n ih =>
    obtain ⟨ws, hws⟩ := skip_ws_eq s
    rw [hws]
    simp only [parse_value] at h
    rcases hs : skip_ws s with _ | ⟨ch, t⟩ <;> simp only [hs] at h
    · cases h
    -- one case for each first character that `_parse` knows
    split_ifs at h with hn hf ht hquote hbracket hdepth hbrace hdepth hnumber
    · obtain ⟨u, t', hmatch, hend⟩ := Parsed.bind_eq_ok.mp h
      obtain ⟨rfl, rfl⟩ := Parsed.ok.inj hend
      rw [match_text_eq_ok.mp hmatch, hn]
      exact ⟨ws, .null, rfl, trivial, Nat.zero_le _, rfl⟩
    · obtain ⟨u, t', hmatch, hend⟩ := Parsed.bind_eq_ok.mp h
      obtain ⟨rfl, rfl⟩ := Parsed.ok.inj hend
      rw [match_text_eq_ok.mp hmatch, hf]
      exact ⟨ws, .boolean false, rfl, trivial, Nat.zero_le _, rfl⟩
    · obtain ⟨u, t', hmatch, hend⟩ := Parsed.bind_eq_ok.mp h
      obtain ⟨rfl, rfl⟩ := Parsed.ok.inj hend
      rw [match_text_eq_ok.mp hmatch, ht]
      exact ⟨ws, .boolean true, rfl, trivial, Nat.zero_le _, rfl⟩
    · obtain ⟨out, t', hstring, hend⟩ := Parsed.bind_eq_ok.mp h
      obtain ⟨rfl, rfl⟩ := Parsed.ok.inj hend
      obtain ⟨body, hbody, rfl⟩ := parse_string_eq_ok hstring
      rw [hquote, hbody]
      exact ⟨ws, .string body, rfl, trivial, Nat.zero_le _, rfl⟩
    · rw [hbracket]
      obtain ⟨inside, t', ht, hend⟩ | hitems := on_expect_eq_ok h
      · obtain ⟨rfl, rfl⟩ := Parsed.ok.inj hend
        refine ⟨ws, .empty_array inside, ?_, trivial, Nat.pos_of_ne_zero hdepth, rfl⟩
        rw [ht]
        simp only [Doc.text, List.append_assoc, List.cons_append, List.nil_append]
      · rw [parse_items_skip] at hitems
        obtain ⟨items, ht, hneed, rfl⟩ := parse_items_eq_ok ih hitems
        refine ⟨ws, .array items, by rw [ht]; rfl, trivial, ?_, rfl⟩
        rw [Doc.need]
        omega
    · rw [hbrace]
      obtain ⟨inside, t', ht, hend⟩ | hmembers := on_expect_eq_ok h
      · obtain ⟨rfl, rfl⟩ := Parsed.ok.inj hend
        refine ⟨ws, .empty_object inside, ?_, trivial, Nat.pos_of_ne_zero hdepth, rfl⟩
        rw [ht]
        simp only [Doc.text, List.append_assoc, List.cons_append, List.nil_append]
      · rw [parse_members_skip] at hmembers
        obtain ⟨members, ht, hneed, rfl⟩ := parse_members_eq_ok ih hmembers
        exact ⟨ws, .object members, by rw [ht]; rfl, trivial,
          Nat.max_le.mpr ⟨Nat.pos_of_ne_zero hdepth, hneed⟩, rfl⟩
    · have hbegins : Begins (ch :: t) :=
        ⟨ch, t, rfl, by simpa only [Bool.or_eq_true, decide_eq_true_eq] using hnumber⟩
      obtain ⟨num, hnum, hv, hends⟩ := parse_number_eq_ok hbegins h
      rw [hnum]
      exact ⟨ws, .number num v ⟨hv⟩, rfl, hends, Nat.zero_le _, rfl⟩

/-- A document that is read is written. -/
theorem written_of_parse {s : Bytes} {v : Value} (h : parse s = .value v) :
    ∃ rest, Written default_max_depths s v rest := by
  unfold parse at h
  rcases hs : parse_value (s.length + 1) default_max_depths s with ⟨w, r⟩ | _ | _ | _ <;>
    rw [hs] at h
  · obtain rfl := ParseResult.value.inj h
    exact ⟨r, parse_value_eq_ok hs⟩
  all_goals exact absurd h nofun

/-- A document that is written is read. -/
theorem parse_of_written (ws : Blanks) {doc : Doc} {rest : Bytes} (hends : doc.Ends rest)
    (hneed : doc.need ≤ default_max_depths) :
    parse (ws.1 ++ (doc.text ++ rest)) = .value doc.value := by
  unfold parse
  rw [doc.read ws hends hneed (by simp only [List.length_append]; omega)]

/-- **The parser accepts what is written, and returns what it says.** -/
theorem parse_eq_value_iff (s : Bytes) (v : Value) :
    parse s = .value v ↔
      ∃ (ws : Blanks) (doc : Doc) (rest : Bytes), s = ws.1 ++ (doc.text ++ rest) ∧
        doc.Ends rest ∧ doc.need ≤ default_max_depths ∧ doc.value = v := by
  constructor
  · intro h
    obtain ⟨rest, ws, doc, hdoc⟩ := written_of_parse h
    exact ⟨ws, doc, rest, hdoc⟩
  · rintro ⟨ws, doc, rest, rfl, hends, hneed, rfl⟩
    exact parse_of_written ws hends hneed

/-! ## Members

An object keeps its members in the order of their names and one member of a name, which is the
last one in the text. -/

/-- The members of an object, in the order of the text. -/
def Members.listed : Members → List (Bytes × Value)
  | .last key value _ => [(key.body.value, value.value)]
  | .more key value _ members => (key.body.value, value.value) :: members.listed

/-- The members of a value, in the order of the text. -/
def Doc.listed : Doc → List (Bytes × Value)
  | .object members => members.listed
  | _ => []

theorem Members.enter_eq_foldl : ∀ (members : Members) (o : Object),
    members.enter o = members.listed.foldl (fun o m => Object.insert m.1 m.2 o) o
  | .last _ _ _, _ => rfl
  | .more _ _ _ members, _ => members.enter_eq_foldl _

theorem insert_names (key : Bytes) (v : Value) (o : Object) :
    (Object.insert key v o).map Prod.fst = insert_sorted key (o.map Prod.fst) := by
  induction o with
  | nil => rfl
  | cons m o ih =>
    simp only [Object.insert, List.map_cons, insert_sorted]
    split_ifs with hlt heq
    · rfl
    · rfl
    · rw [List.map_cons, ih]

theorem find_cons (name : Bytes) (m : Bytes × Value) (o : Object) :
    Object.find (m :: o) name = if name = m.1 then some m.2 else Object.find o name := by
  unfold Object.find
  rw [List.lookup_cons]
  by_cases hname : name = m.1
  · rw [if_pos hname, beq_iff_eq.mpr hname]
  · rw [if_neg hname, beq_eq_false_iff_ne.mpr hname]

/-- What is entered is found, and nothing else is lost. -/
theorem find_insert (key name : Bytes) (v : Value) (o : Object) :
    Object.find (Object.insert key v o) name =
      if name = key then some v else Object.find o name := by
  induction o with
  | nil => rw [Object.insert, find_cons]
  | cons m o ih =>
    rw [Object.insert]
    -- before `m`, at `m` or behind it
    by_cases hlt : key < m.1
    · rw [if_pos hlt]
      exact find_cons name (key, v) (m :: o)
    · rw [if_neg hlt, find_cons]
      by_cases hkey : key = m.1
      · rw [if_pos hkey, find_cons, hkey]
        split_ifs <;> rfl
      · rw [if_neg hkey, find_cons, ih]
        by_cases hname : name = m.1
        · rw [if_pos hname, if_pos hname, if_neg (fun h => hkey (h.symm.trans hname))]
        · rw [if_neg hname, if_neg hname]

/-- Of the members that are entered the last one of a name counts. -/
theorem find_foldl (listed : List (Bytes × Value)) (o : Object) (name : Bytes) :
    Object.find (listed.foldl (fun o m => Object.insert m.1 m.2 o) o) name =
      (Object.find listed.reverse name).or (Object.find o name) := by
  induction listed generalizing o with
  | nil => rfl
  | cons m listed ih =>
    have hlast : Object.find (listed.reverse ++ [m]) name =
        (Object.find listed.reverse name).or (if name = m.1 then some m.2 else none) := by
      unfold Object.find
      rw [List.lookup_append]
      exact congrArg _ (find_cons name m [])
    rw [List.foldl_cons, ih, List.reverse_cons, hlast, find_insert, Option.or_assoc]
    congr 1
    split_ifs <;> rfl

/-- The names of what is entered are in order. -/
theorem names_foldl (listed : List (Bytes × Value)) {o : Object}
    (ho : (o.map Prod.fst).Pairwise (· < ·)) :
    ((listed.foldl (fun o m => Object.insert m.1 m.2 o) o).map Prod.fst).Pairwise (· < ·) := by
  induction listed generalizing o with
  | nil => exact ho
  | cons m listed ih =>
    refine ih ?_
    rw [insert_names]
    exact insert_sorted_pairwise m.1 ho

/-- **The last member of a name counts.** -/
theorem parsed_object_find {s : Bytes} {o : Object} (h : parse s = .value (.object o)) :
    (o.map Prod.fst).Pairwise (· < ·) ∧
      ∃ (ws : Blanks) (doc : Doc) (rest : Bytes), s = ws.1 ++ (doc.text ++ rest) ∧
        ∀ name, Object.find o name = Object.find doc.listed.reverse name := by
  obtain ⟨rest, ws, doc, htext, -, -, hvalue⟩ := written_of_parse h
  cases doc with
  | object members =>
    obtain rfl := Value.object.inj hvalue
    rw [Members.enter_eq_foldl]
    refine ⟨names_foldl _ List.Pairwise.nil, ws, .object members, rest, htext, fun name => ?_⟩
    rw [find_foldl]
    exact Option.or_none
  | empty_object inside =>
    obtain rfl := Value.object.inj hvalue
    exact ⟨List.Pairwise.nil, ws, .empty_object inside, rest, htext, fun name => rfl⟩
  | number n v hv =>
    have hn := hv.value_eq
    rw [show v = .object o from hvalue] at hn
    exact absurd hn n.value_ne_object
  | _ => exact absurd hvalue nofun

theorem parsed_object_find_twice :
    parse (bytes "\x7b\"iss\": \"a\", \"\\u0069ss\": \"b\"\x7d") =
        .value (.object [(bytes "iss", .string (bytes "b"))]) ∧
      ([(bytes "iss", Value.string (bytes "b"))].map Prod.fst).Pairwise (· < ·) := by
  have h : parse (bytes "\x7b\"iss\": \"a\", \"\\u0069ss\": \"b\"\x7d") =
      .value (.object [(bytes "iss", .string (bytes "b"))]) := rfl
  exact ⟨h, (parsed_object_find h).1⟩

end OidcValidator.Json
