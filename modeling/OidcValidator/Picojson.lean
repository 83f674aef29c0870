/-
`Picojson.lean` -- the JSON layer: `picojson::value`, `to_str`, and the parser.

The parser is modelled function by function, with the two things that are easy to
lose: it stops at the end of the first value without looking at what follows, and
it reads NUL like any other character, so where a NUL may stand in an accepted
text is a theorem rather than a convention ([`parse_c_str`]).

A `picojson::object` is a `std::map`, kept here as a list of members with strictly
increasing keys; the parser only ever builds one through [`Object.insert`].
-/
import OidcValidator.Number

set_option autoImplicit false

namespace OidcValidator.Picojson

open OidcValidator.ByteString OidcValidator.Number

/-! ## Values -/

/-- `picojson::value`, with `PICOJSON_USE_INT64`. An `int64` that comes out of the parser
is in range because `strtoimax` checked it. -/
inductive Value where
  | null
  | boolean (b : Bool)
  | number (x : Double)
  | string (s : Bytes)
  | array (a : List Value)
  | object (o : List (Bytes × Value))
  | int64 (i : ℤ)

/-- `picojson::array`. -/
abbrev Array := List Value

/-- `picojson::object`, a `std::map<std::string, value>`. -/
abbrev Object := List (Bytes × Value)

/-- `o.find(key)`; `o.contains(key)` and `o.at(key)` are its two halves. -/
def Object.find (o : Object) (key : Bytes) : Option Value := o.lookup key

/-- `o[key] = v`. A key that is already there keeps its place and gets the new value, so
of two members with one name the later one counts. -/
def Object.insert (key : Bytes) (v : Value) : Object → Object
  | [] => [(key, v)]
  | (k, w) :: o =>
      if key < k then (key, v) :: (k, w) :: o
      else if key = k then (k, v) :: o
      else (k, w) :: Object.insert key v o

/-- `value::to_str`. -/
def Value.to_str : Value → Bytes
  | .null => bytes "null"
  | .boolean b => if b then bytes "true" else bytes "false"
  | .int64 i => dec_int i
  | .number x => x.text
  | .string s => s
  | .array _ => bytes "array"
  | .object _ => bytes "object"

/-- The texts that stand for a kind of value. -/
def kind_texts : List Bytes :=
  [bytes "null", bytes "true", bytes "false", bytes "array", bytes "object"]

theorem not_numeric_of_mem_kind_texts {s : Bytes} (h : s ∈ kind_texts) :
    s.all numeric = false := by
  simp only [kind_texts, List.mem_cons, List.not_mem_nil, or_false] at h
  rcases h with rfl | rfl | rfl | rfl | rfl <;> rfl

/-- A text that is neither a number nor one of the kinds is the text of a string only. -/
theorem Value.eq_string_of_to_str {v : Value} {s : Bytes} (h : v.to_str = s)
    (hn : s.all numeric = false) (hk : s ∉ kind_texts) : v = .string s := by
  subst h
  cases v with
  | null => exact absurd (by simp [kind_texts, Value.to_str]) hk
  | boolean b => cases b <;> exact absurd (by simp [kind_texts, Value.to_str]) hk
  | int64 i =>
    rw [Value.to_str, dec_int_numeric] at hn
    exact absurd hn (by decide)
  | number x =>
    rw [Value.to_str, Double.text_numeric] at hn
    exact absurd hn (by decide)
  | string t => rfl
  | array a => exact absurd (by simp [kind_texts, Value.to_str]) hk
  | object o => exact absurd (by simp [kind_texts, Value.to_str]) hk

/-! ## The input

`picojson::input` is a position in the text and a flag saying whether the character
at that position has been handed out. A function that succeeds leaves the text behind
the last character it handed out; a function that fails leaves the position and the
flag, because the error message starts reading there. -/

/-- What a parsing function comes back with. `overflow` is the `std::overflow_error` of
`value(double)`; `fuel` is not an outcome of the source and never an outcome of
[`parse`] either ([`parse_value_ne_fuel`]). -/
inductive Parsed (α : Type) where
  | ok (a : α) (rest : Bytes)
  | fail (cur : Bytes) (consumed : Bool)
  | overflow
  | fuel

/-- Continue after a success. -/
def Parsed.bind {α β : Type} : Parsed α → (α → Bytes → Parsed β) → Parsed β
  | .ok a rest, f => f a rest
  | .fail cur consumed, _ => .fail cur consumed
  | .overflow, _ => .overflow
  | .fuel, _ => .fuel

/-- `input::skip_ws`. -/
def skip_ws (s : Bytes) : Bytes := s.dropWhile (fun b => b = 32 || b = 9 || b = 10 || b = 13)

/-- `input::expect`: skip whitespace, then take the character if it is the expected
one. -/
def expect (c : UInt8) (s : Bytes) : Bool × Bytes :=
  match skip_ws s with
  | [] => (false, [])
  | b :: t => if b = c then (true, t) else (false, b :: t)

/-- Branch on an `expect`; either way the position has moved past the whitespace. -/
def on_expect {α : Type} (c : UInt8) (s : Bytes) (yes no : Bytes → Parsed α) : Parsed α :=
  match expect c s with
  | (true, t) => yes t
  | (false, t) => no t

/-- `return false` after an `ungetc`. -/
def fail_at {α : Type} (s : Bytes) : Parsed α := .fail s false

/-- `input::match`. -/
def match_text : Bytes → Bytes → Parsed Unit
  | [], s => .ok () s
  | _ :: _, [] => .fail [] false
  | p :: ps, b :: s => if b = p then match_text ps s else .fail (b :: s) false

/-! ## Strings -/

/-- The value of a hexadecimal digit. -/
def hex_digit (b : UInt8) : Option ℕ :=
  if 48 ≤ b ∧ b ≤ 57 then some (b.toNat - 48)
  else if 65 ≤ b ∧ b ≤ 70 then some (b.toNat - 55)
  else if 97 ≤ b ∧ b ≤ 102 then some (b.toNat - 87)
  else none

/-- `_parse_quadhex`, with `n` digits to go. -/
def parse_quadhex : ℕ → ℕ → Bytes → Parsed ℕ
  | 0, uni_ch, s => .ok uni_ch s
  | _ + 1, _, [] => .fail [] false
  | n + 1, uni_ch, b :: s =>
      match hex_digit b with
      | some h => parse_quadhex n (uni_ch * 16 + h) s
      | none => .fail (b :: s) false

/-- The UTF-8 bytes `_parse_codepoint` pushes for a code point. -/
def push_codepoint (u : ℕ) : Bytes :=
  if u < 0x80 then [UInt8.ofNat u]
  else if u < 0x800 then [UInt8.ofNat (0xc0 + u / 64), UInt8.ofNat (0x80 + u % 64)]
  else if u < 0x10000 then
    [UInt8.ofNat (0xe0 + u / 4096), UInt8.ofNat (0x80 + u / 64 % 64), UInt8.ofNat (0x80 + u % 64)]
  else
    [UInt8.ofNat (0xf0 + u / 262144), UInt8.ofNat (0x80 + u / 4096 % 64),
      UInt8.ofNat (0x80 + u / 64 % 64), UInt8.ofNat (0x80 + u % 64)]

/-- The second half of a surrogate pair, `\uDC00` to `\uDFFF`. A second half that is not
hexadecimal at all fails in the range test, so the position is the quadhex's. -/
def parse_low_surrogate (high : ℕ) : Bytes → Parsed Bytes
  | [] => .fail [] false
  | b :: s =>
      if b ≠ 92 then .fail (b :: s) false
      else
        match s with
        | [] => .fail [] false
        | c :: s =>
            if c ≠ 117 then .fail (c :: s) false
            else
              (parse_quadhex 4 0 s).bind fun second rest =>
                if 0xdc00 ≤ second ∧ second ≤ 0xdfff then
                  .ok (push_codepoint ((high - 0xd800) * 1024 + (second - 0xdc00) + 0x10000)) rest
                else .fail rest false

/-- `_parse_codepoint`. -/
def parse_codepoint (s : Bytes) : Parsed Bytes :=
  (parse_quadhex 4 0 s).bind fun uni_ch rest =>
    if 0xd800 ≤ uni_ch ∧ uni_ch ≤ 0xdfff then
      if 0xdc00 ≤ uni_ch then .fail rest false else parse_low_surrogate uni_ch rest
    else .ok (push_codepoint uni_ch) rest

/-- The single-character escapes. -/
def escape (b : UInt8) : Option UInt8 :=
  if b = 34 then some 34 else if b = 92 then some 92 else if b = 47 then some 47
  else if b = 98 then some 8 else if b = 102 then some 12 else if b = 110 then some 10
  else if b = 114 then some 13 else if b = 116 then some 9 else none

/-- `_parse_string`, after the opening quote. -/
def parse_string : ℕ → Bytes → Bytes → Parsed Bytes
  | 0, _, _ => .fuel
  | _ + 1, _, [] => .fail [] false
  | n + 1, out, ch :: s =>
      if ch < 32 then .fail (ch :: s) false
      else if ch = 34 then .ok out s
      else if ch = 92 then
        match s with
        | [] => .fail [] false
        | e :: s =>
            match escape e with
            | some c => parse_string n (out ++ [c]) s
            | none =>
                if e = 117 then
                  (parse_codepoint s).bind fun u rest => parse_string n (out ++ u) rest
                else .fail (e :: s) true
      else parse_string n (out ++ [ch]) s

/-! ## Numbers -/

/-- The characters `_parse_number` collects. -/
def number_char (b : UInt8) : Bool := isdigit b || b = 43 || b = 45 || b = 101 || b = 69 || b = 46

/-- The number branch of `_parse`: an `int64` when the whole text is one in range, a
double otherwise. -/
def parse_number (s : Bytes) : Parsed Value :=
  let num_str := s.takeWhile number_char
  let rest := s.dropWhile number_char
  match strtoimax num_str with
  | some i => .ok (.int64 i) rest
  | none =>
      match strtod num_str with
      | .finite x => .ok (.number x) rest
      | .infinite => .overflow
      | .invalid => .fail rest false

/-! ## Arrays, objects, values

The two `do … while (in.expect(','))` loops take the value parser as an argument, so
that `parse_value` is a recursion on the fuel alone. -/

/-- The item loop of `_parse_array`. -/
def parse_items (item : Bytes → Parsed Value) : ℕ → Array → Bytes → Parsed Value
  | 0, _, _ => .fuel
  | k + 1, a, s =>
      (item s).bind fun v s =>
        on_expect 44 s (fun s => parse_items item k (a ++ [v]) s) fun s =>
          on_expect 93 s (fun s => .ok (.array (a ++ [v])) s) fail_at

/-- The member loop of `_parse_object`. -/
def parse_members (item : Bytes → Parsed Value) (n : ℕ) : ℕ → Object → Bytes → Parsed Value
  | 0, _, _ => .fuel
  | k + 1, o, s =>
      on_expect 34 s (fun s =>
        (parse_string n [] s).bind fun key s =>
          on_expect 58 s (fun s =>
            (item s).bind fun v s =>
              on_expect 44 s (fun s => parse_members item n k (Object.insert key v o) s) fun s =>
                on_expect 125 s (fun s => .ok (.object (Object.insert key v o)) s) fail_at)
          fail_at)
      fail_at

/-- `_parse` with a `default_parse_context` of the given depth. Arrays count against the
depth, objects only need it to be positive. -/
def parse_value : ℕ → ℕ → Bytes → Parsed Value
  | 0, _, _ => .fuel
  | n + 1, depths, s =>
      match skip_ws s with
      | [] => .fail [] false
      | ch :: t =>
          if ch = 110 then (match_text (bytes "ull") t).bind fun _ r => .ok .null r
          else if ch = 102 then (match_text (bytes "alse") t).bind fun _ r => .ok (.boolean false) r
          else if ch = 116 then (match_text (bytes "rue") t).bind fun _ r => .ok (.boolean true) r
          else if ch = 34 then (parse_string n [] t).bind fun out r => .ok (.string out) r
          else if ch = 91 then
            if depths = 0 then .fail (ch :: t) true
            else
              on_expect 93 t (fun r => .ok (.array []) r) fun r =>
                parse_items (parse_value n (depths - 1)) n [] r
          else if ch = 123 then
            if depths = 0 then .fail (ch :: t) true
            else
              on_expect 125 t (fun r => .ok (.object []) r) fun r =>
                parse_members (parse_value n depths) n n [] r
          else if isdigit ch || ch = 45 then parse_number (ch :: t)
          else .fail (ch :: t) false

/-- `DEFAULT_MAX_DEPTHS`. -/
def default_max_depths : ℕ := 100

/-- What `picojson::parse(out, s)` does: set `out` and return an empty error, return an
error text, or throw. -/
inductive ParseResult where
  | value (v : Value)
  | error (err : Bytes)
  | overflow_error

/-- The message `_parse` leaves in `*err`. -/
def error_text (s cur : Bytes) (consumed : Bool) : Bytes :=
  bytes "syntax error at line " ++ dec (1 + (s.take (s.length - cur.length)).count 10)
    ++ bytes " near: "
    ++ ((if consumed then cur.drop 1 else cur).takeWhile (· ≠ 10)).filter (32 ≤ ·)

/-- `picojson::parse(value &out, const std::string &s)`. What stands behind the first
value is not looked at. -/
def parse (s : Bytes) : ParseResult :=
  match parse_value (s.length + 1) default_max_depths s with
  | .ok v _ => .value v
  | .fail cur consumed => .error (error_text s cur consumed)
  | .overflow => .overflow_error
  | .fuel => .error []

/-! ## NUL in an accepted text

NUL is not whitespace, no token starts with it, and inside a string it is a control
character; a number ends at it just as it ends at the end of the text. So an accepted
text has no NUL up to the end of its value, and cutting it at its first NUL changes
nothing. Each parsing function is shown to have this property from the ones it calls. -/

theorem Parsed.bind_eq_ok {α β : Type} {p : Parsed α} {f : α → Bytes → Parsed β} {b : β}
    {r : Bytes} : p.bind f = .ok b r ↔ ∃ a s, p = .ok a s ∧ f a s = .ok b r := by
  cases p <;> simp [Parsed.bind]

/-- What `p` accepts, it accepts with the same result when the text is cut at its first
NUL. -/
def NulSafe {α : Type} (p : Bytes → Parsed α) : Prop :=
  ∀ s a r, p s = .ok a r → p (c_str s) = .ok a (c_str r)

theorem NulSafe.bind_apply {α β : Type} {p : Bytes → Parsed α} {f : α → Bytes → Parsed β}
    (hp : NulSafe p) (hf : ∀ a, NulSafe (f a)) : NulSafe (fun s => (p s).bind f) := by
  intro s b r h
  obtain ⟨a, t, hps, hfa⟩ := Parsed.bind_eq_ok.mp h
  exact Parsed.bind_eq_ok.mpr ⟨a, c_str t, hp s a t hps, hf a t b r hfa⟩

theorem dropWhile_c_str {p : UInt8 → Bool} (hp : p 0 = false) (s : Bytes) :
    (c_str s).dropWhile p = c_str (s.dropWhile p) := by
  induction s with
  | nil => rfl
  | cons b s ih =>
      by_cases hb : b = 0
      · subst hb
        simp [hp]
      · rw [c_str_cons hb, List.dropWhile_cons, List.dropWhile_cons]
        split_ifs
        · exact ih
        · rw [c_str_cons hb]

theorem takeWhile_c_str {p : UInt8 → Bool} (hp : p 0 = false) (s : Bytes) :
    (c_str s).takeWhile p = s.takeWhile p := by
  induction s with
  | nil => rfl
  | cons b s ih =>
      by_cases hb : b = 0
      · subst hb
        simp [hp]
      · rw [c_str_cons hb, List.takeWhile_cons, List.takeWhile_cons, ih]

theorem skip_ws_c_str (s : Bytes) : skip_ws (c_str s) = c_str (skip_ws s) :=
  dropWhile_c_str (by decide) s

theorem NulSafe.ok {α : Type} (a : α) : NulSafe (fun s => Parsed.ok a s) := by
  intro s b r h
  obtain ⟨rfl, rfl⟩ := Parsed.ok.inj h
  rfl

theorem NulSafe.fail_at {α : Type} : NulSafe (fail_at (α := α)) := by
  intro s b r h
  cases h

theorem NulSafe.on_expect {α : Type} {c : UInt8} {yes no : Bytes → Parsed α} (hc : c ≠ 0)
    (hyes : NulSafe yes) (hno : NulSafe no) : NulSafe (fun s => on_expect c s yes no) := by
  intro s a r h
  simp only [Picojson.on_expect, expect] at h ⊢
  rw [skip_ws_c_str]
  cases hs : skip_ws s with
  | nil =>
      rw [hs] at h
      exact hno [] a r h
  | cons b t =>
      rw [hs] at h
      by_cases hb : b = 0
      · -- the text before the NUL ends here, and so does the token
        subst hb
        simp only [if_neg (Ne.symm hc)] at h
        exact hno (0 :: t) a r h
      · rw [c_str_cons hb]
        by_cases hbc : b = c
        · simp only [if_pos hbc] at h ⊢
          exact hyes t a r h
        · simp only [if_neg hbc] at h ⊢
          rw [← c_str_cons hb]
          exact hno (b :: t) a r h

theorem match_text_nulSafe {ps : Bytes} (hps : 0 ∉ ps) : NulSafe (match_text ps) := by
  intro s a r h
  induction ps generalizing s with
  | nil =>
      obtain ⟨rfl, rfl⟩ := Parsed.ok.inj h
      rfl
  | cons p ps ih =>
      cases s with
      | nil => cases h
      | cons b s =>
          have hp : p ≠ 0 := fun h => hps (by simp [h])
          simp only [match_text] at h
          split_ifs at h with hb
          subst hb
          rw [c_str_cons hp]
          simp only [match_text, if_pos]
          exact ih (fun h => hps (List.mem_cons_of_mem _ h)) s h

theorem hex_digit_zero : hex_digit 0 = none := by decide

theorem parse_quadhex_nulSafe (n u : ℕ) : NulSafe (parse_quadhex n u) := by
  intro s a r h
  induction n generalizing u s with
  | zero =>
      obtain ⟨rfl, rfl⟩ := Parsed.ok.inj h
      rfl
  | succ n ih =>
      cases s with
      | nil => cases h
      | cons b s =>
          simp only [parse_quadhex] at h
          cases hd : hex_digit b with
          | none => rw [hd] at h; cases h
          | some d =>
              -- a digit is not the zero at which the text is cut
              have hb : b ≠ 0 := by
                rintro rfl
                rw [hex_digit_zero] at hd
                cases hd
              rw [hd] at h
              rw [c_str_cons hb]
              simp only [parse_quadhex, hd]
              exact ih _ s h

theorem parse_low_surrogate_nulSafe (high : ℕ) : NulSafe (parse_low_surrogate high) := by
  intro s a r h
  cases s with
  | nil => cases h
  | cons b s =>
      simp only [parse_low_surrogate] at h
      split_ifs at h with hb
      obtain rfl := not_not.mp hb
      cases s with
      | nil => cases h
      | cons c s =>
          simp only at h
          split_ifs at h with hc
          obtain rfl := not_not.mp hc
          rw [c_str_cons (by decide), c_str_cons (by decide)]
          refine NulSafe.bind_apply (parse_quadhex_nulSafe 4 0) (fun second => ?_) s a r h
          intro t b r' h'
          split_ifs at h' ⊢ with hr
          obtain ⟨rfl, rfl⟩ := Parsed.ok.inj h'
          rfl

theorem parse_codepoint_nulSafe : NulSafe parse_codepoint := by
  refine NulSafe.bind_apply (parse_quadhex_nulSafe 4 0) (fun u => ?_)
  intro s a r h
  split_ifs at h ⊢
  · exact parse_low_surrogate_nulSafe u s a r h
  · obtain ⟨rfl, rfl⟩ := Parsed.ok.inj h
    rfl

theorem parse_string_nulSafe (n : ℕ) (out : Bytes) : NulSafe (parse_string n out) := by
  induction n generalizing out with
  | zero => intro s a r h; cases h
  | succ n ih =>
      intro s a r h
      cases s with
      | nil => cases h
      | cons ch s =>
          simp only [parse_string] at h
          split_ifs at h with h₁ h₂ h₃
          · obtain ⟨rfl, rfl⟩ := Parsed.ok.inj h
            rw [h₂, c_str_cons (by decide)]
            rfl
          · subst h₃
            cases s with
            | nil => cases h
            | cons e s =>
                rw [c_str_cons (by decide)]
                simp only at h
                cases he : escape e with
                | some c =>
                    -- no escape is written with a NUL
                    have hz : e ≠ 0 := by
                      rintro rfl
                      rw [show escape 0 = none by decide] at he
                      cases he
                    rw [he] at h
                    rw [c_str_cons hz]
                    simp only [parse_string, he]
                    exact ih _ s a r h
                | none =>
                    rw [he] at h
                    simp only at h
                    split_ifs at h with hu
                    subst hu
                    rw [c_str_cons (by decide)]
                    simp only [parse_string, he]
                    exact NulSafe.bind_apply parse_codepoint_nulSafe
                      (fun u => ih (out ++ u)) s a r h
          · -- a NUL is a control character, which ends the parse
            have hz : ch ≠ 0 := by rintro rfl; exact h₁ (by decide)
            rw [c_str_cons hz]
            simp only [parse_string, if_neg h₁, if_neg h₂, if_neg h₃]
            exact ih _ s a r h

theorem parse_number_nulSafe : NulSafe parse_number := by
  intro s a r h
  simp only [parse_number] at h ⊢
  rw [takeWhile_c_str (by decide), dropWhile_c_str (by decide)]
  cases hi : strtoimax (s.takeWhile number_char) with
  | some i =>
      rw [hi] at h
      obtain ⟨rfl, rfl⟩ := Parsed.ok.inj h
      rfl
  | none =>
      rw [hi] at h
      simp only at h ⊢
      cases hf : strtod (s.takeWhile number_char) with
      | finite x =>
          rw [hf] at h
          obtain ⟨rfl, rfl⟩ := Parsed.ok.inj h
          rfl
      | infinite => rw [hf] at h; cases h
      | invalid => rw [hf] at h; cases h

theorem parse_items_nulSafe {item : Bytes → Parsed Value} (hitem : NulSafe item) (k : ℕ)
    (a : Array) : NulSafe (parse_items item k a) := by
  induction k generalizing a with
  | zero => intro s v r h; cases h
  | succ k ih =>
      refine NulSafe.bind_apply hitem (fun v => ?_)
      refine NulSafe.on_expect (by decide) (ih _) ?_
      exact NulSafe.on_expect (by decide) (NulSafe.ok _) NulSafe.fail_at

theorem parse_members_nulSafe {item : Bytes → Parsed Value} (hitem : NulSafe item) (n k : ℕ)
    (o : Object) : NulSafe (parse_members item n k o) := by
  induction k generalizing o with
  | zero => intro s v r h; cases h
  | succ k ih =>
      refine NulSafe.on_expect (by decide) ?_ NulSafe.fail_at
      refine NulSafe.bind_apply (parse_string_nulSafe n []) (fun key => ?_)
      refine NulSafe.on_expect (by decide) ?_ NulSafe.fail_at
      refine NulSafe.bind_apply hitem (fun v => ?_)
      refine NulSafe.on_expect (by decide) (ih _) ?_
      exact NulSafe.on_expect (by decide) (NulSafe.ok _) NulSafe.fail_at

/-- **An accepted value survives the cut**, at equal fuel. -/
theorem parse_value_nulSafe (n depths : ℕ) : NulSafe (parse_value n depths) := by
  induction n generalizing depths with
  | zero => intro s v r h; cases h
  | succ n ih =>
      intro s v r h
      simp only [parse_value] at h ⊢
      rw [skip_ws_c_str]
      cases hs : skip_ws s with
      | nil => rw [hs] at h; cases h
      | cons ch t =>
          rw [hs] at h
          simp only at h
          -- a value does not begin with a zero
          have hch : ch ≠ 0 := by
            rintro rfl
            rw [if_neg (by decide), if_neg (by decide), if_neg (by decide), if_neg (by decide),
              if_neg (by decide), if_neg (by decide), if_neg (by decide)] at h
            cases h
          rw [c_str_cons hch]
          simp only
          split_ifs at h ⊢ with h₁ h₂ h₃ h₄ h₅ h₆ h₇ h₈ h₉
          · exact NulSafe.bind_apply (match_text_nulSafe (by decide)) (fun _ => NulSafe.ok _) t v r h
          · exact NulSafe.bind_apply (match_text_nulSafe (by decide)) (fun _ => NulSafe.ok _) t v r h
          · exact NulSafe.bind_apply (match_text_nulSafe (by decide)) (fun _ => NulSafe.ok _) t v r h
          · exact NulSafe.bind_apply (parse_string_nulSafe n []) (fun _ => NulSafe.ok _) t v r h
          · exact NulSafe.on_expect (by decide) (NulSafe.ok _)
              (parse_items_nulSafe (ih _) n []) t v r h
          · exact NulSafe.on_expect (by decide) (NulSafe.ok _)
              (parse_members_nulSafe (ih _) n n []) t v r h
          · have := parse_number_nulSafe (ch :: t) v r h
            rwa [c_str_cons hch] at this

/-! ## The fuel is never felt

Every value takes at least one character, so fuel beyond the length of the text makes
no difference and the marker is never returned. -/

/-- `p` leaves at least `k` characters fewer than it was given. -/
def Consumes {α : Type} (k : ℕ) (p : Bytes → Parsed α) : Prop :=
  ∀ s a r, p s = .ok a r → r.length + k ≤ s.length

theorem Consumes.ok {α : Type} (a : α) : Consumes 0 (fun s => Parsed.ok a s) := by
  intro s b r h
  obtain ⟨rfl, rfl⟩ := Parsed.ok.inj h
  exact Nat.le_refl _

theorem Consumes.fail_at {α : Type} (k : ℕ) : Consumes k (fail_at (α := α)) := by
  intro s a r h
  cases h

theorem Consumes.weaken {α : Type} {k : ℕ} {p : Bytes → Parsed α} (h : Consumes k p) :
    Consumes 0 p :=
  fun s a r hp => Nat.le_of_add_right_le (h s a r hp)

theorem Consumes.bind_apply {α β : Type} {i j : ℕ} {p : Bytes → Parsed α}
    {f : α → Bytes → Parsed β} (hp : Consumes i p) (hf : ∀ a, Consumes j (f a)) :
    Consumes (i + j) (fun s => (p s).bind f) := by
  intro s b r h
  obtain ⟨a, t, hps, hfa⟩ := Parsed.bind_eq_ok.mp h
  have h₁ := hp s a t hps
  have h₂ := hf a t b r hfa
  omega

theorem skip_ws_length_le (s : Bytes) : (skip_ws s).length ≤ s.length :=
  (List.dropWhile_suffix _).length_le

theorem Consumes.on_expect {α : Type} {c : UInt8} {k : ℕ} {yes no : Bytes → Parsed α}
    (hyes : Consumes 0 yes) (hno : Consumes k no) (hk : k ≤ 1) :
    Consumes k (fun s => on_expect c s yes no) := by
  intro s a r h
  have hle := skip_ws_length_le s
  simp only [Picojson.on_expect, expect] at h
  cases hs : skip_ws s with
  | nil =>
      rw [hs] at h hle
      exact Nat.le_trans (hno [] a r h) hle
  | cons b t =>
      rw [hs] at h hle
      simp only at h
      -- the expected character is consumed, or nothing is
      by_cases hbc : b = c
      · rw [if_pos hbc] at h
        have := hyes t a r h
        simp only [List.length_cons] at hle
        omega
      · rw [if_neg hbc] at h
        exact Nat.le_trans (hno (b :: t) a r h) hle

theorem match_text_consumes (ps : Bytes) : Consumes 0 (match_text ps) := by
  intro s a r h
  induction ps generalizing s with
  | nil =>
      obtain ⟨rfl, rfl⟩ := Parsed.ok.inj h
      exact Nat.le_refl _
  | cons p ps ih =>
      cases s with
      | nil => cases h
      | cons b s =>
          simp only [match_text] at h
          split_ifs at h
          exact Nat.le_succ_of_le (ih s h)

theorem parse_quadhex_consumes (n u : ℕ) : Consumes 0 (parse_quadhex n u) := by
  intro s a r h
  induction n generalizing u s with
  | zero =>
      obtain ⟨rfl, rfl⟩ := Parsed.ok.inj h
      exact Nat.le_refl _
  | succ n ih =>
      cases s with
      | nil => cases h
      | cons b s =>
          simp only [parse_quadhex] at h
          split at h
          · exact Nat.le_succ_of_le (ih _ s h)
          · cases h

theorem parse_low_surrogate_consumes (high : ℕ) : Consumes 0 (parse_low_surrogate high) := by
  intro s a r h
  match s with
  | [] => cases h
  | [b] =>
      simp only [parse_low_surrogate] at h
      split_ifs at h
  | b :: c :: s =>
      simp only [parse_low_surrogate] at h
      split_ifs at h
      obtain ⟨u, t, hq, h'⟩ := Parsed.bind_eq_ok.mp h
      have hle := parse_quadhex_consumes 4 0 s u t hq
      split_ifs at h'
      obtain ⟨rfl, rfl⟩ := Parsed.ok.inj h'
      simp only [List.length_cons]
      omega

theorem parse_codepoint_consumes : Consumes 0 parse_codepoint := by
  refine Consumes.bind_apply (i := 0) (j := 0) (parse_quadhex_consumes 4 0) (fun u => ?_)
  intro s a r h
  split_ifs at h
  · exact parse_low_surrogate_consumes u s a r h
  · obtain ⟨rfl, rfl⟩ := Parsed.ok.inj h
    exact Nat.le_refl _

/-- `p` and `q` agree, and do not run out of fuel, on texts shorter than `m`. -/
def Settled {α : Type} (m : ℕ) (p q : Bytes → Parsed α) : Prop :=
  ∀ s, s.length < m → q s = p s ∧ p s ≠ .fuel

theorem Settled.refl {α : Type} (m : ℕ) {p : Bytes → Parsed α} (h : ∀ s, p s ≠ .fuel) :
    Settled m p p :=
  fun s _ => ⟨rfl, h s⟩

theorem Settled.bind_apply {α β : Type} {m i : ℕ} {p q : Bytes → Parsed α}
    {f g : α → Bytes → Parsed β} (hp : Settled (m + i) p q) (hc : Consumes i p)
    (hf : ∀ a, Settled m (f a) (g a)) :
    Settled (m + i) (fun s => (p s).bind f) (fun s => (q s).bind g) := by
  intro s hs
  obtain ⟨heq, hne⟩ := hp s hs
  simp only [heq]
  cases hps : p s with
  | ok a r =>
      have := hc s a r hps
      exact hf a r (by omega)
  | fail cur consumed => exact ⟨rfl, fun h => by cases h⟩
  | overflow => exact ⟨rfl, fun h => by cases h⟩
  | fuel => exact absurd hps hne

theorem Settled.on_expect {α : Type} {m : ℕ} {c : UInt8} {yes no yes' no' : Bytes → Parsed α}
    (hyes : Settled m yes yes') (hno : Settled m no no') :
    Settled m (fun s => on_expect c s yes no) (fun s => on_expect c s yes' no') := by
  intro s hs
  have hle := skip_ws_length_le s
  simp only [Picojson.on_expect, expect]
  cases hsk : skip_ws s with
  | nil => exact hno [] (by simp only [List.length_nil]; omega)
  | cons b t =>
      rw [hsk, List.length_cons] at hle
      by_cases hbc : b = c
      · simp only [if_pos hbc]
        exact hyes t (by omega)
      · simp only [if_neg hbc]
        exact hno (b :: t) (by rw [List.length_cons]; omega)

theorem fail_at_ne_fuel {α : Type} (s : Bytes) : fail_at (α := α) s ≠ .fuel :=
  fun h => by cases h

theorem match_text_ne_fuel (ps s : Bytes) : match_text ps s ≠ .fuel := by
  induction ps generalizing s with
  | nil => exact fun h => by cases h
  | cons p ps ih =>
      cases s with
      | nil => exact fun h => by cases h
      | cons b s =>
          simp only [match_text]
          split_ifs
          · exact ih s
          · exact fun h => by cases h

theorem parse_quadhex_ne_fuel (n u : ℕ) (s : Bytes) : parse_quadhex n u s ≠ .fuel := by
  induction n generalizing u s with
  | zero => exact fun h => by cases h
  | succ n ih =>
      cases s with
      | nil => exact fun h => by cases h
      | cons b s =>
          simp only [parse_quadhex]
          split
          · exact ih _ s
          · exact fun h => by cases h

theorem Parsed.bind_ne_fuel {α β : Type} {p : Parsed α} {f : α → Bytes → Parsed β}
    (hp : p ≠ .fuel) (hf : ∀ a s, f a s ≠ .fuel) : p.bind f ≠ .fuel := by
  cases p with
  | ok a r => exact hf a r
  | fail cur consumed => exact fun h => by cases h
  | overflow => exact fun h => by cases h
  | fuel => exact absurd rfl hp

theorem parse_codepoint_ne_fuel (s : Bytes) : parse_codepoint s ≠ .fuel := by
  refine Parsed.bind_ne_fuel (parse_quadhex_ne_fuel 4 0 s) (fun u r => ?_)
  have hlow : parse_low_surrogate u r ≠ .fuel := by
    match r with
    | [] => exact fun h => by cases h
    | [b] =>
        simp only [parse_low_surrogate]
        split_ifs <;> exact fun h => by cases h
    | b :: c :: r =>
        simp only [parse_low_surrogate]
        split_ifs
        · exact fun h => by cases h
        · exact fun h => by cases h
        · refine Parsed.bind_ne_fuel (parse_quadhex_ne_fuel 4 0 r) (fun v t => ?_)
          split_ifs <;> exact fun h => by cases h
  split_ifs
  · exact fun h => by cases h
  · exact hlow
  · exact fun h => by cases h

theorem parse_number_ne_fuel (s : Bytes) : parse_number s ≠ .fuel := by
  simp only [parse_number]
  split
  · exact fun h => by cases h
  · split <;> exact fun h => by cases h

theorem parse_string_consumes (n : ℕ) (out : Bytes) : Consumes 1 (parse_string n out) := by
  induction n generalizing out with
  | zero => intro s a r h; cases h
  | succ n ih =>
      intro s a r h
      cases s with
      | nil => cases h
      | cons ch s =>
          simp only [parse_string] at h
          split_ifs at h with h₁ h₂ h₃
          · obtain ⟨rfl, rfl⟩ := Parsed.ok.inj h
            exact Nat.le_refl _
          · cases s with
            | nil => cases h
            | cons e s =>
                simp only at h
                -- an escape is two characters at least
                have hlen : (ch :: e :: s).length = s.length + 2 := rfl
                split at h
                · have := ih _ s a r h
                  omega
                · split_ifs at h
                  have := Consumes.bind_apply parse_codepoint_consumes
                    (fun u => ih (out ++ u)) s a r h
                  omega
          · have := ih _ s a r h
            rw [List.length_cons]
            omega

theorem parse_string_settled (n : ℕ) (out : Bytes) :
    Settled n (parse_string n out) (parse_string (n + 1) out) := by
  induction n generalizing out with
  | zero => intro s hs; exact absurd hs (Nat.not_lt_zero _)
  | succ n ih =>
      intro s hs
      cases s with
      | nil => exact ⟨rfl, fun h => by cases h⟩
      | cons ch s =>
          rw [List.length_cons] at hs
          simp only [parse_string]
          -- only a character of the string goes round the loop again, and it takes one away
          split_ifs
          · exact ⟨rfl, fun h => by cases h⟩
          · exact ⟨rfl, fun h => by cases h⟩
          · cases s with
            | nil => exact ⟨rfl, fun h => by cases h⟩
            | cons e s =>
                rw [List.length_cons] at hs
                simp only
                split
                · exact ih _ s (by omega)
                · split_ifs
                  · exact Settled.bind_apply (i := 0)
                      (Settled.refl _ parse_codepoint_ne_fuel) parse_codepoint_consumes
                      (fun u => ih (out ++ u)) s (by omega)
                  · exact ⟨rfl, fun h => by cases h⟩
          · exact ih _ s (by omega)

section Loops

variable {item item' : Bytes → Parsed Value} {m : ℕ}

theorem parse_items_consumes (hitem : Consumes 1 item) (k : ℕ) (a : Array) :
    Consumes 1 (parse_items item k a) := by
  induction k generalizing a with
  | zero => intro s v r h; cases h
  | succ k ih =>
      refine Consumes.bind_apply (i := 1) (j := 0) hitem (fun v => ?_)
      refine Consumes.on_expect (ih _).weaken ?_ (by omega)
      exact Consumes.on_expect (Consumes.ok _) (Consumes.fail_at 0) (by omega)

theorem parse_members_consumes (hitem : Consumes 1 item) (n k : ℕ) (o : Object) :
    Consumes 1 (parse_members item n k o) := by
  induction k generalizing o with
  | zero => intro s v r h; cases h
  | succ k ih =>
      refine Consumes.on_expect ?_ (Consumes.fail_at 1) (by omega)
      refine (Consumes.bind_apply (j := 0) (parse_string_consumes n []) (fun key => ?_)).weaken
      refine Consumes.on_expect ?_ (Consumes.fail_at 0) (by omega)
      refine (Consumes.bind_apply (j := 0) hitem (fun v => ?_)).weaken
      refine Consumes.on_expect (ih _).weaken ?_ (by omega)
      exact Consumes.on_expect (Consumes.ok _) (Consumes.fail_at 0) (by omega)

theorem Settled.mono {α : Type} {p q : Bytes → Parsed α} {k : ℕ} (h : Settled m p q)
    (hk : k ≤ m) : Settled k p q :=
  fun s hs => h s (by omega)

theorem parse_items_settled (hitem : Settled m item item') (hc : Consumes 1 item) {k : ℕ}
    (hk : k ≤ m) (a : Array) :
    Settled k (parse_items item k a) (parse_items item' (k + 1) a) := by
  induction k generalizing a with
  | zero => intro s hs; exact absurd hs (Nat.not_lt_zero _)
  | succ k ih =>
      refine Settled.bind_apply (hitem.mono hk) hc (fun v => ?_)
      refine Settled.on_expect (ih (by omega) _) ?_
      exact Settled.on_expect (Settled.refl _ fun s h => by cases h)
        (Settled.refl _ fail_at_ne_fuel)

theorem parse_members_settled (hitem : Settled m item item') (hc : Consumes 1 item) {n k : ℕ}
    (hn : k ≤ n) (hk : k ≤ m) (o : Object) :
    Settled k (parse_members item n k o) (parse_members item' (n + 1) (k + 1) o) := by
  induction k generalizing o with
  | zero => intro s hs; exact absurd hs (Nat.not_lt_zero _)
  | succ k ih =>
      refine Settled.on_expect ?_ (Settled.refl _ fail_at_ne_fuel)
      refine Settled.bind_apply (i := 1) ((parse_string_settled n []).mono hn)
        (parse_string_consumes n []) (fun key => ?_)
      refine Settled.on_expect ?_ (Settled.refl _ fail_at_ne_fuel)
      refine Settled.bind_apply (i := 0) (hitem.mono (by omega)) hc.weaken (fun v => ?_)
      refine Settled.on_expect (ih (by omega) (by omega) _) ?_
      exact Settled.on_expect (Settled.refl _ fun s h => by cases h)
        (Settled.refl _ fail_at_ne_fuel)

end Loops

theorem parse_number_consumes {ch : UInt8} {t r : Bytes} {v : Value} (hch : number_char ch = true)
    (h : parse_number (ch :: t) = .ok v r) : r.length + 1 ≤ (ch :: t).length := by
  have hr : r = t.dropWhile number_char := by
    simp only [parse_number, List.dropWhile_cons, hch, if_true] at h
    split at h
    · exact (Parsed.ok.inj h).2.symm
    · split at h
      · exact (Parsed.ok.inj h).2.symm
      · cases h
      · cases h
  rw [hr, List.length_cons]
  exact Nat.succ_le_succ (List.dropWhile_suffix _).length_le

theorem parse_value_consumes (n depths : ℕ) : Consumes 1 (parse_value n depths) := by
  induction n generalizing depths with
  | zero => intro s v r h; cases h
  | succ n ih =>
      intro s v r h
      have hle := skip_ws_length_le s
      simp only [parse_value] at h
      cases hs : skip_ws s with
      | nil => rw [hs] at h; cases h
      | cons ch t =>
          rw [hs] at h hle
          rw [List.length_cons] at hle
          simp only at h
          -- every branch goes on behind `ch`
          suffices r.length ≤ t.length by omega
          split_ifs at h with h₁ h₂ h₃ h₄ h₅ h₆ h₇ h₈ h₉
          · exact Consumes.bind_apply (match_text_consumes _) (fun _ => Consumes.ok _) t v r h
          · exact Consumes.bind_apply (match_text_consumes _) (fun _ => Consumes.ok _) t v r h
          · exact Consumes.bind_apply (match_text_consumes _) (fun _ => Consumes.ok _) t v r h
          · exact Consumes.bind_apply (parse_string_consumes n []).weaken
              (fun _ => Consumes.ok _) t v r h
          · exact Consumes.on_expect (k := 0) (Consumes.ok _)
              (parse_items_consumes (ih _) n []).weaken (by omega) t v r h
          · exact Consumes.on_expect (k := 0) (Consumes.ok _)
              (parse_members_consumes (ih _) n n []).weaken (by omega) t v r h
          · refine Nat.le_of_succ_le_succ (parse_number_consumes ?_ h)
            simp only [Bool.or_eq_true, decide_eq_true_eq] at h₉
            rcases h₉ with hd | rfl
            · simp [number_char, hd]
            · decide

theorem parse_value_settled (n depths : ℕ) :
    Settled n (parse_value n depths) (parse_value (n + 1) depths) := by
  induction n generalizing depths with
  | zero => intro s hs; exact absurd hs (Nat.not_lt_zero _)
  | succ n ih =>
      intro s hs
      have hle := skip_ws_length_le s
      rw [parse_value, parse_value]
      cases hsk : skip_ws s with
      | nil => exact ⟨rfl, fun h => by cases h⟩
      | cons ch t =>
          rw [hsk, List.length_cons] at hle
          have ht : t.length < n := by omega
          have hret : ∀ w : Value, Settled n (fun s => Parsed.ok w s) (fun s => .ok w s) :=
            fun w => Settled.refl _ fun s h => by cases h
          simp only
          -- one case for each first character
          split_ifs
          · exact Settled.bind_apply (i := 0) (Settled.refl _ (match_text_ne_fuel _))
              (match_text_consumes _) (fun _ => hret _) t ht
          · exact Settled.bind_apply (i := 0) (Settled.refl _ (match_text_ne_fuel _))
              (match_text_consumes _) (fun _ => hret _) t ht
          · exact Settled.bind_apply (i := 0) (Settled.refl _ (match_text_ne_fuel _))
              (match_text_consumes _) (fun _ => hret _) t ht
          · exact Settled.bind_apply (i := 0) (parse_string_settled n [])
              (parse_string_consumes n []).weaken (fun _ => hret _) t ht
          · exact ⟨rfl, fun h => by cases h⟩
          · exact Settled.on_expect (hret _)
              (parse_items_settled (ih _) (parse_value_consumes _ _) (Nat.le_refl n) []) t ht
          · exact ⟨rfl, fun h => by cases h⟩
          · exact Settled.on_expect (hret _)
              (parse_members_settled (ih _) (parse_value_consumes _ _) (Nat.le_refl n)
                (Nat.le_refl n) []) t ht
          · exact ⟨rfl, parse_number_ne_fuel _⟩
          · exact ⟨rfl, fun h => by cases h⟩

theorem parse_value_eq_of_le {s : Bytes} {n m : ℕ} (depths : ℕ) (hs : s.length < n) (hnm : n ≤ m) :
    parse_value m depths s = parse_value n depths s := by
  induction m, hnm using Nat.le_induction with
  | base => rfl
  | succ m hnm ih => rw [(parse_value_settled m depths s (by omega)).1, ih]

/-- The marker is not an outcome of [`parse`]. -/
theorem parse_value_ne_fuel (s : Bytes) (depths : ℕ) :
    parse_value (s.length + 1) depths s ≠ .fuel :=
  (parse_value_settled (s.length + 1) depths s (Nat.lt_succ_self _)).2

/-- **Cutting an accepted text at its first NUL does not change its value.** -/
theorem parse_c_str {s : Bytes} {v : Value} (h : parse s = .value v) :
    parse (c_str s) = .value v := by
  unfold parse at h ⊢
  cases hp : parse_value (s.length + 1) default_max_depths s with
  | ok w r =>
      rw [hp] at h
      obtain rfl := ParseResult.value.inj h
      have hcut := parse_value_nulSafe _ _ s w r hp
      rw [parse_value_eq_of_le _ (Nat.lt_succ_self _)
        (Nat.succ_le_succ (length_c_str_le s))] at hcut
      rw [hcut]
  | fail cur consumed => rw [hp] at h; cases h
  | overflow => rw [hp] at h; cases h
  | fuel => rw [hp] at h; cases h

end OidcValidator.Picojson
