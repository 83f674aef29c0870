/-
`CacheControl.lean` -- `parse_cache_control` against the grammar of the header.

The value of a `Cache-Control` header is a list of directives, and the source looks for one
of them with a single regular expression, `^cache-control:.*max-age\s*=\s*(\d+)`. The
expression knows nothing of directives. What it finds is the *last* place in the line where
it can read a `max-age`, an `=` and some digits ([`last_read`]), and such a place need not
be the directive of that name: the name of another one may end in the same letters, and a
quoted argument may hold any text.

So there are two halves. The first says what the expression reads, in terms of texts alone.
The second is the grammar, as structures that hold well-formed lines and nothing else, and
says what the expression reads in a line made of directives. The main theorem compares this
with what the header says.
-/
import OidcValidator.HttpClient
import OidcValidator.Words

set_option autoImplicit false

namespace OidcValidator.CacheControl

open OidcValidator.ByteString OidcValidator.Number OidcValidator.HttpClient

/-! ## What the expression reads -/

/-- `max-age` in any letter case. -/
def IsMaxAge (name : Bytes) : Prop := name.map Regex.tolower = bytes "max-age"

instance (name : Bytes) : Decidable (IsMaxAge name) := inferInstanceAs (Decidable (_ = _))

/-- `ds` is the run of digits that `s` starts with. -/
structure LeadingDigits (ds s : Bytes) : Prop where
  nonempty : ds ≠ []
  digits : ∀ b ∈ ds, isdigit b = true
  maximal : ∃ rest, s = ds ++ rest ∧ ∀ b ∈ rest.head?, isdigit b = false

/-- `s` starts with a `max-age`, an `=` and the digits `ds`, with whitespace around the `=`. -/
def Reads (s ds : Bytes) : Prop :=
  ∃ name before behind rest, s = name ++ (before ++ 61 :: (behind ++ rest)) ∧ IsMaxAge name ∧
    Blank before ∧ Blank behind ∧ LeadingDigits ds rest

/-- The last place of `s` that can be read as a `max-age` gives the digits `ds`. -/
def LastReads (s ds : Bytes) : Prop :=
  ∃ t, t <:+ s ∧ Reads t ds ∧ ∀ u, u <:+ t → u ≠ t → ∀ es, ¬Reads u es

/-- The expression behind the `.*`. -/
def max_age_regex : Regex.Expr :=
  .seq (Regex.classes ((bytes "max-age").map Regex.lit_icase)) <|
  .seq (.star isspace) <|
  .seq (.char (Regex.lit 61)) <|
  .seq (.star isspace) <|
  .group (Regex.plus isdigit)

/-- The digits it captures at the last place where it captures any. -/
def last_read : Bytes → Option Bytes
  | [] => none
  | b :: s => (last_read s).or (Regex.group_at max_age_regex (b :: s))

/-! ### At one place -/

theorem isdigit_eq_false_of_isspace {b : UInt8} (h : isspace b = true) : isdigit b = false := by
  simp only [isspace, isdigit, Bool.or_eq_true, Bool.and_eq_true, decide_eq_true_eq,
    Bool.and_eq_false_iff, decide_eq_false_iff_not] at h ⊢
  grind

theorem LeadingDigits.dropWhile {ds s : Bytes} (h : LeadingDigits ds s) :
    s.dropWhile isspace = s := by
  obtain ⟨hne, hdigits, rest, rfl, -⟩ := h
  cases ds with
  | nil => exact absurd rfl hne
  | cons b ds =>
    have hb : ¬isspace b = true := fun hspace =>
      absurd ((isdigit_eq_false_of_isspace hspace).symm.trans (hdigits b List.mem_cons_self)) (by decide)
    exact List.dropWhile_cons_of_neg hb

/-- The digits captured by `(\d+)`. -/
theorem group_at_digits_iff (s ds : Bytes) :
    Regex.group_at (.group (Regex.plus isdigit)) s = some ds ↔ LeadingDigits ds s := by
  cases s with
  | nil =>
    refine iff_of_false nofun ?_
    rintro ⟨hne, -, rest, h, -⟩
    exact hne (List.append_eq_nil_iff.mp h.symm).1
  | cons b s =>
    rw [Regex.group_at_plus]
    constructor
    · intro h
      obtain ⟨hb, heq⟩ := Option.ite_none_right_eq_some.mp h
      obtain rfl := Option.some.inj heq
      refine ⟨List.cons_ne_nil _ _, ?_, s.dropWhile isdigit, ?_, ?_⟩
      · exact List.forall_mem_cons.mpr ⟨hb, fun x hx => List.mem_takeWhile_imp hx⟩
      · rw [List.cons_append, List.takeWhile_append_dropWhile]
      · intro x hx
        have hhead := List.head?_dropWhile_not isdigit s
        rw [Option.mem_def.mp hx] at hhead
        exact hhead
    · -- `+` takes all digits there are
      rintro ⟨hne, hdigits, rest, h, hrest⟩
      obtain ⟨c, ds, rfl⟩ := List.exists_cons_of_ne_nil hne
      rw [List.cons_append] at h
      obtain ⟨rfl, rfl⟩ := List.cons.inj h
      rw [if_pos (hdigits b List.mem_cons_self),
        takeWhile_append_of_head? (fun x hx => hdigits x (List.mem_cons_of_mem _ hx)) hrest]

theorem captures_digits_of_isspace {b : UInt8} (hb : isspace b = true) (s : Bytes) :
    Regex.captures (.group (Regex.plus isdigit)) (b :: s) = [] := by
  show ((Regex.plus isdigit).run (b :: s) |>.map _).map _ = []
  rw [Regex.plus, Regex.Expr.run, Regex.Expr.run, if_neg (by simp [isdigit_eq_false_of_isspace hb])]
  rfl

/-- Whitespace, an `=`, whitespace and digits. -/
theorem group_at_assignment_iff (s ds : Bytes) :
    Regex.group_at (.seq (.star isspace) <| .seq (.char (Regex.lit 61)) <|
      .seq (.star isspace) <| .group (Regex.plus isdigit)) s = some ds ↔
    ∃ before behind rest, s = before ++ 61 :: (behind ++ rest) ∧ Blank before ∧ Blank behind ∧
      LeadingDigits ds rest := by
  -- whitespace is neither `=` nor a digit, so nothing is gained by taking less of it
  have hassign (b : UInt8) (s : Bytes) :
      Regex.captures (.seq (.char (Regex.lit 61)) <| .seq (.star isspace) <|
        .group (Regex.plus isdigit)) (b :: s) =
      if b = 61 then Regex.captures (.group (Regex.plus isdigit)) (s.dropWhile isspace) else [] := by
    rw [Regex.captures_seq_char, Regex.captures_seq_star_of_disjoint fun b s hb =>
      captures_digits_of_isspace hb s]
    simp only [Regex.lit, decide_eq_true_eq]
  unfold Regex.group_at
  rw [Regex.captures_seq_star_of_disjoint fun b s hb => by
    rw [hassign, if_neg (by rintro rfl; exact absurd hb (by decide))]]
  constructor
  · intro h
    rcases hs : s.dropWhile isspace with _ | ⟨c, q⟩
    · rw [hs] at h
      exact absurd h (Option.some_ne_none ds).symm
    · rw [hs, hassign] at h
      split_ifs at h with hc
      · refine ⟨s.takeWhile isspace, q.takeWhile isspace, q.dropWhile isspace, ?_,
          fun b hb => List.mem_takeWhile_imp hb, fun b hb => List.mem_takeWhile_imp hb,
          (group_at_digits_iff _ _).mp h⟩
        rw [List.takeWhile_append_dropWhile, ← hc, ← hs, List.takeWhile_append_dropWhile]
      · exact absurd h (by simp)
  · rintro ⟨before, behind, rest, rfl, hbefore, hbehind, hds⟩
    rw [hbefore.dropWhile, List.dropWhile_cons_of_neg (by decide), hassign, if_pos rfl,
      hbehind.dropWhile, hds.dropWhile]
    exact (group_at_digits_iff _ _).mpr hds

/-- What the expression captures at a place is what can be read there. -/
theorem group_at_max_age_iff (s ds : Bytes) :
    Regex.group_at max_age_regex s = some ds ↔ Reads s ds := by
  unfold max_age_regex
  rw [Regex.group_at_seq_classes, Option.bind_eq_some_iff]
  constructor
  · rintro ⟨⟨name, r⟩, hrow, hds⟩
    obtain ⟨before, behind, rest, rfl, hassign⟩ := (group_at_assignment_iff r ds).mp hds
    obtain ⟨rfl, hname⟩ := Regex.match_row_eq_some_iff.mp hrow
    exact ⟨name, before, behind, rest, rfl, Regex.forall₂_lit_icase.mp hname, hassign⟩
  · rintro ⟨name, before, behind, rest, rfl, hname, hassign⟩
    refine ⟨(name, before ++ 61 :: (behind ++ rest)), ?_, ?_⟩
    · exact Regex.match_row_eq_some_iff.mpr ⟨rfl, Regex.forall₂_lit_icase.mpr hname⟩
    · exact (group_at_assignment_iff _ ds).mpr ⟨before, behind, rest, rfl, hassign⟩

theorem group_at_max_age_congr {s t : Bytes} (h : ∀ ds, Reads s ds ↔ Reads t ds) :
    Regex.group_at max_age_regex s = Regex.group_at max_age_regex t := by
  refine Option.ext fun ds => ?_
  rw [group_at_max_age_iff, group_at_max_age_iff, h]

theorem group_at_max_age_eq_none {s : Bytes} (h : ∀ ds, ¬Reads s ds) :
    Regex.group_at max_age_regex s = none :=
  Option.eq_none_iff_forall_ne_some.mpr fun ds heq => h ds ((group_at_max_age_iff s ds).mp heq)

/-! ### At the last place -/

theorem not_reads_nil (ds : Bytes) : ¬Reads [] ds := by
  rintro ⟨name, before, behind, rest, h, -⟩
  simp at h

theorem last_read_eq_none_iff (s : Bytes) :
    last_read s = none ↔ ∀ t, t <:+ s → ∀ ds, ¬Reads t ds := by
  induction s with
  | nil =>
    refine iff_of_true rfl fun t ht ds => ?_
    rw [List.suffix_nil.mp ht]
    exact not_reads_nil ds
  | cons b s ih =>
    rw [last_read, Option.or_eq_none_iff, ih, Option.eq_none_iff_forall_ne_some]
    simp only [ne_eq, group_at_max_age_iff, List.suffix_cons_iff]
    constructor
    · rintro ⟨hs, hb⟩ t (rfl | ht)
      · exact hb
      · exact hs t ht
    · exact fun h => ⟨fun t ht => h t (.inr ht), h _ (.inl rfl)⟩

/-- The search finds the last place where there is something to read. -/
theorem last_read_eq_some_iff (s ds : Bytes) : last_read s = some ds ↔ LastReads s ds := by
  induction s with
  | nil =>
    refine iff_of_false nofun ?_
    rintro ⟨t, ht, hreads, -⟩
    rw [List.suffix_nil.mp ht] at hreads
    exact not_reads_nil ds hreads
  | cons b s ih =>
    -- a later reading wins over one that starts here
    rw [last_read, Option.or_eq_some_iff, ih, last_read_eq_none_iff, group_at_max_age_iff]
    constructor
    · rintro (⟨t, ht, h⟩ | ⟨hs, hreads⟩)
      · exact ⟨t, ht.trans (List.suffix_cons b s), h⟩
      · refine ⟨b :: s, List.suffix_rfl, hreads, fun u hu hne => ?_⟩
        exact hs u ((List.suffix_cons_iff.mp hu).resolve_left hne)
    · rintro ⟨t, ht, hreads, hlast⟩
      rcases List.suffix_cons_iff.mp ht with rfl | ht
      · refine .inr ⟨fun u hu => hlast u (hu.trans (List.suffix_cons b s)) ?_, hreads⟩
        rintro rfl
        exact absurd hu.length_le (by simp)
      · exact .inl ⟨t, ht, hreads, hlast⟩

/-! ### Separators

Some characters cannot be part of a reading at all, and no reading ends in anything but a
digit. -/

/-- The text of a reading. -/
def Form (text ds : Bytes) : Prop :=
  ∃ name before behind, text = name ++ (before ++ 61 :: (behind ++ ds)) ∧ IsMaxAge name ∧
    Blank before ∧ Blank behind ∧ ds ≠ [] ∧ ∀ b ∈ ds, isdigit b = true

theorem reads_iff_form (s ds : Bytes) :
    Reads s ds ↔ ∃ text rest, s = text ++ rest ∧ Form text ds ∧ ∀ b ∈ rest.head?, isdigit b = false := by
  constructor
  · rintro ⟨name, before, behind, -, rfl, hname, hbefore, hbehind, hne, hdigits, rest, rfl, hrest⟩
    exact ⟨_, rest, by simp, ⟨name, before, behind, rfl, hname, hbefore, hbehind, hne, hdigits⟩, hrest⟩
  · rintro ⟨-, rest, rfl, ⟨name, before, behind, rfl, hname, hbefore, hbehind, hne, hdigits⟩, hrest⟩
    exact ⟨name, before, behind, ds ++ rest, by simp, hname, hbefore, hbehind, hne, hdigits, rest, rfl,
      hrest⟩

/-- Text that no reading reaches into can be left out. -/
theorem reads_append_iff {y ds : Bytes} (hy : ∀ b ∈ y.head?, isdigit b = false)
    (hform : ∀ w u, u <+: y → u ≠ [] → ¬Form (w ++ u) ds) (x : Bytes) :
    Reads (x ++ y) ds ↔ Reads x ds := by
  simp only [reads_iff_form]
  constructor
  · rintro ⟨text, rest, h, htext, hrest⟩
    -- either the text goes on into `y`, which `hform` excludes, or it ends within `x`
    rcases List.append_eq_append_iff.mp h with ⟨u, rfl, hu⟩ | ⟨u, rfl, rfl⟩
    · by_cases hne : u = []
      · subst hne
        exact ⟨x, [], by simp, by simpa using htext, by simp⟩
      · exact absurd htext (hform x u ⟨rest, hu.symm⟩ hne)
    · refine ⟨text, u, rfl, htext, fun b hb => hrest b ?_⟩
      rw [List.head?_append, Option.mem_def.mp hb]
      rfl
  · rintro ⟨text, rest, rfl, htext, hrest⟩
    refine ⟨text, rest ++ y, by simp, htext, fun b hb => ?_⟩
    rw [List.head?_append, Option.mem_def, Option.or_eq_some_iff] at hb
    rcases hb with hb | ⟨-, hb⟩
    · exact hrest b hb
    · exact hy b hb

/-- A character that is not part of any reading. -/
structure Foreign (c : UInt8) : Prop where
  space : isspace c = false
  digit : isdigit c = false
  assign : c ≠ 61
  name : Regex.tolower c ∉ bytes "max-age"

theorem Foreign.notMem {c : UInt8} (hc : Foreign c) {text ds : Bytes} (h : Form text ds) :
    c ∉ text := by
  obtain ⟨name, before, behind, rfl, hname, hbefore, hbehind, -, hdigits⟩ := h
  have hcname : c ∉ name := fun hmem => hc.name (hname ▸ List.mem_map_of_mem hmem)
  have hcspace {w : Bytes} (hw : Blank w) : c ∉ w := fun hmem =>
    absurd ((hw c hmem).symm.trans hc.space) (by decide)
  have hcds : c ∉ ds := fun hmem => absurd ((hdigits c hmem).symm.trans hc.digit) (by decide)
  simp [hcname, hcspace hbefore, hcspace hbehind, hcds, hc.assign]

theorem reads_append_cons {c : UInt8} (hc : Foreign c) (x y ds : Bytes) :
    Reads (x ++ c :: y) ds ↔ Reads x ds := by
  refine reads_append_iff (by simpa using hc.digit) (fun w u hu hne hform => ?_) x
  obtain ⟨v, rfl⟩ : ∃ v, u = c :: v := by
    obtain ⟨d, v, rfl⟩ := List.exists_cons_of_ne_nil hne
    exact ⟨v, by rw [(List.cons_prefix_cons.mp hu).1]⟩
  exact hc.notMem hform (by simp)

theorem reads_append_of_no_digits {y : Bytes} (hy : ∀ b ∈ y, isdigit b = false) (x ds : Bytes) :
    Reads (x ++ y) ds ↔ Reads x ds := by
  refine reads_append_iff (fun b hb => hy b (List.mem_of_mem_head? hb)) (fun w u hu hne hform => ?_) x
  obtain ⟨name, before, behind, heq, -, -, -, hds, hdigits⟩ := hform
  have hlast : u.getLast hne = ds.getLast hds := by
    have := congrArg List.getLast? heq
    simpa [List.getLast?_append, List.getLast?_eq_some_getLast hne,
      List.getLast?_eq_some_getLast hds, List.getLast?_cons] using this
  have hdigit := hdigits _ (List.getLast_mem hds)
  rw [← hlast, hy _ (hu.subset (List.getLast_mem hne))] at hdigit
  exact absurd hdigit (by decide)

/-- Where readings do not cross from one text into the next, the last one of both is looked
for in the second text first. -/
theorem last_read_append {y : Bytes} (hy : ∀ x ds, Reads (x ++ y) ds ↔ Reads x ds) (x : Bytes) :
    last_read (x ++ y) = (last_read y).or (last_read x) := by
  induction x with
  | nil => simp [last_read]
  | cons b x ih =>
    have hhere : Regex.group_at max_age_regex (b :: (x ++ y))
        = Regex.group_at max_age_regex (b :: x) :=
      group_at_max_age_congr (hy (b :: x))
    rw [List.cons_append, last_read, last_read, ih, hhere, Option.or_assoc]

theorem last_read_append_cons {c : UInt8} (hc : Foreign c) (x y : Bytes) :
    last_read (x ++ c :: y) = (last_read y).or (last_read x) := by
  have hhere : Regex.group_at max_age_regex (c :: y) = none :=
    group_at_max_age_eq_none fun ds h => not_reads_nil ds ((reads_append_cons hc [] y ds).mp h)
  rw [last_read_append (fun x ds => reads_append_cons hc x y ds), last_read, hhere, Option.or_none]

theorem last_read_of_no_digits {y : Bytes} (hy : ∀ b ∈ y, isdigit b = false) : last_read y = none := by
  refine (last_read_eq_none_iff y).mpr fun t ht ds hreads => not_reads_nil ds ?_
  exact (reads_append_of_no_digits (fun b hb => hy b (ht.subset hb)) [] ds).mp hreads

theorem last_read_append_of_no_digits {y : Bytes} (hy : ∀ b ∈ y, isdigit b = false) (x : Bytes) :
    last_read (x ++ y) = last_read x := by
  rw [last_read_append (fun x ds => reads_append_of_no_digits hy x ds), last_read_of_no_digits hy,
    Option.none_or]

theorem not_reads_of_isspace {c : UInt8} (hc : isspace c = true) (s ds : Bytes) : ¬Reads (c :: s) ds := by
  have hspace : ∀ c, isspace c = true → Regex.tolower c ≠ 109 := forall_byte (by decide +kernel)
  rintro ⟨name, before, behind, rest, h, hname, -⟩
  cases name with
  | nil => exact absurd hname (by decide)
  | cons b name =>
    obtain ⟨rfl, -⟩ := List.cons.inj h
    exact hspace c hc (List.cons.inj hname).1

theorem last_read_blank_append {w : Bytes} (hw : Blank w) (s : Bytes) :
    last_read (w ++ s) = last_read s := by
  induction w with
  | nil => rfl
  | cons c w ih =>
    obtain ⟨hc, hw⟩ := List.forall_mem_cons.mp hw
    have hhere : Regex.group_at max_age_regex (c :: (w ++ s)) = none :=
      group_at_max_age_eq_none (not_reads_of_isspace hc (w ++ s))
    rw [List.cons_append, last_read, ih hw, hhere, Option.or_none]

/-! ## The grammar of the header -/

/-- A character of a token. -/
def tchar (b : UInt8) : Bool :=
  isdigit b || (65 ≤ b && b ≤ 90) || (97 ≤ b && b ≤ 122)
    || [33, 35, 36, 37, 38, 39, 42, 43, 45, 46, 94, 95, 96, 124, 126].contains b

/-- A token. -/
structure Token where
  text : Bytes
  nonempty : text ≠ []
  tchars : ∀ b ∈ text, tchar b = true

/-- A character that stands for itself in a quoted string. -/
def qdtext (b : UInt8) : Bool :=
  b = 9 || b = 32 || b = 33 || (35 ≤ b && b ≤ 91) || (93 ≤ b && b ≤ 126) || 128 ≤ b

/-- A character that may follow a backslash. -/
def escapable (b : UInt8) : Bool := b = 9 || (32 ≤ b && b ≤ 126) || 128 ≤ b

/-- What may stand between two quotes. -/
inductive QuotedText : Bytes → Prop
  | nil : QuotedText []
  | char {b : UInt8} {s : Bytes} (hb : qdtext b = true) (hs : QuotedText s) : QuotedText (b :: s)
  | pair {b : UInt8} {s : Bytes} (hb : escapable b = true) (hs : QuotedText s) :
      QuotedText (92 :: b :: s)

/-- The argument of a directive: a token or a quoted string. -/
inductive Argument where
  | token (value : Token)
  | quoted (content : Bytes) (h : QuotedText content)

/-- The argument as it stands in the line. -/
def Argument.text : Argument → Bytes
  | .token value => value.text
  | .quoted content _ => 34 :: (content ++ [34])

/-- A directive: a token, optionally followed by `=` and an argument. -/
structure Directive where
  name : Token
  argument : Option Argument

/-- The directive as it stands in the line. -/
def Directive.text (d : Directive) : Bytes :=
  match d.argument with
  | none => d.name.text
  | some a => d.name.text ++ 61 :: a.text

/-- Optional whitespace. -/
def Ows (s : Bytes) : Prop := ∀ b ∈ s, b = 32 ∨ b = 9

/-- What stands between two commas: a directive or nothing, with whitespace around it. -/
structure Element where
  before : Bytes
  directive : Option Directive
  behind : Bytes
  ows_before : Ows before
  ows_behind : Ows behind

/-- The element as it stands in the line. -/
def Element.text (e : Element) : Bytes :=
  e.before ++ ((e.directive.map Directive.text).getD [] ++ e.behind)

/-- A header line with a well-formed `Cache-Control` value, as libcurl hands it over or
without its end: at most one of the directives is named `max-age`, and its argument is a
string of digits. -/
structure Line where
  field : Token
  elements : List Element
  line_end : Bytes
  ends : line_end = [] ∨ line_end = [13, 10]
  once : ((elements.filterMap Element.directive).filter fun d => IsMaxAge d.name.text).length ≤ 1
  digits : ∀ d ∈ elements.filterMap Element.directive, IsMaxAge d.name.text →
    ∃ value, d.argument = some (.token value) ∧ ∀ b ∈ value.text, isdigit b = true

/-- The directives of a line. -/
def Line.directives (l : Line) : List Directive := l.elements.filterMap Element.directive

/-- The value of the field. -/
def Line.value (l : Line) : Bytes := [44].intercalate (l.elements.map Element.text)

/-- The whole line. -/
def Line.text (l : Line) : Bytes := l.field.text ++ 58 :: (l.value ++ l.line_end)

/-- The field is `cache-control`, in any letter case. -/
def Line.IsCacheControl (l : Line) : Prop := l.field.text.map Regex.tolower = bytes "cache-control"

/-- `v` is the decimal value of `ds`, and an `int` can hold it. -/
def IntValue (ds : Bytes) (v : ℤ) : Prop := v = nat_of_digits ds ∧ v ≤ 2 ^ 31 - 1

/-- There is a directive `max-age` with the value `v`. -/
def Line.HasMaxAge (l : Line) (v : ℤ) : Prop :=
  ∃ d ∈ l.directives, IsMaxAge d.name.text ∧
    ∃ value, d.argument = some (.token value) ∧ IntValue value.text v

/-- Somewhere in the text of the directive there is a `max-age`, an `=` and digits, and `ds`
are the digits of the last such place: the name ends in `max-age`, or it is in the quotes. -/
def Directive.Shows (d : Directive) (ds : Bytes) : Prop :=
  match d.argument with
  | none => False
  | some (.token value) =>
      (∃ name, name <:+ d.name.text ∧ IsMaxAge name) ∧ LeadingDigits ds value.text
  | some (.quoted content _) => LastReads content ds

/-- In a `cache-control` line, the last directive that shows a `max-age` is not the directive
of that name, and its digits are not the number the header gives. -/
def Line.Misread (l : Line) : Prop :=
  l.IsCacheControl ∧ ∃ before d after ds, l.directives = before ++ d :: after ∧
    ¬IsMaxAge d.name.text ∧ d.Shows ds ∧ (∀ e ∈ after, ∀ es, ¬e.Shows es) ∧
    ¬∀ v, IntValue ds v ↔ l.HasMaxAge v

/-! ## What the expression reads in a line -/

theorem tchar_facts : ∀ b, tchar b = true →
    isspace b = false ∧ b ≠ 61 ∧ b ≠ 58 ∧ Regex.dot b = true :=
  forall_byte (by decide +kernel)

theorem dot_of_qdtext : ∀ b, qdtext b = true → Regex.dot b = true :=
  forall_byte (by decide +kernel)

theorem dot_of_escapable : ∀ b, escapable b = true → Regex.dot b = true :=
  forall_byte (by decide +kernel)

theorem foreign_comma : Foreign 44 := ⟨by decide, by decide, by decide, by decide⟩

theorem foreign_quote : Foreign 34 := ⟨by decide, by decide, by decide, by decide⟩

theorem Ows.blank {s : Bytes} (h : Ows s) : Blank s := by
  intro b hb
  rcases h b hb with rfl | rfl <;> rfl

theorem Ows.no_digits {s : Bytes} (h : Ows s) : ∀ b ∈ s, isdigit b = false :=
  fun b hb => isdigit_eq_false_of_isspace (h.blank b hb)

/-- Whitespace among token characters is no whitespace. -/
theorem eq_nil_of_blank {w s : Bytes} (hw : Blank w) (hs : ∀ b ∈ s, tchar b = true) (h : w ⊆ s) :
    w = [] := by
  cases w with
  | nil => rfl
  | cons b w =>
    have hspace := hw b List.mem_cons_self
    have htoken := (tchar_facts b (hs b (h List.mem_cons_self))).1
    exact absurd (hspace.symm.trans htoken) (by decide)

/-- In an assignment between tokens there is one place to read: where the name has just
`max-age` left. -/
theorem reads_suffix_iff {n a t ds : Bytes} (hn : ∀ b ∈ n, tchar b = true) (ha : ∀ b ∈ a, tchar b = true)
    (ht : t <:+ n ++ 61 :: a) :
    Reads t ds ↔ ∃ m, m <:+ n ∧ t = m ++ 61 :: a ∧ IsMaxAge m ∧ LeadingDigits ds a := by
  constructor
  · rintro ⟨name, before, behind, rest, rfl, hname, hbefore, hbehind, hds⟩
    obtain ⟨x, hx⟩ := ht
    have hsplit : n ++ 61 :: a = (x ++ (name ++ before)) ++ 61 :: (behind ++ rest) := by
      rw [← hx]
      simp
    have hna : ∀ s : Bytes, (∀ b ∈ s, tchar b = true) → 61 ∉ s := fun s hs hmem =>
      (tchar_facts 61 (hs 61 hmem)).2.1 rfl
    -- the `=` of the reading is the only one there is
    obtain ⟨hleft, -, hright⟩ := (List.append_cons_inj_of_notMem (hna n hn) (hna a ha)).mp hsplit
    obtain rfl := eq_nil_of_blank hbefore hn (by rw [hleft]; intro b hb; simp [hb])
    obtain rfl := eq_nil_of_blank hbehind ha (by rw [hright]; intro b hb; simp [hb])
    rw [List.nil_append] at hright
    subst hright
    exact ⟨name, ⟨x, by rw [hleft, List.append_nil]⟩, rfl, hname, hds⟩
  · rintro ⟨m, -, rfl, hm, hds⟩
    exact ⟨m, [], [], a, rfl, hm, by simp [Blank], by simp [Blank], hds⟩

theorem IsMaxAge.length {m : Bytes} (h : IsMaxAge m) : m.length = 7 := by
  rw [← List.length_map (f := Regex.tolower), h]
  rfl

theorem last_read_assignment_iff {n a ds : Bytes} (hn : ∀ b ∈ n, tchar b = true)
    (ha : ∀ b ∈ a, tchar b = true) :
    last_read (n ++ 61 :: a) = some ds ↔ (∃ m, m <:+ n ∧ IsMaxAge m) ∧ LeadingDigits ds a := by
  rw [last_read_eq_some_iff]
  constructor
  · rintro ⟨t, ht, hreads, -⟩
    obtain ⟨m, hm, -, hmax, hds⟩ := (reads_suffix_iff hn ha ht).mp hreads
    exact ⟨⟨m, hm, hmax⟩, hds⟩
  · rintro ⟨⟨m, hm, hmax⟩, hds⟩
    have ht : m ++ 61 :: a <:+ n ++ 61 :: a := by
      obtain ⟨x, rfl⟩ := hm
      exact ⟨x, by simp⟩
    refine ⟨m ++ 61 :: a, ht, (reads_suffix_iff hn ha ht).mpr ⟨m, hm, rfl, hmax, hds⟩, ?_⟩
    -- any other place would leave as much of the name
    intro u hu hne es hreads
    obtain ⟨k, -, rfl, hkmax, -⟩ := (reads_suffix_iff hn ha (hu.trans ht)).mp hreads
    exact hne (hu.eq_of_length (by simp [hmax.length, hkmax.length]))

/-- The last reading in a directive is the one it shows. -/
theorem last_read_directive_iff (d : Directive) (ds : Bytes) :
    last_read d.text = some ds ↔ d.Shows ds := by
  have hname := d.name.tchars
  unfold Directive.text Directive.Shows
  rcases d.argument with _ | (value | ⟨content, hcontent⟩)
  · -- without an `=` there is nothing to read
    refine iff_of_false (fun h => ?_) (fun h => h)
    obtain ⟨t, ht, ⟨name, before, behind, rest, rfl, -⟩, -⟩ := (last_read_eq_some_iff _ ds).mp h
    have hmem : 61 ∈ d.name.text := ht.subset (by simp)
    exact (tchar_facts 61 (hname 61 hmem)).2.1 rfl
  · exact last_read_assignment_iff hname value.tchars
  · -- no reading reaches over a quote, so the one in the quotes is there alone
    have htext : d.name.text ++ 61 :: (Argument.quoted content hcontent).text
        = (d.name.text ++ [61]) ++ 34 :: (content ++ 34 :: []) := by
      simp [Argument.text]
    have hfirst : last_read (d.name.text ++ [61]) = none := by
      refine Option.eq_none_iff_forall_ne_some.mpr fun es h => ?_
      have hes := ((last_read_assignment_iff hname (by simp)).mp h).2
      obtain ⟨rest, hrest, -⟩ := hes.maximal
      exact hes.nonempty (List.append_eq_nil_iff.mp hrest.symm).1
    dsimp only
    rw [htext, last_read_append_cons foreign_quote, last_read_append_cons foreign_quote, hfirst,
      Option.or_none, last_read, Option.none_or, last_read_eq_some_iff]

/-- Whitespace around a directive shows nothing. -/
theorem last_read_element (e : Element) :
    last_read e.text = e.directive.bind fun d => last_read d.text := by
  unfold Element.text
  rw [last_read_blank_append e.ows_before.blank, last_read_append_of_no_digits e.ows_behind.no_digits]
  cases e.directive with
  | none => rfl
  | some d => rfl

theorem last_read_elements (es : List Element) :
    last_read ([44].intercalate (es.map Element.text))
      = (es.filterMap Element.directive).reverse.findSome? fun d => last_read d.text := by
  induction es with
  | nil => rfl
  | cons e es ih =>
    -- nor does any reach over a comma
    have hstep : last_read ([44].intercalate ((e :: es).map Element.text))
        = (last_read ([44].intercalate (es.map Element.text))).or (last_read e.text) := by
      cases es with
      | nil => simp [last_read]
      | cons f es =>
        rw [List.map_cons, List.map_cons, List.intercalate_cons_cons, List.append_assoc,
          List.singleton_append, last_read_append_cons foreign_comma]
    rw [hstep, ih, last_read_element]
    cases hd : e.directive with
    | none => simp [hd]
    | some d => simp [hd]

/-- The last reading in a line is that of the last directive that shows one. -/
theorem last_read_value_iff (l : Line) (ds : Bytes) :
    last_read l.value = some ds ↔ ∃ before d after, l.directives = before ++ d :: after ∧
      d.Shows ds ∧ ∀ e ∈ after, ∀ es, ¬e.Shows es := by
  unfold Line.value Line.directives
  rw [last_read_elements, List.findSome?_eq_some_iff]
  simp only [last_read_directive_iff, Option.eq_none_iff_forall_ne_some, ne_eq]
  constructor
  · rintro ⟨after, d, before, h, hd, hafter⟩
    refine ⟨before.reverse, d, after.reverse, ?_, hd, fun e he => hafter e (List.mem_reverse.mp he)⟩
    rw [← List.reverse_reverse (List.filterMap _ _), h]
    simp
  · rintro ⟨before, d, after, h, hd, hafter⟩
    refine ⟨after.reverse, d, before.reverse, ?_, hd, fun e he => hafter e (List.mem_reverse.mp he)⟩
    rw [h]
    simp

theorem last_read_value_eq_none {l : Line} (h : last_read l.value = none) {d : Directive}
    (hd : d ∈ l.directives) (ds : Bytes) : ¬d.Shows ds := by
  unfold Line.value at h
  rw [last_read_elements, List.findSome?_eq_none_iff] at h
  rw [← last_read_directive_iff, h d (List.mem_reverse.mpr hd)]
  exact (Option.some_ne_none ds).symm

/-! ### Up to the end of the line -/

theorem QuotedText.dot {s : Bytes} (h : QuotedText s) : ∀ b ∈ s, Regex.dot b = true := by
  induction h with
  | nil => simp
  | char hb _ ih => exact List.forall_mem_cons.mpr ⟨dot_of_qdtext _ hb, ih⟩
  | pair hb _ ih =>
    exact List.forall_mem_cons.mpr ⟨by decide, List.forall_mem_cons.mpr ⟨dot_of_escapable _ hb, ih⟩⟩

theorem Token.dot (t : Token) : ∀ b ∈ t.text, Regex.dot b = true :=
  fun b hb => (tchar_facts b (t.tchars b hb)).2.2.2

theorem Directive.dot (d : Directive) : ∀ b ∈ d.text, Regex.dot b = true := by
  have hargument (a : Argument) : ∀ b ∈ a.text, Regex.dot b = true := by
    cases a with
    | token value => exact value.dot
    | quoted content h =>
      refine List.forall_mem_cons.mpr ⟨by decide, List.forall_mem_append.mpr ⟨h.dot, ?_⟩⟩
      simp [Regex.dot]
  unfold Directive.text
  rcases d.argument with _ | a
  · exact d.name.dot
  · exact List.forall_mem_append.mpr
      ⟨d.name.dot, List.forall_mem_cons.mpr ⟨by decide, hargument a⟩⟩

theorem Ows.dot {s : Bytes} (h : Ows s) : ∀ b ∈ s, Regex.dot b = true := by
  intro b hb
  rcases h b hb with rfl | rfl <;> rfl

theorem Element.dot (e : Element) : ∀ b ∈ e.text, Regex.dot b = true := by
  refine List.forall_mem_append.mpr ⟨e.ows_before.dot, List.forall_mem_append.mpr ⟨?_, e.ows_behind.dot⟩⟩
  cases e.directive with
  | none => simp
  | some d => exact d.dot

theorem Line.value_dot (l : Line) : ∀ b ∈ l.value, Regex.dot b = true := by
  unfold Line.value
  induction l.elements with
  | nil => simp
  | cons e es ih =>
    cases es with
    | nil => simpa using e.dot
    | cons f es =>
      rw [List.map_cons, List.map_cons, List.intercalate_cons_cons]
      refine List.forall_mem_append.mpr ⟨List.forall_mem_append.mpr ⟨e.dot, by simp [Regex.dot]⟩, ?_⟩
      exact ih

/-- `.*` goes to the end of the line and comes back to the last reading. -/
theorem group_at_star_dot {s line_end : Bytes} (hs : ∀ b ∈ s, Regex.dot b = true)
    (hend : line_end = [] ∨ line_end = [13, 10]) :
    Regex.group_at (.seq (.star Regex.dot) max_age_regex) (s ++ line_end) = last_read s := by
  have hreads (x ds : Bytes) : Reads (x ++ line_end) ds ↔ Reads x ds :=
    reads_append_of_no_digits (by rcases hend with rfl | rfl <;> simp [isdigit]) x ds
  induction s with
  | nil => rcases hend with rfl | rfl <;> decide
  -- the longest run of `.` is tried first, which is the last place
  | cons b s ih =>
    obtain ⟨hb, hs⟩ := List.forall_mem_cons.mp hs
    have hhere : Regex.group_at max_age_regex (b :: (s ++ line_end))
        = Regex.group_at max_age_regex (b :: s) :=
      group_at_max_age_congr (hreads (b :: s))
    rw [List.cons_append, Regex.group_at_seq_star (by decide), if_pos hb, ih hs, hhere, last_read]

theorem parse_cache_control_eq (header : Bytes) :
    parse_cache_control header = (Regex.group_at cache_control_regex header).bind from_chars := by
  unfold parse_cache_control Regex.group_at Regex.captures Regex.match_at
  rw [List.head?_map]
  rcases (cache_control_regex.run header).head? with _ | ⟨text, rest, _ | ⟨g, gs⟩⟩
  · rfl
  · rfl
  · rfl

/-- The expression starts to match a line if the field is the right one. -/
theorem match_row_line_iff (l : Line) (a r : Bytes) :
    Regex.match_row ((bytes "cache-control:").map Regex.lit_icase) l.text = some (a, r) ↔
      l.IsCacheControl ∧ a = l.field.text ++ [58] ∧ r = l.value ++ l.line_end := by
  have hcolon : ∀ c, Regex.tolower c = 58 → c = 58 := forall_byte (by decide +kernel)
  have hfield : ∀ b ∈ l.field.text, (b != 58) = true := fun b hb =>
    bne_iff_ne.mpr (tchar_facts b (l.field.tchars b hb)).2.2.1
  rw [Regex.match_row_eq_some_iff, Regex.forall₂_lit_icase]
  constructor
  · rintro ⟨htext, ha⟩
    have hname : a.map Regex.tolower = bytes "cache-control" ++ [58] := ha
    obtain ⟨name, colon, rfl, hcc, hlast⟩ := List.map_eq_append_iff.mp hname
    obtain ⟨c, rfl, hc⟩ : ∃ c, colon = [c] ∧ Regex.tolower c = 58 := by
      obtain ⟨c, x, rfl, hc, hx⟩ := List.map_eq_cons_iff.mp hlast
      rw [List.map_eq_nil_iff.mp hx]
      exact ⟨c, rfl, hc⟩
    obtain rfl := hcolon c hc
    -- the colon of the expression is the first colon of the line
    have hnocolon : ∀ b ∈ name, (b != 58) = true := by
      intro b hb
      have hmem : Regex.tolower b ∈ bytes "cache-control" := hcc ▸ List.mem_map_of_mem hb
      rw [bne_iff_ne]
      rintro rfl
      exact absurd hmem (by decide)
    rw [List.append_assoc, List.singleton_append] at htext
    have heq := congrArg (List.takeWhile (· != 58)) htext
    unfold Line.text at heq htext
    rw [takeWhile_append_of_head? hfield (by simp), takeWhile_append_of_head? hnocolon (by simp)] at heq
    rw [heq] at htext
    refine ⟨by rw [Line.IsCacheControl, heq]; exact hcc, by rw [heq], ?_⟩
    exact (List.cons.inj (List.append_cancel_left htext)).2.symm
  · rintro ⟨hcc, rfl, rfl⟩
    refine ⟨by simp [Line.text], ?_⟩
    rw [List.map_append, hcc]
    rfl

/-- **What `parse_cache_control` says about a line.** -/
theorem parse_cache_control_eq_some_iff (l : Line) (v : ℤ) :
    parse_cache_control l.text = some v ↔
      l.IsCacheControl ∧ ∃ ds, last_read l.value = some ds ∧ IntValue ds v := by
  have hint (ds : Bytes) : from_chars ds = some v ↔ IntValue ds v := by
    unfold from_chars IntValue
    rw [Option.ite_none_right_eq_some, Option.some.injEq]
    omega
  -- first the name of the header, then the last `max-age` in the value
  have hgroup : Regex.group_at cache_control_regex l.text = ((Regex.match_row
      ((bytes "cache-control:").map Regex.lit_icase) l.text).bind fun m =>
        Regex.group_at (.seq (.star Regex.dot) max_age_regex) m.2) :=
    Regex.group_at_seq_classes _ _ _
  rw [parse_cache_control_eq, Option.bind_eq_some_iff]
  simp only [hint, hgroup, Option.bind_eq_some_iff]
  constructor
  · rintro ⟨ds, ⟨⟨a, r⟩, hrow, hds⟩, hv⟩
    obtain ⟨hcc, rfl, rfl⟩ := (match_row_line_iff l a r).mp hrow
    exact ⟨hcc, ds, (group_at_star_dot l.value_dot l.ends).symm.trans hds, hv⟩
  · rintro ⟨hcc, ds, hds, hv⟩
    exact ⟨ds, ⟨_, (match_row_line_iff l _ _).mpr ⟨hcc, rfl, rfl⟩,
      (group_at_star_dot l.value_dot l.ends).trans hds⟩, hv⟩

/-! ## The header and the reading -/

/-- The directive `max-age` shows its own digits and nothing else. -/
theorem Line.shows_iff {l : Line} {d : Directive} (hd : d ∈ l.directives)
    (hmax : IsMaxAge d.name.text) (ds : Bytes) :
    d.Shows ds ↔ ∃ value, d.argument = some (.token value) ∧ value.text = ds := by
  obtain ⟨value, harg, hdigits⟩ := l.digits d hd hmax
  unfold Directive.Shows
  rw [harg]
  constructor
  · rintro ⟨-, -, -, rest, htext, hrest⟩
    refine ⟨value, rfl, ?_⟩
    cases rest with
    | nil => rw [htext, List.append_nil]
    | cons b rest =>
      have hdigit := hdigits b (by rw [htext]; simp)
      exact absurd (hdigit.symm.trans (hrest b rfl)) (by decide)
  · rintro ⟨value', heq, rfl⟩
    obtain rfl := Argument.token.inj (Option.some.inj heq)
    exact ⟨⟨d.name.text, List.suffix_rfl, hmax⟩, value.nonempty, hdigits, [], by simp, by simp⟩

theorem Line.eq_of_isMaxAge {l : Line} {d e : Directive} (hd : d ∈ l.directives)
    (he : e ∈ l.directives) (hdmax : IsMaxAge d.name.text) (hemax : IsMaxAge e.name.text) : d = e := by
  have honce := l.once
  have hdmem : d ∈ l.directives.filter fun d => IsMaxAge d.name.text :=
    List.mem_filter.mpr ⟨hd, by simpa using hdmax⟩
  have hemem : e ∈ l.directives.filter fun d => IsMaxAge d.name.text :=
    List.mem_filter.mpr ⟨he, by simpa using hemax⟩
  obtain ⟨i, hi, rfl⟩ := List.getElem_of_mem hdmem
  obtain ⟨j, hj, rfl⟩ := List.getElem_of_mem hemem
  change (l.directives.filter _).length ≤ 1 at honce
  obtain rfl : i = j := by omega
  rfl

/-- **`parse_cache_control` reads the `max-age` directive and nothing else** in every line that
is not misread, and in no other. -/
theorem parse_cache_control_reads_max_age_iff (l : Line) :
    (∀ v, parse_cache_control l.text = some v ↔ l.IsCacheControl ∧ l.HasMaxAge v) ↔
      ¬l.Misread := by
  constructor
  · rintro hall ⟨hcc, before, d, after, ds, hsplit, -, hshows, hafter, hvalue⟩
    have hread := (last_read_value_iff l ds).mpr ⟨before, d, after, hsplit, hshows, hafter⟩
    refine hvalue fun v => ?_
    have hv := (parse_cache_control_eq_some_iff l v).symm.trans (hall v)
    simpa [hcc, hread] using hv
  · intro hread v
    rw [parse_cache_control_eq_some_iff]
    refine and_congr_right fun hcc => ?_
    rcases hlast : last_read l.value with _ | ds
    · -- nothing is read, so the directive is not there
      refine iff_of_false (by simp) ?_
      rintro ⟨d, hd, hmax, value, harg, -⟩
      exact last_read_value_eq_none hlast hd value.text ((l.shows_iff hd hmax _).mpr ⟨value, harg, rfl⟩)
    · -- the last directive that shows one is read: it is `max-age`, or the line is misread
      obtain ⟨before, d, after, hsplit, hshows, hafter⟩ := (last_read_value_iff l ds).mp hlast
      have hd : d ∈ l.directives := by rw [hsplit]; simp
      have hval : IntValue ds v ↔ l.HasMaxAge v := by
        by_cases hmax : IsMaxAge d.name.text
        · obtain ⟨value, harg, rfl⟩ := (l.shows_iff hd hmax ds).mp hshows
          constructor
          · exact fun hv => ⟨d, hd, hmax, value, harg, hv⟩
          · rintro ⟨e, he, hemax, value', harg', hv⟩
            rw [l.eq_of_isMaxAge he hd hemax hmax, harg] at harg'
            obtain rfl := Argument.token.inj (Option.some.inj harg')
            exact hv
        · by_contra hne
          exact hread ⟨hcc, before, d, after, ds, hsplit, hmax, hshows, hafter, fun h => hne (h v)⟩
      simpa using hval

/-- A token, checked by evaluation. -/
def Token.of (text : Bytes) (h : text ≠ [] ∧ text.all tchar = true) : Token :=
  ⟨text, h.1, List.all_eq_true.mp h.2⟩

/-- `max-age=60` -/
def sixty : Directive :=
  ⟨.of (bytes "max-age") (by decide), some (.token (.of (bytes "60") (by decide)))⟩

/-- `x-max-age=5`: the name ends in the letters looked for. -/
def five : Directive :=
  ⟨.of (bytes "x-max-age") (by decide), some (.token (.of (bytes "5") (by decide)))⟩

/-- Both in one line. -/
def extension_line : Line where
  field := .of (bytes "Cache-Control") (by decide)
  elements := [sixty, five].map fun d => ⟨[32], some d, [], by simp [Ows], by simp [Ows]⟩
  line_end := [13, 10]
  ends := .inr rfl
  once := by decide
  digits := by
    show ∀ d ∈ [sixty, five], _
    refine List.forall_mem_cons.mpr ⟨fun _ => ⟨_, rfl, List.all_eq_true.mp (by decide)⟩, ?_⟩
    exact List.forall_mem_singleton.mpr fun h => absurd h (by decide)

/-- The number is taken from the other directive. -/
theorem max_age_from_extension :
    extension_line.text = bytes "Cache-Control: max-age=60, x-max-age=5\r\n" ∧
      parse_cache_control extension_line.text = some 5 ∧
      ¬∀ v, parse_cache_control extension_line.text = some v ↔
        extension_line.IsCacheControl ∧ extension_line.HasMaxAge v := by
  have hfive : parse_cache_control extension_line.text = some 5 := by decide
  refine ⟨by decide, hfive, fun hall => ?_⟩
  have hsixty : extension_line.HasMaxAge 60 :=
    ⟨sixty, List.mem_cons_self, by decide, _, rfl, by decide, by decide⟩
  have hread := (hall 60).mpr ⟨rfl, hsixty⟩
  rw [hfive] at hread
  exact absurd hread (by decide)

end OidcValidator.CacheControl
