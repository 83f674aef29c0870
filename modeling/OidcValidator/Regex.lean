/-
`Regex.lean` -- the fragment of ECMAScript regular expressions the source uses.

A regular expression is run as a list of successes: every way it can match at the
start of a text, in the order a backtracking matcher tries them. The first element is
then the match, and a greedy star is one that lists its longest run first.

`std::regex_search` returns the leftmost match; [`search`] tries the starting points
in order.

Nothing in this file knows what is being searched for.
-/
import OidcValidator.ByteString
import Mathlib.Data.List.Forall2

set_option autoImplicit false

namespace OidcValidator.Regex

open OidcValidator.ByteString

/-! ## Expressions -/

/-- A character class. -/
abbrev Class := UInt8 → Bool

/-- Character classes, greedy repetition of a class, concatenation and one kind of
group. -/
inductive Expr where
  | empty
  | char (p : Class)
  | star (p : Class)
  | seq (r s : Expr)
  | group (r : Expr)

/-- One way to match: the matched text, the text behind it, and the groups. -/
structure Match where
  text : Bytes
  rest : Bytes
  groups : List Bytes
  deriving DecidableEq

/-- The runs of `p` at the start of a text, longest first. -/
def runs (p : Class) : Bytes → List Match
  | [] => [⟨[], [], []⟩]
  | b :: s =>
      if p b then (runs p s).map (fun m => { m with text := b :: m.text }) ++ [⟨[], b :: s, []⟩]
      else [⟨[], b :: s, []⟩]

/-- Every match at the start of a text, in backtracking order. -/
def Expr.run : Expr → Bytes → List Match
  | .empty, s => [⟨[], s, []⟩]
  | .char _, [] => []
  | .char p, b :: s => if p b then [⟨[b], s, []⟩] else []
  | .star p, s => runs p s
  | .seq r t, s =>
      (r.run s).flatMap fun m =>
        (t.run m.rest).map fun n => ⟨m.text ++ n.text, n.rest, m.groups ++ n.groups⟩
  | .group r, s => (r.run s).map fun m => { m with groups := m.text :: m.groups }

/-- The match at the start of a text, as for an expression that begins with `^`. -/
def match_at (r : Expr) (s : Bytes) : Option Match := (r.run s).head?

/-- `std::regex_search`: the leftmost match. -/
def search (r : Expr) (s : Bytes) : Option Match := s.tails.findSome? (match_at r)

/-! ## Building expressions -/

/-- A sequence of single characters, each from its own class. -/
def classes : List Class → Expr
  | [] => .empty
  | p :: ps => .seq (.char p) (classes ps)

/-- `p+`. -/
def plus (p : Class) : Expr := .seq (.char p) (.star p)

/-- A literal character. -/
def lit (c : UInt8) : Class := fun b => b = c

/-- Lower case of an ASCII letter. -/
def tolower (b : UInt8) : UInt8 := if 65 ≤ b ∧ b ≤ 90 then b + 32 else b

/-- A literal character under `std::regex_constants::icase`. -/
def lit_icase (c : UInt8) : Class := fun b => tolower b = tolower c

/-- `.`, which does not match a line terminator. -/
def dot : Class := fun b => b ≠ 10 ∧ b ≠ 13

/-! ## Single characters in a row

An expression without repetition has at most one match at a place, and whether it
matches there depends on as many characters as it is long. -/

/-- The matcher for a row of classes, without the list of successes. -/
def match_row : List Class → Bytes → Option (Bytes × Bytes)
  | [], s => some ([], s)
  | _ :: _, [] => none
  | p :: ps, b :: s => if p b then (match_row ps s).map (fun m => (b :: m.1, m.2)) else none

theorem classes_run (ps : List Class) (s : Bytes) :
    (classes ps).run s = ((match_row ps s).map fun m => ⟨m.1, m.2, []⟩).toList := by
  induction ps generalizing s with
  | nil => rfl
  | cons p ps ih =>
      cases s with
      | nil => rfl
      | cons b s =>
          simp only [classes, Expr.run, match_row]
          split_ifs
          · simp only [List.flatMap_cons, List.flatMap_nil, List.append_nil, ih]
            cases match_row ps s <;> rfl
          · rfl

theorem match_at_classes (ps : List Class) (s : Bytes) :
    match_at (classes ps) s = (match_row ps s).map fun m => ⟨m.1, m.2, []⟩ := by
  unfold match_at
  rw [classes_run]
  cases match_row ps s <;> rfl

/-- A row takes as many characters as it is long, each from its class. -/
theorem match_row_eq_some_iff {ps : List Class} {s a r : Bytes} :
    match_row ps s = some (a, r) ↔ s = a ++ r ∧ List.Forall₂ (fun p b => p b = true) ps a := by
  induction ps generalizing s a with
  | nil =>
      simp only [match_row, Option.some.injEq, Prod.mk.injEq, List.forall₂_nil_left_iff]
      constructor
      · rintro ⟨rfl, rfl⟩
        exact ⟨rfl, rfl⟩
      · rintro ⟨rfl, rfl⟩
        exact ⟨rfl, rfl⟩
  | cons p ps ih =>
      rw [List.forall₂_cons_left_iff]
      cases s with
      | nil =>
          refine iff_of_false nofun ?_
          rintro ⟨heq, b, a, -, -, rfl⟩
          exact absurd heq nofun
      | cons b s =>
          -- the first class decides on the first character, the rest is the hypothesis
          simp only [match_row]
          split_ifs with hb
          · constructor
            · intro h
              obtain ⟨⟨a', r'⟩, hm, heq⟩ := Option.map_eq_some_iff.mp h
              obtain ⟨rfl, rfl⟩ := Prod.mk.inj heq
              obtain ⟨rfl, hall⟩ := ih.mp hm
              exact ⟨rfl, b, a', hb, hall, rfl⟩
            · rintro ⟨heq, b', a', hb', hall, rfl⟩
              obtain ⟨rfl, hs⟩ := List.cons.inj heq
              rw [ih.mpr ⟨hs, hall⟩]
              rfl
          · refine iff_of_false nofun ?_
            rintro ⟨heq, b', a', hb', hall, rfl⟩
            obtain ⟨rfl, -⟩ := List.cons.inj heq
            exact hb hb'

/-- A character that is in none of the classes cuts the text off: nothing behind it can
take part in a match that starts before it. -/
theorem match_row_append_cons {c : UInt8} (ps : List Class) (hc : ∀ p ∈ ps, p c = false)
    (b t : Bytes) :
    (match_row ps (b ++ c :: t)).map Prod.fst
      = if ps = [] then some [] else (match_row ps b).map Prod.fst := by
  induction ps generalizing b with
  | nil => rfl
  | cons p ps ih =>
      rw [if_neg (List.cons_ne_nil p ps)]
      cases b with
      | nil => simp [match_row, hc p List.mem_cons_self]
      | cons x b =>
          simp only [List.cons_append, match_row]
          -- the first character decides alike on both sides
          split_ifs
          · have := ih (fun q hq => hc q (List.mem_cons_of_mem p hq)) b
            split_ifs at this with hps
            · subst hps; rfl
            · cases h₁ : match_row ps (b ++ c :: t) <;> cases h₂ : match_row ps b <;>
                rw [h₁, h₂] at this <;> simp at this ⊢
              exact this
          · rfl

/-- The text a search for a row finds. -/
def search_row (ps : List Class) (s : Bytes) : Option Bytes := (search (classes ps) s).map Match.text

theorem search_row_nil {ps : List Class} (hps : ps ≠ []) : search_row ps [] = none := by
  cases ps with
  | nil => exact absurd rfl hps
  | cons p ps => rfl

theorem search_row_cons (ps : List Class) (b : UInt8) (s : Bytes) :
    search_row ps (b :: s) = ((match_row ps (b :: s)).map Prod.fst).or (search_row ps s) := by
  unfold search_row search
  rw [List.tails_cons, List.findSome?_cons, match_at_classes]
  cases match_row ps (b :: s) <;> rfl

theorem exists_class_of_mem {ps : List Class} {a : Bytes} {b : UInt8}
    (h : List.Forall₂ (fun p b => p b = true) ps a) (hb : b ∈ a) : ∃ p ∈ ps, p b = true := by
  induction h with
  | nil => exact absurd hb List.not_mem_nil
  | @cons p x ps a hx _ ih =>
      rcases List.mem_cons.mp hb with rfl | hb
      · exact ⟨p, List.mem_cons_self, hx⟩
      · obtain ⟨q, hq, hqb⟩ := ih hb
        exact ⟨q, List.mem_cons_of_mem p hq, hqb⟩

/-- What a search finds is a text for the row. -/
theorem forall₂_of_search_row {ps : List Class} {s a : Bytes} (h : search_row ps s = some a) :
    List.Forall₂ (fun p b => p b = true) ps a := by
  obtain ⟨m, hm, rfl⟩ := Option.map_eq_some_iff.mp h
  obtain ⟨t, -, hmatch⟩ := List.exists_of_findSome?_eq_some hm
  rw [match_at_classes] at hmatch
  obtain ⟨⟨a, r⟩, hrow, rfl⟩ := Option.map_eq_some_iff.mp hmatch
  exact (match_row_eq_some_iff.mp hrow).2

/-- A search that starts at a text for the row finds it. -/
theorem search_row_append {ps : List Class} {a : Bytes} (hps : ps ≠ [])
    (h : List.Forall₂ (fun p b => p b = true) ps a) (r : Bytes) :
    search_row ps (a ++ r) = some a := by
  have hrow : match_row ps (a ++ r) = some (a, r) := match_row_eq_some_iff.mpr ⟨rfl, h⟩
  cases h with
  | nil => exact absurd rfl hps
  | @cons p b ps a hb h =>
      rw [List.cons_append, search_row_cons, ← List.cons_append, hrow]
      rfl

/-- Searching across a character that is in none of the classes is searching on its left
first and on its right after that. -/
theorem search_row_append_cons {ps : List Class} {c : UInt8} (hps : ps ≠ [])
    (hc : ∀ p ∈ ps, p c = false) (b t : Bytes) :
    search_row ps (b ++ c :: t) = (search_row ps b).or (search_row ps t) := by
  induction b with
  | nil =>
      rw [List.nil_append, search_row_cons, search_row_nil hps]
      have := match_row_append_cons ps hc [] t
      rw [if_neg hps, List.nil_append] at this
      rw [this]
      cases ps with
      | nil => exact absurd rfl hps
      | cons p ps => rfl
  | cons x b ih =>
      rw [List.cons_append, search_row_cons, ih, search_row_cons, Option.or_assoc]
      have := match_row_append_cons ps hc (x :: b) t
      rw [if_neg hps] at this
      rw [← List.cons_append, this]

/-! ## Groups

What a program reads off a match are its groups. Where several matches are possible, the
order of the successes decides which of them it gets to see. -/

/-- The groups of every match at the start of a text, in backtracking order. -/
def captures (r : Expr) (s : Bytes) : List (List Bytes) := (r.run s).map Match.groups

/-- `match[1]`, for an expression with a group. -/
def group_at (r : Expr) (s : Bytes) : Option Bytes := (captures r s).head?.bind List.head?

theorem captures_seq (r t : Expr) (s : Bytes) :
    captures (.seq r t) s
      = (r.run s).flatMap fun m => (captures t m.rest).map (m.groups ++ ·) := by
  unfold captures
  rw [Expr.run, List.map_flatMap]
  simp only [List.map_map]
  rfl

theorem captures_seq_char (p : Class) (t : Expr) (b : UInt8) (s : Bytes) :
    captures (.seq (.char p) t) (b :: s) = if p b then captures t s else [] := by
  rw [captures_seq, Expr.run]
  split_ifs
  · simp
  · rfl

/-- A row of single characters in front decides where the rest starts. -/
theorem group_at_seq_classes (ps : List Class) (t : Expr) (s : Bytes) :
    group_at (.seq (classes ps) t) s = (match_row ps s).bind fun m => group_at t m.2 := by
  unfold group_at
  rw [captures_seq, classes_run]
  rcases match_row ps s with _ | ⟨a, r⟩
  · rfl
  · simp

theorem captures_seq_star_nil (p : Class) (t : Expr) :
    captures (.seq (.star p) t) [] = captures t [] := by
  simp [captures_seq, Expr.run, runs]

/-- Behind a greedy star comes first what one more character gives. -/
theorem captures_seq_star (p : Class) (t : Expr) (b : UInt8) (s : Bytes) :
    captures (.seq (.star p) t) (b :: s)
      = if p b then captures (.seq (.star p) t) s ++ captures t (b :: s)
        else captures t (b :: s) := by
  rw [captures_seq, captures_seq, Expr.run, Expr.run, runs]
  split_ifs
  · simp [List.flatMap_append, List.flatMap_map]
  · simp

/-- A star gives nothing back to an expression that cannot start with a character of its class. -/
theorem captures_seq_star_of_disjoint {p : Class} {t : Expr}
    (h : ∀ b s, p b = true → captures t (b :: s) = []) (s : Bytes) :
    captures (.seq (.star p) t) s = captures t (s.dropWhile p) := by
  induction s with
  | nil => exact captures_seq_star_nil p t
  | cons b s ih =>
      rw [captures_seq_star]
      split_ifs with hb
      · rw [h b s hb, List.append_nil, ih, List.dropWhile_cons_of_pos hb]
      · rw [List.dropWhile_cons_of_neg hb]

/-- A greedy star takes all it can get first. -/
theorem head?_runs (p : Class) (s : Bytes) :
    (runs p s).head? = some ⟨s.takeWhile p, s.dropWhile p, []⟩ := by
  induction s with
  | nil => rfl
  | cons b s ih =>
      rw [runs]
      split_ifs with hb
      · rw [List.head?_append, List.head?_map, ih, List.takeWhile_cons_of_pos hb,
          List.dropWhile_cons_of_pos hb]
        rfl
      · rw [List.takeWhile_cons_of_neg hb, List.dropWhile_cons_of_neg hb]
        rfl

theorem group_at_plus (p : Class) (b : UInt8) (s : Bytes) :
    group_at (.group (plus p)) (b :: s) = if p b then some (b :: s.takeWhile p) else none := by
  unfold group_at captures plus
  rw [List.head?_map, Expr.run, List.head?_map, Expr.run, Expr.run]
  split_ifs
  · rw [List.flatMap_singleton, List.head?_map, Expr.run, head?_runs]
    rfl
  · rfl

/-- The expression has a group. -/
def Expr.grouped : Expr → Bool
  | .group _ => true
  | .seq r t => r.grouped || t.grouped
  | _ => false

theorem groups_ne_nil_of_grouped {r : Expr} (hr : r.grouped = true) {s : Bytes} {m : Match}
    (hm : m ∈ r.run s) : m.groups ≠ [] := by
  induction r generalizing s m with
  | empty => exact absurd hr (by decide)
  | char p => exact absurd hr nofun
  | star p => exact absurd hr nofun
  | group r ih =>
      obtain ⟨n, -, rfl⟩ := List.mem_map.mp hm
      exact List.cons_ne_nil _ _
  | seq r t ihr iht =>
      obtain ⟨m₁, hm₁, hm⟩ := List.mem_flatMap.mp hm
      obtain ⟨m₂, hm₂, rfl⟩ := List.mem_map.mp hm
      rcases Bool.or_eq_true _ _ |>.mp hr with hr | ht
      · exact List.append_ne_nil_of_left_ne_nil (ihr hr hm₁) _
      · exact List.append_ne_nil_of_right_ne_nil _ (iht ht hm₂)

/-- Behind a greedy star the group is the one of the last place where there is one. -/
theorem group_at_seq_star {t : Expr} (ht : t.grouped = true) (p : Class) (b : UInt8) (s : Bytes) :
    group_at (.seq (.star p) t) (b :: s)
      = if p b then (group_at (.seq (.star p) t) s).or (group_at t (b :: s))
        else group_at t (b :: s) := by
  unfold group_at
  rw [captures_seq_star]
  split_ifs
  · rw [List.head?_append]
    rcases hhead : (captures (.seq (.star p) t) s).head? with _ | g
    · rfl
    · have hg : g ≠ [] := by
        obtain ⟨m, hm, rfl⟩ := List.mem_map.mp (List.mem_of_mem_head? hhead)
        exact groups_ne_nil_of_grouped (by simp [Expr.grouped, ht]) hm
      obtain ⟨x, g, rfl⟩ := List.exists_cons_of_ne_nil hg
      rfl
  · rfl

/-- Literal characters, with the case left open. -/
theorem forall₂_lit_icase {w a : Bytes} :
    List.Forall₂ (fun p b => p b = true) (w.map lit_icase) a ↔ a.map tolower = w.map tolower := by
  rw [List.forall₂_map_left_iff]
  induction w generalizing a with
  | nil => simp
  | cons c w ih =>
      cases a with
      | nil => simp
      | cons b a =>
          rw [List.forall₂_cons, ih, List.map_cons, List.map_cons, List.cons.injEq, lit_icase,
            decide_eq_true_iff]

end OidcValidator.Regex
