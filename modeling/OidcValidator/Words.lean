/-
`Words.lean` -- what the words of a string are.

`words` in `ByteString.lean` is what a loop of extractions from a string stream does. A word
of a string is a maximal piece of it without whitespace, and [`isWord_iff`] says that these
are what the loop finds.

In between is [`Spells`]: a string spells a list of words if it is these words in this order
with whitespace around and between them. Every string spells one list, and the loop reads it
back.

Nothing in this file knows what the words are for.
-/
import OidcValidator.ByteString

set_option autoImplicit false

namespace OidcValidator.ByteString

/-! ## Words and blanks -/

/-- Whitespace only. -/
def Blank (s : Bytes) : Prop := ∀ b ∈ s, isspace b = true

/-- Not empty, and no whitespace in it. -/
structure Solid (w : Bytes) : Prop where
  nonempty : w ≠ []
  solid : ∀ b ∈ w, isspace b = false

/-- `w` is a maximal piece of `s` without whitespace: a solid piece that neither the byte
before it nor the byte behind it could be added to. -/
structure IsWord (w s : Bytes) : Prop where
  solid : Solid w
  maximal : ∃ a d, s = a ++ w ++ d ∧ (∀ b ∈ a.getLast?, isspace b = true) ∧
    ∀ b ∈ d.head?, isspace b = true

/-- `s` is the words of `l` in their order, with whitespace around and between them. -/
inductive Spells : List Bytes → Bytes → Prop
  | nil {s : Bytes} (hs : Blank s) : Spells [] s
  | last {b w : Bytes} (hb : Blank b) (hw : Solid w) : Spells [w] (b ++ w)
  | cons {b w s : Bytes} {c : UInt8} {l : List Bytes} (hb : Blank b) (hw : Solid w)
      (hc : isspace c = true) (hs : Spells l s) : Spells (w :: l) (b ++ (w ++ c :: s))

/-! ## The loop reads a spelling back -/

theorem Solid.dropWhile {w : Bytes} (hw : Solid w) (s : Bytes) :
    (w ++ s).dropWhile isspace = w ++ s := by
  obtain ⟨hne, hsolid⟩ := hw
  cases w with
  | nil => exact absurd rfl hne
  | cons b w =>
    rw [List.cons_append]
    exact List.dropWhile_cons_of_neg (by simp [hsolid b])

theorem Blank.dropWhile {b : Bytes} (hb : Blank b) (s : Bytes) :
    (b ++ s).dropWhile isspace = s.dropWhile isspace :=
  List.dropWhile_append_of_pos hb

theorem extract_nil (n : ℕ) : extract n [] = [] := by
  cases n with
  | zero => rfl
  | succ n => rfl

/-- An extraction skips whitespace. -/
theorem extract_blank {b : Bytes} (hb : Blank b) (n : ℕ) (s : Bytes) :
    extract n (b ++ s) = extract n s := by
  cases n with
  | zero => rfl
  | succ n =>
    rw [extract, extract, hb.dropWhile]

/-- An extraction takes the word that is there. -/
theorem extract_solid {w : Bytes} (hw : Solid w) (n : ℕ) {s : Bytes}
    (hs : ∀ b ∈ s.head?, isspace b = true) : extract (n + 1) (w ++ s) = w :: extract n s := by
  have htake : (w ++ s).takeWhile (!isspace ·) = w :=
    takeWhile_append_of_head? (by simpa using hw.solid) (by simpa using hs)
  have hdrop : (w ++ s).dropWhile (!isspace ·) = s := by
    rw [List.dropWhile_append_of_pos (by simpa using hw.solid)]
    cases s with
    | nil => rfl
    | cons c s => simp [hs c rfl]
  rw [extract, hw.dropWhile]
  obtain ⟨x, t, hx⟩ := List.exists_cons_of_ne_nil (List.append_ne_nil_of_left_ne_nil hw.nonempty s)
  rw [hx] at htake hdrop ⊢
  dsimp only
  rw [htake, hdrop]

theorem extract_of_spells {l : List Bytes} {s : Bytes} (h : Spells l s) {n : ℕ}
    (hn : s.length ≤ n) : extract n s = l := by
  induction h generalizing n with
  | @nil s hs =>
    rw [← List.append_nil s, extract_blank hs, extract_nil]
  | @last b w hb hw =>
    rw [List.length_append] at hn
    have hlength := List.length_pos_iff.mpr hw.nonempty
    obtain ⟨n, rfl⟩ : ∃ k, n = k + 1 := ⟨n - 1, by omega⟩
    rw [extract_blank hb, ← List.append_nil w, extract_solid hw n (by simp), extract_nil,
      List.append_nil]
  | @cons b w s c l hb hw hc hs ih =>
    simp only [List.length_append, List.length_cons] at hn
    obtain ⟨n, rfl⟩ : ∃ k, n = k + 1 := ⟨n - 1, by omega⟩
    -- the blank behind the word is skipped with the next one
    have hskip : extract n (c :: s) = extract n s :=
      extract_blank (b := [c]) (by simpa [Blank] using hc) n s
    rw [extract_blank hb, extract_solid hw n (by simpa using hc), hskip, ih (by omega)]

/-- The words of a string are those it spells. -/
theorem words_of_spells {l : List Bytes} {s : Bytes} (h : Spells l s) : words s = l :=
  extract_of_spells h le_rfl

/-- Every string spells a list of words. The induction is on the length: what follows the
first word and one whitespace is shorter. -/
theorem exists_spells (s : Bytes) : ∃ l, Spells l s := by
  induction hn : s.length using Nat.strongRecOn generalizing s with
  | ind n ih =>
    have hsplit : s.takeWhile isspace ++ s.dropWhile isspace = s := List.takeWhile_append_dropWhile
    have hblank : Blank (s.takeWhile isspace) := fun b hb => List.mem_takeWhile_imp hb
    -- behind the whitespace is a word, if anything
    rcases hrest : s.dropWhile isspace with _ | ⟨x, t⟩
    · rw [hrest, List.append_nil] at hsplit
      exact ⟨[], .nil (hsplit ▸ hblank)⟩
    · have hx : isspace x = false := by
        have hhead := List.head_dropWhile_not isspace (l := s) (by rw [hrest]; simp)
        simpa [hrest] using hhead
      have hword : Solid ((x :: t).takeWhile (!isspace ·)) := by
        refine ⟨by simp [hx], fun b hb => ?_⟩
        simpa using List.mem_takeWhile_imp hb
      have hcut : (x :: t).takeWhile (!isspace ·) ++ (x :: t).dropWhile (!isspace ·) = x :: t :=
        List.takeWhile_append_dropWhile
      -- and behind the word is a whitespace, if anything
      rcases htail : (x :: t).dropWhile (!isspace ·) with _ | ⟨c, u⟩
      · rw [htail, List.append_nil] at hcut
        rw [hcut] at hword
        exact ⟨[x :: t], by rw [← hsplit, hrest]; exact .last hblank hword⟩
      · have hc : isspace c = true := by
          have hhead := List.head_dropWhile_not (!isspace ·) (l := x :: t) (by rw [htail]; simp)
          simpa [htail] using hhead
        have hshorter : u.length < n := by
          have hlength := congrArg List.length hsplit
          have hlength' := congrArg List.length hcut
          rw [hrest, List.length_append] at hlength
          rw [htail, List.length_append, List.length_cons] at hlength'
          omega
        obtain ⟨l, hl⟩ := ih u.length hshorter u rfl
        have hspells := Spells.cons hblank hword hc hl
        rw [← htail, hcut, ← hrest, hsplit] at hspells
        exact ⟨_, hspells⟩

/-! ## Maximal pieces -/

theorem not_isWord_nil (w : Bytes) : ¬IsWord w [] := by
  rintro ⟨hsolid, a, d, h, -, -⟩
  exact hsolid.nonempty (List.append_eq_nil_iff.mp (List.append_eq_nil_iff.mp h.symm).1).2

/-- A solid string is its only word. -/
theorem Solid.isWord_iff {v : Bytes} (hv : Solid v) (w : Bytes) : IsWord w v ↔ w = v := by
  constructor
  · rintro ⟨hsolid, a, d, rfl, ha, hd⟩
    -- the bytes next to the word would have to be whitespace
    have hbefore : a = [] := by
      by_contra hne
      have hspace := ha (a.getLast hne) (List.getLast?_eq_some_getLast hne)
      have hnot := hv.solid (a.getLast hne) (by simp)
      exact absurd (hspace.symm.trans hnot) (by decide)
    have hbehind : d = [] := by
      by_contra hne
      have hspace := hd (d.head hne) (List.head?_eq_some_head hne)
      have hnot := hv.solid (d.head hne) (by simp)
      exact absurd (hspace.symm.trans hnot) (by decide)
    rw [hbefore, hbehind, List.nil_append, List.append_nil]
  · rintro rfl
    exact ⟨hv, [], [], by simp, by simp, by simp⟩

/-- Behind a whitespace, a piece ends in whitespace if the rest of it does. -/
theorem getLast?_append_cons {c : UInt8} (hc : isspace c = true) (x a : Bytes) :
    (∀ b ∈ (x ++ c :: a).getLast?, isspace b = true) ↔ ∀ b ∈ a.getLast?, isspace b = true := by
  rw [List.getLast?_append, List.getLast?_cons]
  rcases a.getLast? with _ | b
  · simp [hc]
  · simp

theorem head?_append_cons {c : UInt8} (hc : isspace c = true) (d y : Bytes) :
    (∀ b ∈ (d ++ c :: y).head?, isspace b = true) ↔ ∀ b ∈ d.head?, isspace b = true := by
  cases d with
  | nil => simp [hc]
  | cons b d => simp

/-- A whitespace separates: a word is on its left or on its right. -/
theorem isWord_append_cons {c : UInt8} (hc : isspace c = true) (w x y : Bytes) :
    IsWord w (x ++ c :: y) ↔ IsWord w x ∨ IsWord w y := by
  constructor
  · rintro ⟨hsolid, a, d, h, ha, hd⟩
    have hcw : c ∉ w := fun hmem => absurd ((hsolid.solid c hmem).symm.trans hc) (by decide)
    rcases List.append_eq_append_iff.mp h with ⟨u, haw, hu⟩ | ⟨u, hx, hu⟩
    · cases u with
      | nil =>
        -- the word ends where the left part does
        rw [List.append_nil] at haw
        exact .inl ⟨hsolid, a, [], by rw [haw, List.append_nil], ha, by simp⟩
      | cons e u =>
        obtain ⟨rfl, rfl⟩ := List.cons.inj hu
        rcases List.append_eq_append_iff.mp haw with ⟨v, rfl, hv⟩ | ⟨v, rfl, hv⟩
        · -- the word would reach over the whitespace
          exact absurd (by rw [hv]; simp) hcw
        · cases v with
          | nil =>
            -- or start with it
            rw [List.nil_append] at hv
            exact absurd (by rw [← hv]; exact List.mem_cons_self) hcw
          | cons e v =>
            obtain ⟨rfl, rfl⟩ := List.cons.inj hv
            exact .inr ⟨hsolid, v, d, rfl, (getLast?_append_cons hc x v).mp ha, hd⟩
    · subst hx hu
      exact .inl ⟨hsolid, a, u, rfl, ha, (head?_append_cons hc u y).mp hd⟩
  · rintro (⟨hsolid, a, d, rfl, ha, hd⟩ | ⟨hsolid, a, d, rfl, ha, hd⟩)
    · exact ⟨hsolid, a, d ++ c :: y, by simp, ha, (head?_append_cons hc d y).mpr hd⟩
    · exact ⟨hsolid, x ++ c :: a, d, by simp, (getLast?_append_cons hc x a).mpr ha, hd⟩

theorem isWord_blank_append {b : Bytes} (hb : Blank b) (w s : Bytes) :
    IsWord w (b ++ s) ↔ IsWord w s := by
  induction b with
  | nil => rfl
  | cons c b ih =>
    obtain ⟨hc, hb⟩ := List.forall_mem_cons.mp hb
    rw [List.cons_append, ← List.nil_append (c :: (b ++ s)), isWord_append_cons hc, ih hb]
    exact or_iff_right (not_isWord_nil w)

/-- The words of a spelling are the words spelled. -/
theorem Spells.isWord_iff {l : List Bytes} {s : Bytes} (h : Spells l s) (w : Bytes) :
    IsWord w s ↔ w ∈ l := by
  induction h with
  | @nil s hs =>
    rw [← List.append_nil s, isWord_blank_append hs]
    exact iff_of_false (not_isWord_nil w) List.not_mem_nil
  | @last b v hb hv => rw [isWord_blank_append hb, hv.isWord_iff, List.mem_singleton]
  | @cons b v s c l hb hv hc hs ih =>
    rw [isWord_blank_append hb, isWord_append_cons hc, hv.isWord_iff, ih, List.mem_cons]

/-- **The extraction finds the words**: all of them and nothing else. -/
theorem isWord_iff (w s : Bytes) : IsWord w s ↔ w ∈ words s := by
  obtain ⟨l, hl⟩ := exists_spells s
  rw [hl.isWord_iff, words_of_spells hl]

end OidcValidator.ByteString
