/-
`ByteString.lean` -- `std::string` and the C strings inside it.

A `std::string` is a sequence of bytes that may contain NUL; a C string is the
part before the first NUL. Most of what can go wrong with a string in this
development goes wrong on the way from the first to the second, so the two are
kept apart: [`c_str`] is the crossing, and everything else here works on whole
byte sequences.

Nothing in this file knows about tokens, caches or issuers.
-/
import Mathlib.Data.List.Infix
import Mathlib.Data.List.TakeWhile

set_option autoImplicit false

namespace OidcValidator.ByteString

/-- A `std::string`: any sequence of bytes, NUL included. -/
abbrev Bytes := List UInt8

/-- The bytes of a literal. -/
def bytes (s : String) : Bytes := s.toUTF8.data.toList

/-- There are 256 bytes. -/
theorem forall_byte {P : UInt8 → Prop} (h : ∀ n < 256, P (UInt8.ofNat n)) (b : UInt8) : P b := by
  have hb := h b.toNat b.toNat_lt
  rwa [UInt8.ofNat_toNat] at hb

/-- A run of `p` ends where the first byte outside `p` stands. -/
theorem takeWhile_append_of_head? {p : UInt8 → Bool} {a s : Bytes} (ha : ∀ b ∈ a, p b = true)
    (hs : ∀ b ∈ s.head?, p b = false) : (a ++ s).takeWhile p = a := by
  rw [List.takeWhile_append_of_pos ha]
  cases s with
  | nil => simp
  | cons c s => simp [hs c rfl]

/-! ## C strings -/

/-- The C string that `s.c_str()` denotes: `s` up to its first NUL. -/
def c_str (s : Bytes) : Bytes := s.takeWhile (· ≠ 0)

@[simp] theorem c_str_nil : c_str [] = [] := rfl

@[simp] theorem c_str_zero_cons (s : Bytes) : c_str (0 :: s) = [] := rfl

theorem c_str_cons {b : UInt8} (hb : b ≠ 0) (s : Bytes) : c_str (b :: s) = b :: c_str s := by
  simp [c_str, hb]

theorem zero_notMem_c_str (s : Bytes) : 0 ∉ c_str s := by
  intro h
  have := List.mem_takeWhile_imp h
  simp at this

/-- The crossing loses nothing exactly when there is no NUL to lose anything at. -/
theorem c_str_eq_self_iff (s : Bytes) : c_str s = s ↔ 0 ∉ s := by
  constructor
  · intro h
    rw [← h]
    exact zero_notMem_c_str s
  · intro h
    refine List.takeWhile_eq_self_iff.mpr (fun b hb => ?_)
    simp only [ne_eq, decide_eq_true_eq]
    rintro rfl
    exact h hb

theorem c_str_idem (s : Bytes) : c_str (c_str s) = c_str s :=
  (c_str_eq_self_iff _).mpr (zero_notMem_c_str s)

theorem c_str_append {a : Bytes} (ha : 0 ∉ a) (b : Bytes) : c_str (a ++ b) = a ++ c_str b := by
  induction a with
  | nil => rfl
  | cons x a ih =>
      have hx : x ≠ 0 := fun h => ha (by simp [h])
      rw [List.cons_append, c_str_cons hx, ih (fun h => ha (List.mem_cons_of_mem x h)),
        List.cons_append]

theorem length_c_str_le (s : Bytes) : (c_str s).length ≤ s.length :=
  (List.takeWhile_prefix _).length_le

/-- `strncpy(dst, src, n)`: at most `n` characters of the C string, zero padding up
to `n`, and the bytes of `dst` from `n` on untouched. -/
def strncpy (dst src : Bytes) (n : ℕ) : Bytes :=
  (c_str src ++ List.replicate n 0).take n ++ dst.drop n

theorem length_strncpy (dst src : Bytes) {n : ℕ} (h : n ≤ dst.length) :
    (strncpy dst src n).length = dst.length := by
  unfold strncpy
  simp only [List.length_append, List.length_take, List.length_replicate, List.length_drop]
  omega

/-- `strlcpy(dst, src, size)` into a buffer of its full size: what fits, and a NUL. -/
def strlcpy (dst src : Bytes) : Bytes :=
  (c_str src).take (dst.length - 1) ++ 0 :: dst.drop ((c_str src).take (dst.length - 1)).length.succ

theorem length_strlcpy (dst src : Bytes) (h : 0 < dst.length) :
    (strlcpy dst src).length = dst.length := by
  unfold strlcpy
  simp only [List.length_append, List.length_cons, List.length_take, List.length_drop]
  omega

/-- Copying a string that fits and terminating the buffer by hand gives the C string
back, whatever the buffer held before. This is the one fact about `strncpy` that the
fixed-size buffers of a shared table rest on. -/
theorem c_str_strncpy_set {dst src : Bytes} {n : ℕ} (hsrc : (c_str src).length ≤ n)
    (hdst : n < dst.length) : c_str ((strncpy dst src n).set n 0) = c_str src := by
  have hlen : ((c_str src ++ List.replicate n 0).take n).length = n := by
    simp only [List.length_take, List.length_append, List.length_replicate]
    omega
  have hset : (strncpy dst src n).set n 0
      = (c_str src ++ List.replicate n 0).take n ++ (dst.drop n).set 0 0 := by
    unfold strncpy
    rw [List.set_append_right _ _ (by omega), hlen, Nat.sub_self]
  obtain ⟨x, xs, hx⟩ : ∃ x xs, dst.drop n = x :: xs := by
    cases h : dst.drop n with
    | nil => rw [List.drop_eq_nil_iff] at h; omega
    | cons x xs => exact ⟨x, xs, rfl⟩
  rw [hset, hx, List.set_cons_zero, List.take_append, List.take_of_length_le hsrc,
    List.append_assoc, c_str_append (zero_notMem_c_str src)]
  -- what follows the string is padding or the terminator, so the next byte is NUL
  have hnext : c_str ((List.replicate n 0).take (n - (c_str src).length) ++ 0 :: xs) = [] := by
    cases h : (List.replicate n (0 : UInt8)).take (n - (c_str src).length) with
    | nil => rfl
    | cons y ys =>
        have hy : y ∈ List.replicate n (0 : UInt8) :=
          List.mem_of_mem_take (h ▸ List.mem_cons_self)
        rw [List.eq_of_mem_replicate hy]
        rfl
  rw [hnext, List.append_nil]

/-- A buffer that is longer than the C string in it has a NUL behind it. -/
theorem eq_c_str_append_zero {s : Bytes} (h : (c_str s).length < s.length) :
    ∃ rest, s = c_str s ++ 0 :: rest := by
  induction s with
  | nil => exact absurd h (Nat.lt_irrefl 0)
  | cons b s ih =>
    by_cases hb : b = 0
    · exact ⟨s, by rw [hb]; rfl⟩
    · rw [c_str_cons hb] at h ⊢
      obtain ⟨rest, hrest⟩ := ih (Nat.lt_of_succ_lt_succ h)
      exact ⟨rest, by rw [List.cons_append, ← hrest]⟩

/-- Copying a string over itself. Only the byte behind the copy is not written, and there the
old terminator still is. -/
theorem c_str_strncpy_self {dst src : Bytes} {n : ℕ} (hsame : c_str dst = c_str src)
    (hsrc : (c_str src).length ≤ n) (hdst : n < dst.length) :
    c_str (strncpy dst src n) = c_str src := by
  obtain ⟨rest, hrest⟩ := eq_c_str_append_zero (s := dst) (by rw [hsame]; omega)
  rw [hsame] at hrest
  have hzero : ∃ tail, strncpy dst src n = c_str src ++ 0 :: tail := by
    unfold strncpy
    -- `strncpy` writes a zero only if there is room for it; otherwise the old one is still there
    rcases Nat.lt_or_eq_of_le hsrc with hlt | heq
    · obtain ⟨d, hd⟩ := Nat.exists_eq_add_of_lt hlt
      refine ⟨List.replicate d 0 ++ dst.drop n, ?_⟩
      have htake : (List.replicate n (0 : UInt8)).take (n - (c_str src).length)
          = 0 :: List.replicate d 0 := by
        rw [List.take_replicate, show min (n - (c_str src).length) n = d + 1 by omega,
          List.replicate_succ]
      rw [List.take_append, List.take_of_length_le hsrc, htake]
      simp
    · refine ⟨rest, ?_⟩
      rw [← heq, List.take_left, hrest, List.drop_left]
  obtain ⟨tail, htail⟩ := hzero
  rw [htail, c_str_append (zero_notMem_c_str src), c_str_zero_cons, List.append_nil]

/-- Terminating a buffer behind its string. -/
theorem c_str_set_zero {s : Bytes} {n : ℕ} (h : (c_str s).length ≤ n) (hn : n < s.length) :
    c_str (s.set n 0) = c_str s := by
  obtain ⟨rest, hrest⟩ := eq_c_str_append_zero (s := s) (by omega)
  have hset : ∃ tail, (c_str s ++ 0 :: rest).set n 0 = c_str s ++ 0 :: tail := by
    rw [List.set_append_right _ _ h]
    rcases n - (c_str s).length with _ | d
    · exact ⟨rest, rfl⟩
    · exact ⟨rest.set d 0, rfl⟩
  rw [← hrest] at hset
  obtain ⟨tail, htail⟩ := hset
  rw [htail, c_str_append (zero_notMem_c_str s), c_str_zero_cons, List.append_nil]

/-- A C string that fits is copied whole. -/
theorem c_str_strlcpy {dst src : Bytes} (h : (c_str src).length < dst.length) :
    c_str (strlcpy dst src) = c_str src := by
  unfold strlcpy
  rw [List.take_of_length_le (by omega), c_str_append (zero_notMem_c_str src), c_str_zero_cons,
    List.append_nil]

/-! ## Searching

`std::string::contains`, `ends_with`, and the two splits the source makes with
`find` / `find_last_of` and `substr`. -/

/-- `s.contains(needle)`. -/
def contains (s needle : Bytes) : Bool := s.tails.any (fun t => needle.isPrefixOf t)

theorem contains_iff (s needle : Bytes) : contains s needle = true ↔ needle <:+: s := by
  unfold contains
  simp only [List.any_eq_true, List.mem_tails, List.isPrefixOf_iff_prefix]
  rw [List.infix_iff_prefix_suffix]
  exact ⟨fun ⟨t, h₁, h₂⟩ => ⟨t, h₂, h₁⟩, fun ⟨t, h₁, h₂⟩ => ⟨t, h₂, h₁⟩⟩

/-- `s.ends_with(suffix)`. -/
def ends_with (s suffix : Bytes) : Bool := suffix.isSuffixOf s

theorem ends_with_iff (s suffix : Bytes) : ends_with s suffix = true ↔ suffix <:+ s :=
  List.isSuffixOf_iff_suffix

/-- `s.find(c)` with the two `substr`s around it: what stands before the first `c` and
what stands after it, or nothing when there is no `c`. -/
def split_first (c : UInt8) : Bytes → Option (Bytes × Bytes)
  | [] => none
  | b :: s => if b = c then some ([], s) else (split_first c s).map (fun p => (b :: p.1, p.2))

theorem split_first_eq_some {c : UInt8} {s a b : Bytes} (h : split_first c s = some (a, b)) :
    s = a ++ c :: b ∧ c ∉ a := by
  induction s generalizing a b with
  | nil => cases h
  | cons x s ih =>
      unfold split_first at h
      split_ifs at h with hx
      · obtain ⟨rfl, rfl⟩ := Prod.mk.inj (Option.some.inj h)
        exact ⟨by rw [hx]; rfl, by simp⟩
      · obtain ⟨⟨a', b'⟩, hs, heq⟩ := Option.map_eq_some_iff.mp h
        obtain ⟨rfl, rfl⟩ := Prod.mk.inj heq
        obtain ⟨rfl, hc⟩ := ih hs
        exact ⟨rfl, by simp [hc, Ne.symm hx]⟩

/-- `s.find_last_of(c)` with the `substr` behind it: what stands after the last `c`. -/
def after_last (c : UInt8) (s : Bytes) : Option Bytes :=
  if c ∈ s then some (s.reverse.takeWhile (· ≠ c)).reverse else none

/-- The part after the last `c` is the `c`-free tail of a split at `c`. -/
theorem after_last_eq_some_iff (c : UInt8) (s t : Bytes) :
    after_last c s = some t ↔ ∃ a, s = a ++ c :: t ∧ c ∉ t := by
  constructor
  · intro h
    unfold after_last at h
    split_ifs at h with hc
    obtain rfl := Option.some.inj h
    -- in the reversed string the tail is the run before the first `c`
    have hsplit := List.takeWhile_append_dropWhile (p := (· ≠ c)) (l := s.reverse)
    cases hd : s.reverse.dropWhile (· ≠ c) with
    | nil =>
        rw [List.dropWhile_eq_nil_iff] at hd
        have := hd c (List.mem_reverse.mpr hc)
        simp at this
    | cons x r =>
        have hx : x = c := by
          have hhead := List.head_dropWhile_not (· ≠ c) (by rw [hd]; exact List.cons_ne_nil x r)
          simp only [hd, List.head_cons] at hhead
          simpa using hhead
        rw [hd, hx] at hsplit
        refine ⟨r.reverse, ?_, ?_⟩
        · have := congrArg List.reverse hsplit
          simpa using this.symm
        · intro hmem
          have := List.mem_takeWhile_imp (List.mem_reverse.mp hmem)
          simp at this
  · rintro ⟨a, rfl, hct⟩
    unfold after_last
    rw [if_pos (by simp)]
    have hall : ∀ x ∈ t.reverse, decide (x ≠ c) = true := by
      intro x hx
      simp only [ne_eq, decide_eq_true_eq]
      rintro rfl
      exact hct (List.mem_reverse.mp hx)
    rw [List.reverse_append, List.reverse_cons, List.append_assoc,
      List.takeWhile_append_of_pos hall]
    simp

/-- A needle without `c` cannot straddle a `c`: it stands on one side or the other. -/
theorem infix_append_cons_iff {c : UInt8} {a b n : Bytes} (hn : c ∉ n) :
    n <:+: a ++ c :: b ↔ n <:+: a ∨ n <:+: b := by
  constructor
  · rintro ⟨u, v, h⟩
    rw [List.append_assoc] at h
    rcases List.append_eq_append_iff.mp h with ⟨w, ha, hw⟩ | ⟨w, hu, hw⟩
    · -- the needle starts inside `a`
      rcases List.append_eq_append_iff.mp hw with ⟨w', hw', _⟩ | ⟨w', hn', hw'⟩
      · exact .inl ⟨u, w', by rw [ha, hw', List.append_assoc]⟩
      · cases w' with
        | nil => exact .inl ⟨u, [], by rw [ha, hn']; simp⟩
        | cons x w' =>
            obtain ⟨rfl, _⟩ := List.cons.inj hw'
            exact absurd (by rw [hn']; simp) hn
    · cases w with
      | nil =>
          -- it starts at the separator itself, so it is empty or begins with `c`
          cases n with
          | nil => exact .inl (List.nil_infix)
          | cons y n =>
              obtain ⟨rfl, _⟩ := List.cons.inj hw
              exact absurd (by simp) hn
      | cons x w =>
          obtain ⟨_, rfl⟩ := List.cons.inj hw
          exact .inr ⟨w, v, by simp⟩
  · rintro (h | h)
    · exact h.trans ⟨[], c :: b, by simp⟩
    · exact h.trans ⟨a ++ [c], [], by simp⟩

/-! ## Words

`std::istream_iterator<std::string>` over a string stream: skip whitespace, read up
to the next whitespace, until the stream is empty. -/

/-- `isspace` in the C locale. -/
def isspace (b : UInt8) : Bool := b = 32 || (9 ≤ b && b ≤ 13)

/-- `n` extractions from the stream `s`; an extraction from an exhausted stream fails
and ends the iteration. -/
def extract : ℕ → Bytes → List Bytes
  | 0, _ => []
  | n + 1, s =>
      match s.dropWhile isspace with
      | [] => []
      | b :: t => (b :: t).takeWhile (!isspace ·) :: extract n ((b :: t).dropWhile (!isspace ·))

/-- The words of `s`. Every extraction consumes a byte, so `s.length` of them reach
the end of the stream. -/
def words (s : Bytes) : List Bytes := extract s.length s

end OidcValidator.ByteString
