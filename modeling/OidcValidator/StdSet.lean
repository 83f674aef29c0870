/-
`StdSet.lean` -- `std::set` / `std::flat_set` as strictly increasing lists.

The order is part of the type: a `SortedSet` cannot be built unsorted, so the
merge-style inclusion test below can rely on it without a hypothesis, the way
`std::ranges::includes` relies on its two ranges being sorted.

Nothing in this file knows what the elements are.
-/
import Mathlib.Data.List.Basic

set_option autoImplicit false
set_option linter.unusedSectionVars false

namespace OidcValidator.StdSet

section

variable {α : Type} [LT α] [DecidableLT α] [DecidableEq α]

/-- Insertion into an increasing list, keeping one copy of each element. -/
def insert_sorted (a : α) : List α → List α
  | [] => [a]
  | b :: l => if a < b then a :: b :: l else if a = b then b :: l else b :: insert_sorted a l

theorem mem_insert_sorted (a x : α) (l : List α) : x ∈ insert_sorted a l ↔ x = a ∨ x ∈ l := by
  induction l with
  | nil => simp [insert_sorted]
  | cons b l ih =>
      unfold insert_sorted
      split_ifs with h₁ h₂
      · simp
      · subst h₂; simp
      · simp only [List.mem_cons, ih]
        tauto

/-- `std::includes(received, required)`: walk both ranges once, dropping elements of
the first range that are smaller than the head of the second. -/
def includes_sorted : List α → List α → Bool
  | _, [] => true
  | [], _ :: _ => false
  | x :: xs, y :: ys =>
      if y < x then false
      else if x < y then includes_sorted xs (y :: ys)
      else includes_sorted xs ys

variable [Std.Irrefl (α := α) (· < ·)] [Trans (α := α) (· < ·) (· < ·) (· < ·)]
  [Std.Trichotomous (α := α) (· < ·)]

theorem eq_of_not_lt {a b : α} (h₁ : ¬ a < b) (h₂ : ¬ b < a) : a = b := by
  rcases Std.lt_trichotomy a b with h | h | h
  · exact absurd h h₁
  · exact h
  · exact absurd h h₂

theorem insert_sorted_pairwise (a : α) {l : List α} (hl : l.Pairwise (· < ·)) :
    (insert_sorted a l).Pairwise (· < ·) := by
  induction l with
  | nil => simp [insert_sorted]
  | cons b l ih =>
      obtain ⟨hb, hl'⟩ := List.pairwise_cons.mp hl
      unfold insert_sorted
      split_ifs with h₁ h₂
      · refine List.pairwise_cons.mpr ⟨?_, hl⟩
        rintro x (_ | ⟨_, hx⟩)
        · exact h₁
        · exact Std.lt_trans h₁ (hb x hx)
      · exact hl
      · refine List.pairwise_cons.mpr ⟨?_, ih hl'⟩
        intro x hx
        rcases (mem_insert_sorted a x l).mp hx with rfl | hx
        · -- neither `x < b` nor `x = b`
          by_contra hbx
          exact h₂ (eq_of_not_lt h₁ hbx)
        · exact hb x hx

/-- On increasing lists the merge decides inclusion. -/
theorem includes_sorted_iff {xs ys : List α} (hx : xs.Pairwise (· < ·))
    (hy : ys.Pairwise (· < ·)) : includes_sorted xs ys = true ↔ ys ⊆ xs := by
  induction xs generalizing ys with
  | nil =>
      cases ys with
      | nil => simp [includes_sorted]
      | cons y ys => simp [includes_sorted]
  | cons x xs ih =>
      obtain ⟨hxs, hx'⟩ := List.pairwise_cons.mp hx
      cases ys with
      | nil => simp [includes_sorted]
      | cons y ys =>
          obtain ⟨hys, hy'⟩ := List.pairwise_cons.mp hy
          unfold includes_sorted
          split_ifs with h₁ h₂
          · -- `y` is below everything in the first range
            simp only [List.cons_subset, List.mem_cons, false_iff, not_and]
            rintro (rfl | hmem)
            · exact absurd h₁ (Std.Irrefl.irrefl y)
            · exact absurd (Std.lt_trans h₁ (hxs y hmem)) (Std.Irrefl.irrefl y)
          · -- `x` is below everything in the second range, so it is not needed
            rw [ih hx' hy]
            constructor
            · exact fun h => List.Subset.trans h (List.subset_cons_self x xs)
            · intro h z hz
              rcases List.mem_cons.mp (h hz) with rfl | hmem
              · rcases List.mem_cons.mp hz with rfl | hz'
                · exact absurd h₂ (Std.Irrefl.irrefl z)
                · exact absurd (Std.lt_trans h₂ (hys z hz')) (Std.Irrefl.irrefl z)
              · exact hmem
          · -- the heads are equal, and both ranges go on
            obtain rfl := eq_of_not_lt h₁ h₂
            rw [ih hx' hy']
            constructor
            · intro h
              exact List.cons_subset.mpr
                ⟨List.mem_cons_self, List.Subset.trans h (List.subset_cons_self y xs)⟩
            · intro h z hz
              rcases List.mem_cons.mp (h (List.mem_cons_of_mem y hz)) with rfl | hmem
              · exact absurd (hys z hz) (Std.Irrefl.irrefl z)
              · exact hmem

end

/-- A `std::set`: a strictly increasing list. -/
structure SortedSet (α : Type) [LT α] where
  toList : List α
  sorted : toList.Pairwise (· < ·)

namespace SortedSet

variable {α : Type} [LT α] [DecidableLT α] [DecidableEq α]
  [Std.Irrefl (α := α) (· < ·)] [Trans (α := α) (· < ·) (· < ·) (· < ·)]
  [Std.Trichotomous (α := α) (· < ·)]

instance : Membership α (SortedSet α) := ⟨fun s a => a ∈ s.toList⟩

instance (a : α) (s : SortedSet α) : Decidable (a ∈ s) := inferInstanceAs (Decidable (a ∈ s.toList))

/-- The empty set. -/
def empty : SortedSet α := ⟨[], List.Pairwise.nil⟩

/-- `s.insert(a)`. -/
def insert (a : α) (s : SortedSet α) : SortedSet α :=
  ⟨insert_sorted a s.toList, insert_sorted_pairwise a s.sorted⟩

/-- The set of a range of elements, inserted one by one. -/
def ofList (l : List α) : SortedSet α := l.foldl (fun s a => s.insert a) empty

/-- `s.insert(t.begin(), t.end())`. -/
def union (s t : SortedSet α) : SortedSet α := t.toList.foldl (fun s a => s.insert a) s

/-- `std::ranges::includes(s, t)`. -/
def includes (s t : SortedSet α) : Bool := includes_sorted s.toList t.toList

@[simp] theorem mem_insert {a x : α} {s : SortedSet α} : x ∈ s.insert a ↔ x = a ∨ x ∈ s :=
  mem_insert_sorted a x s.toList

theorem mem_foldl_insert (l : List α) (s : SortedSet α) (x : α) :
    x ∈ l.foldl (fun s a => s.insert a) s ↔ x ∈ l ∨ x ∈ s := by
  induction l generalizing s with
  | nil => simp
  | cons a l ih =>
      rw [List.foldl_cons, ih, mem_insert, List.mem_cons]
      tauto

@[simp] theorem mem_ofList {l : List α} {x : α} : x ∈ ofList l ↔ x ∈ l := by
  rw [ofList, mem_foldl_insert]
  exact ⟨fun h => h.elim id (fun h => by cases h), Or.inl⟩

@[simp] theorem mem_union {s t : SortedSet α} {x : α} : x ∈ s.union t ↔ x ∈ s ∨ x ∈ t := by
  rw [union, mem_foldl_insert, or_comm]
  exact Iff.rfl

@[simp] theorem includes_iff (s t : SortedSet α) : s.includes t = true ↔ ∀ x ∈ t, x ∈ s :=
  includes_sorted_iff s.sorted t.sorted

end SortedSet

end OidcValidator.StdSet
