/-
`Progress.lean` -- how far threads get.

Steps that go on lower what their thread has left to do, and leave alone what the others have.
So a thread makes no more of them than it had left at first, however the threads take turns,
and every run can be continued until no thread can go on. What that means is up to the system:
if no thread can go on only where all are done, the run has come to its end.

Nothing in this file knows what the threads do.
-/
import OidcValidator.Interleaving
import Mathlib.Algebra.Order.BigOperators.Group.Finset

set_option autoImplicit false

namespace OidcValidator.Progress

open OidcValidator.Interleaving

variable {ι C S L : Type} [DecidableEq ι] {threads : Threads ι C S L}

/-! ## Runs -/

/-- What steps in `Q` keep, a run of such steps keeps. -/
theorem keeps_run {I : Config ι S L → Prop} {Q : ι → C → L → Prop}
    (hstep : ∀ {i c g g'}, I g → Q i c (g.locals i) → step threads i c g = some g' → I g')
    {schedule : List (ι × C)} {g g' : Config ι S L} (hg : I g)
    (hQ : Each threads (fun i c g => Q i c (g.locals i)) schedule g)
    (h : run threads schedule g = some g') : I g' := by
  induction schedule generalizing g with
  | nil => exact Option.some.inj h ▸ hg
  | cons ic schedule ih =>
    obtain ⟨g₁, hfirst, hrest⟩ := Option.bind_eq_some_iff.mp h
    exact ih (hstep hg hQ.1 hfirst) (hQ.2 g₁ hfirst) hrest

/-- Steps that each are in `Q`, if all of them can be made. -/
theorem forall_of_each {Q : ι → C → Prop} {schedule : List (ι × C)} {g g' : Config ι S L}
    (hQ : Each threads (fun i c _ => Q i c) schedule g) (h : run threads schedule g = some g') :
    ∀ ic ∈ schedule, Q ic.1 ic.2 := by
  induction schedule generalizing g with
  | nil => exact fun _ hmem => absurd hmem List.not_mem_nil
  | cons ic schedule ih =>
    obtain ⟨g₁, hfirst, hrest⟩ := Option.bind_eq_some_iff.mp h
    exact List.forall_mem_cons.mpr ⟨hQ.1, ih (hQ.2 g₁ hfirst) hrest⟩

/-- A step of another thread leaves a thread where it is. -/
theorem locals_of_step_of_ne {i j : ι} {c : C} {g g' : Config ι S L} (hij : j ≠ i)
    (h : step threads i c g = some g') : g'.locals j = g.locals j := by
  obtain ⟨s, l, -, rfl⟩ := step_eq_some.mp h
  exact Function.update_of_ne hij l g.locals

theorem locals_of_step {i : ι} {c : C} {g g' : Config ι S L} (h : step threads i c g = some g') :
    threads i c g.shared (g.locals i) = some (g'.shared, g'.locals i) := by
  obtain ⟨s, l, hthread, rfl⟩ := step_eq_some.mp h
  dsimp only
  rw [hthread, Function.update_self]

/-! ## What is left -/

/-- A step that goes on. -/
abbrev Onward (C L : Type) := C → L → Prop

/-- Where the assertions hold, steps that go on lower what is left. -/
def Descends (threads : Threads ι C S L) (G : S → Prop) (A : ι → S → L → Prop) (Q : Onward C L)
    (left : L → ℕ) : Prop :=
  ∀ ⦃i c s l s' l'⦄, G s → A i s l → Q c l → threads i c s l = some (s', l') → left l' < left l

variable {G : S → Prop} {A : ι → S → L → Prop} {Q : Onward C L} {left : L → ℕ}

/-- **A thread that goes on whenever it moves** makes no more steps than it has left, whatever
the other threads do meanwhile. -/
theorem Descends.count_le (hd : Descends threads G A Q left) (ho : Outline threads G A) (i : ι)
    {schedule : List (ι × C)} {g g' : Config ι S L} (hg : Holds G A g)
    (hQ : Each threads (fun j c g => j = i → Q c (g.locals j)) schedule g)
    (h : run threads schedule g = some g') :
    schedule.countP (fun ic => ic.1 = i) + left (g'.locals i) ≤ left (g.locals i) := by
  induction schedule generalizing g with
  | nil =>
    obtain rfl := Option.some.inj h
    rw [List.countP_nil, Nat.zero_add]
  | cons ic schedule ih =>
    obtain ⟨j, c⟩ := ic
    obtain ⟨g₁, hfirst, hrest⟩ := Option.bind_eq_some_iff.mp h
    have hih := ih (ho.step hg ⟨j, c, hfirst⟩) (hQ.2 g₁ hfirst) hrest
    rw [List.countP_cons]
    -- a step of `i` lowers what it has left, a step of another leaves it alone
    by_cases hji : j = i
    · subst hji
      have hlt := hd hg.1 (hg.2 j) (hQ.1 rfl) (locals_of_step hfirst)
      simp only [decide_true, if_true]
      omega
    · rw [locals_of_step_of_ne (Ne.symm hji) hfirst] at hih
      simp only [hji, decide_false, Bool.false_eq_true, if_false]
      omega

/-! ## Where nobody goes on -/

/-- No thread can go on. -/
def Stuck (threads : Threads ι C S L) (Q : Onward C L) (g : Config ι S L) : Prop :=
  ∀ i c, Q c (g.locals i) → step threads i c g = none

theorem exists_step_of_not_stuck {g : Config ι S L} (h : ¬Stuck threads Q g) :
    ∃ i c g', Q c (g.locals i) ∧ step threads i c g = some g' := by
  unfold Stuck at h
  push Not at h
  obtain ⟨i, c, hQ, hne⟩ := h
  obtain ⟨g', hg'⟩ := Option.ne_none_iff_exists'.mp hne
  exact ⟨i, c, g', hQ, hg'⟩

variable [Fintype ι]

/-- What all threads have left. -/
def total (left : L → ℕ) (g : Config ι S L) : ℕ := ∑ i, left (g.locals i)

theorem Descends.total_lt (hd : Descends threads G A Q left) {i : ι} {c : C} {g g' : Config ι S L}
    (hg : Holds G A g) (hQ : Q c (g.locals i)) (h : step threads i c g = some g') :
    total left g' < total left g := by
  have hi := hd hg.1 (hg.2 i) hQ (locals_of_step h)
  refine Finset.sum_lt_sum (fun j _ => ?_) ⟨i, Finset.mem_univ i, hi⟩
  by_cases hji : j = i
  · subst hji
    exact hi.le
  · rw [locals_of_step_of_ne hji h]

/-- **Every run can be continued until nobody can go on.** -/
theorem Descends.exists_stuck (hd : Descends threads G A Q left) (ho : Outline threads G A)
    {g : Config ι S L} (hg : Holds G A g) :
    ∃ schedule g', Each threads (fun i c g => Q c (g.locals i)) schedule g ∧
      run threads schedule g = some g' ∧ Stuck threads Q g' := by
  induction htotal : total left g using Nat.strong_induction_on generalizing g with
  | _ n ih =>
    by_cases hstuck : Stuck threads Q g
    · exact ⟨[], g, trivial, rfl, hstuck⟩
    · obtain ⟨i, c, g₁, hQ, hstep⟩ := exists_step_of_not_stuck hstuck
      obtain ⟨schedule, g', heach, hrun, hend⟩ :=
        ih _ (htotal ▸ hd.total_lt hg hQ hstep) (ho.step hg ⟨i, c, hstep⟩) rfl
      refine ⟨(i, c) :: schedule, g', ⟨hQ, fun g₂ hg₂ => ?_⟩, ?_, hend⟩
      · obtain rfl := Option.some.inj (hstep.symm.trans hg₂)
        exact heach
      · exact Option.bind_eq_some_iff.mpr ⟨g₁, hstep, hrun⟩

end OidcValidator.Progress
