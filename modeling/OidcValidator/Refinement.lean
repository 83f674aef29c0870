/-
`Refinement.lean` -- what a system lets be seen, and what it is then worth.

A system goes from state to state, and some of its steps can be seen. What a run shows is the
list of what was seen of it. If the steps of one system can be followed by another one, then
nothing shows of the first that could not be a showing of the second; so whatever is true of
all that the second shows need only be proved there.

A history is newest first, so that what had happened before an event stands behind it.

Threads that share a state are such a system, once it is said what is seen of their steps.

Nothing in this file knows what the systems do.
-/
import OidcValidator.Interleaving

set_option autoImplicit false

namespace OidcValidator.Refinement

open OidcValidator.Interleaving

/-- Where a system can start, and how it can go on. A step shows at most one event. -/
structure System (S E : Type) where
  start : S → Prop
  step : S → Option E → S → Prop

variable {S A E : Type}

/-- A run, and what it has shown, newest first. -/
inductive System.Run (M : System S E) : S → List E → S → Prop
  | refl {s : S} : Run M s [] s
  | tail {s s' s'' : S} {history : List E} {e : Option E} (hrun : Run M s history s')
      (hstep : M.step s' e s'') : Run M s (e.toList ++ history) s''

/-- What can be seen of a system. -/
def System.Shows (M : System S E) (history : List E) : Prop :=
  ∃ s s', M.start s ∧ M.Run s history s'

variable {M : System S E} {N : System A E}

theorem System.Run.single {s s' : S} {e : Option E} (h : M.step s e s') : M.Run s e.toList s' := by
  have hrun := System.Run.tail (.refl (M := M)) h
  rwa [List.append_nil] at hrun

theorem System.Run.trans {s s' s'' : S} {history history' : List E} (h : M.Run s history s')
    (h' : M.Run s' history' s'') : M.Run s (history' ++ history) s'' := by
  induction h' with
  | refl => exact h
  | tail _ hstep ih =>
    rw [List.append_assoc]
    exact ih.tail hstep

/-- An invariant of states and what has been shown. -/
theorem System.Run.keeps {I : List E → S → Prop}
    (hstep : ∀ {history s e s'}, I history s → M.step s e s' → I (e.toList ++ history) s')
    {s s' : S} {history : List E} (hs : I [] s) (h : M.Run s history s') : I history s' := by
  induction h with
  | refl => exact hs
  | tail _ hlast ih => exact hstep ih hlast

/-! ## Refinement -/

/-- Every step of `M` is followed by any number of steps of `N` that show the same. -/
structure Simulates (M : System S E) (N : System A E) (R : S → A → Prop) : Prop where
  start : ∀ {s}, M.start s → ∃ a, N.start a ∧ R s a
  step : ∀ {s a e s'}, R s a → M.step s e s' → ∃ a', N.Run a e.toList a' ∧ R s' a'

variable {R : S → A → Prop}

theorem Simulates.run (h : Simulates M N R) {s s' : S} {a : A} {history : List E} (hR : R s a)
    (hrun : M.Run s history s') : ∃ a', N.Run a history a' ∧ R s' a' := by
  induction hrun with
  | refl => exact ⟨a, .refl, hR⟩
  | tail _ hstep ih =>
    obtain ⟨a₁, hrun₁, hR₁⟩ := ih
    obtain ⟨a₂, hrun₂, hR₂⟩ := h.step hR₁ hstep
    exact ⟨a₂, hrun₁.trans hrun₂, hR₂⟩

/-- **Refinement.** What is seen of `M` could be seen of `N`. -/
theorem Simulates.shows (h : Simulates M N R) {history : List E} (hshows : M.Shows history) :
    N.Shows history := by
  obtain ⟨s, s', hstart, hrun⟩ := hshows
  obtain ⟨a, hastart, hR⟩ := h.start hstart
  obtain ⟨a', harun, -⟩ := h.run hR hrun
  exact ⟨a, a', hastart, harun⟩

/-! ## Histories -/

/-- Every event of a history is what `P` asks of it, given what had happened before. -/
def Justified (P : List E → E → Prop) (history : List E) : Prop :=
  ∀ newer e older, history = newer ++ e :: older → P older e

theorem justified_nil (P : List E → E → Prop) : Justified P [] := by
  intro newer e older h
  exact absurd (congrArg List.length h) (by simp)

theorem Justified.cons {P : List E → E → Prop} {history : List E} {e : E}
    (h : Justified P history) (he : P history e) : Justified P (e :: history) := by
  intro newer x older heq
  cases newer with
  | nil =>
    obtain ⟨rfl, rfl⟩ := List.cons.inj heq
    exact he
  | cons y newer =>
    obtain ⟨-, heq⟩ := List.cons.inj heq
    exact h newer x older heq

/-- If an invariant of states and their histories justifies what the next step shows, then
everything that is shown is justified. -/
theorem System.Shows.justified {I : List E → S → Prop} {P : List E → E → Prop}
    (hstart : ∀ {s}, M.start s → I [] s)
    (hstep : ∀ {history s e s'}, I history s → M.step s e s' →
      I (e.toList ++ history) s' ∧ ∀ x, e = some x → P history x)
    {history : List E} (h : M.Shows history) : Justified P history := by
  obtain ⟨s, s', hs, hrun⟩ := h
  have hboth : I history s' ∧ Justified P history := by
    refine hrun.keeps (I := fun history s => I history s ∧ Justified P history)
      (fun {history s e s'} ih hlast => ?_) ⟨hstart hs, justified_nil P⟩
    obtain ⟨hI, hP⟩ := hstep ih.1 hlast
    refine ⟨hI, ?_⟩
    cases e with
    | none => exact ih.2
    | some x => exact ih.2.cons (hP x rfl)
  exact hboth.2

/-! ## Threads -/

section Threads

variable {ι C L : Type} [DecidableEq ι]

/-- Threads, observed: `label` says what is seen of a step from where the thread was and where
it is then. -/
def observed (threads : Threads ι C S L) (start : Config ι S L → Prop)
    (label : ι → C → L → L → Option E) : System (Config ι S L) E where
  start := start
  step g e g' := ∃ i c, step threads i c g = some g' ∧ e = label i c (g.locals i) (g'.locals i)

/-- What a schedule shows, newest first. -/
def shown (threads : Threads ι C S L) (label : ι → C → L → L → Option E) :
    List (ι × C) → Config ι S L → List E
  | [], _ => []
  | (i, c) :: schedule, g =>
      match step threads i c g with
      | some g' => shown threads label schedule g' ++ (label i c (g.locals i) (g'.locals i)).toList
      | none => []

theorem run_shown {threads : Threads ι C S L} {start : Config ι S L → Prop}
    {label : ι → C → L → L → Option E} {schedule : List (ι × C)} {g g' : Config ι S L}
    (h : run threads schedule g = some g') :
    (observed threads start label).Run g (shown threads label schedule g) g' := by
  induction schedule generalizing g with
  | nil =>
    obtain rfl := Option.some.inj h
    exact .refl
  | cons ic schedule ih =>
    obtain ⟨i, c⟩ := ic
    obtain ⟨g₁, hfirst, hrest⟩ := Option.bind_eq_some_iff.mp h
    unfold shown
    rw [hfirst]
    have hstep : (observed threads start label).step g (label i c (g.locals i) (g₁.locals i)) g₁ :=
      ⟨i, c, hfirst, rfl⟩
    exact (System.Run.single hstep).trans (ih hrest)

end Threads

end OidcValidator.Refinement
