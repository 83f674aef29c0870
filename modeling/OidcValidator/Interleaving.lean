/-
`Interleaving.lean` -- threads that share a state and take turns.

A thread is a local state and a step function; which thread moves next, and which of its
choices it takes, is up to nobody, so a statement about all runs is a statement about
all schedules.

An invariant of such a system is given by two assertions: one about the shared state,
and one for each thread about the shared state and where the thread is. It is enough
that a step of a thread keeps the first and its own, and does not interfere with those
of the others.

Nothing in this file knows what the threads do.
-/
import Mathlib.Logic.Function.Basic
import Mathlib.Logic.Relation

set_option autoImplicit false

namespace OidcValidator.Interleaving

/-- The shared state, and the local state of every thread. -/
structure Config (ι S L : Type) where
  shared : S
  locals : ι → L

/-- What thread `i` does when it takes choice `c`; `none` if it cannot. -/
abbrev Threads (ι C S L : Type) := ι → C → S → L → Option (S × L)

variable {ι C S L : Type} [DecidableEq ι] (threads : Threads ι C S L)

/-- Thread `i` takes choice `c`. -/
def step (i : ι) (c : C) (g : Config ι S L) : Option (Config ι S L) :=
  (threads i c g.shared (g.locals i)).map fun r => ⟨r.1, Function.update g.locals i r.2⟩

/-- Some thread takes some choice. -/
def Step (g g' : Config ι S L) : Prop := ∃ i c, step threads i c g = some g'

/-- Any number of steps. -/
def Steps : Config ι S L → Config ι S L → Prop := Relation.ReflTransGen (Step threads)

/-- A schedule, run. -/
def run : List (ι × C) → Config ι S L → Option (Config ι S L)
  | [], g => some g
  | (i, c) :: schedule, g => (step threads i c g).bind (run schedule)

variable {threads}

theorem step_eq_some {i : ι} {c : C} {g g' : Config ι S L} :
    step threads i c g = some g' ↔ ∃ s l, threads i c g.shared (g.locals i) = some (s, l) ∧
      g' = ⟨s, Function.update g.locals i l⟩ := by
  unfold step
  rw [Option.map_eq_some_iff]
  constructor
  · rintro ⟨⟨s, l⟩, h, rfl⟩
    exact ⟨s, l, h, rfl⟩
  · rintro ⟨s, l, h, rfl⟩
    exact ⟨(s, l), h, rfl⟩

theorem steps_of_run {schedule : List (ι × C)} {g g' : Config ι S L}
    (h : run threads schedule g = some g') : Steps threads g g' := by
  induction schedule generalizing g with
  | nil =>
    obtain rfl := Option.some.inj h
    exact .refl
  | cons ic schedule ih =>
    obtain ⟨g₁, hstep, hrest⟩ := Option.bind_eq_some_iff.mp h
    exact .head ⟨ic.1, ic.2, hstep⟩ (ih hrest)

/-! ## Invariants -/

/-- `G` of the shared state, and `A` of every thread. -/
def Holds (G : S → Prop) (A : ι → S → L → Prop) (g : Config ι S L) : Prop :=
  G g.shared ∧ ∀ i, A i g.shared (g.locals i)

/-- A step keeps `G` and the assertion of the thread that makes it, and does not interfere
with the assertions of the others. -/
structure Outline (threads : Threads ι C S L) (G : S → Prop) (A : ι → S → L → Prop) : Prop where
  own : ∀ {i c s l s' l'}, G s → A i s l → threads i c s l = some (s', l') → G s' ∧ A i s' l'
  others : ∀ {i j c s l s' l' k}, j ≠ i → G s → A i s l → A j s k →
    threads i c s l = some (s', l') → A j s' k

variable {G : S → Prop} {A : ι → S → L → Prop}

theorem Outline.step (ho : Outline threads G A) {g g' : Config ι S L} (hg : Holds G A g)
    (h : Step threads g g') : Holds G A g' := by
  obtain ⟨i, c, hstep⟩ := h
  obtain ⟨s, l, hthread, rfl⟩ := step_eq_some.mp hstep
  obtain ⟨hG, hA⟩ := ho.own hg.1 (hg.2 i) hthread
  refine ⟨hG, fun j => ?_⟩
  dsimp only
  by_cases hji : j = i
  · subst hji
    rw [Function.update_self]
    exact hA
  · rw [Function.update_of_ne hji]
    exact ho.others hji hg.1 (hg.2 i) (hg.2 j) hthread

theorem Outline.steps (ho : Outline threads G A) {g g' : Config ι S L} (hg : Holds G A g)
    (h : Steps threads g g') : Holds G A g' := by
  induction h with
  | refl => exact hg
  | tail _ hlast ih => exact ho.step ih hlast

/-- What every step does to the shared state, a run does, if it is a preorder. -/
theorem Outline.steps_rel (ho : Outline threads G A) {R : S → S → Prop} (hrefl : ∀ s, R s s)
    (htrans : ∀ s₁ s₂ s₃, R s₁ s₂ → R s₂ s₃ → R s₁ s₃)
    (hrel : ∀ {i c s l s' l'}, G s → A i s l → threads i c s l = some (s', l') → R s s')
    {g g' : Config ι S L} (hg : Holds G A g) (h : Steps threads g g') :
    R g.shared g'.shared := by
  induction h with
  | refl => exact hrefl _
  | tail hfirst hlast ih =>
    have hmid := ho.steps hg hfirst
    obtain ⟨i, c, heq⟩ := hlast
    obtain ⟨s, l, hthread, rfl⟩ := step_eq_some.mp heq
    exact htrans _ _ _ ih (hrel hmid.1 (hmid.2 i) hthread)

/-! ## One thread at a time -/

/-- Some run from `g₀` has brought thread `i` to `l`, with a shared state that `V`
describes. -/
def Reaches (threads : Threads ι C S L) (g₀ : Config ι S L) (i : ι) (l : L) (V : S → Prop) : Prop :=
  ∃ g, Steps threads g₀ g ∧ g.locals i = l ∧ V g.shared

/-- One more step of the thread, to a place that may depend on the shared state. -/
theorem Reaches.step_exists (ho : Outline threads G A) {g₀ : Config ι S L} (hg₀ : Holds G A g₀)
    {i : ι} {l : L} {V W : S → Prop} {P : L → Prop} (h : Reaches threads g₀ i l V)
    (hstep : ∀ s, G s → A i s l → V s →
      ∃ c s' l', threads i c s l = some (s', l') ∧ P l' ∧ W s') :
    ∃ l', P l' ∧ Reaches threads g₀ i l' W := by
  obtain ⟨g, hsteps, rfl, hV⟩ := h
  have hg : Holds G A g := ho.steps hg₀ hsteps
  obtain ⟨c, s', l', hthread, hP, hW⟩ := hstep g.shared hg.1 (hg.2 i) hV
  have hlast : Step threads g ⟨s', Function.update g.locals i l'⟩ :=
    ⟨i, c, step_eq_some.mpr ⟨s', l', hthread, rfl⟩⟩
  exact ⟨l', hP, _, hsteps.tail hlast, Function.update_self i l' g.locals, hW⟩

/-- One more step of the thread. -/
theorem Reaches.step (ho : Outline threads G A) {g₀ : Config ι S L} (hg₀ : Holds G A g₀) {i : ι}
    {l l' : L} {V W : S → Prop} (h : Reaches threads g₀ i l V)
    (hstep : ∀ s, G s → A i s l → V s → ∃ c s', threads i c s l = some (s', l') ∧ W s') :
    Reaches threads g₀ i l' W := by
  obtain ⟨_, rfl, hreach⟩ := h.step_exists (P := (· = l')) ho hg₀ fun s hs hl hV => by
    obtain ⟨c, s', hthread, hW⟩ := hstep s hs hl hV
    exact ⟨c, s', l', hthread, rfl, hW⟩
  exact hreach

/-! ## Schedules, state by state -/

variable (threads) in
/-- `P` in every state that a schedule passes through. -/
def Always (P : Config ι S L → Prop) : List (ι × C) → Config ι S L → Prop
  | [], g => P g
  | (i, c) :: schedule, g => P g ∧ ∀ g', step threads i c g = some g' → Always P schedule g'

variable (threads) in
/-- `Q` of every step of a schedule and the state it is made in. -/
def Each (Q : ι → C → Config ι S L → Prop) : List (ι × C) → Config ι S L → Prop
  | [], _ => True
  | (i, c) :: schedule, g => Q i c g ∧ ∀ g', step threads i c g = some g' → Each Q schedule g'

section Schedules

variable {P I : Config ι S L → Prop} {Q : ι → C → Config ι S L → Prop}

theorem Always.head {schedule : List (ι × C)} {g : Config ι S L}
    (h : Always threads P schedule g) : P g := by
  cases schedule with
  | nil => exact h
  | cons ic schedule => exact h.1

theorem each_of_forall {schedule : List (ι × C)} (h : ∀ ic ∈ schedule, ∀ g, Q ic.1 ic.2 g)
    {g : Config ι S L} : Each threads Q schedule g := by
  induction schedule generalizing g with
  | nil => trivial
  | cons ic schedule ih =>
    rw [List.forall_mem_cons] at h
    exact ⟨h.1 g, fun _ _ => ih h.2⟩

theorem Each.mono {R : ι → C → Config ι S L → Prop} (h : ∀ {i c g}, Q i c g → R i c g)
    {schedule : List (ι × C)} {g : Config ι S L} (hQ : Each threads Q schedule g) :
    Each threads R schedule g := by
  induction schedule generalizing g with
  | nil => trivial
  | cons ic schedule ih => exact ⟨h hQ.1, fun g' hg' => ih (hQ.2 g' hg')⟩

/-- An invariant of the steps in `Q` holds along every schedule of such steps. -/
theorem always_of_each
    (hstep : ∀ {i c g g'}, I g → Q i c g → Interleaving.step threads i c g = some g' → I g')
    (hP : ∀ g, I g → P g) {schedule : List (ι × C)} {g : Config ι S L} (hg : I g)
    (h : Each threads Q schedule g) : Always threads P schedule g := by
  induction schedule generalizing g with
  | nil => exact hP g hg
  | cons ic schedule ih => exact ⟨hP g hg, fun g' hg' => ih (hstep hg h.1 hg') (h.2 g' hg')⟩

/-- If a step that is not in `Q` spoils `P` at once, a schedule along which `P` holds has only
steps in `Q`. -/
theorem each_of_always
    (hstep : ∀ {i c g g'}, I g → Interleaving.step threads i c g = some g' → I g')
    (hspoil : ∀ {i c g}, I g → ¬Q i c g → ∃ g', Interleaving.step threads i c g = some g' ∧ ¬P g')
    {schedule : List (ι × C)} {g : Config ι S L} (hg : I g) (h : Always threads P schedule g) :
    Each threads Q schedule g := by
  induction schedule generalizing g with
  | nil => trivial
  | cons ic schedule ih =>
    refine ⟨?_, fun g' hg' => ih (hstep hg hg') (h.2 g' hg')⟩
    by_contra hQ
    obtain ⟨g', hg', hnot⟩ := hspoil hg hQ
    exact hnot (h.2 g' hg').head

end Schedules

end OidcValidator.Interleaving
