/-
`AttachProgress.lean` -- who waits in `attach_shared`, and for how long.

`state->lock` is the only thing in `attach_shared` that a backend can wait for. As long as no
call under the lock fails, its holder is on its way to releasing it, so somebody can always go
on, and everybody who is inside comes out again. An `ERROR` under the lock changes that for all:
if it comes before the area handle is written, then nobody gets past `LWLockAcquire` any more,
until the process ends that has left the lock behind; then all can go on.
-/
import Mathlib.Data.Fintype.EquivFin
import OidcValidator.InitLock
import OidcValidator.Progress

set_option autoImplicit false

namespace OidcValidator.AttachProgress

open OidcValidator.Dshash OidcValidator.Interleaving OidcValidator.Progress
open OidcValidator.AttachShared OidcValidator.InitLock

variable {ι : Type}

/-! ## What a call has left -/

/-- The statements that a call may still make, on the longest way. -/
def left : Pc → ℕ
  | .idle | .returned _ | .failed | .undefined => 0
  | .get_segment => 11
  | .test => 10
  | .acquire => 9
  | .retest => 8
  | .create_area => 7
  | .pin_area _ => 6
  | .pin_created _ => 5
  | .create_table _ => 4
  | .write_table _ _ => 3
  | .write_area _ _ => 2
  | .attach_area _ => 4
  | .pin_attached _ _ => 3
  | .attach_table _ _ => 2
  | .release _ => 1

/-- A step inside a call. -/
def Inside (c : Choice) (pc : Pc) : Prop := c ≠ .exit ∧ pc.outside = false

/-- A step inside a call that does not fail. -/
def Goes (c : Choice) (pc : Pc) : Prop := (∃ handle, c = .go handle) ∧ pc.outside = false

theorem left_le (pc : Pc) : left pc ≤ 11 := by
  cases pc <;> simp [left]

theorem Goes.inside {c : Choice} {pc : Pc} (h : Goes c pc) : Inside c pc := by
  obtain ⟨⟨handle, rfl⟩, hpc⟩ := h
  refine And.intro ?_ hpc
  intro heq
  cases heq

/-- What a statement that does not fail does to a call: less is left of it, and if it comes out
then by returning. -/
structure Nearer (pc pc' : Pc) : Prop where
  left_lt : left pc' < left pc
  returned : pc'.outside = true → ∃ dshash, pc' = .returned dshash

theorem Nearer.of_inside {pc pc' : Pc} (h : left pc' < left pc) (hpc : pc'.outside = false) :
    Nearer pc pc' :=
  ⟨h, fun hout => absurd (hpc.symm.trans hout) Bool.false_ne_true⟩

theorem nearer_of_attach_step {i : ι} {handle : ℕ} {s s' : Shared ι} {pc pc' : Pc}
    (hpc : pc.outside = false) (h : attach_step i handle s pc = some (s', pc')) :
    Nearer pc pc' := by
  cases pc with
  | idle | returned _ | failed => cases hpc
  | undefined => cases h
  | get_segment | pin_area _ | pin_created _ | write_table _ _ | write_area _ _
  | pin_attached _ _ =>
    obtain ⟨rfl, rfl⟩ := Prod.mk.inj (Option.some.inj h)
    exact .of_inside (by simp [left]) rfl
  | release dshash =>
    obtain ⟨rfl, rfl⟩ := Prod.mk.inj (Option.some.inj h)
    exact ⟨by simp [left], fun _ => ⟨dshash, rfl⟩⟩
  | acquire | create_area | create_table _ =>
    simp only [attach_step] at h
    split_ifs at h
    obtain ⟨rfl, rfl⟩ := Prod.mk.inj (Option.some.inj h)
    exact .of_inside (by simp [left]) rfl
  | test | retest | attach_area _ =>
    simp only [attach_step] at h
    rcases harea : s.state.area_handle with _ | area <;> rw [harea] at h <;>
      obtain ⟨rfl, rfl⟩ := Prod.mk.inj (Option.some.inj h)
    · exact .of_inside (by simp [left]) rfl
    · exact .of_inside (by simp [left]) rfl
  | attach_table locked area =>
    simp only [attach_step] at h
    rcases htable : s.state.table_handle with _ | table <;> rw [htable] at h
    · obtain ⟨rfl, rfl⟩ := Prod.mk.inj (Option.some.inj h)
      exact .of_inside (by simp [left]) rfl
    · dsimp only at h
      split_ifs at h <;> obtain ⟨rfl, rfl⟩ := Prod.mk.inj (Option.some.inj h)
      · exact .of_inside (by simp [left]) rfl
      · -- without the lock the call returns from here
        exact ⟨by simp [left], fun _ => ⟨⟨area, table⟩, rfl⟩⟩
      · exact .of_inside (by simp [left]) rfl

variable [DecidableEq ι]

theorem descends : Descends (backend (ι := ι)) Sane Knows Inside left := by
  rintro i c s pc s' pc' - - ⟨hexit, hpc⟩ h
  cases c with
  | go handle => exact (nearer_of_attach_step hpc h).left_lt
  | exit => exact absurd rfl hexit
  | fail =>
    simp only [backend] at h
    split_ifs at h with hfallible
    obtain ⟨rfl, rfl⟩ := Prod.mk.inj (Option.some.inj h)
    cases pc <;> simp_all [left, Pc.fallible]

/-! ## Where nobody goes on -/

omit [DecidableEq ι] in
/-- Inside a call only the lock is waited for. -/
theorem exists_attach_step {i : ι} {s : Shared ι} {pc : Pc} (hk : Knows i s pc)
    (hpc : pc.outside = false) (hwait : pc = .acquire → s.lock = none) :
    ∃ handle r, attach_step i handle s pc = some r := by
  cases pc with
  | idle | returned _ | failed => cases hpc
  | undefined => exact hk.elim
  | get_segment | pin_area _ | pin_created _ | write_table _ _ | write_area _ _ | pin_attached _ _
  | release _ => exact ⟨0, _, rfl⟩
  -- the lock is free
  | acquire => exact ⟨0, _, if_pos (hwait rfl)⟩
  | create_area =>
    obtain ⟨handle, hfresh⟩ := Infinite.exists_notMem_finset s.areas.toFinset
    exact ⟨handle, _, if_neg fun hmem => hfresh (List.mem_toFinset.mpr hmem)⟩
  | create_table area =>
    obtain ⟨handle, hfresh⟩ := Infinite.exists_notMem_finset (s.tables.map Prod.snd).toFinset
    refine ⟨handle, _, if_neg fun hmem => hfresh (List.mem_toFinset.mpr ?_)⟩
    exact List.mem_map.mpr ⟨_, hmem, rfl⟩
  | test | retest | attach_area _ =>
    simp only [attach_step]
    rcases s.state.area_handle with _ | area <;> exact ⟨0, _, rfl⟩
  | attach_table locked area =>
    simp only [attach_step]
    rcases s.state.table_handle with _ | table
    · exact ⟨0, _, rfl⟩
    · by_cases hmem : (area, table) ∈ s.tables
      · exact ⟨0, _, if_pos hmem⟩
      · exact ⟨0, _, if_neg hmem⟩

variable {g g' : Config ι (Shared ι) Pc}

/-- Whoever is on its way to releasing the lock is not waiting for it. -/
theorem inside_of_under_lock {pc : Pc} (h : under_lock pc = true) :
    pc.outside = false ∧ pc ≠ .acquire := by
  cases pc <;> simp_all [under_lock, locked_call, Pc.outside]

/-- **Nobody waits for nothing.** If nobody fails under the lock, then nobody can go on only if
everybody is outside. -/
theorem outside_of_stuck (h : Stuck backend Goes g) (hg : Orderly g) (i : ι) :
    (g.locals i).outside = true := by
  -- whoever is inside and not at the lock can go on
  have hblocked : ∀ j, (g.locals j).outside = false →
      g.locals j = .acquire ∧ g.shared.lock ≠ none := by
    intro j hj
    by_contra hwait
    have hstep : g.locals j = .acquire → g.shared.lock = none := fun heq =>
      not_not.mp fun hne => hwait ⟨heq, hne⟩
    obtain ⟨handle, r, hr⟩ := exists_attach_step (hg.1.2 j) hj hstep
    have hnone := Option.map_eq_none_iff.mp (h j (.go handle) ⟨⟨handle, rfl⟩, hj⟩)
    have hsome : backend j (.go handle) g.shared (g.locals j) = some r := hr
    rw [hsome] at hnone
    cases hnone
  by_contra hi
  obtain ⟨-, hlock⟩ := hblocked i (Bool.eq_false_iff.mpr hi)
  obtain ⟨j, hj⟩ := Option.ne_none_iff_exists'.mp hlock
  -- the holder is inside, so it is at the lock as well, which it has
  obtain ⟨hinside, hpast⟩ := inside_of_under_lock (hg.2 j hj)
  exact hpast (hblocked j hinside).1

/-! ## Everybody comes out -/

omit [DecidableEq ι] in
theorem Goes.permitted {i : ι} {c : Choice} (h : Goes c (g.locals i)) : Permitted i c g := by
  obtain ⟨⟨handle, rfl⟩, -⟩ := h
  intro heq
  cases heq

theorem orderly_of_run {schedule : List (ι × Choice)} (hg : Orderly g)
    (hp : Each backend Permitted schedule g) (h : run backend schedule g = some g') :
    Orderly g' :=
  keeps_run (Q := fun _ c pc => c = .fail → locked_call pc = false)
    (fun hg hc hstep => hg.step hc hstep) hg hp h

/-- The backend is inside, or its call has returned. -/
def Attaching (pc : Pc) : Prop := pc.outside = true → ∃ dshash, pc = .returned dshash

theorem attaching_of_run {i : ι} {schedule : List (ι × Choice)} (hi : Attaching (g.locals i))
    (hgo : Each backend (fun j c g => Goes c (g.locals j)) schedule g)
    (h : run backend schedule g = some g') : Attaching (g'.locals i) := by
  refine keeps_run (I := fun g => Attaching (g.locals i)) (Q := fun _ c pc => Goes c pc) ?_ hi hgo h
  intro j c g g' hi ⟨⟨handle, hc⟩, hj⟩ hstep
  subst hc
  by_cases hij : i = j
  · subst hij
    exact (nearer_of_attach_step hj (locals_of_step hstep)).returned
  · rwa [locals_of_step_of_ne hij hstep]

/-- From where nobody has left the lock behind, everybody comes out. -/
theorem everybody_returns [Fintype ι] (hg : Orderly g) :
    ∃ schedule g', Each backend (fun i c g => Goes c (g.locals i)) schedule g ∧
      run backend schedule g = some g' ∧
      ∀ i, (g'.locals i).outside = true ∧ ((g.locals i).outside = false →
        ∃ dshash, g'.locals i = .returned dshash ∧
          g'.shared.state = ⟨some dshash.table, some dshash.area⟩) := by
  have hd : Descends (backend (ι := ι)) Sane Knows Goes left :=
    fun _ _ _ _ _ _ hs hk hgoes h => descends hs hk hgoes.inside h
  obtain ⟨schedule, g', hgo, hrun, hstuck⟩ := hd.exists_stuck outline hg.1
  have hg' : Orderly g' := orderly_of_run hg (hgo.mono fun h => h.permitted) hrun
  refine ⟨schedule, g', hgo, hrun, fun i => ⟨outside_of_stuck hstuck hg' i, fun hi => ?_⟩⟩
  -- whoever is inside at first has not come out any other way
  have hattaching : Attaching (g.locals i) := fun hout => absurd (hi.symm.trans hout) nofun
  obtain ⟨dshash, hreturned⟩ :=
    attaching_of_run hattaching hgo hrun (outside_of_stuck hstuck hg' i)
  have hknows := hg'.1.2 i
  rw [hreturned] at hknows
  exact ⟨dshash, hreturned, hknows⟩

/-- **Whoever attaches gets attached.** As long as nobody fails under the lock: a call of
`attach_shared` makes at most eleven steps, however the others move in between; nobody can go
on exactly if nobody is inside; and every run can be carried on without failures until everybody
who is inside has returned, all of them attached to the one table. -/
theorem attach_shared_goes_on [Fintype ι] {schedule : List (ι × Choice)}
    (hrun : run backend schedule init = some g)
    (hpermitted : Each backend Permitted schedule init) :
    (∀ i schedule' g', run backend schedule' g = some g' →
        Each backend (fun j c g => j = i → Inside c (g.locals j)) schedule' g →
        schedule'.countP (fun ic => ic.1 = i) ≤ 11) ∧
      (Stuck backend Goes g ↔ ∀ i, (g.locals i).outside = true) ∧
      ∃ schedule' g', Each backend (fun i c g => Goes c (g.locals i)) schedule' g ∧
        run backend schedule' g = some g' ∧
        ∀ i, (g'.locals i).outside = true ∧ ((g.locals i).outside = false →
          ∃ dshash, g'.locals i = .returned dshash ∧
            g'.shared.state = ⟨some dshash.table, some dshash.area⟩) := by
  have hg : Orderly g := orderly_of_run orderly_init hpermitted hrun
  refine ⟨fun i schedule' g' hrun' hinside => ?_,
    ⟨fun h => outside_of_stuck h hg, fun h i c hgoes => ?_⟩, ?_⟩
  · have hcount := descends.count_le outline i hg.1 hinside hrun'
    have hle := left_le (g.locals i)
    omega
  · exact absurd (h i) (by rw [hgoes.2]; decide)
  · exact everybody_returns hg

/-- The first backend is in the middle of `create_shared`, at `dshash_create`. -/
def creating : Config Bool (Shared Bool) Pc :=
  (run backend (second.take 8) init).getD init

theorem attach_shared_goes_on_creating :
    ∃ schedule g', run backend schedule creating = some g' ∧
      ∃ dshash, g'.locals false = .returned dshash := by
  have hrun : run backend (second.take 8) (init (ι := Bool)) = some creating := rfl
  have hpermitted : Each backend Permitted (second.take 8) (init (ι := Bool)) := by
    refine each_of_forall ?_
    simp [second, Permitted]
  obtain ⟨-, -, schedule, g', -, hrun', hout⟩ := attach_shared_goes_on hrun hpermitted
  obtain ⟨dshash, hreturned, -⟩ := (hout false).2 rfl
  exact ⟨schedule, g', hrun', dshash, hreturned⟩

/-! ## A lock that is left behind -/

/-- Where a backend can be that has not had the lock and is not attached. -/
def shut_out : Pc → Bool
  | .idle | .get_segment | .test | .acquire | .failed => true
  | _ => false

omit [DecidableEq ι] in
/-- As long as `j` has the lock and there is no area, nobody else is further than the lock. -/
theorem shut_out_of_knows {i j : ι} {s : Shared ι} {pc : Pc} (h : Knows i s pc)
    (hlock : s.lock = some j) (harea : s.state.area_handle = none) (hpc : i = j → pc = .failed) :
    shut_out pc = true := by
  by_cases hij : i = j
  · rw [hpc hij]
    rfl
  · have hne : s.lock ≠ some i := fun heq => hij (Option.some.inj (heq.symm.trans hlock))
    -- behind the lock one would have to hold it, or to have seen an area
    cases pc with
    | idle | get_segment | test | acquire | failed => rfl
    | retest | create_area | pin_area _ | pin_created _ | create_table _ | write_table _ _
    | write_area _ _ | release _ => exact absurd h.1 hne
    | attach_area _ =>
      obtain ⟨-, area, harea'⟩ := h
      exact absurd (harea.symm.trans harea') nofun
    | pin_attached _ _ | attach_table _ _ => exact absurd (harea.symm.trans h.2) nofun
    | returned dshash =>
      have harea' : s.state.area_handle = some dshash.area := by rw [h]
      exact absurd (harea.symm.trans harea') nofun
    | undefined => exact h.elim

/-- Only the end of the process of `j` changes anything then. -/
theorem backend_of_shut_out {i j : ι} {c : Choice} {s s' : Shared ι} {pc pc' : Pc}
    (hlock : s.lock = some j) (harea : s.state.area_handle = none) (hpc : shut_out pc = true)
    (hexit : (i, c) ≠ (j, .exit)) (h : backend i c s pc = some (s', pc')) :
    s' = s ∧ shut_out pc' = true := by
  cases c with
  | go handle =>
    have hstep : attach_step i handle s pc = some (s', pc') := h
    cases pc with
    | idle | get_segment | failed =>
      obtain ⟨rfl, rfl⟩ := Prod.mk.inj (Option.some.inj hstep)
      exact ⟨rfl, rfl⟩
    | test =>
      simp only [attach_step, harea] at hstep
      obtain ⟨rfl, rfl⟩ := Prod.mk.inj (Option.some.inj hstep)
      exact ⟨rfl, rfl⟩
    | acquire =>
      -- whoever comes to the lock, `j` included, waits
      simp only [attach_step, hlock, reduceCtorEq, if_false] at hstep
    | _ => cases hpc
  | fail =>
    simp only [backend] at h
    split_ifs at h
    obtain ⟨rfl, rfl⟩ := Prod.mk.inj (Option.some.inj h)
    exact ⟨rfl, rfl⟩
  | exit =>
    have hij : i ≠ j := by
      rintro rfl
      exact hexit rfl
    have hne : s.lock ≠ some i := fun heq => hij (Option.some.inj (heq.symm.trans hlock))
    simp only [backend] at h
    split_ifs at h
    obtain ⟨rfl, rfl⟩ := Prod.mk.inj (Option.some.inj h)
    exact ⟨rfl, rfl⟩

/-- `j` has left the lock behind with the segment as it is in `s`, and all are shut out. -/
structure LeftBehind (j : ι) (s : Shared ι) (g : Config ι (Shared ι) Pc) : Prop where
  lock : s.lock = some j
  area : s.state.area_handle = none
  shared : g.shared = s
  locals : ∀ i, shut_out (g.locals i) = true

theorem LeftBehind.step {i j : ι} {c : Choice} {s : Shared ι} (h : LeftBehind j s g)
    (hexit : (i, c) ≠ (j, .exit)) (hstep : Interleaving.step backend i c g = some g') :
    LeftBehind j s g' := by
  have hthread := locals_of_step hstep
  rw [h.shared] at hthread
  obtain ⟨hshared, hout⟩ := backend_of_shut_out h.lock h.area (h.locals i) hexit hthread
  refine ⟨h.lock, h.area, hshared, fun k => ?_⟩
  by_cases hki : k = i
  · rw [hki]
    exact hout
  · rw [locals_of_step_of_ne hki hstep]
    exact h.locals k

theorem LeftBehind.run {j : ι} {s : Shared ι} {schedule : List (ι × Choice)}
    (h : LeftBehind j s g) (hexit : (j, .exit) ∉ schedule)
    (hrun : Interleaving.run backend schedule g = some g') : LeftBehind j s g' := by
  refine keeps_run (I := LeftBehind j s) (Q := fun i c _ => (i, c) ≠ (j, .exit))
    (fun hI hic hstep => hI.step hic hstep) h (each_of_forall fun ic hmem _ heq => hexit ?_) hrun
  rw [← heq]
  exact hmem

/-- An `ERROR` in one of the calls that create. -/
theorem leftBehind_of_fail {j : ι} (hg : Holds Sane Knows g)
    (hlocked : locked_call (g.locals j) = true) (harea : g.shared.state.area_handle = none)
    (hfail : step backend j .fail g = some g') : LeftBehind j g.shared g' := by
  have hholds : Holds Sane Knows g' := outline.step hg ⟨j, .fail, hfail⟩
  have hlock : g.shared.lock = some j := by
    have hknows := hg.2 j
    revert hlocked hknows
    cases g.locals j <;> simp +contextual [locked_call, Knows]
  have hthread := locals_of_step hfail
  simp only [backend] at hthread
  split_ifs at hthread
  obtain ⟨hshared, hfailed⟩ := Prod.mk.inj (Option.some.inj hthread)
  refine ⟨hlock, harea, hshared.symm, fun i => ?_⟩
  refine shut_out_of_knows (hholds.2 i) (hshared ▸ hlock) (hshared ▸ harea) ?_
  rintro rfl
  exact hfailed.symm

/-- **A failed creation shuts everybody out.** After an `ERROR` under the lock before the area
handle is written, and until the process of the backend ends that has failed: the segment and the
lock stay as they are, and no backend, this one included, gets past `LWLockAcquire` or returns. -/
theorem failed_creation_shuts_out {j : ι} {g₁ : Config ι (Shared ι) Pc}
    {schedule : List (ι × Choice)} (hg : Steps backend init g)
    (hlocked : locked_call (g.locals j) = true) (harea : g.shared.state.area_handle = none)
    (hfail : step backend j .fail g = some g₁) (hrun : run backend schedule g₁ = some g')
    (hexit : (j, .exit) ∉ schedule) :
    g'.shared = g.shared ∧ g'.shared.lock = some j ∧ ∀ i, shut_out (g'.locals i) = true := by
  have hleft : LeftBehind j g.shared g₁ :=
    leftBehind_of_fail (outline.steps holds_init hg) hlocked harea hfail
  have hend := hleft.run hexit hrun
  exact ⟨hend.shared, hend.shared ▸ hend.lock, hend.locals⟩

/-- `dshash_create` fails, and the other backend comes to the lock. -/
theorem failed_creation_shuts_out_second :
    ∃ g₁ g', step backend false .fail creating = some g₁ ∧
      run backend (second.drop 9) g₁ = some g' ∧ g'.shared.lock = some false ∧
      ∀ i, shut_out (g'.locals i) = true := by
  have hrun : run backend (second.take 8) (init (ι := Bool)) = some creating := rfl
  have hexit : (false, .exit) ∉ second.drop 9 := by simp [second]
  have h := failed_creation_shuts_out (steps_of_run hrun) rfl rfl rfl rfl hexit
  exact ⟨_, _, rfl, rfl, h.2⟩

/-- **The end of the process lets everybody in again.** When the backend that has failed under the
lock ends, every run can be carried on until all that were shut out at the lock have returned. -/
theorem exit_lets_everybody_in [Fintype ι] {j : ι} {g₁ g₂ : Config ι (Shared ι) Pc}
    {schedule : List (ι × Choice)} (hg : Steps backend init g)
    (hlocked : locked_call (g.locals j) = true) (harea : g.shared.state.area_handle = none)
    (hfail : step backend j .fail g = some g₁) (hrun : run backend schedule g₁ = some g')
    (hexit : (j, .exit) ∉ schedule) (hend : step backend j .exit g' = some g₂) :
    ∃ schedule' g₃, Each backend (fun i c g => Goes c (g.locals i)) schedule' g₂ ∧
      run backend schedule' g₂ = some g₃ ∧
      ∀ i, (g₃.locals i).outside = true ∧ (g'.locals i = .acquire →
        ∃ dshash, g₃.locals i = .returned dshash ∧
          g₃.shared.state = ⟨some dshash.table, some dshash.area⟩) := by
  have hleft : LeftBehind j g.shared g' :=
    (leftBehind_of_fail (outline.steps holds_init hg) hlocked harea hfail).run hexit hrun
  have hsteps : Steps backend init g' := (hg.tail ⟨j, .fail, hfail⟩).trans (steps_of_run hrun)
  have hholds : Holds Sane Knows g₂ := outline.steps holds_init (hsteps.tail ⟨j, .exit, hend⟩)
  have hlast := locals_of_step hend
  rw [hleft.shared] at hlast
  simp only [backend, hleft.lock, if_true] at hlast
  split_ifs at hlast with houtside
  obtain ⟨hshared, -⟩ := Prod.mk.inj (Option.some.inj hlast)
  -- the lock goes with the process, so nobody has it
  have hfree : g₂.shared.lock = none := by rw [← hshared]
  have horderly : Orderly g₂ := by
    refine ⟨hholds, fun i hheld => ?_⟩
    rw [hfree] at hheld
    cases hheld
  obtain ⟨schedule', g₃, hgo, hrun', hout⟩ := everybody_returns horderly
  refine ⟨schedule', g₃, hgo, hrun', fun i => ⟨(hout i).1, fun hi => (hout i).2 ?_⟩⟩
  have hij : i ≠ j := by
    rintro rfl
    rw [hi] at houtside
    cases houtside
  rw [locals_of_step_of_ne hij hend, hi]
  rfl

/-- The first backend ends, and the second one makes the table. -/
theorem exit_lets_everybody_in_second :
    ∃ g₁ g' g₂ schedule g₃, step backend false .fail creating = some g₁ ∧
      run backend (second.drop 9) g₁ = some g' ∧ step backend false .exit g' = some g₂ ∧
      run backend schedule g₂ = some g₃ ∧ ∃ dshash, g₃.locals true = .returned dshash := by
  have hrun : run backend (second.take 8) (init (ι := Bool)) = some creating := rfl
  have hexit : (false, .exit) ∉ second.drop 9 := by simp [second]
  obtain ⟨schedule, g₃, -, hrun', hout⟩ :=
    exit_lets_everybody_in (steps_of_run hrun) rfl rfl rfl rfl hexit rfl
  obtain ⟨dshash, hreturned, -⟩ := (hout true).2 rfl
  exact ⟨_, _, _, schedule, g₃, rfl, rfl, rfl, hrun', dshash, hreturned⟩

end OidcValidator.AttachProgress
