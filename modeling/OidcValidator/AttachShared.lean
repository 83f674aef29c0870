/-
`AttachShared.lean` -- many backends attach to one table.

The handles of the shared table live in a segment that every backend can read. A backend
tests `area_handle` without the lock; if it is invalid it takes `state->lock`, tests
again, and either makes the area and the table or attaches to those that somebody else
has made in between. The fast path reads both handles without the lock, so all depends on
`table_handle` being written first.

Each statement of `attach_shared` that reads or writes the segment, or calls PostgreSQL,
is one step here. A call may raise an `ERROR`; nothing then gives the lock back before
the process ends.
-/
import OidcValidator.Dshash
import OidcValidator.Interleaving

set_option autoImplicit false

namespace OidcValidator.AttachShared

open OidcValidator.ByteString OidcValidator.Control OidcValidator.PgUtils
open OidcValidator.Dshash OidcValidator.Interleaving

/-! ## The steps -/

/-- Where a backend is in `attach_shared`: what it does next, with its locals `area` and
`table`. `locked` tells the attaching branch under the lock from the one without. -/
inductive Pc where
  | idle
  | get_segment
  | test
  | acquire
  | retest
  | create_area
  | pin_area (area : ℕ)
  | pin_created (area : ℕ)
  | create_table (area : ℕ)
  | write_table (area table : ℕ)
  | write_area (area table : ℕ)
  | attach_area (locked : Bool)
  | pin_attached (locked : Bool) (area : ℕ)
  | attach_table (locked : Bool) (area : ℕ)
  | release (dshash : Attachment)
  | returned (dshash : Attachment)
  | failed
  | undefined
  deriving DecidableEq

/-- The segment, who holds `state->lock`, and what has been created so far: areas, and
tables with the area each of them is in. -/
structure Shared (ι : Type) where
  state : SharedState
  lock : Option ι
  areas : List ℕ
  tables : List (ℕ × ℕ)

/-- What is not up to the backend: the handle that a creation yields, whether a call fails,
and when the process ends. -/
inductive Choice where
  | go (handle : ℕ)
  | fail
  | exit

/-- The statements that call into PostgreSQL. -/
def Pc.fallible : Pc → Bool
  | .get_segment | .acquire | .create_area | .pin_area _ | .pin_created _ | .create_table _ => true
  | .attach_area _ | .pin_attached _ _ | .attach_table _ _ => true
  | _ => false

/-- The backend is not inside `attach_shared`. -/
def Pc.outside : Pc → Bool
  | .idle | .returned _ | .failed => true
  | _ => false

variable {ι : Type}

/-- The next statement of `attach_shared`, where `handle` is the handle that a creation
yields. -/
def attach_step (i : ι) (handle : ℕ) (s : Shared ι) : Pc → Option (Shared ι × Pc)
  | .idle | .returned _ | .failed => some (s, .get_segment)
  | .get_segment => some (s, .test)
  | .test =>
      match s.state.area_handle with
      | none => some (s, .acquire)
      | some _ => some (s, .attach_area false)
  | .acquire => if s.lock = none then some ({ s with lock := some i }, .retest) else none
  | .retest =>
      match s.state.area_handle with
      | none => some (s, .create_area)
      | some _ => some (s, .attach_area true)
  | .create_area =>
      if handle ∈ s.areas then none
      else some ({ s with areas := handle :: s.areas }, .pin_area handle)
  | .pin_area area => some (s, .pin_created area)
  | .pin_created area => some (s, .create_table area)
  | .create_table area =>
      if (area, handle) ∈ s.tables then none
      else some ({ s with tables := (area, handle) :: s.tables }, .write_table area handle)
  | .write_table area table =>
      some ({ s with state := { s.state with table_handle := some table } }, .write_area area table)
  | .write_area area table =>
      some ({ s with state := { s.state with area_handle := some area } }, .release ⟨area, table⟩)
  | .attach_area locked =>
      match s.state.area_handle with
      | some area => some (s, .pin_attached locked area)
      | none => some (s, .undefined)
  | .pin_attached locked area => some (s, .attach_table locked area)
  | .attach_table locked area =>
      match s.state.table_handle with
      | some table =>
          if (area, table) ∈ s.tables then
            some (s, if locked then .release ⟨area, table⟩ else .returned ⟨area, table⟩)
          else some (s, .undefined)
      | none => some (s, .undefined)
  | .release dshash => some ({ s with lock := none }, .returned dshash)
  | .undefined => none

/-- A backend. Outside `attach_shared` its process may end, which gives back the lock. -/
def backend [DecidableEq ι] : Threads ι Choice (Shared ι) Pc := fun i c s pc =>
  match c with
  | .go handle => attach_step i handle s pc
  | .fail => if pc.fallible then some (s, .failed) else none
  | .exit =>
      if pc.outside then
        some ({ s with lock := if s.lock = some i then none else s.lock }, .idle)
      else none

/-- The segment after its one initialisation, before any backend has come. -/
def init : Config ι (Shared ι) Pc := ⟨⟨⟨none, none⟩, none, [], []⟩, fun _ => .idle⟩

/-! ## The assertions -/

/-- There is no `table_handle` without an `area_handle`. -/
def Clean (state : SharedState) : Prop := state.area_handle = none → state.table_handle = none

/-- What holds of the segment between any two steps. -/
structure Sane (s : Shared ι) : Prop where
  valid : ∀ area, s.state.area_handle = some area →
    ∃ table, s.state.table_handle = some table ∧ (area, table) ∈ s.tables
  free : s.lock = none → Clean s.state

/-- What backend `i` may rely on. Between the two writes it is the only one that knows of
the table; everywhere else, should it hold the lock, the segment is clean. -/
def Knows (i : ι) (s : Shared ι) : Pc → Prop
  | .idle | .get_segment | .test | .acquire | .failed => s.lock = some i → Clean s.state
  | .retest => s.lock = some i ∧ Clean s.state
  | .create_area | .pin_area _ | .pin_created _ | .create_table _ =>
      s.lock = some i ∧ s.state = ⟨none, none⟩
  | .write_table area table =>
      s.lock = some i ∧ s.state = ⟨none, none⟩ ∧ (area, table) ∈ s.tables
  | .write_area area table =>
      s.lock = some i ∧ s.state = ⟨some table, none⟩ ∧ (area, table) ∈ s.tables
  | .attach_area locked =>
      (locked = true → s.lock = some i) ∧ ∃ area, s.state.area_handle = some area
  | .pin_attached locked area | .attach_table locked area =>
      (locked = true → s.lock = some i) ∧ s.state.area_handle = some area
  | .release dshash => s.lock = some i ∧ s.state = ⟨some dshash.table, some dshash.area⟩
  | .returned dshash => s.state = ⟨some dshash.table, some dshash.area⟩
  | .undefined => False

theorem state_eq {state : SharedState} {table area : Option ℕ} (ht : state.table_handle = table)
    (ha : state.area_handle = area) : state = ⟨table, area⟩ := by
  rw [← ht, ← ha]

theorem Clean.of_area {state : SharedState} {area : ℕ} (h : state.area_handle = some area) :
    Clean state := by
  intro hnone
  rw [h] at hnone
  exact absurd hnone nofun

theorem Clean.of_valid {table area : ℕ} : Clean ⟨some table, some area⟩ := Clean.of_area rfl

/-- Whoever holds the lock and is not between the two writes leaves the segment clean. -/
theorem Knows.clean {i : ι} {s : Shared ι} {pc : Pc} (h : Knows i s pc) (hlock : s.lock = some i)
    (hpc : ∀ area table, pc ≠ .write_area area table) : Clean s.state := by
  cases pc with
  | idle => exact h hlock
  | get_segment => exact h hlock
  | test => exact h hlock
  | acquire => exact h hlock
  | failed => exact h hlock
  | retest => exact h.2
  | create_area => rw [h.2]; exact fun _ => rfl
  | pin_area _ => rw [h.2]; exact fun _ => rfl
  | pin_created _ => rw [h.2]; exact fun _ => rfl
  | create_table _ => rw [h.2]; exact fun _ => rfl
  | write_table _ _ => rw [h.2.1]; exact fun _ => rfl
  | write_area area table => exact absurd rfl (hpc area table)
  | attach_area _ => exact Clean.of_area h.2.choose_spec
  | pin_attached _ _ => exact Clean.of_area h.2
  | attach_table _ _ => exact Clean.of_area h.2
  | release _ => rw [h.2]; exact Clean.of_valid
  | returned _ => rw [h]; exact Clean.of_valid
  | undefined => exact h.elim

/-! ## One step -/

/-- What a step of `i` may do to what others rely on: only the holder of the lock writes to
the segment, and no valid handle is overwritten. -/
structure Frame (i : ι) (s s' : Shared ι) : Prop where
  lock : ∀ j, j ≠ i → (s'.lock = some j ↔ s.lock = some j)
  state : s.lock ≠ some i → s'.state = s.state
  area : ∀ area, s.state.area_handle = some area → s'.state.area_handle = some area
  table : ∀ table, s.state.table_handle = some table → s'.state.table_handle = some table
  tables : s.tables ⊆ s'.tables

/-- A step that touches neither the lock nor the segment. -/
theorem Frame.of_eq {i : ι} {s s' : Shared ι} (hlock : s'.lock = s.lock)
    (hstate : s'.state = s.state) (htables : s.tables ⊆ s'.tables) : Frame i s s' :=
  ⟨fun _ _ => by rw [hlock], fun _ => hstate, fun _ h => by rw [hstate, h],
    fun _ h => by rw [hstate, h], htables⟩

/-- What one statement does. -/
structure StepSpec (i : ι) (s s' : Shared ι) (pc' : Pc) : Prop where
  sane : Sane s'
  knows : Knows i s' pc'
  frame : Frame i s s'

theorem attach_step_spec {i : ι} {handle : ℕ} {s s' : Shared ι} {pc pc' : Pc} (hs : Sane s)
    (hk : Knows i s pc) (h : attach_step i handle s pc = some (s', pc')) :
    StepSpec i s s' pc' := by
  -- most steps do not write: then only what the backend knows is to show
  have hstay : ∀ {pc''}, some (s, pc'') = some (s', pc') → Knows i s pc'' →
      StepSpec i s s' pc' := by
    rintro pc'' heq hk'
    obtain ⟨rfl, rfl⟩ := Prod.mk.inj (Option.some.inj heq)
    exact ⟨hs, hk', Frame.of_eq rfl rfl (List.Subset.refl _)⟩
  cases pc with
  | idle => exact hstay h hk
  | returned dshash => exact hstay h fun hlock => hk.clean hlock nofun
  | failed => exact hstay h hk
  | get_segment => exact hstay h hk
  | test =>
    simp only [attach_step] at h
    rcases harea : s.state.area_handle with _ | area <;> rw [harea] at h
    · exact hstay h hk
    · exact hstay h ⟨nofun, area, harea⟩
  | acquire =>
    simp only [attach_step] at h
    split_ifs at h with hfree
    obtain ⟨rfl, rfl⟩ := Prod.mk.inj (Option.some.inj h)
    refine ⟨⟨hs.valid, nofun⟩, ⟨rfl, hs.free hfree⟩, ⟨fun j hj => ?_, fun _ => rfl, fun _ h => h,
      fun _ h => h, List.Subset.refl _⟩⟩
    simp [hfree, hj.symm]
  | retest =>
    simp only [attach_step] at h
    obtain ⟨hlock, hclean⟩ := hk
    rcases harea : s.state.area_handle with _ | area <;> rw [harea] at h
    · -- under the lock an invalid area handle means that nothing is there
      exact hstay h ⟨hlock, state_eq (hclean harea) harea⟩
    · exact hstay h ⟨fun _ => hlock, area, harea⟩
  | create_area =>
    simp only [attach_step] at h
    split_ifs at h
    obtain ⟨rfl, rfl⟩ := Prod.mk.inj (Option.some.inj h)
    exact ⟨⟨hs.valid, hs.free⟩, hk, Frame.of_eq rfl rfl (List.Subset.refl _)⟩
  | pin_area area => exact hstay h hk
  | pin_created area => exact hstay h hk
  | create_table area =>
    simp only [attach_step] at h
    split_ifs at h
    obtain ⟨rfl, rfl⟩ := Prod.mk.inj (Option.some.inj h)
    -- the new table is not behind a handle yet
    refine ⟨⟨fun a ha => ?_, hs.free⟩, ⟨hk.1, hk.2, List.mem_cons_self⟩, Frame.of_eq rfl rfl (List.subset_cons_self _ _)⟩
    obtain ⟨t, ht, hmem⟩ := hs.valid a ha
    exact ⟨t, ht, List.mem_cons_of_mem _ hmem⟩
  | write_table area table =>
    obtain ⟨rfl, rfl⟩ := Prod.mk.inj (Option.some.inj h)
    obtain ⟨hlock, hstate, hmem⟩ := hk
    refine ⟨⟨fun a ha => ?_, fun hfree => ?_⟩, ⟨hlock, ?_, hmem⟩, ⟨fun _ _ => Iff.rfl,
      fun hne => absurd hlock hne, fun a ha => ha, fun t ht => ?_,
      List.Subset.refl _⟩⟩
    · rw [hstate] at ha
      exact absurd ha nofun
    · exact absurd (hlock.symm.trans hfree) nofun
    · rw [hstate]
    · rw [hstate] at ht
      exact absurd ht nofun
  | write_area area table =>
    obtain ⟨rfl, rfl⟩ := Prod.mk.inj (Option.some.inj h)
    obtain ⟨hlock, hstate, hmem⟩ := hk
    refine ⟨⟨fun a ha => ?_, fun _ => Clean.of_area rfl⟩, ⟨hlock, ?_⟩, ⟨fun _ _ => Iff.rfl,
      fun hne => absurd hlock hne, fun a ha => ?_, fun t ht => ht,
      List.Subset.refl _⟩⟩
    · -- the table has been known under the lock since it was created
      obtain rfl := Option.some.inj ha
      exact ⟨table, by rw [hstate], hmem⟩
    · rw [hstate]
    · rw [hstate] at ha
      exact absurd ha nofun
  | attach_area locked =>
    simp only [attach_step] at h
    obtain ⟨hlock, area, harea⟩ := hk
    rw [harea] at h
    exact hstay h ⟨hlock, harea⟩
  | pin_attached locked area => exact hstay h hk
  | attach_table locked area =>
    simp only [attach_step] at h
    obtain ⟨hlock, harea⟩ := hk
    -- an area handle that is valid has a table handle beside it
    obtain ⟨table, htable, hmem⟩ := hs.valid area harea
    have hstate := state_eq htable harea
    rw [htable] at h
    dsimp only at h
    rw [if_pos hmem] at h
    cases locked with
    | true => exact hstay h ⟨hlock rfl, hstate⟩
    | false => exact hstay h hstate
  | release dshash =>
    obtain ⟨rfl, rfl⟩ := Prod.mk.inj (Option.some.inj h)
    obtain ⟨hlock, hstate⟩ := hk
    refine ⟨⟨hs.valid, fun _ => ?_⟩, hstate, ⟨fun j hj => ?_, fun _ => rfl, fun _ h => h,
      fun _ h => h, List.Subset.refl _⟩⟩
    · rw [hstate]
      exact Clean.of_valid
    · simp [hlock, hj.symm]
  | undefined => exact hk.elim

theorem backend_spec [DecidableEq ι] {i : ι} {c : Choice} {s s' : Shared ι} {pc pc' : Pc} (hs : Sane s)
    (hk : Knows i s pc) (h : backend i c s pc = some (s', pc')) : StepSpec i s s' pc' := by
  cases c with
  | go handle => exact attach_step_spec hs hk h
  | fail =>
    unfold backend at h
    dsimp only at h
    split_ifs at h with hfallible
    obtain ⟨rfl, rfl⟩ := Prod.mk.inj (Option.some.inj h)
    -- no call fails between the two writes
    refine ⟨hs, fun hlock => hk.clean hlock ?_, Frame.of_eq rfl rfl (List.Subset.refl _)⟩
    rintro area table rfl
    exact absurd hfallible nofun
  | exit =>
    unfold backend at h
    dsimp only at h
    split_ifs at h with houtside hlock
    · -- the process gives the lock back
      obtain ⟨rfl, rfl⟩ := Prod.mk.inj (Option.some.inj h)
      have hclean : Clean s.state := hk.clean hlock fun area table heq => by
        rw [heq] at houtside
        exact absurd houtside nofun
      refine ⟨⟨hs.valid, fun _ => hclean⟩, nofun, ⟨fun j hj => ?_, fun _ => rfl, fun _ h => h,
        fun _ h => h, List.Subset.refl _⟩⟩
      simp [hlock, hj.symm]
    · obtain ⟨rfl, rfl⟩ := Prod.mk.inj (Option.some.inj h)
      exact ⟨hs, fun heq => absurd heq hlock, Frame.of_eq rfl rfl (List.Subset.refl _)⟩

/-- A step of one backend leaves what another one relies on. -/
theorem Knows.frame {i j : ι} {s s' : Shared ι} {pc : Pc} (hij : j ≠ i) (h : Knows j s pc)
    (hf : Frame i s s') : Knows j s' pc := by
  -- while `j` holds the lock, `i` does not write
  have hheld : s.lock = some j → s'.lock = some j ∧ s'.state = s.state := fun hlock =>
    ⟨(hf.lock j hij).mpr hlock, hf.state fun hi => hij (Option.some.inj (hlock.symm.trans hi))⟩
  have hclean : (s.lock = some j → Clean s.state) → s'.lock = some j → Clean s'.state := by
    intro hc hlock'
    have hlock := (hf.lock j hij).mp hlock'
    rw [(hheld hlock).2]
    exact hc hlock
  cases pc with
  | idle => exact hclean h
  | get_segment => exact hclean h
  | test => exact hclean h
  | acquire => exact hclean h
  | failed => exact hclean h
  | retest =>
    obtain ⟨hlock', hstate⟩ := hheld h.1
    exact ⟨hlock', hstate ▸ h.2⟩
  | create_area =>
    obtain ⟨hlock', hstate⟩ := hheld h.1
    exact ⟨hlock', hstate ▸ h.2⟩
  | pin_area _ =>
    obtain ⟨hlock', hstate⟩ := hheld h.1
    exact ⟨hlock', hstate ▸ h.2⟩
  | pin_created _ =>
    obtain ⟨hlock', hstate⟩ := hheld h.1
    exact ⟨hlock', hstate ▸ h.2⟩
  | create_table _ =>
    obtain ⟨hlock', hstate⟩ := hheld h.1
    exact ⟨hlock', hstate ▸ h.2⟩
  | write_table _ _ =>
    obtain ⟨hlock', hstate⟩ := hheld h.1
    exact ⟨hlock', hstate ▸ h.2.1, hf.tables h.2.2⟩
  | write_area _ _ =>
    obtain ⟨hlock', hstate⟩ := hheld h.1
    exact ⟨hlock', hstate ▸ h.2.1, hf.tables h.2.2⟩
  -- a handle that was seen valid stays
  | attach_area _ => exact ⟨fun hl => (hheld (h.1 hl)).1, h.2.imp hf.area⟩
  | pin_attached _ _ => exact ⟨fun hl => (hheld (h.1 hl)).1, hf.area _ h.2⟩
  | attach_table _ _ => exact ⟨fun hl => (hheld (h.1 hl)).1, hf.area _ h.2⟩
  | release _ =>
    obtain ⟨hlock', hstate⟩ := hheld h.1
    exact ⟨hlock', hstate ▸ h.2⟩
  | returned dshash =>
    exact state_eq (hf.table dshash.table (by rw [h])) (hf.area dshash.area (by rw [h]))
  | undefined => exact h.elim

/-! ## Every run -/

theorem holds_init : Holds (ι := ι) Sane Knows init :=
  ⟨⟨nofun, fun _ _ => rfl⟩, fun _ => nofun⟩

section Runs

variable [DecidableEq ι]

theorem outline : Outline (backend (ι := ι)) Sane Knows where
  own hs hk h := ⟨(backend_spec hs hk h).sane, (backend_spec hs hk h).knows⟩
  others hij hs hk hkj h := hkj.frame hij (backend_spec hs hk h).frame

/-- A handle that is valid stays what it is. -/
def Settled (s s' : Shared ι) : Prop :=
  (∀ area, s.state.area_handle = some area → s'.state.area_handle = some area) ∧
    ∀ table, s.state.table_handle = some table → s'.state.table_handle = some table

theorem settled_of_steps {g g' : Config ι (Shared ι) Pc} (hg : Holds Sane Knows g)
    (h : Steps backend g g') : Settled g.shared g'.shared := by
  refine outline.steps_rel (fun s => ⟨fun _ h => h, fun _ h => h⟩) ?_ ?_ hg h
  · rintro s₁ s₂ s₃ ⟨ha, ht⟩ ⟨ha', ht'⟩
    exact ⟨fun a h => ha' a (ha a h), fun t h => ht' t (ht t h)⟩
  · intro i c s pc s' pc' hs hk hstep
    exact ⟨(backend_spec hs hk hstep).frame.area, (backend_spec hs hk hstep).frame.table⟩

/-- **One table.** However the steps of any number of backends interleave, and whatever
fails: a valid area handle comes with the handle of a table created in that area, a valid
handle is never overwritten, every backend that has returned is attached to this pair, and
none has attached to anything that does not exist. -/
theorem attach_shared_one_table {g : Config ι (Shared ι) Pc} (h : Steps backend init g) :
    (∀ area, g.shared.state.area_handle = some area →
        ∃ table, g.shared.state.table_handle = some table ∧ (area, table) ∈ g.shared.tables) ∧
      (∀ g', Steps backend g g' → Settled g.shared g'.shared) ∧
      (∀ i dshash, g.locals i = .returned dshash →
        g.shared.state = ⟨some dshash.table, some dshash.area⟩) ∧
      ∀ i, g.locals i ≠ .undefined := by
  have hg : Holds Sane Knows g := outline.steps holds_init h
  refine ⟨hg.1.valid, fun g' h' => settled_of_steps hg h', fun i dshash hi => ?_, fun i hi => ?_⟩
  · have hk := hg.2 i
    rw [hi] at hk
    exact hk
  · have hk := hg.2 i
    rw [hi] at hk
    exact hk

/-! ## The function takes these steps

`attach_shared` as one function of one backend is a schedule in which only that backend
moves. -/

variable {Entry τ : Type}

/-- The segment as the function sees it and as the steps do. New handles are larger than the
old ones. -/
structure Seen (i : ι) (u : Backend Entry τ) (s : Shared ι) : Prop where
  segment : u.segment = some s.state
  lock : s.lock = if u.state_lock then some i else none
  areas : ∀ area ∈ s.areas, area < u.next_handle
  tables : ∀ t ∈ s.tables, t.2 < u.next_handle

/-- There is a run in which backend `i` has come to `pc` and sees `u`. -/
def At (i : ι) (pc : Pc) (u : Backend Entry τ) : Prop := Reaches backend init i pc (Seen i u)

variable {i : ι}

/-- One more step. -/
theorem At.step {pc pc' : Pc} {u u' : Backend Entry τ} (h : At i pc u)
    (hstep : ∀ s, Sane s → Knows i s pc → Seen i u s →
      ∃ c s', backend i c s pc = some (s', pc') ∧ Seen i u' s') : At i pc' u' :=
  Reaches.step outline holds_init h hstep

/-- A step that the function does not notice. -/
theorem At.go {pc pc' : Pc} {u : Backend Entry τ} (h : At i pc u)
    (hstep : ∀ s, Sane s → Knows i s pc → Seen i u s → attach_step i 0 s pc = some (s, pc')) :
    At i pc' u :=
  h.step fun s hs hk hseen => ⟨.go 0, s, hstep s hs hk hseen, hseen⟩

/-- What is left when `attach_shared` does not return. A backend that waits for a lock it
holds itself makes no further step. -/
def Left (i : ι) (x : Exit) (u : Backend Entry τ) : Prop := x ≠ .stop → At i .failed u

/-- A call into PostgreSQL, which may fail. -/
theorem triple_call {pc : Pc} {P R : Backend Entry τ → Prop} (hpc : pc.fallible = true)
    (hat : ∀ u, P u → At i pc u) (hgo : ∀ u, P u → R u) :
    Triple P (call : Prog CppException (Backend Entry τ) Unit) (fun _ => R) (Left i) := by
  refine Triple.call hgo (fun u h _ => ?_) fun _ _ => nofun
  refine (hat u h).step fun s _ _ hseen => ⟨.fail, s, ?_, hseen⟩
  unfold backend
  dsimp only
  rw [if_pos hpc]

theorem triple_attach_existing (locked : Bool) {area : ℕ} {state : SharedState}
    (harea : state.area_handle = some area) :
    Triple (fun u => At i (.attach_area locked) u ∧ u.segment = some state)
      (attach_existing area state : Prog CppException (Backend Entry τ) Attachment)
      (fun dshash => At i (if locked then .release dshash else .returned dshash)) (Left i) := by
  refine Triple.bind (R := fun _ u => At i (.pin_attached locked area) u ∧ u.segment = some state)
    (triple_call rfl (fun _ h => h.1) fun u hu => ⟨?_, hu.2⟩) fun _ => ?_
  · -- dsa_attach
    refine hu.1.go fun s _ _ hseen => ?_
    have hstate : s.state = state := Option.some.inj (hseen.segment.symm.trans hu.2)
    simp only [attach_step, hstate, harea]
  refine Triple.bind (R := fun _ u => At i (.attach_table locked area) u ∧ u.segment = some state)
    (triple_call rfl (fun _ h => h.1) fun u hu => ⟨?_, hu.2⟩) fun _ => ?_
  · -- dsa_pin_mapping
    exact hu.1.go fun s _ _ _ => rfl
  refine Triple.bind (R := fun _ u => At i (.attach_table locked area) u ∧ u.segment = some state)
    (triple_call rfl (fun _ h => h.1) fun u hu => hu) fun _ => ?_
  rcases htable : state.table_handle with _ | table
  · exact Triple.halt fun _ _ => nofun
  · -- dshash_attach
    refine Triple.pure fun u hu => hu.1.go fun s hs hk hseen => ?_
    have hstate : s.state = state := Option.some.inj (hseen.segment.symm.trans hu.2)
    obtain ⟨table', htable', hmem⟩ := hs.valid area hk.2
    obtain rfl : table = table' := Option.some.inj (by rw [← htable, ← htable', hstate])
    simp only [attach_step, htable', if_pos hmem]

theorem triple_create_shared :
    Triple (At i .create_area)
      (create_shared : Prog CppException (Backend Entry τ) Attachment)
      (fun dshash => At i (.release dshash)) (Left i) := by
  refine Triple.bind (R := fun _ => At i .create_area)
    (triple_call rfl (fun _ h => h) fun _ h => h) fun _ => ?_
  refine Triple.get_bind fun u₁ hu₁ => ?_
  refine Triple.modify_bind (R := At i (.pin_area u₁.next_handle)) ?_ ?_
  · -- dsa_create yields a new handle
    rintro u rfl
    refine hu₁.step fun s _ _ hseen => ⟨.go u.next_handle, _, if_neg fun hmem => ?_, ?_⟩
    · exact absurd (hseen.areas _ hmem) (lt_irrefl _)
    · refine ⟨hseen.segment, hseen.lock, ?_, fun t ht => (hseen.tables t ht).trans (Nat.lt_succ_self _)⟩
      rw [List.forall_mem_cons]
      exact ⟨Nat.lt_succ_self _, fun a ha => (hseen.areas a ha).trans (Nat.lt_succ_self _)⟩
  refine Triple.bind (R := fun _ => At i (.pin_created u₁.next_handle))
    (triple_call rfl (fun _ h => h) fun _ h => h.go fun _ _ _ _ => rfl) fun _ => ?_
  refine Triple.bind (R := fun _ => At i (.create_table u₁.next_handle))
    (triple_call rfl (fun _ h => h) fun _ h => h.go fun _ _ _ _ => rfl) fun _ => ?_
  refine Triple.bind (R := fun _ => At i (.create_table u₁.next_handle))
    (triple_call rfl (fun _ h => h) fun _ h => h) fun _ => ?_
  refine Triple.get_bind fun u₂ hu₂ => ?_
  refine Triple.modify_bind (R := At i (.write_table u₁.next_handle u₂.next_handle)) ?_ ?_
  · -- dshash_create
    rintro u rfl
    refine hu₂.step fun s _ _ hseen => ⟨.go u.next_handle, _, if_neg fun hmem => ?_, ?_⟩
    · exact absurd (hseen.tables _ hmem) (lt_irrefl _)
    · refine ⟨hseen.segment, hseen.lock, fun a ha => (hseen.areas a ha).trans (Nat.lt_succ_self _), ?_⟩
      rw [List.forall_mem_cons]
      exact ⟨Nat.lt_succ_self _, fun t ht => (hseen.tables t ht).trans (Nat.lt_succ_self _)⟩
  refine Triple.modify_bind (R := At i (.write_area u₁.next_handle u₂.next_handle)) ?_ ?_
  · -- the two writes, the table first
    intro u hu
    refine hu.step fun s _ _ hseen => ⟨.go 0, _, rfl, ?_, hseen.lock, hseen.areas, hseen.tables⟩
    simp only [hseen.segment, Option.map_some]
  refine Triple.modify_bind (R := At i (.release ⟨u₁.next_handle, u₂.next_handle⟩)) ?_
    (Triple.pure fun _ h => h)
  intro u hu
  refine hu.step fun s _ _ hseen => ⟨.go 0, _, rfl, ?_, hseen.lock, hseen.areas, hseen.tables⟩
  simp only [hseen.segment, Option.map_some]

theorem triple_attach_locked (state : SharedState) :
    Triple (At i .acquire)
      (attach_locked state : Prog CppException (Backend Entry τ) Attachment)
      (fun dshash => At i (.returned dshash)) (Left i) := by
  refine Triple.bind (R := fun _ => At i .acquire)
    (triple_call rfl (fun _ h => h) fun _ h => h) fun _ => ?_
  refine Triple.get_bind fun u hu => Triple.ite (fun _ => Triple.halt fun _ _ => nofun) ?_
  intro hfree
  refine Triple.modify_bind (R := At i .retest) ?_ ?_
  · rintro _ rfl
    refine hu.step fun s _ _ hseen => ⟨.go 0, { s with lock := some i }, if_pos ?_, hseen.segment,
      rfl, hseen.areas, hseen.tables⟩
    rw [hseen.lock, if_neg hfree]
  refine Triple.get_bind fun u hu => ?_
  refine Triple.bind (R := fun dshash => At i (.release dshash)) ?_ fun dshash => ?_
  · -- the second test sees what the segment holds now, not `state`
    obtain ⟨g, -, -, hg⟩ := id hu
    have hsegment : u.segment.getD state = g.shared.state := by rw [hg.segment]; rfl
    have hseen : ∀ s, Seen i u s → s.state = g.shared.state := fun s hs =>
      Option.some.inj (hs.segment.symm.trans hg.segment)
    rw [hsegment]
    unfold create_or_attach
    rcases harea : g.shared.state.area_handle with _ | area
    · refine triple_create_shared.consequence ?_ (fun _ _ h => h) fun _ _ h => h
      rintro _ rfl
      exact hu.go fun s _ _ hs => by simp only [attach_step, hseen s hs, harea]
    · refine (triple_attach_existing true harea).consequence ?_ (fun _ _ h => h) fun _ _ h => h
      rintro _ rfl
      exact ⟨hu.go fun s _ _ hs => by simp only [attach_step, hseen s hs, harea], hg.segment⟩
  · refine Triple.modify_bind (R := At i (.returned dshash)) ?_ (Triple.pure fun _ h => h)
    intro u hu
    exact hu.step fun s _ _ hseen => ⟨.go 0, { s with lock := none }, rfl, hseen.segment, rfl,
      hseen.areas, hseen.tables⟩

/-- **The function is a schedule.** Called where a backend is about to call it, `attach_shared`
takes the steps above to where a backend has returned with the same attachment, or to where
it has failed, unless the process waits or exits. -/
theorem triple_attach_shared (dsm_name : Bytes) :
    Triple (At i .get_segment)
      (attach_shared dsm_name : Prog CppException (Backend Entry τ) Attachment)
      (fun dshash => At i (.returned dshash)) (Left i) := by
  refine triple_pg_try (Y := Left i) ?_ (fun _ h => h) (fun x u h _ => h nofun) fun _ h => h
  refine Triple.bind (R := fun _ => At i .test)
    (triple_call rfl (fun _ h => h) fun _ h => h.go fun _ _ _ _ => rfl) fun _ => ?_
  refine Triple.get_bind fun u hu => ?_
  obtain ⟨g, -, -, hg⟩ := id hu
  have hseen : ∀ s, Seen i u s → s.state = g.shared.state := fun s hs =>
    Option.some.inj (hs.segment.symm.trans hg.segment)
  rw [hg.segment]
  dsimp only
  unfold attach_segment
  -- the test without the lock
  rcases harea : g.shared.state.area_handle with _ | area
  · refine (triple_attach_locked _).consequence ?_ (fun _ _ h => h) fun _ _ h => h
    rintro _ rfl
    exact hu.go fun s _ _ hs => by simp only [attach_step, hseen s hs, harea]
  · refine (triple_attach_existing false harea).consequence ?_ (fun _ _ h => h) fun _ _ h => h
    rintro _ rfl
    exact ⟨hu.go fun s _ _ hs => by simp only [attach_step, hseen s hs, harea], hg.segment⟩

end Runs

/-- Two backends find no area. The first one fails in `dshash_create` and its process ends;
the second creates the table; the first comes back and attaches to it without the lock. -/
def schedule : List (Bool × Choice) :=
  [(false, .go 0), (true, .go 0), (false, .go 0), (true, .go 0), (false, .go 0), (true, .go 0),
    (false, .go 0), (false, .go 0), (false, .go 7), (false, .go 0), (false, .go 0), (false, .fail),
    (false, .exit), (true, .go 0), (true, .go 0), (true, .go 8), (true, .go 0), (true, .go 0),
    (true, .go 5), (true, .go 0), (true, .go 0), (true, .go 0), (false, .go 0), (false, .go 0),
    (false, .go 0), (false, .go 0), (false, .go 0), (false, .go 0)]

/-- Where the schedule ends. -/
def attached : Config Bool (Shared Bool) Pc :=
  ((run backend schedule init).getD init)

theorem attach_shared_one_table_both :
    attached.locals false = .returned ⟨8, 5⟩ ∧ attached.locals true = .returned ⟨8, 5⟩ ∧
      attached.shared.state = ⟨some 5, some 8⟩ ∧ (8, 5) ∈ attached.shared.tables ∧
      ∀ i, attached.locals i ≠ .undefined := by
  have hrun : run backend schedule (init (ι := Bool)) = some attached := rfl
  have h := attach_shared_one_table (steps_of_run hrun)
  have hfalse : attached.locals false = .returned ⟨8, 5⟩ := rfl
  obtain ⟨table, htable, hmem⟩ := h.1 8 rfl
  obtain rfl : 5 = table := Option.some.inj htable
  exact ⟨hfalse, rfl, h.2.2.1 false _ hfalse, hmem, h.2.2.2⟩

end OidcValidator.AttachShared
