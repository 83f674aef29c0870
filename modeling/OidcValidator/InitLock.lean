/-
`InitLock.lean` -- the initialisation lock, when attaching fails.

`attach_shared` releases `state->lock` with a plain call. PostgreSQL does not release a
lightweight lock on the way to `PG_CATCH`, and the handler in `pg_try` does not end the
transaction, so a call that raises an `ERROR` between `LWLockAcquire` and `LWLockRelease`
leaves the lock with a backend that goes on without it knowing.

There are two views of this. `attach_shared` as a function says which calls those are; the
interleaving of `AttachShared.lean` says what it means for the other backends, and has the
branch that a function running alone never takes: to wait for the lock, and find that
somebody else has made the table.
-/
import OidcValidator.AttachShared
import OidcValidator.Bridge

set_option autoImplicit false

namespace OidcValidator.InitLock

open OidcValidator.ByteString OidcValidator.Control OidcValidator.PgUtils
open OidcValidator.Dshash OidcValidator.Interleaving OidcValidator.AttachShared

/-! ## One call -/

section Call

variable {ε σ α β : Type}

/-- Call number `k` from here raises an `ERROR`. -/
def Fails (m : Machine ε σ) (k : ℕ) : Prop := ∃ msg, m.faults (m.ticks + k) = .pg msg

theorem fails_tick {m : Machine ε σ} {k : ℕ} : Fails (tick m) k ↔ Fails m (k + 1) := by
  unfold Fails tick
  rw [show m.ticks + 1 + k = m.ticks + (k + 1) by omega]

theorem call_of_not_fails {m : Machine ε σ} (h : ¬Fails m 0) : call m = (.ret (), tick m) :=
  call_of_not_pg fun msg heq => h ⟨msg, heq⟩

/-- A program that starts with a call returns if the call does and the rest does. -/
theorem returns_call_bind {f : Unit → Prog ε σ α} {m : Machine ε σ} :
    (∃ a m', (call >>= f) m = (.ret a, m')) ↔
      ¬Fails m 0 ∧ ∃ a m', f () (tick m) = (.ret a, m') := by
  by_cases h : Fails m 0
  · obtain ⟨msg, hmsg⟩ := id h
    simp only [h, not_true_eq_false, false_and, iff_false]
    rintro ⟨a, m', heq⟩
    exact raise_ne_ret ((bind_of_raise (call_of_pg hmsg)).symm.trans heq)
  · rw [bind_of_ret (call_of_not_fails h)]
    simp only [h, not_false_eq_true, true_and]

/-- A call that fails changes nothing in the user state. -/
theorem user_call_bind_of_fails {f : Unit → Prog ε σ α} {m : Machine ε σ} (h : Fails m 0) :
    ((call >>= f) m).2.user = m.user := by
  obtain ⟨msg, hmsg⟩ := h
  rw [bind_of_raise (call_of_pg hmsg), user_raise]
  rfl

theorem get_bind_apply {f : σ → Prog ε σ α} {m : Machine ε σ} :
    (Control.get >>= f) m = f m.user m := rfl

theorem modify_bind_apply {g : σ → σ} {f : Unit → Prog ε σ α} {m : Machine ε σ} :
    (Control.modify g >>= f) m = f () { m with user := g m.user } := rfl

theorem fails_user {m : Machine ε σ} {u : σ} {k : ℕ} :
    Fails { m with user := u } k ↔ Fails m k := Iff.rfl

end Call

variable {Entry τ : Type}

/-- `create_shared` returns if none of its four calls fails. -/
theorem returns_create_shared {m : Machine CppException (Backend Entry τ)} :
    (∃ a m', create_shared m = (.ret a, m')) ↔ ∀ k < 4, ¬Fails m k := by
  unfold create_shared
  simp only [returns_call_bind, get_bind_apply, modify_bind_apply, fails_user, fails_tick]
  constructor
  · rintro ⟨h₀, h₁, h₂, h₃, -⟩ k hk
    obtain rfl | rfl | rfl | rfl : k = 0 ∨ k = 1 ∨ k = 2 ∨ k = 3 := by omega
    · exact h₀
    · exact h₁
    · exact h₂
    · exact h₃
  · intro h
    exact ⟨h 0 (by omega), h 1 (by omega), h 2 (by omega), h 3 (by omega), _, _, rfl⟩

theorem preserves_create_shared : Preserves Backend.state_lock
    (create_shared : Prog CppException (Backend Entry τ) Attachment) := by
  refine Preserves.bind Preserves.call fun _ => Preserves.bind Preserves.get fun _ => ?_
  refine Preserves.bind (Preserves.modify fun _ => rfl) fun _ => ?_
  refine Preserves.bind Preserves.call fun _ => Preserves.bind Preserves.call fun _ => ?_
  refine Preserves.bind Preserves.call fun _ => Preserves.bind Preserves.get fun _ => ?_
  refine Preserves.bind (Preserves.modify fun _ => rfl) fun _ => ?_
  refine Preserves.bind (Preserves.modify fun _ => rfl) fun _ => ?_
  exact Preserves.bind (Preserves.modify fun _ => rfl) fun _ => Preserves.pure _

theorem preserves_attach_existing (area : ℕ) (state : SharedState) : Preserves Backend.state_lock
    (attach_existing area state : Prog CppException (Backend Entry τ) Attachment) := by
  refine Preserves.bind Preserves.call fun _ => Preserves.bind Preserves.call fun _ => ?_
  refine Preserves.bind Preserves.call fun _ => ?_
  rcases state.table_handle with _ | table
  · exact fun _ => Triple.halt fun _ h => h
  · exact Preserves.pure _

/-- Behind `LWLockAcquire` the lock is given back exactly if `create_shared` returns. -/
theorem state_lock_create {m : Machine CppException (Backend Entry τ)}
    (h : m.user.state_lock = true) :
    ((create_shared >>= fun dshash => modify (fun u => { u with state_lock := false }) >>=
        fun _ => (pure dshash : Prog CppException (Backend Entry τ) Attachment)) m).2.user.state_lock
      = false ↔ ∀ k < 4, ¬Fails m k := by
  rw [← returns_create_shared, bind_apply]
  have hkeep := preserves_create_shared.apply m
  rcases hm : create_shared m with ⟨dshash | e | b | h', m₁⟩ <;> rw [hm, h] at hkeep
  · exact iff_of_true rfl ⟨dshash, m₁, rfl⟩
  · exact iff_of_false (fun hfree => absurd (hkeep.symm.trans hfree) (by decide)) (by simp)
  · exact iff_of_false (fun hfree => absurd (hkeep.symm.trans hfree) (by decide)) (by simp)
  · exact iff_of_false (fun hfree => absurd (hkeep.symm.trans hfree) (by decide)) (by simp)

/-- `attach_locked`, where the handle is still invalid: the calls are `LWLockAcquire`,
`dsa_create`, `dsa_pin`, `dsa_pin_mapping` and `dshash_create`. -/
theorem state_lock_attach_locked {m : Machine CppException (Backend Entry τ)} {state : SharedState}
    (hseg : m.user.segment = some state) (harea : state.area_handle = none) :
    (attach_locked state m).1 = .stop .deadlock ∨
      ((attach_locked state m).2.user.state_lock = false ↔
        m.user.state_lock = false ∧ ¬(¬Fails m 0 ∧ ∃ k < 4, Fails m (k + 1))) := by
  unfold attach_locked
  -- call 0 is `LWLockAcquire`; those under the lock come after it
  by_cases hacquire : Fails m 0
  · right
    rw [user_call_bind_of_fails hacquire]
    simp [hacquire]
  · rw [bind_of_ret (call_of_not_fails hacquire), get_bind_apply]
    by_cases hheld : (tick m).user.state_lock = true
    · left
      rw [if_pos hheld]
      rfl
    · right
      rw [if_neg hheld, modify_bind_apply, get_bind_apply]
      have hstate : create_or_attach (((tick m).user.segment).getD state)
          = (create_shared : Prog CppException (Backend Entry τ) Attachment) := by
        have hsegment : (tick m).user.segment = some state := hseg
        rw [hsegment]
        unfold create_or_attach
        rw [Option.getD_some, harea]
      refine Iff.trans (b := ∀ k < 4, ¬Fails (tick m) k) ?_ ?_
      · have hcreate := state_lock_create
          (m := { tick m with user := { m.user with state_lock := true } }) rfl
        rw [← hstate] at hcreate
        exact hcreate
      · have hfree : m.user.state_lock = false := Bool.not_eq_true _ ▸ hheld
        simp only [fails_tick, hacquire, hfree, not_false_eq_true, true_and, not_exists, not_and]

/-- `attach_shared` takes the lock, and one of the four calls up to its release fails. -/
def FailsLocked (m : Machine CppException (Backend Entry τ)) : Prop :=
  (∃ table_handle, m.user.segment = some ⟨table_handle, none⟩) ∧ ¬Fails m 0 ∧ ¬Fails m 1 ∧
    ∃ k < 4, Fails m (k + 2)

/-- The function that `attach_shared` passes to `pg_try`. -/
def attach_shared_func (dsm_name : Bytes) : Prog CppException (Backend Entry τ) Attachment := do
  call
  let u ← get
  match u.segment with
  | some state => attach_segment state
  | none => throw (dshash_exception (bytes "Failed to create or find DSM segment: " ++ dsm_name))

theorem attach_shared_eq (dsm_name : Bytes) : (attach_shared dsm_name :
    Prog CppException (Backend Entry τ) Attachment) = pg_try (attach_shared_func dsm_name) := rfl

theorem state_lock_attach_shared_func (dsm_name : Bytes)
    (m : Machine CppException (Backend Entry τ)) :
    (attach_shared_func dsm_name m).1 = .stop .deadlock ∨
      ((attach_shared_func dsm_name m).2.user.state_lock = false ↔
        m.user.state_lock = false ∧ ¬FailsLocked m) := by
  unfold attach_shared_func FailsLocked
  by_cases hsegment : Fails m 0
  · right
    rw [user_call_bind_of_fails hsegment]
    simp [hsegment]
  · rw [bind_of_ret (call_of_not_fails hsegment), get_bind_apply]
    have huser : (tick m).user = m.user := rfl
    rw [huser]
    rcases hseg : m.user.segment with _ | state
    · right
      simp [Control.throw, huser]
    · dsimp only
      unfold attach_segment
      rcases harea : state.area_handle with _ | area
      · obtain ⟨table_handle, area_handle⟩ := state
        obtain rfl : area_handle = none := harea
        refine (state_lock_attach_locked (m := tick m) hseg rfl).imp_right fun h => h.trans ?_
        simp [fails_tick, hsegment, huser]
      · right
        -- no lock is taken where the handle is valid
        have hkeep := (preserves_attach_existing area state).apply (tick m)
        dsimp only
        rw [hkeep, huser]
        obtain ⟨table_handle, area_handle⟩ := state
        obtain rfl : area_handle = some area := harea
        simp

/-- The handler of `pg_try` does not touch the user state. -/
theorem user_pg_try {σ α : Type} {p : Prog CppException σ α} {m : Machine CppException σ} :
    (PgUtils.pg_try p m).2.user = (p (enter_try m)).2.user := by
  -- `pg_try` runs `p` once and on one machine, so it might as well be a constant
  have hconst : Triple (fun _ => True) (fun _ => p (enter_try m))
      (fun _ u => u = (p (enter_try m)).2.user) (fun _ u => u = (p (enter_try m)).2.user) := by
    intro _ _
    rcases p (enter_try m) with ⟨_ | _ | _ | _, m₁⟩ <;> rfl
  have hends := triple_pg_try hconst (fun _ h => h) (fun _ _ h => h) (fun _ h => h) m trivial
  have hsame : PgUtils.pg_try (fun _ => p (enter_try m)) m = PgUtils.pg_try p m := rfl
  rw [hsame] at hends
  rcases hm : PgUtils.pg_try p m with ⟨_ | _ | _ | _, m'⟩ <;> rw [hm] at hends <;> exact hends

/-- **When a call gives the lock back.** A call of `attach_shared` that comes back leaves the
backend without `state->lock` exactly if it came without it and did not fail under it. -/
theorem state_lock_attach_shared {dsm_name : Bytes} {m m' : Machine CppException (Backend Entry τ)}
    {x : Outcome CppException Attachment} (h : attach_shared dsm_name m = (x, m'))
    (hx : ∀ s, x ≠ .stop s) :
    m'.user.state_lock = false ↔ m.user.state_lock = false ∧ ¬FailsLocked m := by
  have huser : m'.user = (attach_shared_func dsm_name (enter_try m)).2.user := by
    rw [← user_pg_try, ← attach_shared_eq, h]
  rw [huser]
  rcases state_lock_attach_shared_func dsm_name (enter_try m) with hstop | hlock
  · have hstop' := Bridge.pg_try_of_stop (Prod.ext hstop rfl)
    rw [← attach_shared_eq, h] at hstop'
    exact absurd (Prod.mk.inj hstop').1 (hx _)
  · exact hlock

/-! ## All interleavings -/

/-- The calls that are made under the lock. -/
def locked_call : Pc → Bool
  | .create_area | .pin_area _ | .pin_created _ | .create_table _ => true
  | .attach_area locked | .pin_attached locked _ | .attach_table locked _ => locked
  | _ => false

/-- All the statements between `LWLockAcquire` and `LWLockRelease`. -/
def under_lock : Pc → Bool
  | .retest | .write_table _ _ | .write_area _ _ | .release _ => true
  | pc => locked_call pc

section Runs

variable {ι : Type}

/-- Nobody who is not in `attach_shared` holds the lock. -/
def Released (g : Config ι (Shared ι) Pc) : Prop :=
  ∀ i, (g.locals i).outside = true → g.shared.lock ≠ some i

/-- The step is not an `ERROR` in a call under the lock. -/
def Permitted (i : ι) (c : Choice) (g : Config ι (Shared ι) Pc) : Prop :=
  c = .fail → locked_call (g.locals i) = false

/-- Whoever holds the lock is on its way to releasing it. -/
def Owned (i : ι) (s : Shared ι) (pc : Pc) : Prop := s.lock = some i → under_lock pc = true

/-- A statement that leaves the lock alone and goes from under the lock to under the lock, or
from elsewhere to elsewhere. -/
theorem Owned.of_eq {i : ι} {s s' : Shared ι} {pc pc' : Pc} (h : Owned i s pc)
    (hlock : s'.lock = s.lock) (hpc : under_lock pc = true → under_lock pc' = true) :
    Owned i s' pc' :=
  fun hheld => hpc (h (hlock ▸ hheld))

theorem Owned.attach_step {i : ι} {handle : ℕ} {s s' : Shared ι} {pc pc' : Pc}
    (h : Owned i s pc) (hdefined : pc' ≠ .undefined)
    (hstep : attach_step i handle s pc = some (s', pc')) : Owned i s' pc' := by
  -- most statements leave the lock alone
  have hstay : ∀ {t pc''}, some (t, pc'') = some (s', pc') → t.lock = s.lock →
      (under_lock pc = true → under_lock pc'' = true) → Owned i s' pc' := by
    intro t pc'' heq hlock hpc
    obtain ⟨rfl, rfl⟩ := Prod.mk.inj (Option.some.inj heq)
    exact h.of_eq hlock hpc
  cases pc with
  | idle => exact hstay hstep rfl (by simp [under_lock, locked_call])
  | returned dshash => exact hstay hstep rfl (by simp [under_lock, locked_call])
  | failed => exact hstay hstep rfl (by simp [under_lock, locked_call])
  | get_segment => exact hstay hstep rfl (by simp [under_lock, locked_call])
  | test =>
    simp only [AttachShared.attach_step] at hstep
    rcases harea : s.state.area_handle with _ | area <;> rw [harea] at hstep
    · exact hstay hstep rfl (by simp [under_lock, locked_call])
    · exact hstay hstep rfl (by simp [under_lock, locked_call])
  | acquire =>
    simp only [AttachShared.attach_step] at hstep
    split_ifs at hstep
    obtain ⟨rfl, rfl⟩ := Prod.mk.inj (Option.some.inj hstep)
    exact fun _ => rfl
  | retest =>
    simp only [AttachShared.attach_step] at hstep
    rcases harea : s.state.area_handle with _ | area <;> rw [harea] at hstep
    · exact hstay hstep rfl fun _ => rfl
    · exact hstay hstep rfl fun _ => rfl
  | create_area =>
    simp only [AttachShared.attach_step] at hstep
    split_ifs at hstep
    exact hstay hstep rfl fun _ => rfl
  | pin_area area => exact hstay hstep rfl fun _ => rfl
  | pin_created area => exact hstay hstep rfl fun _ => rfl
  | create_table area =>
    simp only [AttachShared.attach_step] at hstep
    split_ifs at hstep
    exact hstay hstep rfl fun _ => rfl
  | write_table area table => exact hstay hstep rfl fun _ => rfl
  | write_area area table => exact hstay hstep rfl fun _ => rfl
  | attach_area locked =>
    simp only [AttachShared.attach_step] at hstep
    rcases harea : s.state.area_handle with _ | area <;> rw [harea] at hstep
    · exact absurd (Prod.mk.inj (Option.some.inj hstep)).2.symm hdefined
    · exact hstay hstep rfl id
  | pin_attached locked area => exact hstay hstep rfl id
  | attach_table locked area =>
    simp only [AttachShared.attach_step] at hstep
    rcases htable : s.state.table_handle with _ | table <;> rw [htable] at hstep
    · exact absurd (Prod.mk.inj (Option.some.inj hstep)).2.symm hdefined
    · dsimp only at hstep
      split_ifs at hstep with hmem hlocked
      · exact hstay hstep rfl fun _ => rfl
      · -- without the lock the call returns from here
        exact hstay hstep rfl fun hlocked' => absurd hlocked' hlocked
      · exact absurd (Prod.mk.inj (Option.some.inj hstep)).2.symm hdefined
  | release dshash =>
    obtain ⟨rfl, rfl⟩ := Prod.mk.inj (Option.some.inj hstep)
    simp [Owned]
  | undefined => exact absurd hstep (by simp [AttachShared.attach_step])

/-- The invariant of the runs in which nobody fails under the lock. -/
def Orderly (g : Config ι (Shared ι) Pc) : Prop :=
  Holds Sane Knows g ∧ ∀ i, Owned i g.shared (g.locals i)

theorem Orderly.released {g : Config ι (Shared ι) Pc} (hg : Orderly g) : Released g := by
  intro i houtside hlock
  have hunder := hg.2 i hlock
  revert houtside hunder
  cases g.locals i <;> simp [under_lock, locked_call, Pc.outside]

theorem orderly_init : Orderly (init (ι := ι)) := ⟨holds_init, fun _ => nofun⟩

variable [DecidableEq ι]

theorem Owned.backend {i : ι} {c : Choice} {s s' : Shared ι} {pc pc' : Pc}
    (h : Owned i s pc) (hdefined : pc' ≠ .undefined) (hc : c = .fail → locked_call pc = false)
    (hstep : backend i c s pc = some (s', pc')) : Owned i s' pc' := by
  cases c with
  | go handle => exact h.attach_step hdefined hstep
  | fail =>
    simp only [AttachShared.backend] at hstep
    split_ifs at hstep with hfallible
    obtain ⟨rfl, rfl⟩ := Prod.mk.inj (Option.some.inj hstep)
    -- the other statements under the lock are not calls, and cannot fail
    refine h.of_eq rfl fun hunder => ?_
    have hnot := hc rfl
    cases pc <;> simp_all [under_lock, locked_call, Pc.fallible]
  | exit =>
    simp only [AttachShared.backend] at hstep
    split_ifs at hstep with houtside hlock
    · obtain ⟨rfl, rfl⟩ := Prod.mk.inj (Option.some.inj hstep)
      exact nofun
    · obtain ⟨rfl, rfl⟩ := Prod.mk.inj (Option.some.inj hstep)
      exact fun hheld => absurd hheld hlock

theorem Orderly.step {i : ι} {c : Choice} {g g' : Config ι (Shared ι) Pc} (hg : Orderly g)
    (hc : Permitted i c g) (hstep : step AttachShared.backend i c g = some g') : Orderly g' := by
  have hholds : Holds Sane Knows g' := outline.step hg.1 ⟨i, c, hstep⟩
  refine ⟨hholds, fun j => ?_⟩
  obtain ⟨s, pc, hthread, rfl⟩ := step_eq_some.mp hstep
  dsimp only
  by_cases hji : j = i
  · subst hji
    have hknows := hholds.2 j
    dsimp only at hknows
    rw [Function.update_self] at hknows ⊢
    refine (hg.2 j).backend ?_ hc hthread
    rintro rfl
    exact hknows
  · rw [Function.update_of_ne hji]
    -- a lock that `j` holds now it held before, and `j` has not moved
    have hframe := (backend_spec hg.1.1 (hg.1.2 i) hthread).frame
    exact fun hlock => hg.2 j ((hframe.lock j hji).mp hlock)

/-- An `ERROR` under the lock leaves it with a backend that is done. -/
theorem not_released_of_fail {i : ι} {c : Choice} {g : Config ι (Shared ι) Pc}
    (hg : Holds Sane Knows g) (hc : ¬Permitted i c g) :
    ∃ g', step AttachShared.backend i c g = some g' ∧ ¬Released g' := by
  obtain ⟨rfl, hcall⟩ : c = .fail ∧ locked_call (g.locals i) = true := by
    simpa [Permitted] using hc
  have hknows := hg.2 i
  have hheld : (g.locals i).fallible = true ∧ g.shared.lock = some i := by
    revert hcall hknows
    cases g.locals i <;> simp +contextual [locked_call, Pc.fallible, Knows]
  have hstep : AttachShared.backend i .fail g.shared (g.locals i) = some (g.shared, .failed) := by
    unfold AttachShared.backend
    dsimp only
    rw [if_pos hheld.1]
  refine ⟨⟨g.shared, Function.update g.locals i .failed⟩, ?_, fun hreleased => ?_⟩
  · exact step_eq_some.mpr ⟨_, _, hstep, rfl⟩
  · refine hreleased i ?_ hheld.2
    dsimp only
    rw [Function.update_self]
    rfl

/-- **The lock comes back unless a call under it fails.** For one call of `attach_shared` on
any machine, and for any number of backends along any schedule. -/
theorem attach_shared_gives_lock_back :
    (∀ (dsm_name : Bytes) (m m' : Machine CppException (Backend Entry τ))
        (x : Outcome CppException Attachment), attach_shared dsm_name m = (x, m') →
        (∀ s, x ≠ .stop s) →
        (m'.user.state_lock = false ↔ m.user.state_lock = false ∧ ¬FailsLocked m)) ∧
      ∀ schedule : List (ι × Choice),
        Always AttachShared.backend Released schedule init ↔
          Each AttachShared.backend Permitted schedule init := by
  refine ⟨fun _ _ _ _ h hx => state_lock_attach_shared h hx, fun schedule => ⟨fun h => ?_, fun h => ?_⟩⟩
  · refine each_of_always (I := Holds Sane Knows) ?_ not_released_of_fail holds_init h
    exact fun hg hstep => outline.step hg ⟨_, _, hstep⟩
  · exact always_of_each Orderly.step (fun _ hg => hg.released) orderly_init h

end Runs

/-! ## `dshash_create` runs out of shared memory -/

/-- The first backend to come. The sixth call it makes is `dshash_create`. -/
def first : Machine CppException (Backend Unit Unit) where
  exception_stack := some 0
  error_data := []
  memory_context := .other 0
  next_buffer := 1
  next_error := 0
  faults := fun t => if t = 5 then .pg (some (bytes "out of shared memory")) else .none
  ticks := 0
  log := []
  user := ⟨.empty, [], [], fun _ => .none, (), some ⟨none, none⟩, false, 0, ()⟩

/-- The same among two: `false` fails in `dshash_create`, `true` comes to the lock. -/
def second : List (Bool × Choice) :=
  List.replicate 5 (false, .go 0) ++ [(false, .go 7), (false, .go 0), (false, .go 0),
    (false, .fail), (true, .go 0), (true, .go 0), (true, .go 0)]

/-- The exception is caught and the lock is still held; the other backend cannot move. -/
theorem attach_shared_keeps_lock :
    (∃ m', attach_shared (bytes "oidc") first
        = (.throw (postgres_exception (bytes "PostgreSQL error: out of shared memory")), m') ∧
        m'.user.state_lock = true) ∧
      ∃ g, run AttachShared.backend second (init (ι := Bool)) = some g ∧
        g.locals false = .failed ∧ g.locals true = .acquire ∧
        ∀ c, c ≠ .fail → step AttachShared.backend true c g = none := by
  refine ⟨⟨_, rfl, rfl⟩, _, rfl, rfl, rfl, fun c hc => ?_⟩
  cases c with
  | go handle => rfl
  | fail => exact absurd rfl hc
  | exit => rfl

/-- A call that fails before it has the lock, and the schedule above up to the failure. -/
theorem attach_shared_gives_lock_back_first :
    ¬FailsLocked { first with ticks := 4 } ∧
      ((attach_shared (bytes "oidc") { first with ticks := 4 }).2.user.state_lock = false) ∧
      Always AttachShared.backend Released (second.take 8) (init (ι := Bool)) := by
  have hfails : ¬FailsLocked { first with ticks := 4 } := by
    rintro ⟨-, -, hacquire, -⟩
    exact hacquire ⟨_, rfl⟩
  have h := @attach_shared_gives_lock_back Unit Unit Bool _
  refine ⟨hfails, ?_, ?_⟩
  · exact (h.1 (bytes "oidc") _ _ _ rfl (fun s heq => by cases heq)).mpr ⟨rfl, hfails⟩
  · refine (h.2 _).mpr (each_of_forall ?_)
    simp [second, Permitted]

end OidcValidator.InitLock
