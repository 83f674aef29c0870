/-
`Control.lean` -- C++ exceptions and PostgreSQL errors in one program.

Two mechanisms move control in a backend that is written in C++. A C++ exception
unwinds: every destructor on the way runs. A PostgreSQL `ERROR` is a `siglongjmp` to
whatever jump buffer `PG_exception_stack` points at: no destructor runs, and the
frame it lands in is whichever set that pointer last and did not put it back.

A program is a function of the whole machine state. A jump therefore carries the
buffer it goes to, and a `PG_TRY` block only catches a jump to its own buffer; a
pointer left behind by a block that is gone is not an error here, it is a jump that
nobody catches.

Which calls fail is decided by an oracle the machine carries, read one entry per
step, so that a statement over all machines is a statement over every pattern of
failures.

Nothing in this file knows what the programs are for.
-/
import OidcValidator.ByteString

set_option autoImplicit false

namespace OidcValidator.Control

open OidcValidator.ByteString

/-! ## The machine -/

/-- What the oracle says about one step: nothing, a C++ exception, or an `ERROR` with an
optional message. -/
inductive Fault (ε : Type) where
  | none
  | cpp (e : ε)
  | pg (msg : Option Bytes)

/-- The levels that the source logs at. -/
inductive Level where
  | DEBUG2 | DEBUG1 | LOG | WARNING | FATAL
  deriving DecidableEq

/-- `CurrentMemoryContext`: `ErrorContext` while an error is being handled, or one of the
others. -/
inductive MemoryContext where
  | ErrorContext
  | other (n : ℕ)
  deriving DecidableEq

/-- A backend process. `exception_stack` is `PG_exception_stack`, NULL or a jump buffer;
`error_data` is the error-data stack, newest first, each error with its number;
`next_buffer` and `next_error` name the next local jump buffer and the next error. -/
structure Machine (ε σ : Type) where
  exception_stack : Option ℕ
  error_data : List (ℕ × Option Bytes)
  memory_context : MemoryContext
  next_buffer : ℕ
  next_error : ℕ
  faults : ℕ → Fault ε
  ticks : ℕ
  log : List (Level × Bytes)
  user : σ

/-- Ways for a process not to go on: it exits (`FATAL`, `std::terminate`), it waits for a
lock it holds itself, or its behaviour is undefined. -/
inductive Halt where
  | exit | deadlock | undefined
  deriving DecidableEq

/-- How a piece of program ends. -/
inductive Outcome (ε α : Type) where
  | ret (a : α)
  | throw (e : ε)
  | jump (buffer : ℕ)
  | stop (h : Halt)
  deriving DecidableEq

/-- A program with exceptions in `ε`, state `σ` and results in `α`. -/
def Prog (ε σ α : Type) : Type := Machine ε σ → Outcome ε α × Machine ε σ

variable {ε σ α β ρ : Type}

/-- Sequencing: only a return goes on. -/
def Prog.bind (p : Prog ε σ α) (f : α → Prog ε σ β) : Prog ε σ β := fun m =>
  match p m with
  | (.ret a, m') => f a m'
  | (.throw e, m') => (.throw e, m')
  | (.jump b, m') => (.jump b, m')
  | (.stop h, m') => (.stop h, m')

instance : Monad (Prog ε σ) where
  pure a := fun m => (.ret a, m)
  bind := Prog.bind

theorem pure_apply (a : α) (m : Machine ε σ) : (pure a : Prog ε σ α) m = (.ret a, m) := rfl

theorem bind_apply (p : Prog ε σ α) (f : α → Prog ε σ β) (m : Machine ε σ) :
    (p >>= f) m = match p m with
      | (.ret a, m') => f a m'
      | (.throw e, m') => (.throw e, m')
      | (.jump b, m') => (.jump b, m')
      | (.stop h, m') => (.stop h, m') := rfl

/-- A sequence returns exactly when both parts do. -/
theorem bind_eq_ret {p : Prog ε σ α} {f : α → Prog ε σ β} {m m' : Machine ε σ} {b : β} :
    (p >>= f) m = (.ret b, m') ↔ ∃ a m₁, p m = (.ret a, m₁) ∧ f a m₁ = (.ret b, m') := by
  rw [bind_apply]
  rcases p m with ⟨_ | _ | _ | _, m₁⟩ <;> simp

theorem bind_of_ret {p : Prog ε σ α} {f : α → Prog ε σ β} {m m₁ : Machine ε σ} {a : α}
    (h : p m = (.ret a, m₁)) : (p >>= f) m = f a m₁ := by
  rw [bind_apply, h]

instance : LawfulMonad (Prog ε σ) :=
  LawfulMonad.mk' _
    (fun p => by
      funext m
      show (p >>= pure) m = p m
      rw [bind_apply]
      rcases p m with ⟨_ | _ | _ | _, m₁⟩ <;> rfl)
    (fun _ _ => rfl)
    (fun p f g => by
      funext m
      rw [bind_apply, bind_apply, bind_apply]
      rcases p m with ⟨_ | _ | _ | _, m₁⟩ <;> rfl)

/-! ## Steps -/

/-- The user state. -/
def get : Prog ε σ σ := fun m => (.ret m.user, m)

/-- A part of the machine. -/
def read (f : Machine ε σ → α) : Prog ε σ α := fun m => (.ret (f m), m)

/-- Change the machine. -/
def write (g : Machine ε σ → Machine ε σ) : Prog ε σ Unit := fun m => (.ret (), g m)

/-- End the process. -/
def halt (h : Halt) : Prog ε σ α := fun m => (.stop h, m)

/-- Change the user state. -/
def modify (f : σ → σ) : Prog ε σ Unit := fun m => (.ret (), { m with user := f m.user })

/-- `throw e`. -/
def throw (e : ε) : Prog ε σ α := fun m => (.throw e, m)

/-- `ereport(ERROR)`: push the error, switch to `ErrorContext`, jump. Without a handler
`ERROR` is promoted to `FATAL` and the process exits. -/
def raise (msg : Option Bytes) : Prog ε σ α := fun m =>
  let m' := { m with error_data := (m.next_error, msg) :: m.error_data
                     next_error := m.next_error + 1, memory_context := .ErrorContext }
  match m.exception_stack with
  | some b => (.jump b, m')
  | none => (.stop .exit, m')

/-- One entry of the oracle has been read. -/
def tick (m : Machine ε σ) : Machine ε σ := { m with ticks := m.ticks + 1 }

/-- A call into PostgreSQL, which the oracle may turn into an `ERROR`. -/
def call : Prog ε σ Unit := fun m =>
  match m.faults m.ticks with
  | .pg msg => raise msg (tick m)
  | _ => (.ret (), tick m)

/-- A C++ step, which the oracle may turn into an exception: an allocation, mostly. -/
def alloc : Prog ε σ Unit := fun m =>
  match m.faults m.ticks with
  | .cpp e => (.throw e, tick m)
  | _ => (.ret (), tick m)

theorem alloc_of_cpp {m : Machine ε σ} {e : ε} (h : m.faults m.ticks = .cpp e) :
    alloc m = (.throw e, tick m) := by
  unfold alloc
  rw [h]

theorem alloc_of_not_cpp {m : Machine ε σ} (h : ∀ e, m.faults m.ticks ≠ .cpp e) :
    alloc m = (.ret (), tick m) := by
  unfold alloc
  rcases hf : m.faults m.ticks with _ | e | msg
  · rfl
  · exact absurd hf (h e)
  · rfl

theorem call_of_pg {m : Machine ε σ} {msg : Option Bytes} (h : m.faults m.ticks = .pg msg) :
    call m = raise msg (tick m) := by
  unfold call
  rw [h]

theorem call_of_not_pg {m : Machine ε σ} (h : ∀ msg, m.faults m.ticks ≠ .pg msg) :
    call m = (.ret (), tick m) := by
  unfold call
  rcases hf : m.faults m.ticks with _ | e | msg
  · rfl
  · rfl
  · exact absurd hf (h msg)

theorem bind_of_throw {p : Prog ε σ α} {f : α → Prog ε σ β} {m m₁ : Machine ε σ} {e : ε}
    (h : p m = (.throw e, m₁)) : (p >>= f) m = (.throw e, m₁) := by
  rw [bind_apply, h]

/-- An `ERROR` in front of a sequence is the end of it, with or without a handler. -/
theorem bind_of_raise {p : Prog ε σ α} {f : α → Prog ε σ β} {m m₁ : Machine ε σ}
    {msg : Option Bytes} (h : p m = raise msg m₁) : (p >>= f) m = raise msg m₁ := by
  rw [bind_apply, h]
  unfold raise
  rcases m₁.exception_stack with _ | b
  · rfl
  · rfl

theorem raise_ne_ret {msg : Option Bytes} {m m' : Machine ε σ} {a : α} :
    raise msg m ≠ (.ret a, m') := by
  unfold raise
  rcases m.exception_stack with _ | b
  · simp
  · simp

theorem user_raise (msg : Option Bytes) (m : Machine ε σ) :
    (raise msg m : Outcome ε α × Machine ε σ).2.user = m.user := by
  unfold raise
  rcases m.exception_stack with _ | b
  · rfl
  · rfl

/-- `elog` below `ERROR`. -/
def elog (level : Level) (msg : Bytes) : Prog ε σ Unit := do
  call
  write fun m => { m with log := (level, msg) :: m.log }

/-- `elog(FATAL)`, which does not come back. -/
def fatal (msg : Bytes) : Prog ε σ α := do
  write fun m => { m with log := (.FATAL, msg) :: m.log }
  halt .exit

/-- The value of a pure function, or the exception it throws. -/
def of_except : Except ε α → Prog ε σ α
  | .ok a => pure a
  | .error e => throw e

theorem of_except_eq_ret {x : Except ε α} {m m' : Machine ε σ} {a : α} :
    of_except x m = (.ret a, m') ↔ x = .ok a ∧ m = m' := by
  cases x with
  | ok b => simp [of_except, pure_apply]
  | error e => simp [of_except, throw]

theorem of_except_bind (x : Except ε α) (f : α → Except ε β) :
    (of_except (x >>= f) : Prog ε σ β) = of_except x >>= fun a => of_except (f a) := by
  cases x <;> rfl

/-! ## Blocks -/

/-- `try { p } catch (...) { h }`; a handler that does not want the exception throws it
again. -/
def try_catch (p : Prog ε σ α) (h : ε → Prog ε σ α) : Prog ε σ α := fun m =>
  match p m with
  | (.throw e, m') => h e m'
  | r => r

theorem try_catch_eq_ret {p : Prog ε σ α} {h : ε → Prog ε σ α} {m m' : Machine ε σ} {a : α}
    (heq : try_catch p h m = (.ret a, m')) :
    p m = (.ret a, m') ∨ ∃ e m₁, p m = (.throw e, m₁) ∧ h e m₁ = (.ret a, m') := by
  unfold try_catch at heq
  rcases hpm : p m with ⟨_ | e | _ | _, m₁⟩ <;> rw [hpm] at heq
  · exact .inl heq
  · exact .inr ⟨e, m₁, rfl, heq⟩
  · exact absurd heq nofun
  · exact absurd heq nofun

theorem try_catch_of_ret {p : Prog ε σ α} {h : ε → Prog ε σ α} {m m' : Machine ε σ} {a : α}
    (hp : p m = (.ret a, m')) : try_catch p h m = (.ret a, m') := by
  unfold try_catch
  rw [hp]

theorem try_catch_bind_of_ret {p : Prog ε σ α} {f : α → Prog ε σ β} {h : ε → Prog ε σ β}
    {m m₁ : Machine ε σ} {a : α} (hp : p m = (.ret a, m₁)) :
    try_catch (p >>= f) h m = try_catch (f a) h m₁ := by
  unfold try_catch
  rw [bind_of_ret hp]

theorem try_catch_bind_of_jump {p : Prog ε σ α} {f : α → Prog ε σ β} {h : ε → Prog ε σ β}
    {m m₁ : Machine ε σ} {b : ℕ} (hp : p m = (.jump b, m₁)) :
    try_catch (p >>= f) h m = (.jump b, m₁) := by
  unfold try_catch
  rw [bind_apply, hp]

theorem try_catch_bind_of_stop {p : Prog ε σ α} {f : α → Prog ε σ β} {h : ε → Prog ε σ β}
    {m m₁ : Machine ε σ} {s : Halt} (hp : p m = (.stop s, m₁)) :
    try_catch (p >>= f) h m = (.stop s, m₁) := by
  unfold try_catch
  rw [bind_apply, hp]

theorem try_catch_bind_of_throw {p : Prog ε σ α} {f : α → Prog ε σ β} {h : ε → Prog ε σ β}
    {m m₁ : Machine ε σ} {e : ε} (hp : p m = (.throw e, m₁)) :
    try_catch (p >>= f) h m = h e m₁ := by
  unfold try_catch
  rw [bind_apply, hp]

/-- Run `p` with an object in scope whose destructor is `d`. Unwinding runs the
destructor, a jump does not. -/
def with_destructor (p : Prog ε σ α) (d : Prog ε σ Unit) : Prog ε σ α := fun m =>
  match p m with
  | (.ret a, m') => (d >>= fun _ => pure a) m'
  | (.throw e, m') => (d >>= fun _ => throw e) m'
  | r => r

/-- How the statements between `PG_TRY` and `PG_END_TRY` are left: off the end, with the
values of the locals they set, or by a `return`. -/
inductive Leave (α ρ : Type) where
  | fall (a : α)
  | ret (r : ρ)

/-- `PG_TRY()`: point `PG_exception_stack` at a local buffer. -/
def enter_try (m : Machine ε σ) : Machine ε σ :=
  { m with exception_stack := some m.next_buffer, next_buffer := m.next_buffer + 1 }

/-- The assignment `PG_exception_stack = _save_exception_stack`. -/
def restore (save_exception_stack : Option ℕ) (m : Machine ε σ) : Machine ε σ :=
  { m with exception_stack := save_exception_stack }

/-- `PG_END_TRY()`, which only a block left off its end reaches. -/
def end_try (save_exception_stack : Option ℕ) :
    Outcome ε (Leave α ρ) × Machine ε σ → Outcome ε (Leave α ρ) × Machine ε σ
  | (.ret (.fall a), m) => (.ret (.fall a), restore save_exception_stack m)
  | r => r

/-- `PG_TRY(); body; PG_CATCH(); handler; PG_END_TRY();`

`PG_CATCH` restores `PG_exception_stack` before the handler runs, `PG_END_TRY` restores
it after either. A `return` or a C++ exception that leaves the body reaches neither of
the two. -/
def pg_try_block (body handler : Prog ε σ (Leave α ρ)) : Prog ε σ (Leave α ρ) := fun m =>
  match body (enter_try m) with
  | (.jump b, m') =>
      if b = m.next_buffer then
        end_try m.exception_stack (handler (restore m.exception_stack m'))
      else (.jump b, m')
  | r => end_try m.exception_stack r

/-! ## Balance

A program is balanced when it leaves `PG_exception_stack` as it found it, leaves no
error of its own on the error-data stack, and jumps nowhere but to the buffer that was
current when it started. -/

/-- Names are handed out in order, and the oracle does not change its mind. -/
structure Later (m m' : Machine ε σ) : Prop where
  buffers : m.next_buffer ≤ m'.next_buffer
  raised : m.next_error ≤ m'.next_error
  oracle : m'.faults = m.faults

theorem Later.refl (m : Machine ε σ) : Later m m := ⟨le_rfl, le_rfl, rfl⟩

theorem Later.trans {m₁ m₂ m₃ : Machine ε σ} (h : Later m₁ m₂) (h' : Later m₂ m₃) : Later m₁ m₃ :=
  ⟨h.buffers.trans h'.buffers, h.raised.trans h'.raised, h'.oracle.trans h.oracle⟩

theorem Later.enter_try (m : Machine ε σ) : Later m (enter_try m) := ⟨Nat.le_succ _, le_rfl, rfl⟩

theorem Later.restore {m m' : Machine ε σ} (h : Later m m') (save : Option ℕ) :
    Later m (restore save m') :=
  ⟨h.buffers, h.raised, h.oracle⟩

/-- What a returning or unwinding program may have changed. -/
structure Kept (m m' : Machine ε σ) : Prop extends Later m m' where
  stack : m'.exception_stack = m.exception_stack
  errors : m'.error_data <:+ m.error_data

theorem Kept.refl (m : Machine ε σ) : Kept m m := ⟨Later.refl m, rfl, List.suffix_refl _⟩

/-- A step that changes none of the error state. -/
theorem Kept.of_eq {m m' : Machine ε σ} (hs : m'.exception_stack = m.exception_stack)
    (he : m'.error_data = m.error_data) (hb : m'.next_buffer = m.next_buffer)
    (hr : m'.next_error = m.next_error) (ho : m'.faults = m.faults) : Kept m m' :=
  ⟨⟨hb.ge, hr.ge, ho⟩, hs, he ▸ List.suffix_refl _⟩

theorem Kept.trans {m₁ m₂ m₃ : Machine ε σ} (h : Kept m₁ m₂) (h' : Kept m₂ m₃) : Kept m₁ m₃ :=
  ⟨h.toLater.trans h'.toLater, h'.stack.trans h.stack, h'.errors.trans h.errors⟩

/-- What a jump to the current buffer may have changed. -/
structure Jumped (m : Machine ε σ) (b : ℕ) (m' : Machine ε σ) : Prop extends Later m m' where
  target : m.exception_stack = some b
  stack : m'.exception_stack = some b

/-- What balance asks of one run from `m`. -/
def BalancedAt (m : Machine ε σ) : Outcome ε α × Machine ε σ → Prop
  | (.ret _, m') => Kept m m'
  | (.throw _, m') => Kept m m'
  | (.jump b, m') => Jumped m b m'
  | (.stop _, _) => True

/-- A balanced program. -/
def Balanced (p : Prog ε σ α) : Prop := ∀ m, BalancedAt m (p m)

theorem Kept.balancedAt {m m₁ : Machine ε σ} {r : Outcome ε α × Machine ε σ} (h : Kept m m₁)
    (hr : BalancedAt m₁ r) : BalancedAt m r := by
  rcases r with ⟨_ | _ | _ | _, m₂⟩
  · exact h.trans hr
  · exact h.trans hr
  · exact ⟨h.toLater.trans hr.toLater, h.stack.symm.trans hr.target, hr.stack⟩
  · trivial

theorem Balanced.pure (a : α) : Balanced (pure a : Prog ε σ α) := fun m => Kept.refl m

theorem Balanced.throw (e : ε) : Balanced (throw e : Prog ε σ α) := fun m => Kept.refl m

theorem Balanced.get : Balanced (get : Prog ε σ σ) := fun m => Kept.refl m

theorem Balanced.read (f : Machine ε σ → α) : Balanced (read f) := fun m => Kept.refl m

theorem Balanced.halt (h : Halt) : Balanced (halt h : Prog ε σ α) := fun _ => trivial

theorem Balanced.modify (f : σ → σ) : Balanced (modify f : Prog ε σ Unit) :=
  fun _ => Kept.of_eq rfl rfl rfl rfl rfl

/-- A step on a part of the machine that is not the error state. -/
theorem Balanced.write {g : Machine ε σ → Machine ε σ} (hg : ∀ m, Kept m (g m)) :
    Balanced (write g) :=
  hg

theorem Balanced.raise (msg : Option Bytes) : Balanced (raise msg : Prog ε σ α) := by
  intro m
  unfold Control.raise
  cases h : m.exception_stack with
  | none => trivial
  | some b => exact ⟨⟨le_rfl, Nat.le_succ _, rfl⟩, h, rfl⟩

theorem Balanced.call : Balanced (call : Prog ε σ Unit) := by
  intro m
  have htick : Kept m (tick m) := Kept.of_eq rfl rfl rfl rfl rfl
  unfold Control.call
  cases m.faults m.ticks with
  | none => exact htick
  | cpp e => exact htick
  | pg msg => exact htick.balancedAt (Balanced.raise msg (tick m))

theorem Balanced.alloc : Balanced (alloc : Prog ε σ Unit) := by
  intro m
  unfold Control.alloc
  cases m.faults m.ticks <;> exact Kept.of_eq rfl rfl rfl rfl rfl

theorem Balanced.bind {p : Prog ε σ α} {f : α → Prog ε σ β} (hp : Balanced p)
    (hf : ∀ a, Balanced (f a)) : Balanced (p >>= f) := by
  intro m
  have h := hp m
  rw [bind_apply]
  rcases hpm : p m with ⟨_ | _ | _ | _, m₁⟩ <;> rw [hpm] at h
  · exact h.balancedAt (hf _ m₁)
  · exact h
  · exact h
  · trivial

theorem Balanced.elog (level : Level) (msg : Bytes) : Balanced (elog level msg : Prog ε σ Unit) :=
  Balanced.bind Balanced.call fun _ => Balanced.write fun _ => Kept.of_eq rfl rfl rfl rfl rfl

theorem Balanced.of_except (x : Except ε α) : Balanced (of_except x : Prog ε σ α) := by
  cases x with
  | ok a => exact Balanced.pure a
  | error e => exact Balanced.throw e

theorem Balanced.ite {c : Prop} [Decidable c] {p q : Prog ε σ α} (hp : Balanced p)
    (hq : Balanced q) : Balanced (if c then p else q) := by
  split_ifs
  · exact hp
  · exact hq

theorem Balanced.try_catch {p : Prog ε σ α} {h : ε → Prog ε σ α} (hp : Balanced p)
    (hh : ∀ e, Balanced (h e)) : Balanced (try_catch p h) := by
  intro m
  have hm := hp m
  unfold Control.try_catch
  rcases hpm : p m with ⟨_ | _ | _ | _, m₁⟩ <;> rw [hpm] at hm
  · exact hm
  · exact hm.balancedAt (hh _ m₁)
  · exact hm
  · trivial

theorem Balanced.with_destructor {p : Prog ε σ α} {d : Prog ε σ Unit} (hp : Balanced p)
    (hd : Balanced d) : Balanced (with_destructor p d) := by
  intro m
  have hm := hp m
  unfold Control.with_destructor
  rcases hpm : p m with ⟨_ | _ | _ | _, m₁⟩ <;> rw [hpm] at hm
  · exact hm.balancedAt (Balanced.bind hd (fun _ => Balanced.pure _) m₁)
  · exact hm.balancedAt (Balanced.bind hd (fun _ => Balanced.throw _) m₁)
  · exact hm
  · trivial

/-- `p` never ends in a C++ exception. -/
def NoThrow (p : Prog ε σ α) : Prop := ∀ m e m', p m ≠ (.throw e, m')

theorem NoThrow.pure (a : α) : NoThrow (pure a : Prog ε σ α) := nofun

theorem NoThrow.read (f : Machine ε σ → α) : NoThrow (read f) := nofun

theorem NoThrow.write (g : Machine ε σ → Machine ε σ) : NoThrow (write g) := nofun

theorem NoThrow.get : NoThrow (get : Prog ε σ σ) := nofun

theorem NoThrow.modify (f : σ → σ) : NoThrow (modify f : Prog ε σ Unit) := nofun

theorem NoThrow.halt (h : Halt) : NoThrow (halt h : Prog ε σ α) := nofun

theorem NoThrow.raise (msg : Option Bytes) : NoThrow (raise msg : Prog ε σ α) := by
  intro m e m'
  unfold Control.raise
  cases m.exception_stack <;> exact nofun

theorem NoThrow.ite {c : Prop} [Decidable c] {p q : Prog ε σ α} (hp : NoThrow p)
    (hq : NoThrow q) : NoThrow (if c then p else q) := by
  split_ifs
  · exact hp
  · exact hq

theorem NoThrow.call : NoThrow (call : Prog ε σ Unit) := by
  intro m e m'
  unfold Control.call
  cases m.faults m.ticks with
  | none => exact nofun
  | cpp e => exact nofun
  | pg msg => exact NoThrow.raise msg _ e m'

theorem NoThrow.bind {p : Prog ε σ α} {k : α → Prog ε σ β} (hp : NoThrow p)
    (hk : ∀ a, NoThrow (k a)) : NoThrow (p >>= k) := by
  intro m e m'
  rw [bind_apply]
  rcases hpm : p m with ⟨a | e' | _ | _, m₁⟩
  · exact hk a m₁ e m'
  · exact absurd hpm (hp m e' m₁)
  · exact nofun
  · exact nofun

/-- A handler that does not throw catches everything. -/
theorem NoThrow.try_catch {p : Prog ε σ α} {h : ε → Prog ε σ α} (hh : ∀ e, NoThrow (h e)) :
    NoThrow (try_catch p h) := by
  intro m e m'
  unfold Control.try_catch
  rcases p m with ⟨a | e' | _ | _, m₁⟩
  · exact nofun
  · exact hh e' m₁ e m'
  · exact nofun
  · exact nofun

/-! ## Runs in which nothing fails -/

/-- The oracle has no objections. -/
def Quiet (m : Machine ε σ) : Prop := ∀ t, m.faults t = .none

theorem Quiet.kept {m m' : Machine ε σ} (hm : Quiet m) (h : Kept m m') : Quiet m' :=
  fun t => (congrFun h.oracle t).trans (hm t)

theorem Quiet.enter_try {m : Machine ε σ} (hm : Quiet m) : Quiet (enter_try m) := hm

theorem Quiet.tick {m : Machine ε σ} (hm : Quiet m) : Quiet (tick m) := hm

theorem Quiet.call_eq {m : Machine ε σ} (hm : Quiet m) : call m = (.ret (), Control.tick m) := by
  refine call_of_not_pg fun msg => ?_
  rw [hm]
  simp

theorem Quiet.alloc_eq {m : Machine ε σ} (hm : Quiet m) : alloc m = (.ret (), Control.tick m) := by
  refine alloc_of_not_cpp fun e => ?_
  rw [hm]
  simp

/-- `p` returns when nothing fails. -/
def Returns (p : Prog ε σ α) : Prop := ∀ m, Quiet m → ∃ a m', p m = (.ret a, m') ∧ Quiet m'

theorem Returns.pure (a : α) : Returns (pure a : Prog ε σ α) := fun m hm => ⟨a, m, rfl, hm⟩

theorem Returns.get : Returns (get : Prog ε σ σ) := fun m hm => ⟨m.user, m, rfl, hm⟩

theorem Returns.modify (f : σ → σ) : Returns (modify f : Prog ε σ Unit) :=
  fun _ hm => ⟨(), _, rfl, hm⟩

theorem Returns.call : Returns (call : Prog ε σ Unit) :=
  fun m hm => ⟨(), tick m, hm.call_eq, hm.tick⟩

theorem Returns.alloc : Returns (alloc : Prog ε σ Unit) :=
  fun m hm => ⟨(), tick m, hm.alloc_eq, hm.tick⟩

theorem Returns.bind {p : Prog ε σ α} {f : α → Prog ε σ β} (hp : Returns p)
    (hf : ∀ a, Returns (f a)) : Returns (p >>= f) := by
  intro m hm
  obtain ⟨a, m₁, hpm, hm₁⟩ := hp m hm
  rw [bind_of_ret hpm]
  exact hf a m₁ hm₁

theorem Returns.elog (level : Level) (msg : Bytes) : Returns (elog level msg : Prog ε σ Unit) :=
  Returns.bind Returns.call fun _ _ hm => ⟨(), _, rfl, hm⟩

theorem Returns.ite {c : Prop} [Decidable c] {p q : Prog ε σ α} (hp : Returns p)
    (hq : Returns q) : Returns (if c then p else q) := by
  split_ifs
  · exact hp
  · exact hq

/-- When nothing fails, `p` returns `a` and takes the user state from `u` to `u'`. -/
def Evals (p : Prog ε σ α) (u : σ) (a : α) (u' : σ) : Prop :=
  ∀ m, Quiet m → m.user = u → ∃ m', p m = (.ret a, m') ∧ Quiet m' ∧ m'.user = u'

section Evals

variable {u u₁ u' : σ} {a : α} {b : β}

theorem Evals.pure (a : α) (u : σ) : Evals (pure a : Prog ε σ α) u a u :=
  fun m hm hu => ⟨m, rfl, hm, hu⟩

theorem Evals.modify (f : σ → σ) (u : σ) : Evals (modify f : Prog ε σ Unit) u () (f u) :=
  fun m hm hu => ⟨{ m with user := f m.user }, rfl, hm, congrArg f hu⟩

theorem Evals.call (u : σ) : Evals (call : Prog ε σ Unit) u () u :=
  fun m hm hu => ⟨tick m, hm.call_eq, hm.tick, hu⟩

theorem Evals.alloc (u : σ) : Evals (alloc : Prog ε σ Unit) u () u :=
  fun m hm hu => ⟨tick m, hm.alloc_eq, hm.tick, hu⟩

theorem Evals.bind {p : Prog ε σ α} {f : α → Prog ε σ β} (hp : Evals p u a u₁)
    (hf : Evals (f a) u₁ b u') : Evals (p >>= f) u b u' := by
  intro m hm hu
  obtain ⟨m₁, hpm, hm₁, hu₁⟩ := hp m hm hu
  rw [bind_of_ret hpm]
  exact hf m₁ hm₁ hu₁

theorem Evals.get_bind {f : σ → Prog ε σ β} (hf : Evals (f u) u b u') :
    Evals (Control.get >>= f) u b u' := by
  rintro m hm rfl
  exact hf m hm rfl

theorem Evals.elog (level : Level) (msg : Bytes) (u : σ) :
    Evals (elog level msg : Prog ε σ Unit) u () u :=
  Evals.bind (Evals.call u) fun _ hm hu => ⟨_, rfl, hm, hu⟩

theorem Evals.try_catch {p : Prog ε σ α} (hp : Evals p u a u') (h : ε → Prog ε σ α) :
    Evals (try_catch p h) u a u' := by
  intro m hm hu
  obtain ⟨m₁, hpm, hm₁, hu₁⟩ := hp m hm hu
  exact ⟨m₁, try_catch_of_ret hpm, hm₁, hu₁⟩

/-- The destructor runs behind the return. -/
theorem Evals.with_destructor {p : Prog ε σ α} {d : Prog ε σ Unit} (hp : Evals p u a u₁)
    (hd : Evals d u₁ () u') : Evals (with_destructor p d) u a u' := by
  intro m hm hu
  obtain ⟨m₁, hpm, hm₁, hu₁⟩ := hp m hm hu
  unfold Control.with_destructor
  rw [hpm]
  exact Evals.bind hd (Evals.pure a u') m₁ hm₁ hu₁

/-- A block whose body is left off its end. -/
theorem Evals.pg_try_block {body : Prog ε σ (Leave α ρ)} (hb : Evals body u (.fall a) u')
    (handler : Prog ε σ (Leave α ρ)) : Evals (pg_try_block body handler) u (.fall a) u' := by
  intro m hm hu
  obtain ⟨m₁, hbody, hm₁, hu₁⟩ := hb (enter_try m) hm hu
  unfold Control.pg_try_block
  rw [hbody]
  exact ⟨restore m.exception_stack m₁, rfl, hm₁, hu₁⟩

end Evals

/-! ## Triples

Pre- and postconditions on the user state. A program ends by returning, with `Q` of the
value, or it exits in one of three other ways, with `X` of the way; what it does to the
rest of the machine is the business of `Balanced`. -/

/-- The ways to end without a value. -/
inductive Exit where
  | throw | jump | stop

/-- What a triple asks of one run. -/
def Ends (Q : α → σ → Prop) (X : Exit → σ → Prop) : Outcome ε α × Machine ε σ → Prop
  | (.ret a, m) => Q a m.user
  | (.throw _, m) => X .throw m.user
  | (.jump _, m) => X .jump m.user
  | (.stop _, m) => X .stop m.user

/-- From a state in `P`, `p` ends in `Q` or exits in `X`. -/
def Triple (P : σ → Prop) (p : Prog ε σ α) (Q : α → σ → Prop) (X : Exit → σ → Prop) : Prop :=
  ∀ m, P m.user → Ends Q X (p m)

section Triple

variable {P : σ → Prop} {Q : α → σ → Prop} {X : Exit → σ → Prop}

/-- What a triple says about a run that returned. -/
theorem Triple.of_eq_ret {p : Prog ε σ α} {m m' : Machine ε σ} {a : α} (h : Triple P p Q X)
    (hm : P m.user) (heq : p m = (.ret a, m')) : Q a m'.user := by
  have hend := h m hm
  rw [heq] at hend
  exact hend

theorem Triple.consequence {P' : σ → Prop} {Q' : α → σ → Prop} {Y : Exit → σ → Prop}
    {p : Prog ε σ α} (h : Triple P' p Q' Y) (hP : ∀ u, P u → P' u)
    (hQ : ∀ a u, Q' a u → Q a u) (hX : ∀ x u, Y x u → X x u) : Triple P p Q X := by
  intro m hm
  have hend := h m (hP _ hm)
  rcases hpm : p m with ⟨_ | _ | _ | _, m₁⟩ <;> rw [hpm] at hend
  · exact hQ _ _ hend
  · exact hX _ _ hend
  · exact hX _ _ hend
  · exact hX _ _ hend

/-- What does not mention the state afterwards is there before. -/
theorem Triple.of_fact {c : Prop} (p : Prog ε σ α) (h : ∀ u, P u → c) :
    Triple P p (fun _ _ => c) (fun _ _ => True) := by
  intro m hm
  rcases p m with ⟨_ | _ | _ | _, m₁⟩
  · exact h m.user hm
  · exact True.intro
  · exact True.intro
  · exact True.intro

/-- Nothing is asked. -/
theorem Triple.trivial (p : Prog ε σ α) : Triple P p (fun _ _ => True) (fun _ _ => True) :=
  Triple.of_fact p fun _ _ => True.intro

theorem Triple.pure {a : α} (h : ∀ u, P u → Q a u) : Triple P (pure a : Prog ε σ α) Q X :=
  fun _ hm => h _ hm

theorem Triple.throw {e : ε} (h : ∀ u, P u → X .throw u) : Triple P (throw e : Prog ε σ α) Q X :=
  fun _ hm => h _ hm

theorem Triple.get {Q : σ → σ → Prop} (h : ∀ u, P u → Q u u) : Triple P (get : Prog ε σ σ) Q X :=
  fun _ hm => h _ hm

theorem Triple.read {f : Machine ε σ → α} (h : ∀ a u, P u → Q a u) : Triple P (read f) Q X :=
  fun _ hm => h _ _ hm

/-- A step on the rest of the machine. -/
theorem Triple.write {Q : Unit → σ → Prop} {g : Machine ε σ → Machine ε σ}
    (hg : ∀ m, (g m).user = m.user) (h : ∀ u, P u → Q () u) : Triple P (write g) Q X := by
  intro m hm
  show Q () (g m).user
  rw [hg]
  exact h _ hm

theorem Triple.halt {h : Halt} (hs : ∀ u, P u → X .stop u) :
    Triple P (halt h : Prog ε σ α) Q X :=
  fun _ hm => hs _ hm

theorem Triple.modify {Q : Unit → σ → Prop} {f : σ → σ} (h : ∀ u, P u → Q () (f u)) :
    Triple P (modify f : Prog ε σ Unit) Q X :=
  fun _ hm => h _ hm

theorem Triple.raise {msg : Option Bytes} (hj : ∀ u, P u → X .jump u)
    (hs : ∀ u, P u → X .stop u) : Triple P (raise msg : Prog ε σ α) Q X := by
  intro m hm
  unfold Control.raise
  cases m.exception_stack with
  | none => exact hs _ hm
  | some b => exact hj _ hm

theorem Triple.call {Q : Unit → σ → Prop} (hr : ∀ u, P u → Q () u) (hj : ∀ u, P u → X .jump u)
    (hs : ∀ u, P u → X .stop u) : Triple P (call : Prog ε σ Unit) Q X := by
  intro m hm
  unfold Control.call
  cases m.faults m.ticks with
  | none => exact hr _ hm
  | cpp e => exact hr _ hm
  | pg msg => exact Triple.raise hj hs (tick m) hm

theorem Triple.alloc {Q : Unit → σ → Prop} (hr : ∀ u, P u → Q () u)
    (ht : ∀ u, P u → X .throw u) : Triple P (alloc : Prog ε σ Unit) Q X := by
  intro m hm
  unfold Control.alloc
  cases m.faults m.ticks with
  | none => exact hr _ hm
  | cpp e => exact ht _ hm
  | pg msg => exact hr _ hm

theorem Triple.bind {R : β → σ → Prop} {p : Prog ε σ β} {f : β → Prog ε σ α}
    (hp : Triple P p R X) (hf : ∀ b, Triple (R b) (f b) Q X) : Triple P (p >>= f) Q X := by
  intro m hm
  have hend := hp m hm
  rw [bind_apply]
  rcases hpm : p m with ⟨_ | _ | _ | _, m₁⟩ <;> rw [hpm] at hend
  · exact hf _ m₁ hend
  · exact hend
  · exact hend
  · exact hend

/-- One state at a time. -/
theorem Triple.of_states {p : Prog ε σ α} (h : ∀ u, P u → Triple (fun v => v = u) p Q X) :
    Triple P p Q X :=
  fun m hm => h m.user hm m rfl

/-- Reading the state: what follows may use that it has not changed yet. -/
theorem Triple.get_bind {f : σ → Prog ε σ α}
    (h : ∀ u, P u → Triple (fun v => v = u) (f u) Q X) : Triple P (Control.get >>= f) Q X :=
  fun m hm => h m.user hm m rfl

theorem Triple.modify_bind {R : σ → Prop} {g : σ → σ} {f : Unit → Prog ε σ α}
    (hg : ∀ u, P u → R (g u)) (h : Triple R (f ()) Q X) :
    Triple P (Control.modify g >>= f) Q X :=
  Triple.bind (R := fun _ => R) (Triple.modify hg) fun _ => h

theorem Triple.elog {Q : Unit → σ → Prop} {level : Level} {msg : Bytes} (hr : ∀ u, P u → Q () u)
    (hj : ∀ u, P u → X .jump u) (hs : ∀ u, P u → X .stop u) :
    Triple P (elog level msg : Prog ε σ Unit) Q X :=
  Triple.bind (R := fun _ => P) (Triple.call (fun _ h => h) hj hs) fun _ _ hm => hr _ hm

theorem Triple.of_except {x : Except ε α} (hr : ∀ a u, x = .ok a → P u → Q a u)
    (ht : ∀ u, P u → X .throw u) : Triple P (of_except x : Prog ε σ α) Q X := by
  cases x with
  | ok a => exact Triple.pure (hr a · rfl)
  | error e => exact Triple.throw ht

theorem Triple.ite {c : Prop} [Decidable c] {p q : Prog ε σ α} (hp : c → Triple P p Q X)
    (hq : ¬ c → Triple P q Q X) : Triple P (if c then p else q) Q X := by
  split_ifs with hc
  · exact hp hc
  · exact hq hc

/-- The handler starts where the body threw. -/
theorem Triple.try_catch {Y : Exit → σ → Prop} {p : Prog ε σ α} {h : ε → Prog ε σ α}
    (hp : Triple P p Q Y) (hh : ∀ e, Triple (Y .throw) (h e) Q X)
    (hj : ∀ u, Y .jump u → X .jump u) (hs : ∀ u, Y .stop u → X .stop u) :
    Triple P (try_catch p h) Q X := by
  intro m hm
  have hend := hp m hm
  unfold Control.try_catch
  rcases hpm : p m with ⟨_ | _ | _ | _, m₁⟩ <;> rw [hpm] at hend
  · exact hend
  · exact hh _ m₁ hend
  · exact hj _ hend
  · exact hs _ hend

/-- The destructor runs on a return and on a throw, and is jumped over by a jump. -/
theorem Triple.with_destructor {R : α → σ → Prop} {Y : Exit → σ → Prop} {p : Prog ε σ α}
    {d : Prog ε σ Unit} (hp : Triple P p R Y) (hr : ∀ a, Triple (R a) d (fun _ => Q a) X)
    (ht : Triple (Y .throw) d (fun _ => X .throw) X) (hj : ∀ u, Y .jump u → X .jump u)
    (hs : ∀ u, Y .stop u → X .stop u) : Triple P (with_destructor p d) Q X := by
  intro m hm
  have hend := hp m hm
  unfold Control.with_destructor
  rcases hpm : p m with ⟨a | _ | _ | _, m₁⟩ <;> rw [hpm] at hend
  · exact Triple.bind (hr a) (fun _ => Triple.pure fun _ h => h) m₁ hend
  · exact Triple.bind ht (fun _ => Triple.throw fun _ h => h) m₁ hend
  · exact hj _ hend
  · exact hs _ hend

theorem Ends.end_try {Q : Leave α ρ → σ → Prop} {X : Exit → σ → Prop} {save : Option ℕ}
    {r : Outcome ε (Leave α ρ) × Machine ε σ} (h : Ends Q X r) : Ends Q X (end_try save r) := by
  rcases r with ⟨(_ | _) | _ | _ | _, m⟩ <;> exact h

/-- The handler starts where the body jumped; a jump to an outer buffer passes through. -/
theorem Triple.pg_try_block {Q : Leave α ρ → σ → Prop} {Y : Exit → σ → Prop}
    {body handler : Prog ε σ (Leave α ρ)} (hb : Triple P body Q Y)
    (hh : Triple (Y .jump) handler Q X) (hx : ∀ x u, Y x u → X x u) :
    Triple P (pg_try_block body handler) Q X := by
  intro m hm
  have hend := hb (enter_try m) hm
  unfold Control.pg_try_block
  rcases hbm : body (enter_try m) with ⟨_ | _ | b | _, m₁⟩ <;> rw [hbm] at hend
  · exact Ends.end_try hend
  · exact hx _ _ hend
  · dsimp only
    split_ifs
    · exact Ends.end_try (hh (restore m.exception_stack m₁) hend)
    · exact hx _ _ hend
  · exact hx _ _ hend

end Triple

/-! ## Frames

What a program leaves alone, whichever way it ends. `f` picks out the part of the user
state in question. -/

/-- `I` holds after `p`, however it ends, if it held before. -/
def Invariant (I : σ → Prop) (p : Prog ε σ α) : Prop := Triple I p (fun _ => I) (fun _ => I)

/-- No run of `p` changes `f` of the user state. -/
def Preserves (f : σ → β) (p : Prog ε σ α) : Prop := ∀ c, Invariant (fun u => f u = c) p

section Preserves

variable {γ : Type} {f : σ → γ}

theorem Preserves.apply {p : Prog ε σ α} (h : Preserves f p) (m : Machine ε σ) :
    f (p m).2.user = f m.user := by
  have hend := h (f m.user) m rfl
  rcases hpm : p m with ⟨_ | _ | _ | _, m₁⟩ <;> rw [hpm] at hend <;> exact hend

theorem Preserves.pure (a : α) : Preserves f (pure a : Prog ε σ α) :=
  fun _ => Triple.pure fun _ h => h

theorem Preserves.throw (e : ε) : Preserves f (throw e : Prog ε σ α) :=
  fun _ => Triple.throw fun _ h => h

theorem Preserves.get : Preserves f (get : Prog ε σ σ) := fun _ => Triple.get fun _ h => h

theorem Preserves.modify {g : σ → σ} (h : ∀ s, f (g s) = f s) :
    Preserves f (modify g : Prog ε σ Unit) :=
  fun _ => Triple.modify fun u hu => (h u).trans hu

theorem Preserves.call : Preserves f (call : Prog ε σ Unit) :=
  fun _ => Triple.call (fun _ h => h) (fun _ h => h) fun _ h => h

theorem Preserves.alloc : Preserves f (alloc : Prog ε σ Unit) :=
  fun _ => Triple.alloc (fun _ h => h) fun _ h => h

theorem Preserves.bind {p : Prog ε σ α} {k : α → Prog ε σ β} (hp : Preserves f p)
    (hk : ∀ a, Preserves f (k a)) : Preserves f (p >>= k) :=
  fun c => Triple.bind (hp c) fun a => hk a c

theorem Preserves.elog (level : Level) (msg : Bytes) :
    Preserves f (elog level msg : Prog ε σ Unit) :=
  fun _ => Triple.elog (fun _ h => h) (fun _ h => h) fun _ h => h

theorem Preserves.of_except (x : Except ε α) : Preserves f (of_except x : Prog ε σ α) :=
  fun _ => Triple.of_except (fun _ _ _ h => h) fun _ h => h

theorem Preserves.ite {c : Prop} [Decidable c] {p q : Prog ε σ α} (hp : Preserves f p)
    (hq : Preserves f q) : Preserves f (if c then p else q) :=
  fun v => Triple.ite (fun _ => hp v) fun _ => hq v

theorem Preserves.try_catch {p : Prog ε σ α} {h : ε → Prog ε σ α} (hp : Preserves f p)
    (hh : ∀ e, Preserves f (h e)) : Preserves f (try_catch p h) :=
  fun c => Triple.try_catch (hp c) (fun e => hh e c) (fun _ h => h) fun _ h => h

theorem Preserves.with_destructor {p : Prog ε σ α} {d : Prog ε σ Unit} (hp : Preserves f p)
    (hd : Preserves f d) : Preserves f (with_destructor p d) :=
  fun c => Triple.with_destructor (hp c) (fun _ => hd c) (hd c) (fun _ h => h) fun _ h => h

theorem Preserves.comp {δ : Type} {p : Prog ε σ α} (h : Preserves f p) (g : γ → δ) :
    Preserves (fun u => g (f u)) p := by
  rintro c m rfl
  have hend := h (f m.user) m rfl
  rcases hpm : p m with ⟨_ | _ | _ | _, m₁⟩ <;> rw [hpm] at hend <;> exact congrArg g hend

/-- Balanced, and leaving `f` alone: what a caller usually wants to know about a function
whose result it is not looking at. -/
structure Framed (f : σ → γ) (p : Prog ε σ α) : Prop where
  balanced : Balanced p
  preserves : Preserves f p

theorem Framed.comp {δ : Type} {p : Prog ε σ α} (h : Framed f p) (g : γ → δ) :
    Framed (fun u => g (f u)) p :=
  ⟨h.balanced, h.preserves.comp g⟩

theorem Framed.pure (a : α) : Framed f (pure a : Prog ε σ α) :=
  ⟨Balanced.pure a, Preserves.pure a⟩

theorem Framed.throw (e : ε) : Framed f (throw e : Prog ε σ α) :=
  ⟨Balanced.throw e, Preserves.throw e⟩

theorem Framed.get : Framed f (get : Prog ε σ σ) := ⟨Balanced.get, Preserves.get⟩

theorem Framed.modify {g : σ → σ} (h : ∀ s, f (g s) = f s) :
    Framed f (modify g : Prog ε σ Unit) :=
  ⟨Balanced.modify g, Preserves.modify h⟩

theorem Framed.halt (h : Halt) : Framed f (halt h : Prog ε σ α) :=
  ⟨Balanced.halt h, fun _ => Triple.halt fun _ h => h⟩

theorem Framed.raise (msg : Option Bytes) : Framed f (raise msg : Prog ε σ α) :=
  ⟨Balanced.raise msg, fun _ => Triple.raise (fun _ h => h) fun _ h => h⟩

theorem Framed.call : Framed f (call : Prog ε σ Unit) := ⟨Balanced.call, Preserves.call⟩

theorem Framed.alloc : Framed f (alloc : Prog ε σ Unit) := ⟨Balanced.alloc, Preserves.alloc⟩

theorem Framed.bind {p : Prog ε σ α} {k : α → Prog ε σ β} (hp : Framed f p)
    (hk : ∀ a, Framed f (k a)) : Framed f (p >>= k) :=
  ⟨Balanced.bind hp.balanced fun a => (hk a).balanced,
    Preserves.bind hp.preserves fun a => (hk a).preserves⟩

theorem Framed.elog (level : Level) (msg : Bytes) : Framed f (elog level msg : Prog ε σ Unit) :=
  ⟨Balanced.elog level msg, Preserves.elog level msg⟩

theorem Framed.of_except (x : Except ε α) : Framed f (of_except x : Prog ε σ α) :=
  ⟨Balanced.of_except x, Preserves.of_except x⟩

theorem Framed.ite {c : Prop} [Decidable c] {p q : Prog ε σ α} (hp : Framed f p)
    (hq : Framed f q) : Framed f (if c then p else q) :=
  ⟨Balanced.ite hp.balanced hq.balanced, Preserves.ite hp.preserves hq.preserves⟩

theorem Framed.try_catch {p : Prog ε σ α} {h : ε → Prog ε σ α} (hp : Framed f p)
    (hh : ∀ e, Framed f (h e)) : Framed f (try_catch p h) :=
  ⟨Balanced.try_catch hp.balanced fun e => (hh e).balanced,
    Preserves.try_catch hp.preserves fun e => (hh e).preserves⟩

theorem Framed.with_destructor {p : Prog ε σ α} {d : Prog ε σ Unit} (hp : Framed f p)
    (hd : Framed f d) : Framed f (with_destructor p d) :=
  ⟨Balanced.with_destructor hp.balanced hd.balanced,
    Preserves.with_destructor hp.preserves hd.preserves⟩

/-- A framed program, run where nothing fails. -/
theorem Returns.framed {p : Prog ε σ α} (h : Returns p) (hp : Framed f p) {m : Machine ε σ}
    (hm : Quiet m) :
    ∃ a m', p m = (.ret a, m') ∧ Quiet m' ∧ f m'.user = f m.user := by
  obtain ⟨a, m', heq, hm'⟩ := h m hm
  have hf := hp.preserves.apply m
  rw [heq] at hf
  exact ⟨a, m', heq, hm', hf⟩

end Preserves

end OidcValidator.Control
