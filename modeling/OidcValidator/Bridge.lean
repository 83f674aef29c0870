/-
`Bridge.lean` -- `pg_try` at any nesting depth.

`PgUtils.lean` says of one `pg_try` that it restores the error state. Here is what it does
to the outcome of the function inside, where that function may catch, throw and raise, and
may call `pg_try` again, to any depth.

The function is a syntax tree with two meanings. [`Comp.eval`] is the intended one: three
outcomes and no jump buffers, no error-data stack, no `PG_exception_stack`. [`Comp.run`] is
the program on the machine of `Control.lean`, with every `pg_try` in it the one of the
source. The two agree, by induction on the tree, and the statement about `pg_try` is read
off from that.

The handler of `pg_try` makes two steps that can fail themselves: `CopyErrorData` allocates,
and so does the message. What happens then is part of the intended meaning.
-/
import OidcValidator.PgUtils

set_option autoImplicit false

namespace OidcValidator.Bridge

open OidcValidator.ByteString OidcValidator.Control OidcValidator.PgUtils

/-! ## Computations -/

/-- A computation: steps on the user state, switches of the memory context, exceptions,
`ERROR`s, calls and allocations that the oracle decides about, sequences, `try` blocks, and
calls of `pg_try`. -/
inductive Comp (σ : Type) : Type → Type 1 where
  | step {α : Type} (f : σ → α × σ) : Comp σ α
  | switch (context : MemoryContext) : Comp σ Unit
  | throw {α : Type} (e : CppException) : Comp σ α
  | raise {α : Type} (msg : Option Bytes) : Comp σ α
  | call : Comp σ Unit
  | alloc : Comp σ Unit
  | bind {α β : Type} (p : Comp σ β) (k : β → Comp σ α) : Comp σ α
  | try_catch {α : Type} (p : Comp σ α) (h : CppException → Comp σ α) : Comp σ α
  | pg_try {α : Type} (p : Comp σ α) : Comp σ α

variable {σ α : Type}

/-- The program that the computation is. -/
def Comp.run : {α : Type} → Comp σ α → Prog CppException σ α
  | _, .step f => do
      let u ← get
      modify fun u => (f u).2
      pure (f u).1
  | _, .switch context => MemoryContextSwitchTo context
  | _, .throw e => Control.throw e
  | _, .raise msg => Control.raise msg
  | _, .call => Control.call
  | _, .alloc => Control.alloc
  | _, .bind p k => p.run >>= fun b => (k b).run
  | _, .try_catch p h => Control.try_catch p.run fun e => (h e).run
  | _, .pg_try p => PgUtils.pg_try p.run

/-! ## What a computation means -/

/-- The three outcomes. -/
inductive Result (α : Type) where
  | ret (a : α)
  | throw (e : CppException)
  | error (msg : Option Bytes)
  deriving DecidableEq

/-- What a computation can see of the machine. -/
structure View (σ : Type) where
  user : σ
  memory_context : MemoryContext
  ticks : ℕ

/-- One entry of the oracle has been read. -/
def View.tick (w : View σ) : View σ := { w with ticks := w.ticks + 1 }

/-- An `ERROR` leaves `ErrorContext` behind. -/
def View.erred (w : View σ) : View σ := { w with memory_context := .ErrorContext }

/-- The text of the `postgres_exception` for an `ERROR`. -/
def error_text (msg : Option Bytes) : Bytes :=
  bytes "PostgreSQL error" ++ msg.elim [] (bytes ": " ++ ·)

section Eval

variable (faults : ℕ → Fault CppException)

/-- What `pg_try` makes of an outcome: an `ERROR` becomes a `postgres_exception`, unless one
of the two steps of the handler fails. `entry` is the memory context on entry. -/
def convert (entry : MemoryContext) : Result α × View σ → Result α × View σ
  | (.error msg, w) =>
      match faults w.ticks with
      | .pg msg' => (.error msg', w.tick.erred)
      | _ =>
          match faults (w.ticks + 1) with
          | .cpp e => (.throw e, { w.tick.tick with memory_context := entry })
          | _ => (.throw (postgres_exception (error_text msg)),
              { w.tick.tick with memory_context := entry })
  | r => r

variable {faults}

theorem convert_of_pg {entry : MemoryContext} {msg msg' : Option Bytes} {w : View σ}
    (h : faults w.ticks = .pg msg') :
    convert faults entry ((.error msg, w) : Result α × View σ) = (.error msg', w.tick.erred) := by
  simp only [convert, h]

theorem convert_of_cpp {entry : MemoryContext} {msg : Option Bytes} {w : View σ}
    {e : CppException} (hpg : ∀ msg, faults w.ticks ≠ .pg msg)
    (h : faults (w.ticks + 1) = .cpp e) :
    convert faults entry ((.error msg, w) : Result α × View σ)
      = (.throw e, { w.tick.tick with memory_context := entry }) := by
  simp only [convert]
  rcases hf : faults w.ticks with _ | e' | msg'
  · simp only [h]
  · simp only [h]
  · exact absurd hf (hpg msg')

theorem convert_error {entry : MemoryContext} {msg : Option Bytes} {w : View σ}
    (hpg : ∀ msg, faults w.ticks ≠ .pg msg) (hcpp : ∀ e, faults (w.ticks + 1) ≠ .cpp e) :
    convert faults entry ((.error msg, w) : Result α × View σ)
      = (.throw (postgres_exception (error_text msg)),
          { w.tick.tick with memory_context := entry }) := by
  -- by `hpg` and `hcpp`, both `match`es come to their last case
  simp only [convert]

variable (faults)

/-- The meaning of a computation. -/
def Comp.eval : {α : Type} → Comp σ α → View σ → Result α × View σ
  | _, .step f, w => (.ret (f w.user).1, { w with user := (f w.user).2 })
  | _, .switch context, w => (.ret (), { w with memory_context := context })
  | _, .throw e, w => (.throw e, w)
  | _, .raise msg, w => (.error msg, w.erred)
  | _, .call, w =>
      match faults w.ticks with
      | .pg msg => (.error msg, w.tick.erred)
      | _ => (.ret (), w.tick)
  | _, .alloc, w =>
      match faults w.ticks with
      | .cpp e => (.throw e, w.tick)
      | _ => (.ret (), w.tick)
  | _, .bind p k, w =>
      match p.eval w with
      | (.ret b, w') => (k b).eval w'
      | (.throw e, w') => (.throw e, w')
      | (.error msg, w') => (.error msg, w')
  | _, .try_catch p h, w =>
      match p.eval w with
      | (.throw e, w') => (h e).eval w'
      | r => r
  | _, .pg_try p, w => convert faults w.memory_context (p.eval w)

end Eval

/-! ## The two meanings agree -/

/-- What a computation sees of a machine. -/
def view (m : Machine CppException σ) : View σ := ⟨m.user, m.memory_context, m.ticks⟩

/-- A run that was started from `m` and ended in `x` has the intended result. An `ERROR` is
the newest on the stack and jumps to the buffer that was current in `m`; with no buffer
there, the process exits. -/
def Agrees (m : Machine CppException σ) :
    Outcome CppException α × Machine CppException σ → Result α × View σ → Prop
  | (x, m'), (.ret a, w) => x = .ret a ∧ Kept m m' ∧ view m' = w
  | (x, m'), (.throw e, w) => x = .throw e ∧ Kept m m' ∧ view m' = w
  | (x, m'), (.error msg, w) =>
      view m' = w ∧
        match m.exception_stack with
        | some b => x = .jump b ∧ Jumped m b m' ∧ m'.error_data.head?.bind Prod.snd = msg
        | none => x = .stop .exit ∧ m'.exception_stack = none

theorem agrees_error_iff {m m' : Machine CppException σ} {x : Outcome CppException α}
    {msg : Option Bytes} {w : View σ} :
    Agrees m (x, m') (.error msg, w) ↔
      view m' = w ∧ (m.exception_stack = none ∧ x = .stop .exit ∧ m'.exception_stack = none ∨
        ∃ b, m.exception_stack = some b ∧ x = .jump b ∧ Jumped m b m' ∧
          m'.error_data.head?.bind Prod.snd = msg) := by
  unfold Agrees
  rcases m.exception_stack with _ | b
  · simp
  · simp

/-- For an `ERROR` it is enough that the buffer is the same: what lies on the error-data
stack below it does not matter. -/
theorem Agrees.of_later {m m₁ : Machine CppException σ} {msg : Option Bytes} {w : View σ}
    {x : Outcome CppException α × Machine CppException σ} (h : Later m m₁)
    (hstack : m₁.exception_stack = m.exception_stack) (hr : Agrees m₁ x (.error msg, w)) :
    Agrees m x (.error msg, w) := by
  obtain ⟨x, m₂⟩ := x
  obtain ⟨hview, ⟨hb, hx⟩ | ⟨b, hb, hx, hjumped, hmsg⟩⟩ := agrees_error_iff.mp hr
  · exact agrees_error_iff.mpr ⟨hview, .inl ⟨hstack ▸ hb, hx⟩⟩
  · have hb' : m.exception_stack = some b := hstack ▸ hb
    have hjumped' : Jumped m b m₂ := ⟨h.trans hjumped.toLater, hb', hjumped.stack⟩
    exact agrees_error_iff.mpr ⟨hview, .inr ⟨b, hb', hx, hjumped', hmsg⟩⟩

/-- What comes before an agreeing run may be anything that keeps the error state. -/
theorem Agrees.of_kept {m m₁ : Machine CppException σ}
    {x : Outcome CppException α × Machine CppException σ} {r : Result α × View σ} (h : Kept m m₁)
    (hr : Agrees m₁ x r) : Agrees m x r := by
  rcases r with ⟨a | e | msg, w⟩
  · exact ⟨hr.1, h.trans hr.2.1, hr.2.2⟩
  · exact ⟨hr.1, h.trans hr.2.1, hr.2.2⟩
  · exact hr.of_later h.toLater h.stack

theorem agrees_raise (msg : Option Bytes) (m : Machine CppException σ) :
    Agrees m (Control.raise msg m : Outcome CppException α × _) (.error msg, (view m).erred) := by
  unfold Control.raise
  refine agrees_error_iff.mpr ?_
  rcases hb : m.exception_stack with _ | b
  · exact ⟨rfl, .inl ⟨rfl, rfl, rfl⟩⟩
  · exact ⟨rfl, .inr ⟨b, rfl, rfl, ⟨⟨le_rfl, Nat.le_succ _, rfl⟩, hb, rfl⟩, rfl⟩⟩

theorem kept_tick (m : Machine CppException σ) : Kept m (tick m) :=
  Kept.of_eq rfl rfl rfl rfl rfl

theorem agrees_call (m : Machine CppException σ) :
    Agrees m (Control.call m) ((Comp.call : Comp σ Unit).eval m.faults (view m)) := by
  unfold Control.call Comp.eval
  show Agrees m _ (match m.faults m.ticks with | .pg msg => _ | _ => _)
  rcases m.faults m.ticks with _ | e | msg
  · exact ⟨rfl, kept_tick m, rfl⟩
  · exact ⟨rfl, kept_tick m, rfl⟩
  · exact Agrees.of_kept (kept_tick m) (agrees_raise msg (tick m))

theorem agrees_alloc (m : Machine CppException σ) :
    Agrees m (Control.alloc m) ((Comp.alloc : Comp σ Unit).eval m.faults (view m)) := by
  unfold Control.alloc Comp.eval
  show Agrees m _ (match m.faults m.ticks with | .cpp e => _ | _ => _)
  rcases m.faults m.ticks with _ | e | msg
  · exact ⟨rfl, kept_tick m, rfl⟩
  · exact ⟨rfl, kept_tick m, rfl⟩
  · exact ⟨rfl, kept_tick m, rfl⟩

/-! ### One `pg_try` -/

section PgTry

variable {p : Prog CppException σ α} {m m₁ : Machine CppException σ}

theorem pg_try_of_ret {a : α} (h : p (enter_try m) = (.ret a, m₁)) :
    PgUtils.pg_try p m = (.ret a, restore m.exception_stack m₁) := by
  have hbody : pg_try_body p (enter_try m) = (.ret (.fall ⟨some a, none, none⟩), m₁) := by
    unfold pg_try_body
    rw [try_catch_bind_of_ret h]
    rfl
  have hblock : pg_try_block (pg_try_body p) (pg_try_handler m.memory_context) m
      = (.ret (.fall ⟨some a, none, none⟩), restore m.exception_stack m₁) := by
    unfold pg_try_block
    rw [hbody]
    rfl
  exact bind_of_ret hblock

theorem pg_try_of_throw {e : CppException} (h : p (enter_try m) = (.throw e, m₁)) :
    PgUtils.pg_try p m = (.throw e, restore m.exception_stack m₁) := by
  have hbody : pg_try_body p (enter_try m) = (.ret (.fall ⟨none, none, some e⟩), m₁) := by
    unfold pg_try_body
    rw [try_catch_bind_of_throw h]
    rfl
  have hblock : pg_try_block (pg_try_body p) (pg_try_handler m.memory_context) m
      = (.ret (.fall ⟨none, none, some e⟩), restore m.exception_stack m₁) := by
    unfold pg_try_block
    rw [hbody]
    rfl
  exact bind_of_ret hblock

theorem pg_try_apply : PgUtils.pg_try p m
    = (pg_try_block (pg_try_body p) (pg_try_handler m.memory_context) >>= pg_try_finish) m := rfl

/-- A jump to its own buffer brings `pg_try` to its handler. -/
theorem pg_try_block_of_jump (h : p (enter_try m) = (.jump m.next_buffer, m₁)) :
    pg_try_block (pg_try_body p) (pg_try_handler m.memory_context) m
      = end_try m.exception_stack
          (pg_try_handler m.memory_context (restore m.exception_stack m₁)) := by
  have hbody : pg_try_body p (enter_try m) = (.jump m.next_buffer, m₁) := by
    unfold pg_try_body
    rw [try_catch_bind_of_jump h]
  unfold pg_try_block
  rw [hbody]
  dsimp only
  rw [if_pos rfl]

/-- `MemoryContextSwitchTo(old_context)`. -/
def switched (context : MemoryContext) (m : Machine CppException σ) : Machine CppException σ :=
  { m with memory_context := context }

/-- The handler, when `CopyErrorData` raises an `ERROR` of its own. -/
theorem pg_try_handler_of_pg {context : MemoryContext} {msg : Option Bytes}
    (h : m.faults m.ticks = .pg msg) :
    (pg_try_handler context : Prog CppException σ (Leave (Locals α) Empty)) m
      = Control.raise msg (tick (switched context m)) := by
  have hcall : (Control.call : Prog CppException σ Unit) (switched context m)
      = Control.raise msg (tick (switched context m)) := call_of_pg h
  have hcopy : (CopyErrorData : Prog CppException σ (Option Bytes)) (switched context m)
      = Control.raise msg (tick (switched context m)) := bind_of_raise hcall
  show (CopyErrorData >>= _) (switched context m) = _
  exact bind_of_raise hcopy

/-- The handler, when `CopyErrorData` comes back: the errors are gone and the message is
being built. -/
theorem pg_try_handler_of_not_pg {context : MemoryContext}
    (h : ∀ msg, m.faults m.ticks ≠ .pg msg) :
    (pg_try_handler context : Prog CppException σ (Leave (Locals α) Empty)) m
      = (Control.alloc >>= fun _ => pure (.fall ⟨none,
          some (error_text (m.error_data.head?.bind Prod.snd)), none⟩))
        { tick (switched context m) with error_data := [] } := by
  have hcall : (Control.call : Prog CppException σ Unit) (switched context m)
      = (.ret (), tick (switched context m)) := call_of_not_pg h
  have hcopy : (CopyErrorData : Prog CppException σ (Option Bytes)) (switched context m)
      = (.ret (m.error_data.head?.bind Prod.snd), tick (switched context m)) := by
    unfold CopyErrorData
    rw [bind_of_ret hcall]
    rfl
  show (CopyErrorData >>= _) (switched context m) = _
  rw [bind_of_ret hcopy]
  rfl

theorem end_try_raise (save : Option ℕ) (msg : Option Bytes) :
    end_try save (Control.raise msg m : Outcome CppException (Leave (Locals α) Empty) × _)
      = Control.raise msg m := by
  unfold Control.raise
  rcases m.exception_stack with _ | b
  · rfl
  · rfl

/-- `pg_try` around a function that raised an `ERROR`, when `CopyErrorData` raises one, too. -/
theorem pg_try_of_jump_of_pg {msg : Option Bytes}
    (h : p (enter_try m) = (.jump m.next_buffer, m₁)) (hpg : m₁.faults m₁.ticks = .pg msg) :
    PgUtils.pg_try p m
      = Control.raise msg (tick (switched m.memory_context (restore m.exception_stack m₁))) := by
  rw [pg_try_apply]
  refine bind_of_raise ?_
  rw [pg_try_block_of_jump h, pg_try_handler_of_pg (m := restore m.exception_stack m₁) hpg,
    end_try_raise]

/-- The machine on which the handler builds the message. -/
def flushed (m m₁ : Machine CppException σ) : Machine CppException σ :=
  { tick (switched m.memory_context (restore m.exception_stack m₁)) with error_data := [] }

/-- `pg_try` around a function that raised an `ERROR`, when building the message throws. -/
theorem pg_try_of_jump_of_cpp {e : CppException}
    (h : p (enter_try m) = (.jump m.next_buffer, m₁))
    (hpg : ∀ msg, m₁.faults m₁.ticks ≠ .pg msg) (hcpp : m₁.faults (m₁.ticks + 1) = .cpp e) :
    PgUtils.pg_try p m = (.throw e, tick (flushed m m₁)) := by
  have halloc : (Control.alloc : Prog CppException σ Unit) (flushed m m₁)
      = (.throw e, tick (flushed m m₁)) := alloc_of_cpp hcpp
  have hblock : pg_try_block (pg_try_body p) (pg_try_handler m.memory_context) m
      = (.throw e, tick (flushed m m₁)) := by
    rw [pg_try_block_of_jump h,
      pg_try_handler_of_not_pg (m := restore m.exception_stack m₁) hpg]
    exact congrArg (end_try m.exception_stack) (bind_of_throw halloc)
  rw [pg_try_apply, bind_apply, hblock]

/-- `pg_try` around a function that raised an `ERROR`: the conversion. -/
theorem pg_try_of_jump (h : p (enter_try m) = (.jump m.next_buffer, m₁))
    (hpg : ∀ msg, m₁.faults m₁.ticks ≠ .pg msg) (hcpp : ∀ e, m₁.faults (m₁.ticks + 1) ≠ .cpp e) :
    PgUtils.pg_try p m
      = (.throw (postgres_exception (error_text (m₁.error_data.head?.bind Prod.snd))),
          restore m.exception_stack (tick (flushed m m₁))) := by
  have halloc : (Control.alloc : Prog CppException σ Unit) (flushed m m₁)
      = (.ret (), tick (flushed m m₁)) := alloc_of_not_cpp hcpp
  have hblock : pg_try_block (pg_try_body p) (pg_try_handler m.memory_context) m
      = (.ret (.fall ⟨none, some (error_text (m₁.error_data.head?.bind Prod.snd)), none⟩),
          restore m.exception_stack (tick (flushed m m₁))) := by
    rw [pg_try_block_of_jump h,
      pg_try_handler_of_not_pg (m := restore m.exception_stack m₁) hpg]
    exact congrArg (end_try m.exception_stack) (bind_of_ret halloc)
  exact bind_of_ret hblock

/-- A jump to another buffer passes `pg_try` by. -/
theorem pg_try_of_jump_past {b : ℕ} (h : p (enter_try m) = (.jump b, m₁))
    (hb : b ≠ m.next_buffer) : PgUtils.pg_try p m = (.jump b, m₁) := by
  have hbody : pg_try_body p (enter_try m) = (.jump b, m₁) := by
    unfold pg_try_body
    rw [try_catch_bind_of_jump h]
  have hblock : pg_try_block (pg_try_body p) (pg_try_handler m.memory_context) m
      = (.jump b, m₁) := by
    unfold pg_try_block
    rw [hbody]
    dsimp only
    rw [if_neg hb]
  rw [pg_try_apply, bind_apply, hblock]

theorem pg_try_of_stop {h : Halt} (hp : p (enter_try m) = (.stop h, m₁)) :
    PgUtils.pg_try p m = (.stop h, m₁) := by
  have hbody : pg_try_body p (enter_try m) = (.stop h, m₁) := by
    unfold pg_try_body
    rw [try_catch_bind_of_stop hp]
  have hblock : pg_try_block (pg_try_body p) (pg_try_handler m.memory_context) m
      = (.stop h, m₁) := by
    unfold pg_try_block
    rw [hbody]
    rfl
  rw [pg_try_apply, bind_apply, hblock]

/-- What returns and touches nothing but the user state may stand inside `pg_try` or behind. -/
theorem pg_try_bind {β : Type} {f : α → Prog CppException σ β} {g : α → σ → β × σ}
    (hf : ∀ a m, f a m = (.ret (g a m.user).1, { m with user := (g a m.user).2 })) :
    PgUtils.pg_try (p >>= f) = PgUtils.pg_try p >>= f := by
  funext m
  rcases hp : p (enter_try m) with ⟨a | e | b | h, m₁⟩
  · have hin : (p >>= f) (enter_try m) = _ := (bind_of_ret hp).trans (hf a m₁)
    rw [pg_try_of_ret hin, bind_of_ret (pg_try_of_ret hp), hf]
    rfl
  · have hin : (p >>= f) (enter_try m) = _ := bind_of_throw hp
    rw [pg_try_of_throw hin, bind_of_throw (pg_try_of_throw hp)]
  · have hin : (p >>= f) (enter_try m) = (.jump b, m₁) := by rw [bind_apply, hp]
    by_cases hb : b = m.next_buffer
    · -- `f` is not reached, and the handler does the same for both
      subst hb
      by_cases hpg : ∃ msg, m₁.faults m₁.ticks = .pg msg
      · obtain ⟨msg, hpg⟩ := hpg
        rw [pg_try_of_jump_of_pg hin hpg, bind_of_raise (pg_try_of_jump_of_pg hp hpg)]
      · push Not at hpg
        by_cases hcpp : ∃ e, m₁.faults (m₁.ticks + 1) = .cpp e
        · obtain ⟨e, hcpp⟩ := hcpp
          rw [pg_try_of_jump_of_cpp hin hpg hcpp,
            bind_of_throw (pg_try_of_jump_of_cpp hp hpg hcpp)]
        · push Not at hcpp
          rw [pg_try_of_jump hin hpg hcpp, bind_of_throw (pg_try_of_jump hp hpg hcpp)]
    · rw [pg_try_of_jump_past hin hb, bind_apply, pg_try_of_jump_past hp hb]
  · have hin : (p >>= f) (enter_try m) = (.stop h, m₁) := by rw [bind_apply, hp]
    rw [pg_try_of_stop hin, bind_apply, pg_try_of_stop hp]

/-- What `pg_try` makes of a run of the function inside is what it is meant to make of it. -/
theorem agrees_pg_try {r : Result α × View σ}
    (h : Agrees (enter_try m) (p (enter_try m)) r) :
    Agrees m (PgUtils.pg_try p m) (convert m.faults m.memory_context r) := by
  rcases hp : p (enter_try m) with ⟨x, m₁⟩
  rw [hp] at h
  rcases r with ⟨a | e | msg, w⟩
  · obtain ⟨rfl, hkept, rfl⟩ := h
    rw [pg_try_of_ret hp]
    exact ⟨rfl, ⟨((Later.enter_try m).trans hkept.toLater).restore _, rfl, hkept.errors⟩, rfl⟩
  · obtain ⟨rfl, hkept, rfl⟩ := h
    rw [pg_try_of_throw hp]
    exact ⟨rfl, ⟨((Later.enter_try m).trans hkept.toLater).restore _, rfl, hkept.errors⟩, rfl⟩
  · -- the only buffer an `ERROR` can go to is the one `PG_TRY` has just set
    obtain ⟨rfl, rfl, hjumped, rfl⟩ := h
    have hlater := ((Later.enter_try m).trans hjumped.toLater).restore m.exception_stack
    have hfaults : m₁.faults = m.faults := hjumped.oracle
    have hkept : Kept m (tick (flushed m m₁)) :=
      ⟨⟨hlater.buffers, hlater.raised, hlater.oracle⟩, rfl, List.nil_suffix⟩
    rw [← hfaults]
    -- the two steps of the handler that can fail
    by_cases hpg : ∃ msg, m₁.faults m₁.ticks = .pg msg
    · obtain ⟨msg, hpg⟩ := hpg
      rw [pg_try_of_jump_of_pg hp hpg, convert_of_pg (w := view m₁) hpg]
      refine Agrees.of_later ?_ ?_ (agrees_raise msg _)
      · exact ⟨hlater.buffers, hlater.raised, hlater.oracle⟩
      · rfl
    · push Not at hpg
      by_cases hcpp : ∃ e, m₁.faults (m₁.ticks + 1) = .cpp e
      · obtain ⟨e, hcpp⟩ := hcpp
        rw [pg_try_of_jump_of_cpp hp hpg hcpp, convert_of_cpp (w := view m₁) hpg hcpp]
        exact ⟨rfl, hkept, rfl⟩
      · push Not at hcpp
        rw [pg_try_of_jump hp hpg hcpp, convert_error (w := view m₁) hpg hcpp]
        exact ⟨rfl, hkept, rfl⟩

end PgTry

/-! ### Every computation -/

theorem agrees_bind {β : Type} {p : Comp σ β} {k : β → Comp σ α} {m : Machine CppException σ}
    (hp : Agrees m (p.run m) (p.eval m.faults (view m)))
    (hk : ∀ b m, Agrees m ((k b).run m) ((k b).eval m.faults (view m))) :
    Agrees m ((p.bind k).run m) ((p.bind k).eval m.faults (view m)) := by
  show Agrees m ((p.run >>= fun b => (k b).run) m) _
  unfold Comp.eval
  rcases hrun : p.run m with ⟨x, m₁⟩
  -- `k` runs only if `p` returns; what else comes out of `p` comes out of both
  rcases heval : p.eval m.faults (view m) with ⟨b | e | msg, w⟩ <;> rw [hrun, heval] at hp
  · obtain ⟨rfl, hkept, rfl⟩ := hp
    rw [bind_of_ret hrun]
    have hrest := hk b m₁
    rw [hkept.oracle] at hrest
    exact hrest.of_kept hkept
  · obtain ⟨rfl, hkept, rfl⟩ := hp
    rw [bind_of_throw hrun]
    exact ⟨rfl, hkept, rfl⟩
  · rw [bind_apply, hrun]
    obtain ⟨rfl, ⟨hb, rfl, hstack⟩ | ⟨j, hb, rfl, hjumped, hmsg⟩⟩ := agrees_error_iff.mp hp
    · exact agrees_error_iff.mpr ⟨rfl, .inl ⟨hb, rfl, hstack⟩⟩
    · exact agrees_error_iff.mpr ⟨rfl, .inr ⟨j, hb, rfl, hjumped, hmsg⟩⟩

theorem agrees_try_catch {p : Comp σ α} {h : CppException → Comp σ α}
    {m : Machine CppException σ} (hp : Agrees m (p.run m) (p.eval m.faults (view m)))
    (hh : ∀ e m, Agrees m ((h e).run m) ((h e).eval m.faults (view m))) :
    Agrees m ((p.try_catch h).run m) ((p.try_catch h).eval m.faults (view m)) := by
  show Agrees m (Control.try_catch p.run (fun e => (h e).run) m) _
  unfold Comp.eval Control.try_catch
  rcases hrun : p.run m with ⟨x, m₁⟩
  -- an `ERROR` passes the handler by, as `longjmp` passes a `catch`
  rcases heval : p.eval m.faults (view m) with ⟨b | e | msg, w⟩ <;> rw [hrun, heval] at hp
  · obtain ⟨rfl, hkept, rfl⟩ := hp
    exact ⟨rfl, hkept, rfl⟩
  · obtain ⟨rfl, hkept, rfl⟩ := hp
    have hrest := hh e m₁
    rw [hkept.oracle] at hrest
    exact hrest.of_kept hkept
  · obtain ⟨-, ⟨-, rfl, -⟩ | ⟨j, -, rfl, -⟩⟩ := agrees_error_iff.mp hp
    · exact hp
    · exact hp

/-- **The two meanings agree**, by induction on the computation: what is inside a `pg_try`
may contain others. -/
theorem agrees (c : Comp σ α) : ∀ m, Agrees m (c.run m) (c.eval m.faults (view m)) := by
  induction c with
  | step f => exact fun m => ⟨rfl, Kept.of_eq rfl rfl rfl rfl rfl, rfl⟩
  | switch context => exact fun m => ⟨rfl, Kept.of_eq rfl rfl rfl rfl rfl, rfl⟩
  | throw e => exact fun m => ⟨rfl, Kept.refl m, rfl⟩
  | raise msg => exact agrees_raise msg
  | call => exact agrees_call
  | alloc => exact agrees_alloc
  | bind p k hp hk => exact fun m => agrees_bind (hp m) hk
  | try_catch p h hp hh => exact fun m => agrees_try_catch (hp m) hh
  | pg_try p hp => exact fun m => agrees_pg_try (hp (enter_try m))

/-! ## The bridge -/

/-- What is asked of a call of `pg_try` from `m`. The function inside means `f` and left the
machine in `m₁`; the call ended in `x`. -/
structure Bridges (m m₁ : Machine CppException σ) (f : Result α × View σ)
    (x : Outcome CppException α × Machine CppException σ) : Prop where
  /-- It returns exactly what the function returns. -/
  returns : ∀ a, x.1 = .ret a ↔ f.1 = .ret a
  /-- A C++ exception comes out as it is. -/
  rethrows : ∀ e, f.1 = .throw e → x.1 = .throw e
  /-- An `ERROR` comes out as a `postgres_exception` with its message, provided that
  `CopyErrorData` and the string for the message get their memory. -/
  converts : ∀ msg, f.1 = .error msg → (∀ msg', m.faults f.2.ticks ≠ .pg msg') →
    (∀ e, m.faults (f.2.ticks + 1) ≠ .cpp e) →
    x.1 = .throw (postgres_exception (error_text msg))
  /-- The memory context is the one on entry after an `ERROR`. -/
  context : ∀ msg e, f.1 = .error msg → x.1 = .throw e → x.2.memory_context = m.memory_context
  /-- An `ERROR` that gets to an outer handler is `CopyErrorData`'s own: it is newer than any
  that was raised under the function. -/
  contains : ∀ b, x.1 = .jump b → m.exception_stack = some b ∧
    ∃ msg, m.faults f.2.ticks = .pg msg ∧ x.2.error_data.head? = some (m₁.next_error, msg)
  /-- The result is engaged when it is dereferenced; the process goes down only when
  `CopyErrorData` fails and there is no outer handler. -/
  engaged : ∀ h, x.1 = .stop h → h = .exit ∧ m.exception_stack = none ∧
    ∃ msg, m.faults f.2.ticks = .pg msg
  /-- `PG_exception_stack` is what it was. -/
  stack : x.2.exception_stack = m.exception_stack

section Bridges

variable {p : Prog CppException σ α} {m m₁ m' : Machine CppException σ}
  {x y : Outcome CppException α} {msg : Option Bytes}

/-- The function raised an `ERROR`, and `CopyErrorData` raised another. -/
theorem bridges_of_pg {msg' : Option Bytes}
    (hx : PgUtils.pg_try p m = (x, m')) (h : p (enter_try m) = (.jump m.next_buffer, m₁))
    (hfaults : m₁.faults = m.faults) (hpg : m.faults m₁.ticks = .pg msg') :
    Bridges m m₁ (.error msg, view m₁) (x, m') := by
  rw [pg_try_of_jump_of_pg h (hfaults ▸ hpg)] at hx
  unfold Control.raise at hx
  have hstack : (tick (switched m.memory_context (restore m.exception_stack m₁))).exception_stack
      = m.exception_stack := rfl
  rw [hstack] at hx
  have hcopy : m.faults (view m₁).ticks = .pg msg' := hpg
  have hno : ¬∀ msg, m.faults (view m₁).ticks ≠ .pg msg := fun h => h msg' hcopy
  -- the second `ERROR` goes to the handler outside, if there is one
  rcases hb : m.exception_stack with _ | b <;> rw [hb] at hx
  · obtain ⟨rfl, rfl⟩ := Prod.mk.inj hx
    exact {
      returns := by simp
      rethrows := by simp
      converts := fun _ _ h => absurd h hno
      context := by simp
      contains := by simp
      engaged := fun h heq => ⟨(Outcome.stop.inj heq).symm, hb, msg', hcopy⟩
      stack := hb.symm }
  · obtain ⟨rfl, rfl⟩ := Prod.mk.inj hx
    exact {
      returns := by simp
      rethrows := by simp
      converts := fun _ _ h => absurd h hno
      context := by simp
      contains := fun j heq => ⟨Outcome.jump.inj heq ▸ hb, msg', hcopy, rfl⟩
      engaged := by simp
      stack := hb.symm }

/-- The function raised an `ERROR`, and `pg_try` threw. -/
theorem bridges_of_throw {e : CppException} {w : View σ}
    (hstack : m'.exception_stack = m.exception_stack)
    (hcontext : m'.memory_context = m.memory_context)
    (he : (∀ msg', m.faults w.ticks ≠ .pg msg') → (∀ e, m.faults (w.ticks + 1) ≠ .cpp e) →
      e = postgres_exception (error_text msg)) :
    Bridges (α := α) m m₁ (.error msg, w) (.throw e, m') where
  returns := by simp
  rethrows := by simp
  converts := fun msg' h hpg hcpp => by rw [he hpg hcpp, Result.error.inj h]
  context := fun _ _ _ _ => hcontext
  contains := by simp
  engaged := by simp
  stack := hstack

theorem bridges_of_agrees {f : Result α × View σ} (hx : PgUtils.pg_try p m = (x, m'))
    (hp : p (enter_try m) = (y, m₁)) (h : Agrees (enter_try m) (y, m₁) f) :
    Bridges m m₁ f (x, m') := by
  rcases f with ⟨a | e | msg, w⟩
  · -- a return and an exception go through
    obtain ⟨rfl, hkept, -⟩ := h
    rw [pg_try_of_ret hp] at hx
    obtain ⟨rfl, rfl⟩ := Prod.mk.inj hx
    exact {
      returns := by simp
      rethrows := by simp
      converts := by simp
      context := by simp
      contains := by simp
      engaged := by simp
      stack := rfl }
  · obtain ⟨rfl, hkept, -⟩ := h
    rw [pg_try_of_throw hp] at hx
    obtain ⟨rfl, rfl⟩ := Prod.mk.inj hx
    exact {
      returns := by simp
      rethrows := by simp
      converts := by simp
      context := by simp
      contains := by simp
      engaged := by simp
      stack := rfl }
  · obtain ⟨rfl, rfl, hjumped, rfl⟩ := h
    -- an `ERROR` is converted, unless the handler fails
    have hfaults : m₁.faults = m.faults := hjumped.oracle
    by_cases hpg : ∃ msg, m.faults m₁.ticks = .pg msg
    · obtain ⟨msg', hpg⟩ := hpg
      exact bridges_of_pg hx hp hfaults hpg
    · push Not at hpg
      by_cases hcpp : ∃ e, m.faults (m₁.ticks + 1) = .cpp e
      · obtain ⟨e, hcpp⟩ := hcpp
        rw [pg_try_of_jump_of_cpp hp (hfaults ▸ hpg) (hfaults ▸ hcpp)] at hx
        obtain ⟨rfl, rfl⟩ := Prod.mk.inj hx
        exact bridges_of_throw rfl rfl fun _ hnot => absurd hcpp (hnot e)
      · push Not at hcpp
        rw [pg_try_of_jump hp (hfaults ▸ hpg) (hfaults ▸ hcpp)] at hx
        obtain ⟨rfl, rfl⟩ := Prod.mk.inj hx
        exact bridges_of_throw rfl rfl fun _ _ => rfl

end Bridges

/-- **`pg_try` is a faithful bridge at any depth.** The function inside runs as it is meant
to, whatever `pg_try`s there are in it, and the call does to its outcome what it should. -/
theorem pg_try_bridges (c : Comp σ α) (m : Machine CppException σ) :
    Agrees (enter_try m) (c.run (enter_try m)) (c.eval m.faults (view m)) ∧
      Bridges m (c.run (enter_try m)).2 (c.eval m.faults (view m)) (PgUtils.pg_try c.run m) :=
  have hagrees := agrees c (enter_try m)
  ⟨hagrees, bridges_of_agrees rfl rfl hagrees⟩

/-- An `ERROR` inside, converted, caught, and answered by another `ERROR`. -/
def nested : Comp Unit Unit :=
  .try_catch (.pg_try (.raise (some (bytes "out of memory")))) fun e => .raise (some e.what)

/-- The two conversions, one around the other, seen from a handler at buffer 0. -/
theorem pg_try_bridges_nested :
    (PgUtils.pg_try nested.run ⟨some 0, [], .other 0, 1, 0, fun _ => .none, 0, [], ()⟩).1
      = .throw (postgres_exception
          (bytes "PostgreSQL error: PostgreSQL error: out of memory")) := by
  have hbridge := (pg_try_bridges nested
    ⟨some 0, [], .other 0, 1, 0, fun _ => .none, 0, [], ()⟩).2
  exact hbridge.converts (some (bytes "PostgreSQL error: out of memory")) rfl (by simp) (by simp)

end OidcValidator.Bridge
