/-
`PgUtils.lean` -- `pg_utils.hpp`: the two wrappers that stand between C++ and
PostgreSQL's error handling, and the exceptions they carry.

`pg_try` turns an `ERROR` into a `postgres_exception`. It keeps a C++ exception in a
local across `PG_END_TRY` and throws it again afterwards, so both ways of failing leave
through the same door. `pg_assert_noerror` is for destructors: an error there ends the
process.

The result is that every program wrapped in `pg_try` is balanced: the jump buffer is
put back and the error-data stack is flushed, whatever the program inside does.
-/
import OidcValidator.Control

set_option autoImplicit false

namespace OidcValidator.PgUtils

open OidcValidator.ByteString OidcValidator.Control

variable {σ α : Type}

/-! ## Exceptions -/

/-- The classes of exception that can fly through the extension. `foreign` is one that is
not derived from `std::exception`. -/
inductive ExceptionClass where
  | bad_alloc | bad_cast | logic_error | invalid_argument | out_of_range | overflow_error
  | runtime_error
  | invalid_json_exception | claim_not_present_exception
  | rsa_exception | ecdsa_exception
  | signature_verification_exception | signature_generation_exception
  | token_verification_exception
  | postgres_exception | dshash_exception
  | foreign
  deriving DecidableEq

/-- An exception object: its class and its `what()`. -/
structure CppException where
  cls : ExceptionClass
  what : Bytes
  deriving DecidableEq

/-- `std::runtime_error`. -/
def runtime_error (what : Bytes) : CppException := ⟨.runtime_error, what⟩

/-- `std::bad_cast`. -/
def bad_cast : CppException := ⟨.bad_cast, bytes "std::bad_cast"⟩

/-- `pg::postgres_exception`. -/
def postgres_exception (msg : Bytes) : CppException := ⟨.postgres_exception, msg⟩

/-- A sequence of two steps that may throw ends well exactly when both do. -/
theorem bind_eq_ok {β : Type} {x : Except CppException α} {f : α → Except CppException β}
    {b : β} : (x >>= f) = .ok b ↔ ∃ a, x = .ok a ∧ f a = .ok b := by
  cases x <;> simp [bind, Except.bind]

/-! ## PostgreSQL's error functions -/

/-- `MemoryContextSwitchTo`. -/
def MemoryContextSwitchTo (context : MemoryContext) : Prog CppException σ Unit :=
  write fun m => { m with memory_context := context }

/-- `CurrentMemoryContext`. -/
def CurrentMemoryContext : Prog CppException σ MemoryContext := read fun m => m.memory_context

/-- `CopyErrorData`: the message of the newest error. It allocates, so it can raise one. -/
def CopyErrorData : Prog CppException σ (Option Bytes) := do
  call
  read fun m => m.error_data.head?.bind Prod.snd

/-- `FlushErrorState`. -/
def FlushErrorState : Prog CppException σ Unit := write fun m => { m with error_data := [] }

/-! ## `pg_try` -/

/-- The locals of `pg_try` that live across the block. -/
structure Locals (α : Type) where
  result : Option α
  pg_error_msg : Option Bytes
  cpp_exception : Option CppException

/-- The statements of `pg_try` inside `PG_TRY`: run the function, keep what it throws. -/
def pg_try_body (func : Prog CppException σ α) : Prog CppException σ (Leave (Locals α) Empty) :=
  try_catch (func >>= fun a => pure (.fall ⟨some a, none, none⟩))
    fun e => pure (.fall ⟨none, none, some e⟩)

/-- The statements of `pg_try` inside `PG_CATCH`. -/
def pg_try_handler (old_context : MemoryContext) :
    Prog CppException σ (Leave (Locals α) Empty) := do
  MemoryContextSwitchTo old_context
  let message ← CopyErrorData
  FlushErrorState
  alloc
  let pg_error_msg := bytes "PostgreSQL error" ++ message.elim [] (bytes ": " ++ ·)
  pure (.fall ⟨none, some pg_error_msg, none⟩)

/-- The end of `pg_try`, behind `PG_END_TRY`. -/
def pg_try_finish : Leave (Locals α) Empty → Prog CppException σ α
  | .fall l =>
      match l.cpp_exception, l.pg_error_msg, l.result with
      | some e, _, _ => throw e
      | none, some msg, _ => throw (postgres_exception msg)
      | none, none, some a => pure a
      | none, none, none => halt .undefined
  | .ret r => r.elim

/-- `pg_try`. -/
def pg_try (func : Prog CppException σ α) : Prog CppException σ α := do
  let old_context ← CurrentMemoryContext
  let locals ← pg_try_block (pg_try_body func) (pg_try_handler old_context)
  pg_try_finish locals

/-! ## `pg_assert_noerror` -/

/-- A `noexcept` function: an exception that reaches its end calls `std::terminate`. -/
def noexcept (p : Prog CppException σ α) : Prog CppException σ α :=
  try_catch p fun _ => halt .exit

/-- The statements of `pg_assert_noerror` inside `PG_CATCH`, as far as the `elog(FATAL)`. -/
def pg_assert_noerror_handler (context : Bytes) (old_context : MemoryContext) :
    Prog CppException σ (Leave Unit Empty) := do
  MemoryContextSwitchTo old_context
  let message ← CopyErrorData
  fatal (bytes "Unexpected PostgreSQL error in " ++ context ++ bytes ": "
    ++ message.getD (bytes "(no message)"))

/-- `pg_assert_noerror`. -/
def pg_assert_noerror (func : Prog CppException σ Unit) (context : Bytes) :
    Prog CppException σ Unit :=
  noexcept do
    let old_context ← CurrentMemoryContext
    let _ ← pg_try_block (func >>= fun _ => pure (.fall ()))
      (pg_assert_noerror_handler context old_context)
    pure ()

/-! ## Balance

A balanced body can only jump to the buffer of the block around it, and both handlers
flush or end the process, so the two wrappers are balanced again. -/

theorem balanced_switch (context : MemoryContext) :
    Balanced (MemoryContextSwitchTo context : Prog CppException σ Unit) :=
  Balanced.write fun _ => Kept.of_eq rfl rfl rfl rfl rfl

theorem balanced_copy : Balanced (CopyErrorData : Prog CppException σ (Option Bytes)) :=
  Balanced.bind Balanced.call fun _ => Balanced.read _

theorem noThrow_copy : NoThrow (CopyErrorData : Prog CppException σ (Option Bytes)) :=
  NoThrow.bind NoThrow.call fun _ => NoThrow.read _

/-- What a handler has to do for its block to be balanced: drop every error if it goes on
in C++, and jump nowhere but to the buffer that was current when it started. -/
def RecoversAt (m : Machine CppException σ) :
    Outcome CppException α × Machine CppException σ → Prop
  | (.ret _, m') => (Later m m' ∧ m'.exception_stack = m.exception_stack) ∧ m'.error_data = []
  | (.throw _, m') => (Later m m' ∧ m'.exception_stack = m.exception_stack) ∧ m'.error_data = []
  | (.jump b, m') => Jumped m b m'
  | (.stop _, _) => True

/-- A handler that recovers. -/
def Recovers (handler : Prog CppException σ α) : Prop := ∀ m, RecoversAt m (handler m)

theorem RecoversAt.of_kept {m m₁ : Machine CppException σ}
    {r : Outcome CppException α × Machine CppException σ} (h : Kept m m₁)
    (hr : RecoversAt m₁ r) : RecoversAt m r := by
  rcases r with ⟨a | e | j | h', m₂⟩
  · exact ⟨⟨h.toLater.trans hr.1.1, hr.1.2.trans h.stack⟩, hr.2⟩
  · exact ⟨⟨h.toLater.trans hr.1.1, hr.1.2.trans h.stack⟩, hr.2⟩
  · exact ⟨h.toLater.trans hr.toLater, h.stack.symm.trans hr.target, hr.stack⟩
  · trivial

theorem Recovers.bind {β : Type} {p : Prog CppException σ β} {k : β → Prog CppException σ α}
    (hp : Balanced p) (hnt : NoThrow p) (hk : ∀ b, Recovers (k b)) : Recovers (p >>= k) := by
  intro m
  have hm := hp m
  rw [bind_apply]
  rcases hpm : p m with ⟨b | e | j | h, m₁⟩ <;> rw [hpm] at hm
  · exact RecoversAt.of_kept hm (hk b m₁)
  · exact absurd hpm (hnt m e m₁)
  · exact hm
  · trivial

/-- Once the errors are flushed, a balanced program leaves none. -/
theorem Recovers.flush {k : Unit → Prog CppException σ α} (hk : ∀ u, Balanced (k u)) :
    Recovers (FlushErrorState >>= k) := by
  intro m
  have hm := hk () { m with error_data := [] }
  show RecoversAt m (k () { m with error_data := [] })
  rcases hkm : k () { m with error_data := [] } with ⟨a | e | j | h, m₁⟩ <;> rw [hkm] at hm
  · exact ⟨⟨⟨hm.buffers, hm.raised, hm.oracle⟩, hm.stack⟩, List.suffix_nil.mp hm.errors⟩
  · exact ⟨⟨⟨hm.buffers, hm.raised, hm.oracle⟩, hm.stack⟩, List.suffix_nil.mp hm.errors⟩
  · exact ⟨⟨hm.buffers, hm.raised, hm.oracle⟩, hm.target, hm.stack⟩
  · trivial

/-- A block whose body is balanced and does not throw, with a handler that recovers. -/
theorem balanced_pg_try_block {body handler : Prog CppException σ (Leave α Empty)}
    (hb : Balanced body) (hnt : NoThrow body) (hh : Recovers handler) :
    Balanced (pg_try_block body handler) := by
  intro m
  have hm := hb (enter_try m)
  unfold pg_try_block
  rcases hbm : body (enter_try m) with ⟨(a | r) | e | b | h, m₁⟩ <;> rw [hbm] at hm
  · exact ⟨((Later.enter_try m).trans hm.toLater).restore _, rfl, hm.errors⟩
  · exact r.elim
  · exact absurd hbm (hnt _ e m₁)
  · -- the only buffer a balanced body can jump to is the one `enter_try` has just set
    obtain rfl : m.next_buffer = b := Option.some.inj hm.target
    have hlater := ((Later.enter_try m).trans hm.toLater).restore m.exception_stack
    have hrec := hh (restore m.exception_stack m₁)
    dsimp only
    rw [if_pos rfl]
    rcases hhm : handler (restore m.exception_stack m₁) with ⟨(a | r) | e | b | h, m₂⟩ <;>
      rw [hhm] at hrec
    · exact ⟨(hlater.trans hrec.1.1).restore _, rfl, hrec.2 ▸ List.nil_suffix⟩
    · exact r.elim
    · exact ⟨hlater.trans hrec.1.1, hrec.1.2, hrec.2 ▸ List.nil_suffix⟩
    · exact ⟨hlater.trans hrec.toLater, hrec.target, hrec.stack⟩
    · trivial
  · trivial

theorem balanced_pg_try_finish (l : Leave (Locals α) Empty) :
    Balanced (pg_try_finish l : Prog CppException σ α) := by
  rcases l with ⟨_ | a, _ | msg, _ | e⟩ | r
  · exact Balanced.halt _
  · exact Balanced.throw _
  · exact Balanced.throw _
  · exact Balanced.throw _
  · exact Balanced.pure _
  · exact Balanced.throw _
  · exact Balanced.throw _
  · exact Balanced.throw _
  · exact r.elim

/-- **`pg_try` restores the error state**, whatever happens inside it. -/
theorem balanced_pg_try {func : Prog CppException σ α} (hf : Balanced func) :
    Balanced (pg_try func) := by
  refine Balanced.bind (Balanced.read _) fun old_context => ?_
  refine Balanced.bind (balanced_pg_try_block ?_ ?_ ?_) balanced_pg_try_finish
  · exact Balanced.try_catch (Balanced.bind hf fun _ => Balanced.pure _) fun _ => Balanced.pure _
  · exact NoThrow.try_catch fun _ => NoThrow.pure _
  · refine Recovers.bind (balanced_switch _) (NoThrow.write _) fun _ => ?_
    refine Recovers.bind balanced_copy noThrow_copy fun message => ?_
    exact Recovers.flush fun _ => Balanced.bind Balanced.alloc fun _ => Balanced.pure _

theorem balanced_noexcept {p : Prog CppException σ α} (h : Balanced p) : Balanced (noexcept p) :=
  Balanced.try_catch h fun _ => Balanced.halt _

/-- `pg_assert_noerror` restores the error state if it comes back. -/
theorem balanced_pg_assert_noerror {func : Prog CppException σ Unit} (hf : Balanced func)
    (hnt : NoThrow func) (context : Bytes) : Balanced (pg_assert_noerror func context) := by
  refine balanced_noexcept (Balanced.bind (Balanced.read _) fun old_context => ?_)
  refine Balanced.bind (balanced_pg_try_block ?_ ?_ ?_) fun _ => Balanced.pure _
  · exact Balanced.bind hf fun _ => Balanced.pure _
  · exact NoThrow.bind hnt fun _ => NoThrow.pure _
  · refine Recovers.bind (balanced_switch _) (NoThrow.write _) fun _ => ?_
    exact Recovers.bind balanced_copy noThrow_copy fun _ _ => trivial

/-! ## Runs in which nothing fails -/

/-- Where nothing fails, `pg_try` is not there. -/
theorem evals_pg_try {func : Prog CppException σ α} {u u' : σ} {a : α} (hf : Evals func u a u') :
    Evals (pg_try func) u a u' := by
  have hbody : Evals (pg_try_body func) u (.fall ⟨some a, none, none⟩) u' := by
    refine Evals.try_catch (Evals.bind hf ?_) _
    exact Evals.pure _ u'
  intro m hm hu
  show ∃ m', (pg_try_block (pg_try_body func) (pg_try_handler m.memory_context) >>= pg_try_finish) m
    = (.ret a, m') ∧ _
  exact Evals.bind (Evals.pg_try_block hbody _) (Evals.pure a u') m hm hu

/-- Nor is `pg_assert_noerror`. -/
theorem evals_pg_assert_noerror {func : Prog CppException σ Unit} {u u' : σ}
    (hf : Evals func u () u') (context : Bytes) : Evals (pg_assert_noerror func context) u () u' := by
  refine Evals.try_catch (fun m hm hu => ?_) _
  have hbody : Evals (func >>= fun _ => pure (.fall ()) : Prog CppException σ (Leave Unit Empty)) u
      (.fall ()) u' := by
    refine Evals.bind hf ?_
    exact Evals.pure _ u'
  show ∃ m', (pg_try_block _ (pg_assert_noerror_handler context m.memory_context) >>= fun _ =>
    pure ()) m = (.ret (), m') ∧ _
  exact Evals.bind (Evals.pg_try_block hbody _) (Evals.pure () u') m hm hu

/-! ## Triples

Neither wrapper touches the user state, so a triple of the function inside carries over,
with what the function left behind when it jumped showing up as what the wrapper left
behind when it threw. -/

section Triple

variable {P : σ → Prop} {X Y : Exit → σ → Prop}

theorem triple_copy {R : σ → Prop} (hx : ∀ x u, R u → X x u) :
    Triple R CopyErrorData (fun _ => R) X := by
  refine Triple.bind (R := fun _ => R) ?_ fun _ => Triple.read fun _ _ h => h
  exact Triple.call (fun _ h => h) (hx _) (hx _)

theorem triple_pg_try_handler {R : σ → Prop} {Q : Leave (Locals α) Empty → σ → Prop}
    {old_context : MemoryContext} (hr : ∀ msg u, R u → Q (.fall ⟨none, some msg, none⟩) u)
    (hx : ∀ x u, R u → X x u) : Triple R (pg_try_handler old_context) Q X := by
  refine Triple.bind (R := fun _ => R) (Triple.write (fun _ => rfl) fun _ h => h) fun _ => ?_
  refine Triple.bind (triple_copy hx) fun message => ?_
  refine Triple.bind (R := fun _ => R) (Triple.write (fun _ => rfl) fun _ h => h) fun _ => ?_
  refine Triple.bind (R := fun _ => R) (Triple.alloc (fun _ h => h) (hx _)) fun _ => ?_
  exact Triple.pure fun u h => hr _ u h

/-- What the locals say about how the function ended. -/
def LocalsPost (Q : α → σ → Prop) (E : σ → Prop) : Leave (Locals α) Empty → σ → Prop
  | .fall ⟨some a, none, none⟩, u => Q a u
  | .fall ⟨none, none, none⟩, _ => False
  | .fall _, u => E u
  | .ret r, _ => r.elim

theorem triple_pg_try_finish {Q : α → σ → Prop} (l : Leave (Locals α) Empty) :
    Triple (LocalsPost Q (X .throw) l) (pg_try_finish l) Q X := by
  rcases l with ⟨_ | a, _ | msg, _ | e⟩ | r
  · exact fun _ h => absurd h id
  · exact Triple.throw fun _ h => h
  · exact Triple.throw fun _ h => h
  · exact Triple.throw fun _ h => h
  · exact Triple.pure fun _ h => h
  · exact Triple.throw fun _ h => h
  · exact Triple.throw fun _ h => h
  · exact Triple.throw fun _ h => h
  · exact r.elim

/-- A triple through `pg_try`. -/
theorem triple_pg_try {Q : α → σ → Prop} {func : Prog CppException σ α}
    (hf : Triple P func Q Y) (ht : ∀ u, Y .throw u → X .throw u)
    (hj : ∀ x u, Y .jump u → X x u) (hs : ∀ u, Y .stop u → X .stop u) :
    Triple P (pg_try func) Q X := by
  refine Triple.bind (R := fun _ => P) (Triple.read fun _ _ h => h) fun old_context => ?_
  refine Triple.bind (R := LocalsPost Q (X .throw)) ?_ triple_pg_try_finish
  refine Triple.pg_try_block (Y := Y) ?_ ?_ ?_
  · refine Triple.try_catch (Y := Y) ?_ (fun e => Triple.pure ht) (fun _ h => h) (fun _ h => h)
    exact Triple.bind hf fun a => Triple.pure fun _ h => h
  · exact triple_pg_try_handler (fun _ => hj .throw) hj
  · intro x u hu
    cases x with
    | throw => exact ht u hu
    | jump => exact hj .jump u hu
    | stop => exact hs u hu

theorem invariant_pg_try {I : σ → Prop} {func : Prog CppException σ α} (h : Invariant I func) :
    Invariant I (pg_try func) :=
  triple_pg_try h (fun _ h => h) (fun _ _ h => h) fun _ h => h

theorem preserves_pg_try {γ : Type} {f : σ → γ} {func : Prog CppException σ α}
    (h : Preserves f func) : Preserves f (pg_try func) :=
  fun c => invariant_pg_try (h c)

/-- A triple through `pg_assert_noerror`: it does not throw, and what it left behind when
it jumped is what the function did. -/
theorem triple_pg_assert_noerror {Q : Unit → σ → Prop} {func : Prog CppException σ Unit}
    {context : Bytes} (hf : Triple P func Q Y) (ht : ∀ u, Y .throw u → X .stop u)
    (hj : ∀ u, Y .jump u → X .jump u ∧ X .stop u) (hs : ∀ u, Y .stop u → X .stop u) :
    Triple P (pg_assert_noerror func context) Q X := by
  -- inside, an exception is still on its way to the `noexcept` boundary
  let X₁ : Exit → σ → Prop := fun x u =>
    match x with
    | .throw => X .stop u
    | .jump => X .jump u
    | .stop => X .stop u
  have hx₁ : ∀ x u, Y x u → X₁ x u := by
    intro x u hu
    cases x with
    | throw => exact ht u hu
    | jump => exact (hj u hu).1
    | stop => exact hs u hu
  have hjump : ∀ x u, Y .jump u → X₁ x u := by
    intro x u hu
    cases x with
    | throw => exact (hj u hu).2
    | jump => exact (hj u hu).1
    | stop => exact (hj u hu).2
  refine Triple.try_catch (Y := X₁) ?_ (fun e => Triple.halt fun _ h => h) (fun _ h => h)
    fun _ h => h
  refine Triple.bind (R := fun _ => P) (Triple.read fun _ _ h => h) fun old_context => ?_
  refine Triple.bind (R := fun _ => Q ()) ?_ fun _ => Triple.pure fun _ h => h
  refine Triple.pg_try_block (Y := Y) (Triple.bind hf fun _ => Triple.pure fun _ h => h) ?_ hx₁
  refine Triple.bind (R := fun _ => Y .jump) (Triple.write (fun _ => rfl) fun _ h => h) fun _ => ?_
  refine Triple.bind (triple_copy hjump) fun message => ?_
  refine Triple.bind (R := fun _ => Y .jump) (Triple.write (fun _ => rfl) fun _ h => h) fun _ => ?_
  exact Triple.halt (hjump .stop)

theorem invariant_pg_assert_noerror {I : σ → Prop} {func : Prog CppException σ Unit}
    {context : Bytes} (h : Invariant I func) : Invariant I (pg_assert_noerror func context) :=
  triple_pg_assert_noerror h (fun _ h => h) (fun _ h => ⟨h, h⟩) fun _ h => h

theorem framed_pg_try {γ : Type} {f : σ → γ} {func : Prog CppException σ α}
    (h : Framed f func) : Framed f (pg_try func) :=
  ⟨balanced_pg_try h.balanced, preserves_pg_try h.preserves⟩

theorem framed_pg_assert_noerror {γ : Type} {f : σ → γ} {func : Prog CppException σ Unit}
    (h : Framed f func) (hnt : NoThrow func) (context : Bytes) :
    Framed f (pg_assert_noerror func context) :=
  ⟨balanced_pg_assert_noerror h.balanced hnt context,
    fun c => invariant_pg_assert_noerror (h.preserves c)⟩

end Triple

end OidcValidator.PgUtils
