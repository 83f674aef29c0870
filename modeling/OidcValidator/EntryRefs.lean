/-
`EntryRefs.lean` -- `dshash::entry_ref`: who releases the lock of an entry.

`dshash_find` and `dshash_find_or_insert` return an entry with its partition locked, and
somebody has to call `dshash_release_lock` for it, once. The wrapper leaves that to an object:
an `entry_ref` that holds the entry releases it when it is destroyed or assigned to. On its
way out of `find` the entry passes through four of them, the last one being the caller's.

Here the objects are at addresses, and every construction, move, assignment and destruction
is a step of the program. The table is that of `Dshash.lean`, with whatever is in it and
whatever the oracle says about the requests. What `Ownership.lean` says about handles is then
what holds of these objects; the rest of the file shows that they keep its accounts, and that
the locks this process holds are those of the entries it owns. There is one exception: a
request that raises an `ERROR` with its lock taken returns no entry, and leaves the lock.

`Dshash.lean` has the same wrapper without objects, for the cache that holds one entry at a
time. [`find_eq`], [`find_or_insert_eq`] and [`destroy_eq`] say that there it does the same.

[`Lease`] and the log are not in the source. They tell apart the entries that two requests
return, when they are the same, and the program does not look at either.
-/
import OidcValidator.Bridge
import OidcValidator.Dshash
import OidcValidator.Ownership

set_option autoImplicit false

namespace OidcValidator.EntryRefs

open OidcValidator.ByteString OidcValidator.Control OidcValidator.PgUtils OidcValidator.Dshash
open OidcValidator.Ownership (Event outstanding Accounts Owns)

/-! ## Objects -/

/-- An entry that a request returned, with the number of the request. -/
structure Lease where
  entry : ℕ
  request : ℕ
  deriving DecidableEq

/-- `dshash::entry_ref`. `owner_` is the address of a `dshash` object. -/
structure EntryRef where
  owner_ : Option ℕ
  entry_ : Option Lease

/-- The objects of a process: whether the `table_` of the `dshash` object at an address is
set, the live `entry_ref`s and the next address for one. `log` is what was returned locked
and what was released, newest first, each with whether its lock was held. -/
structure Objects where
  attached : ℕ → Bool
  live : ℕ → Option EntryRef
  next : ℕ
  log : List (Event Lease × Bool)

/-- A new object. -/
def Objects.construct (o : Objects) (r : EntryRef) : Objects :=
  { o with live := Function.update o.live o.next (some r), next := o.next + 1 }

/-- The object at an address changes, or ends. -/
def Objects.set (o : Objects) (this : ℕ) (r : Option EntryRef) : Objects :=
  { o with live := Function.update o.live this r }

/-- One more event. -/
def Objects.record (o : Objects) (e : Event Lease) (was_held : Bool) : Objects :=
  { o with log := (e, was_held) :: o.log }

variable {Entry K : Type} [DecidableEq K]

/-- A backend with objects. -/
abbrev Process (Entry : Type) := Backend Entry Objects

/-- The log without the locks. -/
def events (u : Process Entry) : List (Event Lease) := u.rest.log.map Prod.fst

/-- The partition of an entry. -/
def partition_of (table : Table Entry) (l : Lease) : Option ℕ :=
  (table.deref l.entry).map Item.partition

/-- Whether the lock of an entry is held. -/
def lock_held (u : Process Entry) (l : Lease) : Bool :=
  (partition_of u.table l).any fun p => u.held.any fun lock => lock.1 = p

/-- A process with other objects. -/
def with_objects (f : Objects → Objects) (u : Process Entry) : Process Entry :=
  { u with rest := f u.rest }

/-- Log the entry that the newest request returned. -/
def lease (entry : ℕ) : Prog CppException (Process Entry) Lease := do
  let u ← get
  let l : Lease := ⟨entry, u.trace.length⟩
  modify (with_objects (·.record (.taken l) true))
  pure l

/-- A constructor has run. -/
def construct (r : EntryRef) : Prog CppException (Process Entry) ℕ := do
  let u ← get
  modify (with_objects (·.construct r))
  pure u.rest.next

/-- The object at an address. -/
def object (this : ℕ) : Prog CppException (Process Entry) EntryRef := do
  let u ← get
  match u.rest.live this with
  | some r => pure r
  | none => halt .undefined

/-- Write to an object, or end it. -/
def set_object (this : ℕ) (r : Option EntryRef) : Prog CppException (Process Entry) Unit :=
  modify (with_objects (·.set this r))

/-! ## The members of `entry_ref` -/

/-- `if (entry_ && owner_ && owner_->table_)` and what it guards, in the destructor and in the
assignment. -/
def release_entry (r : EntryRef) (context : Bytes) : Prog CppException (Process Entry) Unit :=
  match r.entry_, r.owner_ with
  | some l, some owner => do
      let u ← get
      if u.rest.attached owner then do
        modify (with_objects (·.record (.given_back l) (lock_held u l)))
        pg_assert_noerror (dshash_release_lock l.entry) context
      else pure ()
  | _, _ => pure ()

/-- `~entry_ref()`. -/
def destroy (this : ℕ) : Prog CppException (Process Entry) Unit := do
  let r ← object this
  release_entry r (bytes "entry_ref destructor")
  set_object this none

/-- `entry_ref(entry_ref&& other)`. -/
def move_construct (other : ℕ) : Prog CppException (Process Entry) ℕ := do
  let r ← object other
  let this ← construct ⟨r.owner_, r.entry_⟩
  set_object other (some { r with entry_ := none })
  pure this

/-- `operator=(entry_ref&& other)`. -/
def move_assign (this other : ℕ) : Prog CppException (Process Entry) Unit :=
  if this ≠ other then do
    let r ← object this
    release_entry r (bytes "entry_ref move assignment")
    let s ← object other
    set_object this (some ⟨s.owner_, s.entry_⟩)
    set_object other (some { s with entry_ := none })
  else pure ()

/-! ## Where they come from -/

/-- An object is moved into a new one and ends: a temporary, or the local of a `return`. -/
def hand_over (other : ℕ) : Prog CppException (Process Entry) ℕ := do
  let this ← move_construct other
  destroy other
  pure this

variable (T : EntryType Entry K) (waits : Waits) (dshash : ℕ)

/-- `entry_ref(this, entry)` in a `return` statement, moved into the value of the function. -/
def return_entry_ref (entry : ℕ) : Prog CppException (Process Entry) ℕ := do
  let l ← lease entry
  let temporary ← construct ⟨some dshash, some l⟩
  hand_over temporary

/-- `dshash::find`. `pg_try` moves the value of the function into its `result`, and
`*result` into its own value. -/
def find (k : K) (exclusive : Bool) : Prog CppException (Process Entry) (Option ℕ) := do
  let result ← pg_try do
    let entry ← dshash_find_with T waits k exclusive
    match entry with
    | none => pure none
    | some entry => do
        let value ← return_entry_ref dshash entry
        let result ← hand_over value
        pure (some result)
  match result with
  | none => pure none
  | some result => do
      let this ← hand_over result
      pure (some this)

/-- `dshash::find_or_insert`. -/
def find_or_insert (k : K) : Prog CppException (Process Entry) (ℕ × Bool) := do
  let (result, inserted) ← pg_try do
    let (entry, found) ← dshash_find_or_insert_with T waits k
    let value ← return_entry_ref dshash entry
    let result ← hand_over value
    pure (result, !found)
  let this ← hand_over result
  pure (this, inserted)

/-! ## Without the objects

`Dshash.lean` has an `entry_ref` as the address of its entry. The objects add to that nothing
but objects: what `find` does to the table, to the locks and to the error state is what the
`find` of that file does. -/

/-- An object that holds `r` has been moved into a new one and has ended. -/
def Objects.hand_over (o : Objects) (other : ℕ) (r : EntryRef) : Objects :=
  { o with live := Function.update (Function.update o.live o.next (some r)) other none
           next := o.next + 1 }

/-- An entry has been returned and is in `result`, behind two objects that have ended. -/
def in_result (entry : ℕ) (u : Process Entry) : Process Entry :=
  let r : EntryRef := ⟨some dshash, some ⟨entry, u.trace.length⟩⟩
  with_objects (fun o => (((o.record (.taken ⟨entry, u.trace.length⟩) true).construct r).hand_over
    o.next r).hand_over (o.next + 1) r) u

/-- The way of an entry from the request to the caller. -/
def arrive (entry : ℕ) : Prog CppException (Process Entry) ℕ := do
  let value ← return_entry_ref dshash entry
  let result ← hand_over value
  hand_over result

section Relation

variable {T waits dshash} {m : Machine CppException (Process Entry)}

theorem object_apply {this : ℕ} {r : EntryRef} (hthis : m.user.rest.live this = some r) :
    object this m = (.ret r, m) := by
  have hget : (get : Prog CppException (Process Entry) _) m = (.ret m.user, m) := rfl
  unfold object
  rw [bind_of_ret hget, hthis]
  rfl

theorem move_construct_apply {other : ℕ} {r : EntryRef} (hother : m.user.rest.live other = some r) :
    move_construct other m = (.ret m.user.rest.next, { m with
      user := with_objects (fun o => (o.construct r).set other (some { r with entry_ := none }))
        m.user }) := by
  unfold move_construct
  rw [bind_of_ret (object_apply hother)]
  rfl

/-- The end of an object that owns nothing releases nothing. -/
theorem destroy_apply {this : ℕ} {r : EntryRef} (hthis : m.user.rest.live this = some r)
    (hr : r.entry_ = none) :
    destroy this m = (.ret (), { m with user := with_objects (·.set this none) m.user }) := by
  unfold destroy release_entry
  rw [bind_of_ret (object_apply hthis), hr]
  rfl

theorem hand_over_apply {other : ℕ} {r : EntryRef} (hother : m.user.rest.live other = some r) :
    hand_over other m = (.ret m.user.rest.next,
      { m with user := with_objects (·.hand_over other r) m.user }) := by
  have hlive : ((m.user.rest.construct r).set other (some { r with entry_ := none })).set
      other none = m.user.rest.hand_over other r := by
    unfold Objects.set Objects.construct Objects.hand_over
    rw [Function.update_idem]
  unfold hand_over
  rw [bind_of_ret (move_construct_apply hother),
    bind_of_ret (destroy_apply (Function.update_self _ _ _) rfl)]
  exact congrArg (fun o => (Outcome.ret m.user.rest.next,
    { m with user := { m.user with rest := o } })) hlive

/-- The new object holds what was handed over. -/
theorem Objects.live_hand_over {o : Objects} {other : ℕ} (r : EntryRef) (hne : o.next ≠ other) :
    (o.hand_over other r).live o.next = some r := by
  show Function.update (Function.update o.live o.next (some r)) other none o.next = some r
  rw [Function.update_of_ne hne, Function.update_self]

/-- Inside `pg_try`: the entry has come to `result`. -/
theorem return_apply (entry : ℕ) :
    (return_entry_ref dshash entry >>= hand_over) m = (.ret (m.user.rest.next + 2),
      { m with user := in_result dshash entry m.user }) := by
  generalize hr : (⟨some dshash, some ⟨entry, m.user.trace.length⟩⟩ : EntryRef) = r
  generalize ho : m.user.rest.record (.taken ⟨entry, m.user.trace.length⟩) true = o
  have hnext : o.next = m.user.rest.next := by rw [← ho]; rfl
  have hvalue : return_entry_ref dshash entry m = (.ret (o.next + 1), { m with
      user := with_objects (fun _ => (o.construct r).hand_over o.next r) m.user }) := by
    rw [← ho, ← hr]
    exact hand_over_apply (Function.update_self _ _ _)
  have hresult : ((o.construct r).hand_over o.next r).live (o.next + 1) = some r :=
    Objects.live_hand_over (o := o.construct r) r (by simp [Objects.construct])
  refine (bind_of_ret hvalue).trans ((hand_over_apply hresult).trans ?_)
  unfold in_result
  rw [hr, ← hnext, ← ho]
  rfl

/-- The object that arrives owns the entry, and apart from objects nothing has changed. -/
theorem arrive_owns (entry : ℕ) (m : Machine CppException (Process Entry)) :
    ∃ this o, arrive dshash entry m = (.ret this, { m with user := { m.user with rest := o } }) ∧
      o.live this = some ⟨some dshash, some ⟨entry, m.user.trace.length⟩⟩ := by
  generalize hr : (⟨some dshash, some ⟨entry, m.user.trace.length⟩⟩ : EntryRef) = r
  have hresult : (in_result dshash entry m.user).rest.live (m.user.rest.next + 2) = some r := by
    rw [← hr]
    exact Objects.live_hand_over (o := ((m.user.rest.record _ true).construct _).hand_over
      m.user.rest.next _) _ (Nat.succ_ne_self _)
  refine ⟨m.user.rest.next + 3,
    (in_result dshash entry m.user).rest.hand_over (m.user.rest.next + 2) r, ?_, ?_⟩
  · unfold arrive
    rw [← bind_assoc]
    exact (bind_of_ret (return_apply entry)).trans (hand_over_apply hresult)
  · exact Objects.live_hand_over (o := (in_result dshash entry m.user).rest) r (Nat.succ_ne_self _)

variable (T dshash)

/-- **`find` is the `find` of `Dshash.lean`, and then objects.** -/
theorem find_eq (k : K) (exclusive : Bool) :
    find T waits_for_own dshash k exclusive = Dshash.find T k exclusive >>= fun entry =>
      entry.elim (pure none) fun entry => some <$> arrive dshash entry := by
  unfold find
  refine (congrArg (· >>= _) (Bridge.pg_try_bind (g := fun entry u => entry.elim (none, u)
    fun entry => (some (u.rest.next + 2), in_result dshash entry u)) ?_)).trans ?_
  · -- inside `pg_try` there is nothing behind the request that could fail
    rintro (_ | entry) m
    · rfl
    · show ((return_entry_ref dshash entry >>= fun value => hand_over value >>= fun result =>
        pure (some result)) : Prog CppException (Process Entry) (Option ℕ)) m = _
      rw [← bind_assoc]
      exact bind_of_ret (return_apply entry)
  · rw [bind_assoc]
    refine congrArg (Dshash.find T k exclusive >>= ·) (funext fun entry => ?_)
    rcases entry with _ | entry
    · rfl
    · unfold arrive
      simp [bind_assoc]

/-- **`find_or_insert` is that of `Dshash.lean`, and then objects.** -/
theorem find_or_insert_eq (k : K) :
    find_or_insert T waits_for_own dshash k = Dshash.find_or_insert T k >>= fun r =>
      arrive dshash r.1 >>= fun this => pure (this, r.2) := by
  have hbody : (dshash_find_or_insert_with T waits_for_own k >>= fun r =>
      return_entry_ref dshash r.1 >>= fun value => hand_over value >>= fun result =>
        pure (result, !r.2))
      = (dshash_find_or_insert T k >>= fun r => pure (r.1, !r.2)) >>= fun r =>
        (return_entry_ref dshash r.1 >>= hand_over) >>= fun result => pure (result, r.2) := by
    rw [dshash_find_or_insert_eq]
    simp only [bind_assoc, pure_bind]
  -- the two moves inside `pg_try` cannot fail, so they may as well be made outside
  have hin (r : ℕ × Bool) (m : Machine CppException (Process Entry)) :
      ((return_entry_ref dshash r.1 >>= hand_over) >>= fun result => pure (result, r.2)) m
        = (.ret (m.user.rest.next + 2, r.2), { m with user := in_result dshash r.1 m.user }) :=
    bind_of_ret (return_apply r.1)
  show PgUtils.pg_try (dshash_find_or_insert_with T waits_for_own k >>= fun r =>
      return_entry_ref dshash r.1 >>= fun value => hand_over value >>= fun result =>
        pure (result, !r.2)) >>= (fun r => hand_over r.1 >>= fun this => pure (this, r.2)) = _
  rw [hbody, Bridge.pg_try_bind (g := fun r u => ((u.rest.next + 2, r.2), in_result dshash r.1 u)) hin,
    bind_assoc]
  refine congrArg (Dshash.find_or_insert T k >>= ·) (funext fun r => ?_)
  unfold arrive
  simp only [bind_assoc, pure_bind]

omit [DecidableEq K] in
/-- **The destructor is that of `Dshash.lean`**, for an object that owns an entry. -/
theorem destroy_eq {this : ℕ} {l : Lease} {m : Machine CppException (Process Entry)}
    (hthis : m.user.rest.live this = some ⟨some dshash, some l⟩)
    (hattached : m.user.rest.attached dshash = true) :
    destroy this m = (entry_ref_destructor l.entry >>= fun _ => set_object this none)
      { m with user := with_objects (·.record (.given_back l) (lock_held m.user l)) m.user } := by
  have hget : (get : Prog CppException (Process Entry) _) m = (.ret m.user, m) := rfl
  unfold destroy release_entry
  rw [bind_of_ret (object_apply hthis)]
  simp only [bind_assoc]
  rw [bind_of_ret hget, if_pos hattached]
  rfl

end Relation

/-! ## Runs -/

/-- What a program does with `entry_ref`s, and what the other backends do to the table. -/
inductive Operation (Entry K : Type) where
  | find (k : K) (exclusive : Bool)
  | find_or_insert (k : K)
  | move_construct (other : ℕ)
  | move_assign (this other : ℕ)
  | destroy (this : ℕ)
  | others (table : Table Entry)

/-- The table changes, but not the places of the entries that this process has locked. -/
def others (table : Table Entry) : Prog CppException (Process Entry) Unit := do
  let u ← get
  if ∀ l ∈ outstanding (events u), partition_of table l = partition_of u.table l then
    modify fun u => { u with table := table }
  else pure ()

/-- An operation as a program. Its operands are live objects. -/
def perform : Operation Entry K → Prog CppException (Process Entry) Unit
  | .find k exclusive => do let _ ← find T waits dshash k exclusive; pure ()
  | .find_or_insert k => do let _ ← find_or_insert T waits dshash k; pure ()
  | .move_construct other => do let _ ← move_construct other; pure ()
  | .move_assign this other => do
      let _ ← object this
      let _ ← object other
      move_assign this other
  | .destroy this => destroy this
  | .others table => others table

/-- The machine after a list of operations. An operation that throws is caught and the next
one follows; an operation on an object that is not there is not allowed, and ends the run. -/
def run : List (Operation Entry K) → Machine CppException (Process Entry) →
    Machine CppException (Process Entry)
  | [], m => m
  | a :: as, m =>
      match perform T waits dshash a m with
      | (.ret _, m') => run as m'
      | (.throw _, m') => run as m'
      | (_, m') => m'

/-! ## Accounts of this process -/

/-- What each object owns. -/
def handles (live : ℕ → Option EntryRef) : ℕ → Option (Option Lease) :=
  fun a => (live a).map EntryRef.entry_

theorem handles_update (live : ℕ → Option EntryRef) (a : ℕ) (r : Option EntryRef) :
    handles (Function.update live a r)
      = Function.update (handles live) a (r.map EntryRef.entry_) := by
  funext b
  by_cases hb : b = a
  · subst hb
    simp [handles]
  · simp [handles, hb]

/-- A live object is the one that has changed, or was there. -/
theorem of_update {live : ℕ → Option EntryRef} {a b : ℕ} {x : Option EntryRef} {r : EntryRef}
    (h : Function.update live a x b = some r) : x = some r ∨ live b = some r := by
  rw [Function.update_apply] at h
  split_ifs at h
  · exact .inl h
  · exact .inr h

/-- Whether a request that fails so leaves its lock behind. -/
def leaves_lock : Failure → Bool
  | .after _ => true
  | _ => false

/-- The requests that failed with their lock taken. -/
def stranded (u : Process Entry) : ℕ :=
  (List.range u.trace.length).countP fun n => leaves_lock (u.failures n)

/-- The objects `live` keep the accounts. The entries they own have their locks, which are the
locks of this process, but for those of requests that failed. -/
structure Ledger (live : ℕ → Option EntryRef) (u : Process Entry) : Prop where
  accounts : Accounts (handles live) (events u)
  was_held : ∀ e ∈ u.rest.log, e.2 = true
  numbered : ∀ l, .taken l ∈ events u → l.request ≤ u.trace.length
  room : ∀ a, u.rest.next ≤ a → live a = none
  owner : ∀ a r, live a = some r → r.owner_ = some dshash
  attached : u.rest.attached dshash = true
  locks : ∃ left : List ℕ, left.length ≤ stranded u ∧
    (u.held.map fun lock => some lock.1).Perm
      ((outstanding (events u)).map (partition_of u.table) ++ left.map some)

/-- The live objects keep the accounts. -/
def Sound (u : Process Entry) : Prop := Ledger dshash u.rest.live u

variable {dshash} {live : ℕ → Option EntryRef} {u v : Process Entry}

theorem stranded_asked (u : Process Entry) (r : Request) :
    stranded (u.asked r) = stranded u + if leaves_lock (u.failures u.trace.length) then 1 else 0 := by
  unfold stranded Backend.asked
  rw [List.length_cons, List.range_succ, List.countP_append, List.countP_singleton]

/-- A request does nothing to the objects. -/
theorem Ledger.asked (h : Ledger dshash live u) (r : Request) :
    Ledger dshash live (u.asked r) where
  accounts := h.accounts
  was_held := h.was_held
  numbered l hl := (h.numbered l hl).trans (Nat.le_succ _)
  room := h.room
  owner := h.owner
  attached := h.attached
  locks := by
    obtain ⟨left, hleft, hperm⟩ := h.locks
    refine ⟨left, hleft.trans ?_, hperm⟩
    rw [stranded_asked]
    exact Nat.le_add_right _ _

/-- Nor does one that fails, though its lock may be left. -/
theorem Sound.refused {r : Request} {partition : ℕ} {mode : Mode} (h : Sound dshash u)
    (hv : Refused r partition mode u v) : Sound dshash v := by
  have hasked := Ledger.asked h r
  rcases hv with rfl | ⟨⟨msg, hmsg⟩, rfl⟩
  · exact hasked
  · obtain ⟨left, hleft, hperm⟩ := h.locks
    refine { hasked with locks := ⟨partition :: left, ?_, ?_⟩ }
    · show left.length + 1 ≤ stranded (u.asked r)
      rw [stranded_asked, hmsg]
      exact Nat.succ_le_succ hleft
    · exact (hperm.cons _).trans List.perm_middle.symm

/-- The entries that are owned are in the table, and their locks are held. -/
theorem Ledger.owned_locked (h : Ledger dshash live u) {l : Lease}
    (hl : l ∈ outstanding (events u)) :
    ∃ i, u.table.deref l.entry = some i ∧ u.held.any fun lock => lock.1 = i.partition := by
  obtain ⟨left, -, hperm⟩ := h.locks
  have hmem : partition_of u.table l ∈ u.held.map fun lock => some lock.1 :=
    hperm.mem_iff.mpr (List.mem_append_left _ (List.mem_map_of_mem hl))
  obtain ⟨lock, hlock, heq⟩ := List.mem_map.mp hmem
  obtain ⟨i, hi, hpart⟩ := Option.map_eq_some_iff.mp heq.symm
  exact ⟨i, hi, List.any_eq_true.mpr ⟨lock, hlock, by simpa using hpart.symm⟩⟩

/-- What a request leaves behind that returns `entry`: its lock, and the other entries. -/
def Returned (entry : ℕ) (u v : Process Entry) : Prop :=
  ∃ r partition mode table, v = { (u.asked r).locked partition mode with table := table } ∧
    (table.deref entry).map Item.partition = some partition ∧
    ∀ a i, u.table.deref a = some i → table.deref a = some i

/-- The entry that is returned gets a new owner. -/
theorem Sound.returned {entry : ℕ} (h : Sound dshash u) (hv : Returned entry u v) :
    Sound dshash (with_objects (fun o => (o.record (.taken ⟨entry, v.trace.length⟩) true).construct
      ⟨some dshash, some ⟨entry, v.trace.length⟩⟩) v) := by
  obtain ⟨r, partition, mode, table, rfl, hentry, hsame⟩ := hv
  have hnew : (.taken ⟨entry, u.trace.length + 1⟩ : Event Lease) ∉ events u := fun hmem =>
    absurd (h.numbered _ hmem) (Nat.not_succ_le_self _)
  have hfree : handles u.rest.live u.rest.next = none := by
    unfold handles
    rw [h.room _ le_rfl, Option.map_none]
  refine ⟨?_, ?_, ?_, ?_, ?_, h.attached, ?_⟩
  · show Accounts (handles (Function.update u.rest.live u.rest.next _)) (_ :: events u)
    rw [handles_update]
    exact h.accounts.take hfree hnew
  · exact List.forall_mem_cons.mpr ⟨rfl, h.was_held⟩
  · intro l hl
    rcases List.mem_cons.mp hl with heq | hl
    · obtain rfl := Event.taken.inj heq
      exact le_rfl
    · exact (h.numbered l hl).trans (Nat.le_succ _)
  · intro a ha
    have hlt : u.rest.next < a := ha
    exact (Function.update_of_ne hlt.ne' _ _).trans (h.room a hlt.le)
  · intro a r' ha
    rcases of_update ha with heq | ha
    · rw [← Option.some.inj heq]
    · exact h.owner a r' ha
  · obtain ⟨left, hleft, hperm⟩ := h.locks
    -- the entries that were owned are where they were
    have hmap : (outstanding (events u)).map (partition_of u.table)
        = (outstanding (events u)).map (partition_of table) := by
      refine List.map_congr_left fun l hl => ?_
      obtain ⟨i, hi, -⟩ := h.owned_locked hl
      rw [partition_of, partition_of, hi, hsame _ _ hi]
    refine ⟨left, hleft.trans ?_, ?_⟩
    · show stranded u ≤ stranded (u.asked r)
      rw [stranded_asked]
      exact Nat.le_add_right _ _
    · rw [hmap] at hperm
      refine List.Perm.trans (hperm.cons (some partition)) ?_
      rw [← hentry]
      exact List.Perm.refl _

/-- What `other` owns moves to `this`, a new object or one that owns nothing any more. -/
theorem Ledger.move {w : Process Entry} {this other n : ℕ} {s : EntryRef}
    (h : Ledger dshash live u) (hne : this ≠ other) (hthis : ∀ l, ¬Owns (handles live) this l)
    (hother : live other = some s) (hnext : u.rest.next ≤ n) (hlt : this < n)
    (hw : w = with_objects (fun o => { o with
      live := Function.update (Function.update live this (some s)) other
        (some { s with entry_ := none })
      next := n }) u) : Sound dshash w := by
  subst hw
  have hroom (a : ℕ) (ha : n ≤ a) : live a = none := h.room a (hnext.trans ha)
  have howner : s.owner_ = some dshash := h.owner other s hother
  refine ⟨?_, h.was_held, h.numbered, fun a ha => ?_, fun a r ha => ?_, h.attached, h.locks⟩
  · show Accounts (handles (Function.update (Function.update live this (some s)) other _)) (events u)
    rw [handles_update, handles_update]
    exact h.accounts.move hne hthis (by rw [handles, hother, Option.map_some])
  · -- addresses from `n` on are free
    have hathis : a ≠ this := (hlt.trans_le ha).ne'
    have haother : a ≠ other := by
      rintro rfl
      exact absurd (hother.symm.trans (hroom _ ha)) (by simp)
    refine (Function.update_of_ne haother _ _).trans ?_
    rw [Function.update_of_ne hathis, hroom a ha]
  · rcases of_update ha with heq | ha
    · rw [← Option.some.inj heq]
      exact howner
    · rcases of_update ha with heq | ha
      · rw [← Option.some.inj heq]
        exact howner
      · exact h.owner a r ha

/-- An object that owns nothing ends. -/
theorem Ledger.end_idle {this : ℕ} (h : Ledger dshash live u)
    (hthis : ∀ l, ¬Owns (handles live) this l) :
    Ledger dshash (Function.update live this none) u := by
  refine ⟨?_, h.was_held, h.numbered, fun a ha => ?_, fun a r ha => ?_, h.attached, h.locks⟩
  · rw [handles_update]
    exact h.accounts.idle hthis (by simp)
  · rw [Function.update_apply]
    split_ifs
    · rfl
    · exact h.room a ha
  · rcases of_update ha with heq | ha
    · exact absurd heq (by simp)
    · exact h.owner a r ha

/-- An object gives back what it owns and ends. -/
theorem Ledger.give_back {this : ℕ} {r : EntryRef} {l : Lease} (h : Ledger dshash live u)
    (hthis : live this = some r) (hl : r.entry_ = some l) {i : Item Entry}
    (hi : u.table.deref l.entry = some i) (hlocked : u.held.any fun lock => lock.1 = i.partition) :
    Ledger dshash (Function.update live this none) (with_objects (·.record (.given_back l) true)
      { u with held := u.held.eraseP fun lock => lock.1 = i.partition }) := by
  have howns : Owns (handles live) this l := by rw [Owns, handles, hthis, Option.map_some, hl]
  have hout : l ∈ outstanding (events u) := (h.accounts.owned l).mpr ⟨this, howns⟩
  refine ⟨?_, List.forall_mem_cons.mpr ⟨rfl, h.was_held⟩, fun k hk => ?_, fun a ha => ?_,
    fun a r ha => ?_, h.attached, ?_⟩
  · rw [handles_update]
    exact h.accounts.give_back howns
  · exact h.numbered k ((List.mem_cons.mp hk).resolve_left (by simp))
  · rw [Function.update_apply]
    split_ifs
    · rfl
    · exact h.room a ha
  · rcases of_update ha with heq | ha
    · exact absurd heq (by simp)
    · exact h.owner a r ha
  · obtain ⟨left, hleft, hperm⟩ := h.locks
    obtain ⟨_, hmem, hp⟩ := List.any_eq_true.mp hlocked
    obtain ⟨lock, before, behind, -, hpart, hheld, herase⟩ :=
      List.exists_of_eraseP (p := fun lock => lock.1 = i.partition) hmem hp
    refine ⟨left, hleft, ?_⟩
    -- the lock and the entry go from the two sides
    have hlocks : (u.held.map fun lock => some lock.1).Perm
        (some i.partition :: (u.held.eraseP fun lock => lock.1 = i.partition).map
          fun lock => some lock.1) := by
      rw [herase, hheld, ← of_decide_eq_true hpart]
      exact List.perm_middle.map fun lock : ℕ × Mode => some lock.1
    have hleases : ((outstanding (events u)).map (partition_of u.table)).Perm
        (some i.partition :: ((outstanding (events u)).erase l).map (partition_of u.table)) := by
      have hcons := (List.perm_cons_erase hout).map (partition_of u.table)
      rwa [List.map_cons, partition_of, hi, Option.map_some] at hcons
    exact (hlocks.symm.trans (hperm.trans (hleases.append_right _))).cons_inv

/-! ## The members keep the accounts -/

variable {X : Exit → Process Entry → Prop}

theorem triple_object (this : ℕ) (u : Process Entry) :
    Triple (fun v => v = u) (object this) (fun r v => v = u ∧ u.rest.live this = some r)
      (fun _ v => v = u ∧ u.rest.live this = none) := by
  refine Triple.get_bind ?_
  rintro u rfl
  rcases hthis : u.rest.live this with _ | r
  · exact Triple.halt fun _ h => ⟨h, rfl⟩
  · exact Triple.pure fun _ h => ⟨h, rfl⟩

theorem triple_construct (r : EntryRef) (u : Process Entry) :
    Triple (fun v => v = u) (construct r)
      (fun this v => this = u.rest.next ∧ v = with_objects (·.construct r) u) X := by
  refine Triple.get_bind ?_
  rintro u rfl
  refine Triple.modify_bind (R := fun v => v = with_objects (·.construct r) u) ?_ ?_
  · rintro u rfl
    rfl
  · exact Triple.pure fun v hv => ⟨rfl, hv⟩

theorem triple_object_of_live {this : ℕ} {r : EntryRef} (hthis : u.rest.live this = some r) :
    Triple (fun v => v = u) (object this) (fun r' v => v = u ∧ r' = r) X := by
  refine (triple_object this u).consequence (fun _ h => h) ?_ ?_
  · rintro r' v ⟨hv, hr⟩
    exact ⟨hv, Option.some.inj (hr.symm.trans hthis)⟩
  · rintro x v ⟨-, hnone⟩
    exact absurd (hthis.symm.trans hnone) (by simp)

/-- What an object owns is released, which cannot fail. -/
theorem triple_release_entry {this : ℕ} {r : EntryRef} (h : Sound dshash u)
    (hthis : u.rest.live this = some r) (context : Bytes) :
    Triple (fun v => v = u) (release_entry r context)
      (fun _ v => Ledger dshash (Function.update u.rest.live this none) v ∧
        v.rest.live = u.rest.live ∧ v.rest.next = u.rest.next) X := by
  unfold release_entry
  rw [h.owner this r hthis]
  rcases hentry : r.entry_ with _ | l
  · have hidle (l : Lease) : ¬Owns (handles u.rest.live) this l := by
      simp [Owns, handles, hthis, hentry]
    refine Triple.pure ?_
    rintro u rfl
    exact ⟨h.end_idle hidle, rfl, rfl⟩
  · have howns : Owns (handles u.rest.live) this l := by
      rw [Owns, handles, hthis, Option.map_some, hentry]
    -- the lock is held, so `LWLockRelease` has something to release
    obtain ⟨i, hi, hlocked⟩ := h.owned_locked ((h.accounts.owned l).mpr ⟨this, howns⟩)
    have hheld : lock_held u l = true := by
      unfold lock_held partition_of
      rw [hi]
      exact hlocked
    refine Triple.get_bind ?_
    rintro u rfl
    refine Triple.ite (fun _ => ?_) fun hdetached => absurd h.attached hdetached
    refine Triple.modify_bind
      (R := fun v => v = with_objects (·.record (.given_back l) true) u) ?_ ?_
    · rintro u rfl
      rw [hheld]
    refine triple_pg_assert_noerror (Y := fun _ _ => False) ?_ (fun _ h => absurd h id)
      (fun _ h => absurd h id) fun _ h => absurd h id
    refine Triple.get_bind ?_
    rintro v rfl
    have hfound : (with_objects (·.record (.given_back l) true) u).table.deref l.entry = some i := hi
    rw [hfound]
    refine (triple_release_held (u := with_objects (·.record (.given_back l) true) u)
      hlocked).consequence (fun _ h => h) ?_ fun _ _ h => h
    rintro - v rfl
    exact ⟨h.give_back hthis hentry hi hlocked, rfl, rfl⟩

/-- `~entry_ref()`. -/
theorem triple_destroy (this : ℕ) (h : Sound dshash u) :
    Triple (fun v => v = u) (destroy this)
      (fun _ v => Sound dshash v ∧ v.rest.live = Function.update u.rest.live this none)
      (fun _ v => v = u ∧ u.rest.live this = none) := by
  refine Triple.bind (triple_object this u) fun r => ?_
  rintro m ⟨hm, hthis⟩
  refine Triple.bind (triple_release_entry h hthis _) (fun _ => Triple.modify ?_) m hm
  rintro v ⟨hledger, hlive, -⟩
  rw [← hlive] at hledger ⊢
  exact ⟨⟨hledger.accounts, hledger.was_held, hledger.numbered, hledger.room, hledger.owner,
    hledger.attached, hledger.locks⟩, rfl⟩

/-- `entry_ref(entry_ref&& other)`. -/
theorem triple_move_construct (other : ℕ) (h : Sound dshash u) :
    Triple (fun v => v = u) (move_construct other)
      (fun this v => Sound dshash v ∧ this ≠ other ∧ v.rest.live this = u.rest.live other ∧
        v.rest.live other ≠ none)
      (fun _ v => v = u ∧ u.rest.live other = none) := by
  refine Triple.bind (triple_object other u) fun s => ?_
  rintro m ⟨hm, hother⟩
  have hne : u.rest.next ≠ other := by
    rintro rfl
    exact absurd (hother.symm.trans (h.room _ le_rfl)) (by simp)
  have hidle (l : Lease) : ¬Owns (handles u.rest.live) u.rest.next l := by
    simp [Owns, handles, h.room _ le_rfl]
  -- between the two writes both objects hold the entry; what counts is what is there after them
  have hlive : Function.update (Function.update u.rest.live u.rest.next (some s)) other
      (some { s with entry_ := none }) u.rest.next = u.rest.live other := by
    rw [Function.update_of_ne hne, Function.update_self, hother]
  refine Triple.bind (triple_construct s u) (fun this => ?_) m hm
  rintro m' ⟨rfl, hm'⟩
  have hset : Triple (fun v => v = with_objects (·.construct s) u)
      (set_object other (some { s with entry_ := none }))
      (fun _ v => Sound dshash v ∧ u.rest.next ≠ other ∧
        v.rest.live u.rest.next = u.rest.live other ∧ v.rest.live other ≠ none)
      (fun _ v => v = u ∧ u.rest.live other = none) := by
    refine Triple.modify ?_
    rintro v rfl
    have hmoved : Function.update (Function.update u.rest.live u.rest.next (some s)) other
        (some { s with entry_ := none }) other ≠ none := by
      rw [Function.update_self]
      simp
    exact ⟨h.move hne hidle hother (Nat.le_succ _) (Nat.lt_succ_self _) rfl, hne, hlive, hmoved⟩
  exact Triple.bind hset (fun _ => Triple.pure fun v hv => hv) m' hm'

/-- `operator=(entry_ref&& other)`. -/
theorem triple_move_assign {this other : ℕ} {r s : EntryRef} (h : Sound dshash u)
    (hthis : u.rest.live this = some r) (hother : u.rest.live other = some s) :
    Triple (fun v => v = u) (move_assign this other) (fun _ => Sound dshash) X := by
  refine Triple.ite (fun hne => ?_) fun _ => Triple.pure fun v hv => hv ▸ h
  have hlt : this < u.rest.next := by
    refine lt_of_not_ge fun hge => ?_
    exact absurd (hthis.symm.trans (h.room this hge)) (by simp)
  refine Triple.bind (triple_object_of_live hthis) fun r' => ?_
  rintro m ⟨hm, rfl⟩
  refine Triple.bind (triple_release_entry h hthis _) (fun _ => Triple.of_states ?_) m hm
  -- the old entry is gone, and the new one moves in
  rintro v ⟨hledger, hlive, hnext⟩
  refine Triple.bind (triple_object_of_live (r := s) (by rw [hlive, hother])) fun s' => ?_
  have hset : Triple (fun w => w = v ∧ s' = s)
      (set_object this (some ⟨s'.owner_, s'.entry_⟩))
      (fun _ w => w = with_objects (·.set this (some s)) v ∧ s' = s) X := by
    refine Triple.modify ?_
    rintro w ⟨rfl, rfl⟩
    exact ⟨rfl, rfl⟩
  refine Triple.bind hset fun _ => Triple.modify ?_
  rintro w ⟨rfl, rfl⟩
  refine hledger.move (s := s') (n := v.rest.next) hne ?_ ?_ le_rfl (hnext ▸ hlt) ?_
  · intro l
    rw [handles_update]
    simp [Owns]
  · rw [Function.update_of_ne hne.symm, hother]
  · rw [Function.update_idem, ← hlive]
    rfl

/-- The accounts are kept and the object at `this` owns an entry. -/
def Holds (dshash this : ℕ) (u : Process Entry) : Prop :=
  Sound dshash u ∧ ∃ l, u.rest.live this = some ⟨some dshash, some l⟩

/-- An entry that is handed over arrives. -/
theorem triple_hand_over (other : ℕ) :
    Triple (Holds dshash other) (hand_over other) (fun this => Holds dshash this) X := by
  refine Triple.of_states ?_
  rintro u ⟨h, l, hother⟩
  have hmove : Triple (fun v => v = u) (move_construct other)
      (fun this v => Holds dshash this v ∧ this ≠ other ∧ v.rest.live other ≠ none) X := by
    refine (triple_move_construct other h).consequence (fun _ h => h) ?_ ?_
    · rintro this v ⟨hv, hne, hthis, hmoved⟩
      exact ⟨⟨hv, l, hthis.trans hother⟩, hne, hmoved⟩
    · rintro x v ⟨-, hnone⟩
      exact absurd (hother.symm.trans hnone) (by simp)
  refine Triple.bind hmove fun this => Triple.of_states ?_
  rintro v ⟨⟨hv, k, hthis⟩, hne, hmoved⟩
  refine Triple.bind (R := fun _ => Holds dshash this) ?_ fun _ => Triple.pure fun _ h => h
  refine (triple_destroy other hv).consequence (fun _ h => h) ?_ fun _ _ h => absurd h.2 hmoved
  rintro - w ⟨hw, hlive⟩
  refine ⟨hw, k, ?_⟩
  rw [hlive, Function.update_of_ne hne, hthis]

/-! ## The entries that are returned -/

/-- The entry gets its owner. -/
theorem triple_return_entry_ref {entry : ℕ} (h : Sound dshash u) :
    Triple (Returned entry u) (return_entry_ref dshash entry) (fun this => Holds dshash this) X := by
  refine Triple.of_states fun v hv => ?_
  have hlease : Triple (fun w => w = v) (lease entry)
      (fun l w => l = ⟨entry, v.trace.length⟩ ∧ w = with_objects (·.record (.taken l) true) v) X := by
    refine Triple.get_bind ?_
    rintro v rfl
    refine Triple.bind (Triple.modify (Q := fun _ w =>
      w = with_objects (·.record (.taken ⟨entry, v.trace.length⟩) true) v) ?_) fun _ => ?_
    · rintro v rfl
      rfl
    · exact Triple.pure fun w hw => ⟨rfl, hw⟩
  refine Triple.bind hlease fun l => Triple.of_states ?_
  rintro w ⟨rfl, rfl⟩
  refine Triple.bind (triple_construct _ _) fun temporary => ?_
  refine (triple_hand_over temporary).consequence ?_ (fun _ _ h => h) fun _ _ h => h
  rintro w ⟨rfl, rfl⟩
  exact ⟨h.returned hv, _, Function.update_self _ _ _⟩

variable (T : EntryType Entry K) (waits : Waits) (dshash)

theorem triple_dshash_find_sound (k : K) (exclusive : Bool) (h : Sound dshash u) :
    Triple (fun v => v = u) (dshash_find_with T waits k exclusive)
      (fun r v => r.elim (Sound dshash v) fun entry => Returned entry u v)
      (fun _ => Sound dshash) := by
  refine (triple_dshash_find_with T k exclusive u).consequence (fun _ h => h) ?_
    fun _ _ hv => h.refused hv
  rintro _ v ⟨-, ⟨rfl, -, rfl⟩ | ⟨i, rfl, hfind, rfl⟩⟩
  · exact Ledger.asked h _
  · refine ⟨_, _, _, u.table, rfl, ?_, fun _ _ h => h⟩
    rw [Table.deref_of_find T hfind, Option.map_some, Table.partition_of_find T hfind]

theorem triple_dshash_find_or_insert_sound (k : K) (h : Sound dshash u) :
    Triple (fun v => v = u) (dshash_find_or_insert_with T waits k)
      (fun r => Returned r.1 u) (fun _ => Sound dshash) := by
  refine (triple_dshash_find_or_insert_with T k u).consequence (fun _ h => h) ?_
    fun _ _ hv => h.refused hv
  rintro _ v ⟨-, ⟨i, rfl, hfind, rfl⟩ | ⟨rfl, hfind, rfl⟩⟩
  · refine ⟨_, _, _, u.table, rfl, ?_, fun _ _ h => h⟩
    rw [Table.deref_of_find T hfind, Option.map_some, Table.partition_of_find T hfind]
  · refine ⟨_, _, _, u.table.insert T k u.memory, rfl, ?_, fun _ _ h => ?_⟩
    · rw [Table.deref_insert, Option.map_some]
    · exact Table.deref_insert_of_deref T h k u.memory

/-- An entry that `dshash::find` returns is owned by the object it returns. -/
theorem triple_find (k : K) (exclusive : Bool) :
    Triple (Sound dshash) (find T waits dshash k exclusive)
      (fun r v => r.elim (Sound dshash v) fun this => Holds dshash this v)
      (fun _ => Sound dshash) := by
  refine Triple.bind (R := fun r v =>
    r.elim (Sound dshash v) fun this => Holds dshash this v) ?_ fun r => ?_
  · refine triple_pg_try (Y := fun _ => Sound dshash) ?_ (fun _ h => h) (fun _ _ h => h)
      fun _ h => h
    -- inside `pg_try`: an `ERROR` can only come from the request, before there is an object
    refine Triple.of_states fun u hu => ?_
    refine Triple.bind (triple_dshash_find_sound dshash T waits k exclusive hu) fun entry => ?_
    rcases entry with _ | entry
    · exact Triple.pure fun _ h => h
    · refine Triple.bind (triple_return_entry_ref hu) fun value => ?_
      exact Triple.bind (triple_hand_over value) fun result => Triple.pure fun _ h => h
  · rcases r with _ | result
    · exact Triple.pure fun _ h => h
    · exact Triple.bind (triple_hand_over result) fun this => Triple.pure fun _ h => h

/-- The entry that `dshash::find_or_insert` returns is owned by the object it returns. -/
theorem triple_find_or_insert (k : K) :
    Triple (Sound dshash) (find_or_insert T waits dshash k) (fun r => Holds dshash r.1)
      (fun _ => Sound dshash) := by
  refine Triple.bind (R := fun r => Holds dshash r.1) ?_ fun r => ?_
  · refine triple_pg_try (Y := fun _ => Sound dshash) ?_ (fun _ h => h) (fun _ _ h => h)
      fun _ h => h
    refine Triple.of_states fun u hu => ?_
    refine Triple.bind (triple_dshash_find_or_insert_sound dshash T waits k hu) fun r => ?_
    refine Triple.bind (triple_return_entry_ref hu) fun value => ?_
    exact Triple.bind (triple_hand_over value) fun result => Triple.pure fun _ h => h
  · exact Triple.bind (triple_hand_over r.1) fun this => Triple.pure fun _ h => h

/-! ## Runs keep the accounts -/

theorem triple_others (table : Table Entry) :
    Invariant (Sound dshash) (others table : Prog CppException (Process Entry) Unit) := by
  refine Triple.get_bind fun u h => ?_
  refine Triple.ite (fun hsame => Triple.modify ?_) fun _ => Triple.pure ?_
  · rintro v rfl
    refine { h with locks := ?_ }
    obtain ⟨left, hleft, hperm⟩ := h.locks
    refine ⟨left, hleft, ?_⟩
    rwa [← List.map_congr_left hsame] at hperm
  · rintro v rfl
    exact h

theorem perform_sound (a : Operation Entry K) :
    Invariant (Sound dshash) (perform T waits dshash a) := by
  cases a with
  | find k exclusive =>
    refine Triple.bind (triple_find dshash T waits k exclusive) fun r => Triple.pure ?_
    intro v hv
    cases r with
    | none => exact hv
    | some this => exact hv.1
  | find_or_insert k =>
    exact Triple.bind (triple_find_or_insert dshash T waits k) fun r => Triple.pure fun _ h => h.1
  | move_construct other =>
    refine Triple.of_states fun u hu => ?_
    refine Triple.bind ((triple_move_construct other hu).consequence (fun _ h => h)
      (fun _ _ h => h) ?_) fun this => Triple.pure fun _ h => h.1
    rintro _ v ⟨rfl, -⟩
    exact hu
  | move_assign this other =>
    refine Triple.of_states fun u hu => ?_
    -- an operand that is not there ends the run, with nothing changed
    refine Triple.bind ((triple_object this u).consequence (fun _ h => h) (fun _ _ h => h) ?_)
      fun r => ?_
    · rintro _ v ⟨rfl, -⟩
      exact hu
    rintro m ⟨hm, hthis⟩
    refine Triple.bind ((triple_object other u).consequence (fun _ h => h) (fun _ _ h => h) ?_)
      (fun s => ?_) m hm
    · rintro _ v ⟨rfl, -⟩
      exact hu
    rintro m' ⟨hm', hother⟩
    exact triple_move_assign hu hthis hother m' hm'
  | destroy this =>
    refine Triple.of_states fun u hu => (triple_destroy this hu).consequence (fun _ h => h)
      (fun _ _ h => h.1) ?_
    rintro _ v ⟨rfl, -⟩
    exact hu
  | others table => exact triple_others dshash table

theorem run_sound (ops : List (Operation Entry K)) {m : Machine CppException (Process Entry)}
    (hm : Sound dshash m.user) : Sound dshash (run T waits dshash ops m).user := by
  induction ops generalizing m with
  | nil => exact hm
  | cons a as ih =>
    have hend := perform_sound dshash T waits a m hm
    unfold run
    rcases hp : perform T waits dshash a m with ⟨_ | _ | _ | _, m₁⟩ <;> rw [hp] at hend
    · exact ih hend
    · exact ih hend
    · exact hend
    · exact hend

/-- Where a run starts: the `dshash` object is attached, and there is no other object and no
lock. -/
structure Start (u : Process Entry) : Prop where
  attached : u.rest.attached dshash = true
  live : ∀ a, u.rest.live a = none
  log : u.rest.log = []
  held : u.held = []

theorem Start.sound {u : Process Entry} (h : Start dshash u) : Sound dshash u := by
  have hevents : events u = [] := by rw [events, h.log, List.map_nil]
  have hhandles : handles u.rest.live = fun _ => none := by
    funext a
    rw [handles, h.live, Option.map_none]
  refine ⟨?_, ?_, ?_, fun a _ => h.live a, ?_, h.attached, [], Nat.zero_le _, ?_⟩
  · rw [hevents, hhandles]
    exact .empty
  · rw [h.log]
    simp
  · rw [hevents]
    simp
  · intro a r ha
    exact absurd ((h.live a).symm.trans ha) (by simp)
  · rw [h.held, hevents]
    exact List.Perm.refl _

/-- Entry locks are released exactly once. -/
structure ReleasedOnce (u : Process Entry) : Prop where
  /-- An entry that was returned locked has one owner and is not released, or none and is
  released once. -/
  once : ∀ l, .taken l ∈ events u →
    ((events u).count (.given_back l) = 0 ∧ ∃! a, Owns (handles u.rest.live) a l) ∨
      ((events u).count (.given_back l) = 1 ∧ ∀ a, ¬Owns (handles u.rest.live) a l)
  /-- Until then its lock is held. -/
  locked : ∀ a l, Owns (handles u.rest.live) a l → lock_held u l = true
  /-- What is released was returned, and its lock was held. -/
  released_held : ∀ l was_held, (.given_back l, was_held) ∈ u.rest.log →
    .taken l ∈ events u ∧ was_held = true
  /-- Without objects there is no lock, but for those that requests took that failed. -/
  no_lock : (∀ a, u.rest.live a = none) → u.held.length ≤ stranded u
  no_lock_at_all : (∀ a, u.rest.live a = none) →
    (∀ n < u.trace.length, leaves_lock (u.failures n) = false) → u.held = []

variable {dshash} in
/-- The locks that are held without objects were left by requests that failed. -/
theorem Sound.held_le_stranded {u : Process Entry} (h : Sound dshash u)
    (hnone : ∀ a, u.rest.live a = none) : u.held.length ≤ stranded u := by
  obtain ⟨left, hleft, hperm⟩ := h.locks
  have hout : outstanding (events u) = [] := by
    refine h.accounts.outstanding_eq_nil fun a => ?_
    rw [handles, hnone, Option.map_none]
  have hlength := hperm.length_eq
  rw [hout, List.map_nil, List.nil_append, List.length_map, List.length_map] at hlength
  exact hlength ▸ hleft

variable {dshash} in
theorem Sound.released_once {u : Process Entry} (h : Sound dshash u) : ReleasedOnce u where
  once _ hl := h.accounts.exactly_once hl
  locked a l ha := by
    obtain ⟨i, hi, hlocked⟩ := h.owned_locked ((h.accounts.owned l).mpr ⟨a, ha⟩)
    unfold lock_held partition_of
    rw [hi]
    exact hlocked
  released_held l b hmem :=
    ⟨h.accounts.orderly.taken_of_given_back (List.mem_map_of_mem hmem), h.was_held _ hmem⟩
  no_lock hnone := h.held_le_stranded hnone
  no_lock_at_all hnone hfail := by
    -- without a failed request nothing is stranded
    have hzero : stranded u = 0 := by
      refine List.countP_eq_zero.mpr fun n hn => ?_
      rw [hfail n (List.mem_range.mp hn)]
      simp
    have hle := h.held_le_stranded hnone
    exact List.length_eq_zero_iff.mp (by omega)

/-- **Entry locks are released exactly once**, in every run and whatever the other backends do. -/
theorem entry_locks_released_once (ops : List (Operation Entry K))
    {m : Machine CppException (Process Entry)} (h : Start dshash m.user) :
    ReleasedOnce (run T waits dshash ops m).user :=
  (run_sound dshash T waits ops h.sound).released_once

/-- Entries that are numbers, in two partitions. -/
def number_type : EntryType ℕ ℕ where
  key := id
  partition k := k % 2
  copy k _ := k

/-- A process that has just attached, where nothing fails. -/
def attached_machine : Machine CppException (Process ℕ) where
  exception_stack := some 0
  error_data := []
  memory_context := .other 0
  next_buffer := 1
  next_error := 0
  faults _ := .none
  ticks := 0
  log := []
  user :=
    { table := Table.empty, held := [], trace := [], failures := fun _ => .none, memory := 0,
      segment := none, state_lock := false, next_handle := 0,
      rest := { attached := fun _ => true, live := fun _ => none, next := 0, log := [] } }

/-- Two entries, an assignment over a live object, one to itself, one over an empty object, and
the ends of all three objects. -/
def assignments : List (Operation ℕ ℕ) :=
  [.find_or_insert 4, .find_or_insert 5, .move_assign 3 7, .move_assign 3 3, .move_construct 3,
    .move_assign 7 8, .destroy 3, .destroy 7, .destroy 8]

theorem entry_locks_released_once_assignments :
    ReleasedOnce (run number_type waits_for_own 0 assignments attached_machine).user ∧
      events (run number_type waits_for_own 0 assignments attached_machine).user
        = [.given_back ⟨2, 2⟩, .given_back ⟨1, 1⟩, .taken ⟨2, 2⟩, .taken ⟨1, 1⟩] ∧
      (run number_type waits_for_own 0 assignments attached_machine).user.held = [] :=
  ⟨entry_locks_released_once 0 number_type waits_for_own assignments
    ⟨rfl, fun _ => rfl, rfl, rfl⟩, by decide +kernel, by decide +kernel⟩

end OidcValidator.EntryRefs
