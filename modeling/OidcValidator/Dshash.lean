/-
`Dshash.lean` -- `dshash_wrapper.hpp`: PostgreSQL's shared hash table behind C++.

Below the wrapper is PostgreSQL: a table of entries in shared memory, split into
partitions with one lightweight lock each. `dshash_find` and `dshash_find_or_insert`
return an entry with the lock of its partition held, `dshash_delete_key` takes and
releases the lock itself, and a backend that asks for a lock it holds waits for ever.

The wrapper hands the lock to an `entry_ref` whose destructor releases it. So which
locks are held at a point of the program is a question about object lifetimes, and the
model records the answer: every request to the table is logged with the locks that the
backend holds at that moment.

A request can fail. The oracle says for each whether it raises an `ERROR`, and whether
it does so before or after it has taken its lock; `dshash_find_or_insert` running out of
shared memory is of the second kind.
-/
import OidcValidator.PgUtils
import Mathlib.Data.List.Find

set_option autoImplicit false

namespace OidcValidator.Dshash

open OidcValidator.ByteString OidcValidator.Control OidcValidator.PgUtils

/-! ## The table -/

/-- The concept `dshash_entry`: how an entry is compared with a key, which partition a key
hashes to, and how a key is copied into a new entry. -/
structure EntryType (Entry K : Type) where
  key : Entry → K
  partition : K → ℕ
  copy : K → Entry → Entry

/-- An item of the table: where it is, the partition it was filed under, the entry. -/
structure Item (Entry : Type) where
  address : ℕ
  partition : ℕ
  entry : Entry

/-- The table: its items, at distinct addresses. -/
structure Table (Entry : Type) where
  items : List (Item Entry)
  distinct : (items.map Item.address).Nodup

namespace Table

variable {Entry K : Type} [DecidableEq K] (T : EntryType Entry K)

/-- The item with key `k`, looked for in the partition of `k`. -/
def find (t : Table Entry) (k : K) : Option (Item Entry) :=
  t.items.find? (fun i => i.partition = T.partition k ∧ T.key i.entry = k)

/-- The item at an address. -/
def deref (t : Table Entry) (address : ℕ) : Option (Item Entry) :=
  t.items.find? (fun i => i.address = address)

/-- An address that is not in use. -/
def fresh (t : Table Entry) : ℕ := (t.items.map Item.address).foldr max 0 + 1

theorem le_foldr_max {l : List ℕ} {a : ℕ} (h : a ∈ l) : a ≤ l.foldr max 0 := by
  induction l with
  | nil => exact absurd h List.not_mem_nil
  | cons b l ih =>
    rcases List.mem_cons.mp h with rfl | h
    · exact le_max_left _ _
    · exact (ih h).trans (le_max_right _ _)

theorem fresh_notMem (t : Table Entry) : t.fresh ∉ t.items.map Item.address := by
  intro h
  have hle := le_foldr_max h
  unfold fresh at hle
  omega

/-- A new item for `k`, in memory that still holds `memory`. -/
def insert (t : Table Entry) (k : K) (memory : Entry) : Table Entry where
  items := ⟨t.fresh, T.partition k, T.copy k memory⟩ :: t.items
  distinct := List.nodup_cons.mpr ⟨t.fresh_notMem, t.distinct⟩

/-- Write to the entry at an address. -/
def update (t : Table Entry) (address : ℕ) (f : Entry → Entry) : Table Entry where
  items := t.items.map fun i => if i.address = address then { i with entry := f i.entry } else i
  distinct := by
    rw [List.map_map]
    have hsame : (Item.address ∘ fun i : Item Entry =>
        if i.address = address then { i with entry := f i.entry } else i) = Item.address := by
      funext i
      simp only [Function.comp_apply]
      split_ifs <;> rfl
    rw [hsame]
    exact t.distinct

/-- The table without the item with key `k`. -/
def delete (t : Table Entry) (k : K) : Table Entry where
  items := t.items.eraseP (fun i => i.partition = T.partition k ∧ T.key i.entry = k)
  distinct := t.distinct.sublist (List.eraseP_sublist.map _)

/-- The empty table. -/
def empty : Table Entry := ⟨[], List.nodup_nil⟩

theorem deref_of_mem {t : Table Entry} {i : Item Entry} (h : i ∈ t.items) :
    t.deref i.address = some i := by
  obtain ⟨items, distinct⟩ := t
  unfold deref
  dsimp only at h ⊢
  induction items with
  | nil => exact absurd h List.not_mem_nil
  | cons j items ih =>
    rw [List.map_cons, List.nodup_cons] at distinct
    rcases List.mem_cons.mp h with rfl | h
    · exact List.find?_cons_of_pos (by simp)
    · have hne : ¬ j.address = i.address := by
        intro heq
        exact distinct.1 (heq ▸ List.mem_map_of_mem h)
      rw [List.find?_cons_of_neg (by simp [hne])]
      exact ih distinct.2 h

theorem deref_of_find {t : Table Entry} {k : K} {i : Item Entry} (h : t.find T k = some i) :
    t.deref i.address = some i :=
  deref_of_mem (List.mem_of_find?_eq_some h)

theorem partition_of_find {t : Table Entry} {k : K} {i : Item Entry} (h : t.find T k = some i) :
    i.partition = T.partition k := by
  have hi := List.find?_some h
  simp only [Bool.decide_and, Bool.and_eq_true, decide_eq_true_eq] at hi
  exact hi.1

omit [DecidableEq K] in
theorem deref_insert (t : Table Entry) (k : K) (memory : Entry) :
    (t.insert T k memory).deref t.fresh = some ⟨t.fresh, T.partition k, T.copy k memory⟩ :=
  List.find?_cons_of_pos (by simp)

omit [DecidableEq K] in
/-- A new item does not take the place of another. -/
theorem deref_insert_of_deref {t : Table Entry} {a : ℕ} {i : Item Entry} (h : t.deref a = some i)
    (k : K) (memory : Entry) : (t.insert T k memory).deref a = some i := by
  have hmem : i.address ∈ t.items.map Item.address :=
    List.mem_map_of_mem (List.mem_of_find?_eq_some h)
  have ha : i.address = a := by simpa using List.find?_some h
  have hne : t.fresh ≠ a := fun heq => t.fresh_notMem (heq ▸ ha ▸ hmem)
  exact (List.find?_cons_of_neg (by simp [hne])).trans h

/-- A write changes the entry at its address and nothing else. -/
theorem deref_update (t : Table Entry) (a b : ℕ) (f : Entry → Entry) :
    (t.update a f).deref b
      = (t.deref b).map fun i => if b = a then { i with entry := f i.entry } else i := by
  unfold deref update
  rw [List.find?_map]
  have hsame : ((fun i : Item Entry => decide (i.address = b)) ∘ fun i : Item Entry =>
      if i.address = a then { i with entry := f i.entry } else i)
        = fun i : Item Entry => decide (i.address = b) := by
    funext i
    simp only [Function.comp_apply]
    split_ifs <;> rfl
  rw [hsame]
  refine Option.map_congr fun i hi => ?_
  have hb : i.address = b := by simpa using List.find?_some hi
  rw [hb]

theorem key_of_find {t : Table Entry} {k : K} {i : Item Entry} (h : t.find T k = some i) :
    T.key i.entry = k := by
  have hi := List.find?_some h
  simp only [Bool.decide_and, Bool.and_eq_true, decide_eq_true_eq] at hi
  exact hi.2

/-- A write that keeps the key of its entry is a write for every lookup. -/
theorem find_update {t : Table Entry} {a : ℕ} {f : Entry → Entry}
    (hf : ∀ i, t.deref a = some i → T.key (f i.entry) = T.key i.entry) (k : K) :
    (t.update a f).find T k
      = (t.find T k).map fun i => if i.address = a then { i with entry := f i.entry } else i := by
  unfold find update
  rw [List.find?_map]
  refine congrArg _ (List.find?_congr fun i hi => ?_)
  by_cases hia : i.address = a
  · have hkey := hf i (hia ▸ deref_of_mem hi)
    simp [Function.comp_apply, hia, hkey]
  · simp [Function.comp_apply, hia]

/-- The write changes what is found under the key of its entry. -/
theorem find_update_self {t : Table Entry} {k : K} {i : Item Entry} {f : Entry → Entry}
    (h : t.find T k = some i) (hf : T.key (f i.entry) = k) :
    (t.update i.address f).find T k = some { i with entry := f i.entry } := by
  rw [find_update T, h]
  · simp
  · intro j hj
    obtain rfl := Option.some.inj ((deref_of_find T h).symm.trans hj)
    rw [hf, key_of_find T h]

/-- It changes nothing for the other keys. -/
theorem find_update_of_ne {t : Table Entry} {k k' : K} {i : Item Entry} {f : Entry → Entry}
    (h : t.find T k = some i) (hf : T.key (f i.entry) = k) (hne : k' ≠ k) :
    (t.update i.address f).find T k' = t.find T k' := by
  rw [find_update T]
  · rcases hj : t.find T k' with _ | j
    · rfl
    · have haddr : j.address ≠ i.address := by
        intro heq
        have hderef := deref_of_find T hj
        rw [heq, deref_of_find T h] at hderef
        obtain rfl := Option.some.inj hderef
        exact hne ((key_of_find T hj).symm.trans (key_of_find T h))
      simp [haddr]
  · intro j hj
    obtain rfl := Option.some.inj ((deref_of_find T h).symm.trans hj)
    rw [hf, key_of_find T h]

theorem find_insert_self {t : Table Entry} {k : K} {memory : Entry}
    (h : T.key (T.copy k memory) = k) :
    (t.insert T k memory).find T k = some ⟨t.fresh, T.partition k, T.copy k memory⟩ :=
  List.find?_cons_of_pos (by simp [h])

theorem find_insert_of_ne {t : Table Entry} {k k' : K} {memory : Entry}
    (h : T.key (T.copy k memory) = k) (hne : k' ≠ k) :
    (t.insert T k memory).find T k' = t.find T k' :=
  List.find?_cons_of_neg (by simp [h, hne.symm])

end Table

/-! ## The backend -/

/-- Lock modes. -/
inductive Mode where
  | shared | exclusive
  deriving DecidableEq

/-- The functions of the table that take a partition lock. -/
inductive Request where
  | dshash_find | dshash_find_or_insert | dshash_delete_key
  deriving DecidableEq

/-- What the oracle says about one request. -/
inductive Failure where
  | none
  | before (msg : Option Bytes)
  | after (msg : Option Bytes)
  deriving DecidableEq

/-- `dshash::shared_state`, less the tranche; `none` is an invalid handle. -/
structure SharedState where
  table_handle : Option ℕ
  area_handle : Option ℕ
  deriving DecidableEq

/-- A `dshash` object: the area and the table it is attached to. -/
structure Attachment where
  area : ℕ
  table : ℕ
  deriving DecidableEq

/-- The part of a backend that this file works on, next to the rest of its state. `held`
are its partition locks, `trace` its requests, newest first, each with the locks held when
it was made. -/
structure Backend (Entry τ : Type) where
  table : Table Entry
  held : List (ℕ × Mode)
  trace : List (Request × List (ℕ × Mode))
  failures : ℕ → Failure
  /-- what is in newly allocated memory -/
  memory : Entry
  /-- what `GetNamedDSMSegment` finds -/
  segment : Option SharedState
  /-- whether this backend holds `state->lock` -/
  state_lock : Bool
  /-- the next handle for an area or a table -/
  next_handle : ℕ
  rest : τ

variable {Entry K τ : Type} [DecidableEq K] (T : EntryType Entry K)

/-- `LWLockAcquire` on a partition lock. -/
def acquire (partition : ℕ) (mode : Mode) : Prog CppException (Backend Entry τ) Unit := do
  let u ← get
  if u.held.any (fun l => l.1 = partition) then halt .deadlock
  else modify fun u => { u with held := (partition, mode) :: u.held }

/-- `LWLockRelease` on a partition lock. -/
def release (partition : ℕ) : Prog CppException (Backend Entry τ) Unit := do
  let u ← get
  if u.held.any (fun l => l.1 = partition) then
    modify fun u => { u with held := u.held.eraseP (fun l => l.1 = partition) }
  else raise (some (bytes "lock is not held"))

/-- The common start of a request: log it, take the lock, fail where the oracle says so. -/
def request (r : Request) (partition : ℕ) (mode : Mode) :
    Prog CppException (Backend Entry τ) Unit := do
  let u ← get
  modify fun u => { u with trace := (r, u.held) :: u.trace }
  match u.failures u.trace.length with
  | .before msg => raise msg
  | .after msg => do
      acquire partition mode
      raise msg
  | .none => acquire partition mode

/-- `dshash_find`. -/
def dshash_find (k : K) (exclusive : Bool) :
    Prog CppException (Backend Entry τ) (Option ℕ) := do
  request .dshash_find (T.partition k) (if exclusive then .exclusive else .shared)
  let u ← get
  match u.table.find T k with
  | some i => pure (some i.address)
  | none => do
      release (T.partition k)
      pure none

/-- `dshash_find_or_insert`: the entry and whether it was found. -/
def dshash_find_or_insert (k : K) : Prog CppException (Backend Entry τ) (ℕ × Bool) := do
  request .dshash_find_or_insert (T.partition k) .exclusive
  let u ← get
  match u.table.find T k with
  | some i => pure (i.address, true)
  | none => do
      modify fun u => { u with table := u.table.insert T k u.memory }
      pure (u.table.fresh, false)

/-- `dshash_delete_key`. -/
def dshash_delete_key (k : K) : Prog CppException (Backend Entry τ) Bool := do
  request .dshash_delete_key (T.partition k) .exclusive
  let u ← get
  modify fun u => { u with table := u.table.delete T k }
  release (T.partition k)
  pure (u.table.find T k).isSome

/-- `dshash_release_lock`: the lock of the partition the entry is filed under. -/
def dshash_release_lock (entry : ℕ) : Prog CppException (Backend Entry τ) Unit := do
  let u ← get
  match u.table.deref entry with
  | some i => release i.partition
  | none => halt .undefined

/-! ## The wrapper -/

/-- `~entry_ref()` of a reference that has not been moved from. -/
def entry_ref_destructor (entry : ℕ) : Prog CppException (Backend Entry τ) Unit :=
  pg_assert_noerror (dshash_release_lock entry) (bytes "entry_ref destructor")

/-- `dshash::find`. The `entry_ref` it returns is the address of its entry. -/
def find (k : K) (exclusive : Bool) : Prog CppException (Backend Entry τ) (Option ℕ) :=
  pg_try (dshash_find T k exclusive)

/-- `dshash::find_or_insert`. -/
def find_or_insert (k : K) : Prog CppException (Backend Entry τ) (ℕ × Bool) :=
  pg_try do
    let (entry, found) ← dshash_find_or_insert T k
    pure (entry, !found)

/-- `dshash::erase`. -/
def erase (k : K) : Prog CppException (Backend Entry τ) Bool := pg_try (dshash_delete_key T k)

/-- `pg::dshash_exception`. -/
def dshash_exception (msg : Bytes) : CppException := ⟨.dshash_exception, msg⟩

/-- The branch of `attach_shared` that makes the area and the table. -/
def create_shared : Prog CppException (Backend Entry τ) Attachment := do
  call -- dsa_create
  let area := (← get).next_handle
  modify fun u => { u with next_handle := u.next_handle + 1 }
  call -- dsa_pin
  call -- dsa_pin_mapping
  call -- dshash_create
  let table := (← get).next_handle
  modify fun u => { u with next_handle := u.next_handle + 1 }
  modify fun u => { u with segment := u.segment.map ({ · with table_handle := some table }) }
  modify fun u => { u with segment := u.segment.map ({ · with area_handle := some area }) }
  pure ⟨area, table⟩

/-- The two branches of `attach_shared` that attach to what is there. -/
def attach_existing (area : ℕ) (state : SharedState) :
    Prog CppException (Backend Entry τ) Attachment := do
  call -- dsa_attach
  call -- dsa_pin_mapping
  call -- dshash_attach
  match state.table_handle with
  | some table => pure ⟨area, table⟩
  | none => halt .undefined

/-- The two branches under `state->lock`. -/
def create_or_attach (state : SharedState) : Prog CppException (Backend Entry τ) Attachment :=
  match state.area_handle with
  | none => create_shared
  | some area => attach_existing area state

/-- From `LWLockAcquire(&state->lock)` to `LWLockRelease(&state->lock)`, with the second
test of the handle in between. -/
def attach_locked (state : SharedState) : Prog CppException (Backend Entry τ) Attachment := do
  call -- LWLockAcquire
  if (← get).state_lock then halt .deadlock
  else do
    modify fun u => { u with state_lock := true }
    let u ← get
    let dshash ← create_or_attach (u.segment.getD state)
    modify fun u => { u with state_lock := false }
    pure dshash

/-- The first test of the handle. -/
def attach_segment (state : SharedState) : Prog CppException (Backend Entry τ) Attachment :=
  match state.area_handle with
  | none => attach_locked state
  | some area => attach_existing area state

/-- `attach_shared`. PostgreSQL never returns a null table, so that test is left out. -/
def attach_shared (dsm_name : Bytes) : Prog CppException (Backend Entry τ) Attachment :=
  pg_try do
    call -- GetNamedDSMSegment
    let u ← get
    match u.segment with
    | some state => attach_segment state
    | none =>
        throw (dshash_exception (bytes "Failed to create or find DSM segment: " ++ dsm_name))

/-! ## Frames

Nothing here touches the error state except through `pg_try` and `pg_assert_noerror`. -/

section Balance

theorem framed_acquire (partition : ℕ) (mode : Mode) :
    Framed Backend.rest (acquire partition mode : Prog CppException (Backend Entry τ) Unit) :=
  Framed.bind Framed.get fun _ => Framed.ite (Framed.halt _) (Framed.modify fun _ => rfl)

theorem framed_release (partition : ℕ) :
    Framed Backend.rest (release partition : Prog CppException (Backend Entry τ) Unit) :=
  Framed.bind Framed.get fun _ => Framed.ite (Framed.modify fun _ => rfl) (Framed.raise _)

theorem framed_request (r : Request) (partition : ℕ) (mode : Mode) :
    Framed Backend.rest (request r partition mode : Prog CppException (Backend Entry τ) Unit) := by
  refine Framed.bind Framed.get fun u => Framed.bind (Framed.modify fun _ => rfl) fun _ => ?_
  cases u.failures u.trace.length with
  | none => exact framed_acquire _ _
  | before msg => exact Framed.raise _
  | after msg => exact Framed.bind (framed_acquire _ _) fun _ => Framed.raise _

/-- `dshash::find` is balanced and leaves the rest alone. -/
theorem framed_find (k : K) (exclusive : Bool) :
    Framed Backend.rest (find T k exclusive : Prog CppException (Backend Entry τ) (Option ℕ)) := by
  refine framed_pg_try (Framed.bind (framed_request _ _ _) fun _ => ?_)
  refine Framed.bind Framed.get fun u => ?_
  cases u.table.find T k with
  | none => exact Framed.bind (framed_release _) fun _ => Framed.pure _
  | some i => exact Framed.pure _

/-- `dshash::find_or_insert` is balanced and leaves the rest alone. -/
theorem framed_find_or_insert (k : K) :
    Framed Backend.rest (find_or_insert T k : Prog CppException (Backend Entry τ) (ℕ × Bool)) := by
  refine framed_pg_try (Framed.bind ?_ fun r => Framed.pure _)
  refine Framed.bind (framed_request _ _ _) fun _ => Framed.bind Framed.get fun u => ?_
  cases u.table.find T k with
  | none => exact Framed.bind (Framed.modify fun _ => rfl) fun _ => Framed.pure _
  | some i => exact Framed.pure _

/-- `dshash::erase` is balanced and leaves the rest alone. -/
theorem framed_erase (k : K) :
    Framed Backend.rest (erase T k : Prog CppException (Backend Entry τ) Bool) := by
  refine framed_pg_try (Framed.bind (framed_request _ _ _) fun _ => ?_)
  refine Framed.bind Framed.get fun u => Framed.bind (Framed.modify fun _ => rfl) fun _ => ?_
  exact Framed.bind (framed_release _) fun _ => Framed.pure _

/-- The destructor of an `entry_ref` is balanced and leaves the rest alone. -/
theorem framed_entry_ref_destructor (entry : ℕ) :
    Framed Backend.rest (entry_ref_destructor entry : Prog CppException (Backend Entry τ) Unit) := by
  refine framed_pg_assert_noerror ?_ ?_ _
  · refine Framed.bind Framed.get fun u => ?_
    cases u.table.deref entry with
    | none => exact Framed.halt _
    | some i => exact framed_release _
  · refine NoThrow.bind NoThrow.get fun u => ?_
    cases u.table.deref entry with
    | none => exact NoThrow.halt _
    | some i =>
      exact NoThrow.bind NoThrow.get fun _ => NoThrow.ite (NoThrow.modify _) (NoThrow.raise _)

theorem framed_attach_existing (area : ℕ) (state : SharedState) :
    Framed Backend.rest (attach_existing area state : Prog CppException (Backend Entry τ) Attachment) := by
  refine Framed.bind Framed.call fun _ => Framed.bind Framed.call fun _ => ?_
  refine Framed.bind Framed.call fun _ => ?_
  cases state.table_handle with
  | none => exact Framed.halt _
  | some table => exact Framed.pure _

theorem framed_create_shared :
    Framed Backend.rest (create_shared : Prog CppException (Backend Entry τ) Attachment) := by
  refine Framed.bind Framed.call fun _ => Framed.bind Framed.get fun _ => ?_
  refine Framed.bind (Framed.modify fun _ => rfl) fun _ => Framed.bind Framed.call fun _ => ?_
  refine Framed.bind Framed.call fun _ => Framed.bind Framed.call fun _ => ?_
  refine Framed.bind Framed.get fun _ => Framed.bind (Framed.modify fun _ => rfl) fun _ => ?_
  refine Framed.bind (Framed.modify fun _ => rfl) fun _ => Framed.bind (Framed.modify fun _ => rfl) fun _ => ?_
  exact Framed.pure _

theorem framed_create_or_attach (state : SharedState) :
    Framed Backend.rest (create_or_attach state : Prog CppException (Backend Entry τ) Attachment) := by
  unfold create_or_attach
  cases state.area_handle with
  | none => exact framed_create_shared
  | some area => exact framed_attach_existing _ _

theorem framed_attach_segment (state : SharedState) :
    Framed Backend.rest (attach_segment state : Prog CppException (Backend Entry τ) Attachment) := by
  unfold attach_segment
  cases state.area_handle with
  | some area => exact framed_attach_existing _ _
  | none =>
    refine Framed.bind Framed.call fun _ => Framed.bind Framed.get fun _ => ?_
    refine Framed.ite (Framed.halt _) (Framed.bind (Framed.modify fun _ => rfl) fun _ => ?_)
    refine Framed.bind Framed.get fun _ => ?_
    refine Framed.bind (framed_create_or_attach _) fun _ => ?_
    exact Framed.bind (Framed.modify fun _ => rfl) fun _ => Framed.pure _

/-- `attach_shared` is balanced and leaves the rest alone. -/
theorem framed_attach_shared (dsm_name : Bytes) :
    Framed Backend.rest (attach_shared dsm_name : Prog CppException (Backend Entry τ) Attachment) := by
  refine framed_pg_try (Framed.bind Framed.call fun _ => Framed.bind Framed.get fun u => ?_)
  cases u.segment with
  | none => exact Framed.throw _
  | some state => exact framed_attach_segment state

end Balance

/-! ## Which locks are held

`Idle` is the state between calls, `Holding` the state while an `entry_ref` is alive. The
wrapper moves between the two as long as no request fails with its lock already taken. -/

/-- Every request so far was made without a lock. -/
def Disciplined (u : Backend Entry τ) : Prop := ∀ r ∈ u.trace, r.2 = []

/-- No lock is held and none was held at any request. -/
structure Idle (u : Backend Entry τ) : Prop where
  held : u.held = []
  disciplined : Disciplined u

/-- The one lock held is that of the entry at `entry`. -/
structure Holding (entry : ℕ) (u : Backend Entry τ) : Prop where
  held : ∃ i mode, u.table.deref entry = some i ∧ u.held = [(i.partition, mode)]
  disciplined : Disciplined u

theorem Holding.of_find {u : Backend Entry τ} {k : K} {i : Item Entry} {mode : Mode}
    (hfind : u.table.find T k = some i) (hheld : u.held = [(T.partition k, mode)])
    (hdisc : Disciplined u) : Holding i.address u where
  held := ⟨i, mode, Table.deref_of_find T hfind, by rw [Table.partition_of_find T hfind, hheld]⟩
  disciplined := hdisc

/-- The next request does not fail with its lock taken. -/
def Timely (u : Backend Entry τ) : Prop := ∀ msg, u.failures u.trace.length ≠ .after msg

section Locks

-- what a caller knows about the table and the rest, which no request changes before it
-- has its lock
variable {G : Table Entry → τ → Prop}

theorem triple_acquire {P : Backend Entry τ → Prop} {Q : Unit → Backend Entry τ → Prop}
    {X : Exit → Backend Entry τ → Prop} {partition : ℕ} {mode : Mode}
    (hP : ∀ u, P u → u.held = [])
    (hQ : ∀ u, P u → Q () { u with held := [(partition, mode)] }) :
    Triple P (acquire partition mode) Q X := by
  refine Triple.get_bind fun u hu => Triple.ite (fun hany => ?_) fun _ => ?_
  · rw [hP u hu] at hany
    exact absurd hany (by simp)
  · refine Triple.modify ?_
    rintro _ rfl
    rw [hP _ hu]
    exact hQ _ hu

theorem triple_release {P : Backend Entry τ → Prop} {Q : Unit → Backend Entry τ → Prop}
    {X : Exit → Backend Entry τ → Prop} {partition : ℕ}
    (hP : ∀ u, P u → ∃ mode, u.held = [(partition, mode)])
    (hQ : ∀ u, P u → Q () { u with held := [] }) : Triple P (release partition) Q X := by
  refine Triple.get_bind fun u hu => ?_
  obtain ⟨mode, hheld⟩ := hP u hu
  refine Triple.ite (fun _ => ?_) fun hany => ?_
  · refine Triple.modify ?_
    rintro _ rfl
    rw [hheld]
    simpa using hQ _ hu
  · rw [hheld] at hany
    exact absurd (by simp) hany

theorem triple_request (r : Request) (partition : ℕ) (mode : Mode) :
    Triple (fun u : Backend Entry τ => (Idle u ∧ Timely u) ∧ G u.table u.rest)
      (request r partition mode)
      (fun _ u => (u.held = [(partition, mode)] ∧ Disciplined u) ∧ G u.table u.rest)
      (fun _ => Idle) := by
  refine Triple.get_bind ?_
  rintro u ⟨⟨hidle, htimely⟩, hG⟩
  have hdisc : ∀ x ∈ (r, u.held) :: u.trace, x.2 = [] :=
    List.forall_mem_cons.mpr ⟨hidle.held, hidle.disciplined⟩
  refine Triple.modify_bind (R := fun v => Idle v ∧ G v.table v.rest) ?_ ?_
  · rintro _ rfl
    exact ⟨⟨hidle.held, hdisc⟩, hG⟩
  rcases hfail : u.failures u.trace.length with _ | msg | msg
  · exact triple_acquire (fun v hv => hv.1.held) fun v hv => ⟨⟨rfl, hv.1.disciplined⟩, hv.2⟩
  · exact Triple.raise (fun _ h => h.1) fun _ h => h.1
  · exact absurd hfail (htimely msg)

/-- `dshash_find` comes back with no lock, or with an entry and its lock. -/
theorem triple_dshash_find (k : K) (exclusive : Bool) :
    Triple (fun u : Backend Entry τ => (Idle u ∧ Timely u) ∧ G u.table u.rest)
      (dshash_find T k exclusive)
      (fun r u => r.elim (Idle u) fun a =>
        (Holding a u ∧ ∃ i, u.table.find T k = some i ∧ i.address = a) ∧ G u.table u.rest)
      (fun _ => Idle) := by
  refine Triple.bind (triple_request _ _ _) fun _ => Triple.get_bind ?_
  rintro u ⟨⟨hheld, hdisc⟩, hG⟩
  rcases hfind : u.table.find T k with _ | i
  · refine Triple.bind (R := fun _ => Idle) ?_ fun _ => Triple.pure fun _ h => h
    refine triple_release ?_ ?_
    · rintro _ rfl
      exact ⟨_, hheld⟩
    · rintro _ rfl
      exact ⟨rfl, hdisc⟩
  · refine Triple.pure ?_
    rintro _ rfl
    exact ⟨⟨Holding.of_find T hfind hheld hdisc, i, hfind, rfl⟩, hG⟩

/-- `dshash_find_or_insert` comes back with an entry and its lock. -/
theorem triple_dshash_find_or_insert (k : K) :
    Triple (fun u : Backend Entry τ => Idle u ∧ Timely u) (dshash_find_or_insert T k)
      (fun r => Holding r.1) (fun _ => Idle) := by
  refine Triple.bind (R := fun _ u =>
    u.held = [(T.partition k, .exclusive)] ∧ Disciplined u) ?_ fun _ => Triple.get_bind ?_
  · exact (triple_request (G := fun _ _ => True) _ _ _).consequence (fun _ h => ⟨h, trivial⟩)
      (fun _ _ h => h.1) fun _ _ h => h
  rintro u ⟨hheld, hdisc⟩
  rcases hfind : u.table.find T k with _ | i
  · refine Triple.modify_bind (R := Holding u.table.fresh) ?_ (Triple.pure fun _ h => h)
    rintro _ rfl
    exact ⟨⟨_, _, Table.deref_insert T _ k _, hheld⟩, hdisc⟩
  · refine Triple.pure ?_
    rintro _ rfl
    exact Holding.of_find T hfind hheld hdisc

/-- The destructor of an `entry_ref` gives its lock back. -/
theorem triple_entry_ref_destructor (entry : ℕ) {X : Exit → Backend Entry τ → Prop} :
    Triple (Holding entry) (entry_ref_destructor entry) (fun _ => Idle) X := by
  refine triple_pg_assert_noerror (Y := fun _ _ => False) ?_ (fun _ h => absurd h id)
    (fun _ h => absurd h id) fun _ h => absurd h id
  refine Triple.get_bind ?_
  rintro u ⟨⟨i, mode, hderef, hheld⟩, hdisc⟩
  rw [hderef]
  refine triple_release ?_ ?_
  · rintro _ rfl
    exact ⟨mode, hheld⟩
  · rintro _ rfl
    exact ⟨rfl, hdisc⟩

/-- `dshash::find`. -/
theorem triple_find (k : K) (exclusive : Bool) :
    Triple (fun u : Backend Entry τ => (Idle u ∧ Timely u) ∧ G u.table u.rest)
      (find T k exclusive)
      (fun r u => r.elim (Idle u) fun a =>
        (Holding a u ∧ ∃ i, u.table.find T k = some i ∧ i.address = a) ∧ G u.table u.rest)
      (fun _ => Idle) :=
  triple_pg_try (triple_dshash_find T k exclusive) (fun _ h => h) (fun _ _ h => h) fun _ h => h

/-- `dshash::find_or_insert`. -/
theorem triple_find_or_insert (k : K) :
    Triple (fun u : Backend Entry τ => Idle u ∧ Timely u) (find_or_insert T k)
      (fun r => Holding r.1) (fun _ => Idle) := by
  refine triple_pg_try (Y := fun _ => Idle) ?_ (fun _ h => h) (fun _ _ h => h) fun _ h => h
  exact Triple.bind (triple_dshash_find_or_insert T k) fun _ => Triple.pure fun _ h => h

/-- A write to the table through a pointer keeps the lock. -/
theorem Holding.update {entry : ℕ} {u : Backend Entry τ} (h : Holding entry u) (a : ℕ)
    (f : Entry → Entry) : Holding entry { u with table := u.table.update a f } := by
  obtain ⟨⟨i, mode, hderef, hheld⟩, hdisc⟩ := h
  refine ⟨⟨if entry = a then { i with entry := f i.entry } else i, mode, ?_, ?_⟩, hdisc⟩
  · show (u.table.update a f).deref entry = _
    rw [Table.deref_update, hderef, Option.map_some]
  · show u.held = _
    rw [hheld]
    split_ifs <;> rfl

end Locks

/-! ## One request from any state

Whatever locks are held already and whatever the oracle says. `acquire` makes a process wait
for every lock it holds. That is on the safe side, since callers must not hold one, but a
shared lock can be had twice; so here it is open for which of its locks a process waits. -/

/-- For which locks a process that holds some has to wait. -/
abbrev Waits := List (ℕ × Mode) → ℕ → Mode → Bool

/-- It waits for every lock it holds. -/
def waits_for_own : Waits := fun held partition _ => held.any fun l => l.1 = partition

variable (waits : Waits)

/-- `acquire`. -/
def acquire_with (partition : ℕ) (mode : Mode) : Prog CppException (Backend Entry τ) Unit := do
  let u ← get
  if waits u.held partition mode then halt .deadlock
  else modify fun u => { u with held := (partition, mode) :: u.held }

/-- `request`. -/
def request_with (r : Request) (partition : ℕ) (mode : Mode) :
    Prog CppException (Backend Entry τ) Unit := do
  let u ← get
  modify fun u => { u with trace := (r, u.held) :: u.trace }
  match u.failures u.trace.length with
  | .before msg => raise msg
  | .after msg => do
      acquire_with waits partition mode
      raise msg
  | .none => acquire_with waits partition mode

/-- `dshash_find`. -/
def dshash_find_with (k : K) (exclusive : Bool) :
    Prog CppException (Backend Entry τ) (Option ℕ) := do
  request_with waits .dshash_find (T.partition k) (if exclusive then .exclusive else .shared)
  let u ← get
  match u.table.find T k with
  | some i => pure (some i.address)
  | none => do
      release (T.partition k)
      pure none

/-- `dshash_find_or_insert`. -/
def dshash_find_or_insert_with (k : K) : Prog CppException (Backend Entry τ) (ℕ × Bool) := do
  request_with waits .dshash_find_or_insert (T.partition k) .exclusive
  let u ← get
  match u.table.find T k with
  | some i => pure (i.address, true)
  | none => do
      modify fun u => { u with table := u.table.insert T k u.memory }
      pure (u.table.fresh, false)

theorem request_eq (r : Request) (partition : ℕ) (mode : Mode) :
    (request r partition mode : Prog CppException (Backend Entry τ) Unit)
      = request_with waits_for_own r partition mode := rfl

theorem dshash_find_eq (k : K) (exclusive : Bool) :
    (dshash_find T k exclusive : Prog CppException (Backend Entry τ) (Option ℕ))
      = dshash_find_with T waits_for_own k exclusive := rfl

theorem dshash_find_or_insert_eq (k : K) :
    (dshash_find_or_insert T k : Prog CppException (Backend Entry τ) (ℕ × Bool))
      = dshash_find_or_insert_with T waits_for_own k := rfl

variable {waits}

/-- This process does not hold the lock. -/
def Free (partition : ℕ) (u : Backend Entry τ) : Prop := ¬u.held.any (fun l => l.1 = partition)

/-- A request in the log. -/
def Backend.asked (u : Backend Entry τ) (r : Request) : Backend Entry τ :=
  { u with trace := (r, u.held) :: u.trace }

/-- One lock more. -/
def Backend.locked (u : Backend Entry τ) (partition : ℕ) (mode : Mode) : Backend Entry τ :=
  { u with held := (partition, mode) :: u.held }

/-- The next request for a lock goes through: it does not fail, and this process is not the
one that holds the lock. -/
def Granted (partition : ℕ) (u : Backend Entry τ) : Prop :=
  u.failures u.trace.length = .none ∧ Free partition u

/-- What a request leaves behind that does not return: no lock, or the one it had taken when
it failed. -/
def Refused (r : Request) (partition : ℕ) (mode : Mode) (u v : Backend Entry τ) : Prop :=
  v = u.asked r ∨
    (∃ msg, u.failures u.trace.length = .after msg) ∧ v = (u.asked r).locked partition mode

theorem triple_request_with (r : Request) (partition : ℕ) (mode : Mode) (u : Backend Entry τ) :
    Triple (fun v => v = u) (request_with waits r partition mode)
      (fun _ v => (u.failures u.trace.length = .none ∧ ¬waits u.held partition mode) ∧
        v = (u.asked r).locked partition mode)
      (fun _ => Refused r partition mode u) := by
  refine Triple.get_bind ?_
  rintro u rfl
  refine Triple.modify_bind (R := fun v => v = u.asked r) (fun _ h => by rw [h, Backend.asked]) ?_
  have hacquire : Triple (fun v => v = u.asked r) (acquire_with waits partition mode)
      (fun _ v => ¬waits u.held partition mode ∧ v = (u.asked r).locked partition mode)
      (fun _ => Refused r partition mode u) := by
    refine Triple.get_bind ?_
    rintro v rfl
    refine Triple.ite (fun _ => Triple.halt fun _ h => .inl h) fun hfree => ?_
    exact Triple.modify fun _ h => ⟨hfree, by rw [h, Backend.locked]⟩
  -- a request is granted, or fails before it has the lock, or after
  rcases hfail : u.failures u.trace.length with _ | msg | msg
  · exact hacquire.consequence (fun _ h => h) (fun _ _ h => ⟨⟨rfl, h.1⟩, h.2⟩) fun _ _ h => h
  · exact Triple.raise (fun _ h => .inl h) fun _ h => .inl h
  · refine Triple.bind hacquire fun _ => ?_
    exact Triple.raise (fun _ h => .inr ⟨⟨msg, hfail⟩, h.2⟩) fun _ h => .inr ⟨⟨msg, hfail⟩, h.2⟩

theorem evals_request (r : Request) {partition : ℕ} (mode : Mode) {u : Backend Entry τ}
    (h : Granted partition u) :
    Evals (request r partition mode) u () ((u.asked r).locked partition mode) := by
  refine Evals.get_bind (Evals.bind (Evals.modify _ u) ?_)
  rw [h.1]
  refine Evals.get_bind ?_
  rw [if_neg h.2]
  exact Evals.modify _ _

theorem eraseP_of_held {partition : ℕ} {mode : Mode} {held : List (ℕ × Mode)} {u : Backend Entry τ}
    (hheld : u.held = (partition, mode) :: held) :
    u.held.eraseP (fun l => l.1 = partition) = held := by
  rw [hheld, List.eraseP_cons_of_pos (by simp)]

/-- A lock that is held is released, once. -/
theorem triple_release_held {partition : ℕ} {u : Backend Entry τ} {X : Exit → Backend Entry τ → Prop}
    (hheld : u.held.any (fun l => l.1 = partition)) :
    Triple (fun v => v = u) (release partition)
      (fun _ v => v = { u with held := u.held.eraseP fun l => l.1 = partition }) X := by
  refine Triple.get_bind ?_
  rintro u rfl
  refine Triple.ite (fun _ => Triple.modify ?_) fun hfree => absurd hheld hfree
  rintro u rfl
  rfl

theorem triple_release_from {partition : ℕ} {mode : Mode} {held : List (ℕ × Mode)}
    {u : Backend Entry τ} {X : Exit → Backend Entry τ → Prop}
    (hheld : u.held = (partition, mode) :: held) :
    Triple (fun v => v = u) (release partition) (fun _ v => v = { u with held := held }) X := by
  have hany : u.held.any (fun l => l.1 = partition) := by rw [hheld]; simp
  have h := triple_release_held (X := X) hany
  rwa [eraseP_of_held hheld] at h

theorem evals_release {partition : ℕ} {mode : Mode} {held : List (ℕ × Mode)} {u : Backend Entry τ}
    (hheld : u.held = (partition, mode) :: held) :
    Evals (release partition) u () { u with held := held } := by
  refine Evals.get_bind ?_
  rw [if_pos (by rw [hheld]; simp)]
  have hmodify := Evals.modify (ε := CppException)
    (fun u : Backend Entry τ => { u with held := u.held.eraseP fun l => l.1 = partition }) u
  rw [eraseP_of_held hheld] at hmodify
  exact hmodify

theorem triple_dshash_find_with (k : K) (exclusive : Bool) (u : Backend Entry τ) :
    Triple (fun v => v = u) (dshash_find_with T waits k exclusive)
      (fun r v => (u.failures u.trace.length = .none ∧
          ¬waits u.held (T.partition k) (if exclusive then .exclusive else .shared)) ∧
        (r = none ∧ u.table.find T k = none ∧ v = u.asked .dshash_find ∨
          ∃ i, r = some i.address ∧ u.table.find T k = some i ∧
            v = (u.asked .dshash_find).locked (T.partition k) (if exclusive then .exclusive else .shared)))
      (fun _ => Refused .dshash_find (T.partition k) (if exclusive then .exclusive else .shared) u) := by
  refine Triple.bind (triple_request_with _ _ _ u) fun _ => Triple.get_bind ?_
  rintro v ⟨hgranted, rfl⟩
  rcases hfind : u.table.find T k with _ | i
  · have hmiss : ((u.asked .dshash_find).locked (T.partition k)
        (if exclusive then .exclusive else .shared)).table.find T k = none := hfind
    rw [hmiss]
    refine Triple.bind (triple_release_from rfl) fun _ => Triple.pure ?_
    rintro v rfl
    exact ⟨hgranted, .inl ⟨rfl, rfl, rfl⟩⟩
  · have hhit : ((u.asked .dshash_find).locked (T.partition k)
        (if exclusive then .exclusive else .shared)).table.find T k = some i := hfind
    rw [hhit]
    exact Triple.pure fun v h => ⟨hgranted, .inr ⟨i, rfl, rfl, h⟩⟩

/-- `dshash::find` from any state. -/
theorem triple_find_from (k : K) (exclusive : Bool) (u : Backend Entry τ) :
    Triple (fun v => v = u) (find T k exclusive)
      (fun r v => Granted (T.partition k) u ∧
        (r = none ∧ u.table.find T k = none ∧ v = u.asked .dshash_find ∨
          ∃ i, r = some i.address ∧ u.table.find T k = some i ∧
            v = (u.asked .dshash_find).locked (T.partition k) (if exclusive then .exclusive else .shared)))
      (fun _ => Refused .dshash_find (T.partition k) (if exclusive then .exclusive else .shared) u) := by
  unfold find
  rw [dshash_find_eq]
  exact triple_pg_try (triple_dshash_find_with T k exclusive u) (fun _ h => h) (fun _ _ h => h)
    fun _ h => h

theorem evals_find_none {k : K} (exclusive : Bool) {u : Backend Entry τ}
    (h : Granted (T.partition k) u) (hfind : u.table.find T k = none) :
    Evals (find T k exclusive) u none (u.asked .dshash_find) := by
  refine evals_pg_try (Evals.bind (evals_request _ _ h) (Evals.get_bind ?_))
  have hmiss : ((u.asked .dshash_find).locked (T.partition k)
      (if exclusive then .exclusive else .shared)).table.find T k = none := hfind
  rw [hmiss]
  exact Evals.bind (evals_release rfl) (Evals.pure _ _)

theorem evals_find_some {k : K} (exclusive : Bool) {u : Backend Entry τ} {i : Item Entry}
    (h : Granted (T.partition k) u) (hfind : u.table.find T k = some i) :
    Evals (find T k exclusive) u (some i.address)
      ((u.asked .dshash_find).locked (T.partition k) (if exclusive then .exclusive else .shared)) := by
  refine evals_pg_try (Evals.bind (evals_request _ _ h) (Evals.get_bind ?_))
  have hhit : ((u.asked .dshash_find).locked (T.partition k)
      (if exclusive then .exclusive else .shared)).table.find T k = some i := hfind
  rw [hhit]
  exact Evals.pure _ _

theorem triple_dshash_find_or_insert_with (k : K) (u : Backend Entry τ) :
    Triple (fun v => v = u) (dshash_find_or_insert_with T waits k)
      (fun r v => (u.failures u.trace.length = .none ∧ ¬waits u.held (T.partition k) .exclusive) ∧
        ((∃ i, r = (i.address, true) ∧ u.table.find T k = some i ∧
            v = (u.asked .dshash_find_or_insert).locked (T.partition k) .exclusive) ∨
          r = (u.table.fresh, false) ∧ u.table.find T k = none ∧
            v = { (u.asked .dshash_find_or_insert).locked (T.partition k) .exclusive with
                  table := u.table.insert T k u.memory }))
      (fun _ => Refused .dshash_find_or_insert (T.partition k) .exclusive u) := by
  refine Triple.bind (triple_request_with _ _ _ u) fun _ => Triple.get_bind ?_
  rintro v ⟨hgranted, rfl⟩
  -- the lock is there; now the key is found or entered
  rcases hfind : u.table.find T k with _ | i
  · have hmiss : ((u.asked .dshash_find_or_insert).locked (T.partition k) .exclusive).table.find T k
        = none := hfind
    rw [hmiss]
    refine Triple.bind (Triple.modify (Q := fun _ v => v = { (u.asked .dshash_find_or_insert).locked
      (T.partition k) .exclusive with table := u.table.insert T k u.memory }) ?_) fun _ =>
        Triple.pure fun v h => ⟨hgranted, .inr ⟨rfl, rfl, h⟩⟩
    rintro v rfl
    rfl
  · have hhit : ((u.asked .dshash_find_or_insert).locked (T.partition k) .exclusive).table.find T k
        = some i := hfind
    rw [hhit]
    exact Triple.pure fun v h => ⟨hgranted, .inl ⟨i, rfl, rfl, h⟩⟩

/-- `dshash::find_or_insert` does not return from a state in which it is refused. -/
theorem triple_find_or_insert_from (k : K) (u : Backend Entry τ) :
    Triple (fun v => v = u) (find_or_insert T k) (fun _ _ => Granted (T.partition k) u)
      (fun _ => Refused .dshash_find_or_insert (T.partition k) .exclusive u) := by
  unfold find_or_insert
  rw [dshash_find_or_insert_eq]
  refine triple_pg_try (Y := fun _ => Refused .dshash_find_or_insert _ _ u) ?_ (fun _ h => h)
    (fun _ _ h => h) fun _ h => h
  exact Triple.bind (triple_dshash_find_or_insert_with T k u) fun r => Triple.pure fun _ h => h.1

theorem evals_find_or_insert_some {k : K} {u : Backend Entry τ} {i : Item Entry}
    (h : Granted (T.partition k) u) (hfind : u.table.find T k = some i) :
    Evals (find_or_insert T k) u (i.address, false)
      ((u.asked .dshash_find_or_insert).locked (T.partition k) .exclusive) := by
  have hinner : Evals (dshash_find_or_insert T k) u (i.address, true)
      ((u.asked .dshash_find_or_insert).locked (T.partition k) .exclusive) := by
    refine Evals.bind (evals_request _ _ h) (Evals.get_bind ?_)
    have hhit : ((u.asked .dshash_find_or_insert).locked (T.partition k) .exclusive).table.find T k
        = some i := hfind
    rw [hhit]
    exact Evals.pure _ _
  exact evals_pg_try (Evals.bind hinner (Evals.pure _ _))

theorem evals_find_or_insert_none {k : K} {u : Backend Entry τ} (h : Granted (T.partition k) u)
    (hfind : u.table.find T k = none) :
    Evals (find_or_insert T k) u (u.table.fresh, true)
      { (u.asked .dshash_find_or_insert).locked (T.partition k) .exclusive with
        table := u.table.insert T k u.memory } := by
  have hinner : Evals (dshash_find_or_insert T k) u (u.table.fresh, false)
      { (u.asked .dshash_find_or_insert).locked (T.partition k) .exclusive with
        table := u.table.insert T k u.memory } := by
    refine Evals.bind (evals_request _ _ h) (Evals.get_bind ?_)
    have hmiss : ((u.asked .dshash_find_or_insert).locked (T.partition k) .exclusive).table.find T k
        = none := hfind
    rw [hmiss]
    exact Evals.bind (Evals.modify _ _) (Evals.pure _ _)
  exact evals_pg_try (Evals.bind hinner (Evals.pure _ _))

/-- A found or inserted entry is behind the address, filed under the partition of the key. -/
theorem evals_find_or_insert {k : K} {u : Backend Entry τ} (h : Granted (T.partition k) u) :
    ∃ r u', Evals (find_or_insert T k) u r u' ∧
      (∃ i, u'.table.deref r.1 = some i ∧ i.partition = T.partition k) ∧
      u'.held = (T.partition k, .exclusive) :: u.held := by
  rcases hfind : u.table.find T k with _ | i
  · exact ⟨_, _, evals_find_or_insert_none T h hfind,
      ⟨_, Table.deref_insert T u.table k u.memory, rfl⟩, rfl⟩
  · exact ⟨_, _, evals_find_or_insert_some T h hfind,
      ⟨i, Table.deref_of_find T hfind, Table.partition_of_find T hfind⟩, rfl⟩

/-- The destructor of an `entry_ref` from any state. -/
theorem evals_entry_ref_destructor {entry : ℕ} {i : Item Entry} {mode : Mode}
    {held : List (ℕ × Mode)} {u : Backend Entry τ} (hderef : u.table.deref entry = some i)
    (hheld : u.held = (i.partition, mode) :: held) :
    Evals (entry_ref_destructor entry) u () { u with held := held } := by
  refine evals_pg_assert_noerror (Evals.get_bind ?_) _
  rw [hderef]
  exact evals_release hheld

theorem triple_entry_ref_destructor_from {entry : ℕ} {i : Item Entry} {mode : Mode}
    {held : List (ℕ × Mode)} {u : Backend Entry τ} {X : Exit → Backend Entry τ → Prop}
    (hderef : u.table.deref entry = some i) (hheld : u.held = (i.partition, mode) :: held) :
    Triple (fun v => v = u) (entry_ref_destructor entry) (fun _ v => v = { u with held := held }) X := by
  refine triple_pg_assert_noerror (Y := fun _ _ => False) ?_ (fun _ h => absurd h id)
    (fun _ h => absurd h id) fun _ h => absurd h id
  refine Triple.get_bind ?_
  rintro u rfl
  rw [hderef]
  exact triple_release_from hheld

end OidcValidator.Dshash
