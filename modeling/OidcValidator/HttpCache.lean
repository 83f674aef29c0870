/-
`HttpCache.lean` -- `http_cache.hpp`: HTTP bodies in the shared table, keyed by URL.

An entry is three fields of fixed size. `put` overwrites them one after the other under
the exclusive lock of the partition, `get` reads under the shared lock and, when the
entry has expired, asks the table to delete it.

That deletion is made while the `entry_ref` of the lookup is still in scope, so with the
shared lock held, and `dshash_delete_key` wants the same lock exclusively. The last
section says what follows: as long as no `get` meets an expired entry, and no request
fails with its lock taken, every request of every run is made without a lock.
-/
import OidcValidator.Dshash
import OidcValidator.Number

set_option autoImplicit false

namespace OidcValidator.HttpCache

open OidcValidator.ByteString OidcValidator.Number OidcValidator.Control
open OidcValidator.PgUtils OidcValidator.Dshash

/-! ## Entries -/

/-- `url_size`. -/
def url_size : ℕ := 512

/-- `json_response_size`. -/
def json_response_size : ℕ := 8192

/-- `max_url_len`. -/
def max_url_len : ℕ := url_size - 1

/-- `max_json_len`. -/
def max_json_len : ℕ := json_response_size - 1

/-- `http_cache_entry`. -/
structure HttpCacheEntry where
  url : Bytes
  json_response : Bytes
  expiration : ℤ
  url_length : url.length = url_size
  json_length : json_response.length = json_response_size

namespace HttpCacheEntry

/-- `strncpy(entry->url.data(), url, max_url_len)`. -/
def copy_url (url : Bytes) (e : HttpCacheEntry) : HttpCacheEntry :=
  { e with
    url := strncpy e.url url max_url_len
    url_length := by rw [length_strncpy _ _ (by rw [e.url_length]; decide), e.url_length] }

/-- `entry->url[max_url_len] = '\0'`. -/
def end_url (e : HttpCacheEntry) : HttpCacheEntry :=
  { e with
    url := e.url.set max_url_len 0
    url_length := by rw [List.length_set, e.url_length] }

/-- `strncpy(entry->json_response.data(), json_response, max_json_len)`. -/
def copy_json (json_response : Bytes) (e : HttpCacheEntry) : HttpCacheEntry :=
  { e with
    json_response := strncpy e.json_response json_response max_json_len
    json_length := by rw [length_strncpy _ _ (by rw [e.json_length]; decide), e.json_length] }

/-- `entry->json_response[max_json_len] = '\0'`. -/
def end_json (e : HttpCacheEntry) : HttpCacheEntry :=
  { e with
    json_response := e.json_response.set max_json_len 0
    json_length := by rw [List.length_set, e.json_length] }

/-- `entry->expiration = t`. -/
def set_expiration (t : ℤ) (e : HttpCacheEntry) : HttpCacheEntry := { e with expiration := t }

/-- `dshash_strcpy` into the key of a new entry. -/
def copy_key (key : Bytes) (e : HttpCacheEntry) : HttpCacheEntry :=
  { e with
    url := strlcpy e.url key
    url_length := by rw [length_strlcpy _ _ (by rw [e.url_length]; decide), e.url_length] }

end HttpCacheEntry

/-- `compare`, `hash` and `copy` of `http_cache_entry`: keys are C strings. -/
def entry_type (hash : Bytes → ℕ) : EntryType HttpCacheEntry Bytes where
  key e := c_str e.url
  partition := hash
  copy := HttpCacheEntry.copy_key

/-! ## The cache object -/

/-- The part of a process that the cache works on, next to the rest: the singleton's
`cache_`, and the readings of `time(nullptr)` to come. -/
structure Process (τ : Type) where
  cache_ : Option Attachment
  clock : ℕ → ℤ
  clock_reads : ℕ
  rest : τ

/-- A backend with the cache. -/
abbrev World (τ : Type) := Backend HttpCacheEntry (Process τ)

variable {τ : Type} (hash : Bytes → ℕ)

/-- What the next `time(nullptr)` returns. -/
def now (u : World τ) : ℤ := u.rest.clock u.rest.clock_reads

/-- `time(nullptr)`. -/
def time : Prog CppException (World τ) ℤ := do
  let u ← get
  modify fun u => { u with rest := { u.rest with clock_reads := u.rest.clock_reads + 1 } }
  pure (now u)

/-- `http_cache::attach`. -/
def attach : Prog CppException (World τ) Unit := do
  let u ← get
  match u.rest.cache_ with
  | some _ => pure ()
  | none => do
      let cache ← attach_shared (bytes "HttpCache")
      modify fun u => { u with rest := { u.rest with cache_ := some cache } }

/-- The entry behind an `entry_ref`. -/
def deref (entry : ℕ) : Prog CppException (World τ) HttpCacheEntry := do
  let u ← get
  match u.table.deref entry with
  | some i => pure i.entry
  | none => halt .undefined

/-- A write through an `entry_ref`. -/
def assign (entry : ℕ) (f : HttpCacheEntry → HttpCacheEntry) : Prog CppException (World τ) Unit :=
  modify fun u => { u with table := u.table.update entry f }

/-- `is_expired`. -/
def is_expired (entry : ℕ) : Prog CppException (World τ) Bool := do
  let t ← time
  let e ← deref entry
  pure (decide (e.expiration ≤ t))

/-- The two warnings about sizes. -/
def too_long (what : String) (length limit : ℕ) : Bytes :=
  bytes what ++ dec length ++ bytes " > " ++ dec limit

/-- What `get` does while its `entry_ref` is in scope. -/
def get_entry (url : Bytes) (entry : ℕ) : Prog CppException (World τ) (Option Bytes) := do
  if ← is_expired entry then do
    let _ ← erase (entry_type hash) (c_str url)
    pure none
  else do
    alloc
    let e ← deref entry
    pure (some (c_str e.json_response))

/-- `http_cache::get`. -/
def get (url : Bytes) : Prog CppException (World τ) (Option Bytes) :=
  pg_try do
    let u ← Control.get
    if u.rest.cache_.isNone then pure none
    else if max_url_len < url.length then do
      elog .WARNING (too_long "URL too long for cache: " url.length max_url_len)
      pure none
    else do
      let entry_ref ← find (entry_type hash) (c_str url) false
      match entry_ref with
      | none => pure none
      | some entry => with_destructor (get_entry hash url entry) (entry_ref_destructor entry)

/-- What `put` does while its `entry_ref` is in scope. -/
def put_entry (url json_response : Bytes) (max_age_seconds : ℤ) (entry : ℕ) :
    Prog CppException (World τ) Bool := do
  assign entry (HttpCacheEntry.copy_url url)
  assign entry HttpCacheEntry.end_url
  assign entry (HttpCacheEntry.copy_json json_response)
  assign entry HttpCacheEntry.end_json
  let t ← time
  assign entry (HttpCacheEntry.set_expiration (t + max_age_seconds))
  pure true

/-- `http_cache::put`. -/
def put (url json_response : Bytes) (max_age_seconds : ℤ) : Prog CppException (World τ) Bool :=
  pg_try do
    let u ← Control.get
    if u.rest.cache_.isNone then pure false
    else if max_url_len < url.length then do
      elog .WARNING (too_long "URL too long for cache: " url.length max_url_len)
      pure false
    else if max_json_len < json_response.length then do
      elog .WARNING
        (too_long "JSON response too large for cache: " json_response.length max_json_len)
      pure false
    else if max_age_seconds ≤ 0 then pure false
    else do
      let (entry, _) ← find_or_insert (entry_type hash) (c_str url)
      with_destructor (put_entry url json_response max_age_seconds entry)
        (entry_ref_destructor entry)

/-! ## Frames -/

theorem framed_time : Framed (fun u => u.rest.rest) (time : Prog CppException (World τ) ℤ) :=
  Framed.bind Framed.get fun _ => Framed.bind (Framed.modify fun _ => rfl) fun _ => Framed.pure _

theorem framed_deref (entry : ℕ) :
    Framed (fun u => u.rest.rest) (deref entry : Prog CppException (World τ) HttpCacheEntry) := by
  refine Framed.bind Framed.get fun u => ?_
  cases u.table.deref entry with
  | none => exact Framed.halt _
  | some i => exact Framed.pure _

/-- `http_cache::attach` is balanced and leaves the rest alone. -/
theorem framed_attach : Framed (fun u => u.rest.rest) (attach : Prog CppException (World τ) Unit) := by
  refine Framed.bind Framed.get fun u => ?_
  cases u.rest.cache_ with
  | none => exact Framed.bind ((framed_attach_shared _).comp Process.rest) fun _ => Framed.modify fun _ => rfl
  | some c => exact Framed.pure _

theorem framed_get_entry (url : Bytes) (entry : ℕ) :
    Framed (fun u => u.rest.rest) (get_entry hash url entry : Prog CppException (World τ) (Option Bytes)) := by
  refine Framed.bind ?_ fun expired => Framed.ite ?_ ?_
  · refine Framed.bind framed_time fun _ => Framed.bind (framed_deref _) fun _ => ?_
    exact Framed.pure _
  · exact Framed.bind ((framed_erase _ _).comp Process.rest) fun _ => Framed.pure _
  · refine Framed.bind Framed.alloc fun _ => Framed.bind (framed_deref _) fun _ => ?_
    exact Framed.pure _

/-- `http_cache::get` is balanced and leaves the rest alone. -/
theorem framed_get (url : Bytes) :
    Framed (fun u => u.rest.rest) (get hash url : Prog CppException (World τ) (Option Bytes)) := by
  refine framed_pg_try (Framed.bind Framed.get fun u => ?_)
  refine Framed.ite (Framed.pure _) (Framed.ite ?_ ?_)
  · exact Framed.bind (Framed.elog _ _) fun _ => Framed.pure _
  · refine Framed.bind ((framed_find _ _ _).comp Process.rest) fun entry_ref => ?_
    cases entry_ref with
    | none => exact Framed.pure _
    | some entry =>
      exact Framed.with_destructor (framed_get_entry _ _ _) ((framed_entry_ref_destructor _).comp Process.rest)

/-- `http_cache::put` is balanced and leaves the rest alone. -/
theorem framed_put (url json_response : Bytes) (max_age_seconds : ℤ) :
    Framed (fun u => u.rest.rest) (put hash url json_response max_age_seconds : Prog CppException (World τ) Bool) := by
  refine framed_pg_try (Framed.bind Framed.get fun u => ?_)
  have hwarn : ∀ msg, Framed (fun u => u.rest.rest)
      (elog .WARNING msg >>= fun _ => pure false : Prog CppException (World τ) Bool) :=
    fun msg => Framed.bind (Framed.elog _ _) fun _ => Framed.pure _
  refine Framed.ite (Framed.pure _) (Framed.ite (hwarn _) (Framed.ite (hwarn _) ?_))
  refine Framed.ite (Framed.pure _) (Framed.bind ((framed_find_or_insert _ _).comp Process.rest) fun r => ?_)
  refine Framed.with_destructor ?_ ((framed_entry_ref_destructor _).comp Process.rest)
  refine Framed.bind (Framed.modify fun _ => rfl) fun _ => Framed.bind (Framed.modify fun _ => rfl) fun _ => ?_
  refine Framed.bind (Framed.modify fun _ => rfl) fun _ => Framed.bind (Framed.modify fun _ => rfl) fun _ => ?_
  refine Framed.bind framed_time fun _ => Framed.bind (Framed.modify fun _ => rfl) fun _ => ?_
  exact Framed.pure _

/-! ## Which locks are held

`Fresh` is what keeps `get` away from the deletion: the entry it is going to find, if
any, has not expired at the clock reading it is going to make. -/

/-- `get url` will not meet an expired entry. -/
def Fresh (url : Bytes) (u : World τ) : Prop :=
  ∀ i, u.table.find (entry_type hash) (c_str url) = some i → now u < i.entry.expiration

/-- `get url` will ask the table. -/
def GetAsks (url : Bytes) (u : World τ) : Prop :=
  u.rest.cache_.isSome ∧ url.length ≤ max_url_len

/-- `put url json_response max_age_seconds` will ask the table. -/
def PutAsks (url json_response : Bytes) (max_age_seconds : ℤ) (u : World τ) : Prop :=
  u.rest.cache_.isSome ∧ url.length ≤ max_url_len ∧ json_response.length ≤ max_json_len
    ∧ 0 < max_age_seconds

theorem triple_time {P : World τ → Prop} {Q : ℤ → World τ → Prop} {X : Exit → World τ → Prop}
    (h : ∀ u, P u →
      Q (now u) { u with rest := { u.rest with clock_reads := u.rest.clock_reads + 1 } }) :
    Triple P time Q X := by
  refine Triple.get_bind fun u hu => ?_
  refine Triple.modify_bind (R := Q (now u)) ?_ (Triple.pure fun _ h => h)
  rintro _ rfl
  exact h _ hu

theorem triple_deref {P : World τ → Prop} {Q : HttpCacheEntry → World τ → Prop}
    {X : Exit → World τ → Prop} {entry : ℕ}
    (h : ∀ u, P u → ∃ i, u.table.deref entry = some i ∧ Q i.entry u) :
    Triple P (deref entry) Q X := by
  refine Triple.get_bind fun u hu => ?_
  obtain ⟨i, hderef, hQ⟩ := h u hu
  rw [hderef]
  refine Triple.pure ?_
  rintro _ rfl
  exact hQ

/-- An entry that is fresh at the reading `is_expired` makes is not expired. -/
theorem triple_is_expired {entry : ℕ} {X : Exit → World τ → Prop} :
    Triple (fun u => Holding entry u ∧
        ∃ i, u.table.deref entry = some i ∧ now u < i.entry.expiration)
      (is_expired entry) (fun b u => b = false ∧ Holding entry u) X := by
  refine Triple.bind (R := fun t u => Holding entry u ∧
    ∃ i, u.table.deref entry = some i ∧ t < i.entry.expiration) ?_ fun t => ?_
  · exact triple_time fun u hu => ⟨⟨hu.1.held, hu.1.disciplined⟩, hu.2⟩
  refine Triple.bind (R := fun e u => t < e.expiration ∧ Holding entry u) ?_ fun e => ?_
  · refine triple_deref ?_
    rintro u ⟨hhold, i, hderef, hlt⟩
    exact ⟨i, hderef, hlt, hhold⟩
  · refine Triple.pure ?_
    rintro u ⟨hlt, hhold⟩
    exact ⟨by simpa using hlt, hhold⟩

/-- On a fresh entry, `get` copies the body out and keeps its lock. The copy may throw. -/
theorem triple_get_entry (url : Bytes) {entry : ℕ} :
    Triple (fun u => Holding entry u ∧
        ∃ i, u.table.deref entry = some i ∧ now u < i.entry.expiration)
      (get_entry hash url entry) (fun _ => Holding entry)
      (fun x u => x = .throw ∧ Holding (τ := Process τ) entry u) := by
  refine Triple.bind triple_is_expired fun b => Triple.ite (fun hb => ?_) fun _ => ?_
  · rintro m ⟨hfalse, -⟩
    rw [hfalse] at hb
    exact absurd hb (by simp)
  · refine Triple.bind (R := fun _ => Holding entry) ?_ fun _ => ?_
    · exact Triple.alloc (fun _ h => h.2) fun _ h => ⟨rfl, h.2⟩
    · refine Triple.bind (R := fun _ => Holding entry) ?_ fun e => Triple.pure fun _ h => h
      refine triple_deref fun u hu => ?_
      obtain ⟨i, mode, hderef, -⟩ := hu.held
      exact ⟨i, hderef, hu⟩

/-- The early returns with a warning. -/
theorem triple_warn {α : Type} {P : World τ → Prop} (hP : ∀ u, P u → Idle u) (level : Level)
    (msg : Bytes) (a : α) :
    Triple P (elog level msg >>= fun _ => pure a : Prog CppException (World τ) α)
      (fun _ => Idle) (fun _ => Idle) := by
  refine Triple.bind (R := fun _ => Idle) ?_ fun _ => Triple.pure fun _ h => h
  exact Triple.elog hP hP hP

/-- **`get` on a fresh entry is disciplined** and holds nothing when it ends. -/
theorem triple_get (url : Bytes) :
    Triple (fun u : World τ => Idle u ∧ (GetAsks url u → Timely u ∧ Fresh hash url u))
      (get hash url) (fun _ => Idle) (fun _ => Idle) := by
  refine triple_pg_try (Y := fun _ => Idle) ?_ (fun _ h => h) (fun _ _ h => h) fun _ h => h
  refine Triple.get_bind fun u hu => ?_
  have hidle : ∀ v, v = u → Idle v := fun _ h => h ▸ hu.1
  refine Triple.ite (fun _ => Triple.pure hidle) fun hcache => ?_
  refine Triple.ite (fun _ => triple_warn hidle _ _ _) fun hurl => ?_
  obtain ⟨htimely, hfresh⟩ := hu.2 ⟨by simpa [Option.isSome_iff_ne_none] using hcache, by omega⟩
  -- what `dshash_find` finds is fresh by the clock that is read next
  let G : Table HttpCacheEntry → Process τ → Prop := fun t p =>
    ∀ i, t.find (entry_type hash) (c_str url) = some i → p.clock p.clock_reads < i.entry.expiration
  refine Triple.bind ((triple_find (G := G) _ _ _).consequence
    (fun _ h => h ▸ ⟨⟨hu.1, htimely⟩, hfresh⟩) (fun _ _ h => h) fun _ _ h => h) fun r => ?_
  cases r with
  | none => exact Triple.pure fun _ h => h
  | some entry =>
    refine Triple.with_destructor
      ((triple_get_entry hash url).consequence ?_ (fun _ _ h => h) fun _ _ h => h)
      (fun _ => triple_entry_ref_destructor entry) ?_ (fun _ h => absurd h.1 nofun)
      fun _ h => absurd h.1 nofun
    · rintro v ⟨⟨hhold, i, hfind, rfl⟩, hG⟩
      exact ⟨hhold, i, Table.deref_of_find _ hfind, hG i hfind⟩
    · exact (triple_entry_ref_destructor entry).consequence (fun _ h => h.2) (fun _ _ h => h)
        fun _ _ h => h

/-- `put` writes under its lock and cannot fail there. -/
theorem triple_put_entry (url json_response : Bytes) (max_age_seconds : ℤ) {entry : ℕ}
    {X : Exit → World τ → Prop} :
    Triple (Holding entry) (put_entry url json_response max_age_seconds entry)
      (fun _ => Holding entry) X := by
  have hassign : ∀ f, Triple (Holding entry) (assign (τ := τ) entry f) (fun _ => Holding entry) X :=
    fun f => Triple.modify fun u hu => hu.update entry f
  refine Triple.bind (hassign _) fun _ => Triple.bind (hassign _) fun _ => ?_
  refine Triple.bind (hassign _) fun _ => Triple.bind (hassign _) fun _ => ?_
  refine Triple.bind (R := fun _ => Holding entry) ?_ fun t => ?_
  · exact triple_time fun u hu => ⟨hu.held, hu.disciplined⟩
  · exact Triple.bind (hassign _) fun _ => Triple.pure fun _ h => h

/-- **`put` is disciplined** and holds nothing when it ends. -/
theorem triple_put (url json_response : Bytes) (max_age_seconds : ℤ) :
    Triple (fun u : World τ => Idle u ∧
        (PutAsks url json_response max_age_seconds u → Timely u))
      (put hash url json_response max_age_seconds) (fun _ => Idle) (fun _ => Idle) := by
  refine triple_pg_try (Y := fun _ => Idle) ?_ (fun _ h => h) (fun _ _ h => h) fun _ h => h
  refine Triple.get_bind fun u hu => ?_
  have hidle : ∀ v, v = u → Idle v := fun _ h => h ▸ hu.1
  refine Triple.ite (fun _ => Triple.pure hidle) fun hcache => ?_
  refine Triple.ite (fun _ => triple_warn hidle _ _ _) fun hurl => ?_
  refine Triple.ite (fun _ => triple_warn hidle _ _ _) fun hjson => ?_
  refine Triple.ite (fun _ => Triple.pure hidle) fun hage => ?_
  have htimely : Timely u := hu.2 ⟨by simpa [Option.isSome_iff_ne_none] using hcache, by omega,
    by omega, by omega⟩
  -- all is in range, so the entry is looked up and the lock is there
  refine Triple.bind ((triple_find_or_insert _ _).consequence (fun _ h => h ▸ ⟨hu.1, htimely⟩)
    (fun _ _ h => h) fun _ _ h => h) fun r => ?_
  exact Triple.with_destructor (triple_put_entry (X := fun _ _ => False) url json_response _)
    (fun _ => triple_entry_ref_destructor r.1) (fun _ h => absurd h id) (fun _ h => absurd h id)
    fun _ h => absurd h id

/-! ## Runs

One backend calls `get` and `put` in any order; between two calls other backends may
leave anything in the table. A call that returns or throws is followed by the next, one
that jumps out or ends the process is the last. -/

/-- What happens next. -/
inductive Action where
  | get (url : Bytes)
  | put (url json_response : Bytes) (max_age_seconds : ℤ)
  | others (table : Table HttpCacheEntry)

/-- An action as a program. -/
def perform : Action → Prog CppException (World τ) Unit
  | .get url => do let _ ← get hash url; pure ()
  | .put url json_response max_age_seconds => do
      let _ ← put hash url json_response max_age_seconds; pure ()
  | .others table => modify fun u => { u with table := table }

/-- The machine after a list of actions. -/
def run : List Action → Machine CppException (World τ) → Machine CppException (World τ)
  | [], m => m
  | a :: as, m =>
      match perform hash a m with
      | (.ret _, m') => run as m'
      | (.throw _, m') => run as m'
      | (_, m') => m'

/-- The condition on one action and the state before it: the request it makes, if it makes
one, does not fail with its lock taken, and a `get` does not meet an expired entry. -/
def Safe (u : World τ) : Action → Prop
  | .get url => GetAsks url u → Timely u ∧ Fresh hash url u
  | .put url json_response max_age_seconds =>
      PutAsks url json_response max_age_seconds u → Timely u
  | .others _ => True

/-- Every action of the run meets the condition in the state it starts from. -/
def SafeRun : List Action → Machine CppException (World τ) → Prop
  | [], _ => True
  | a :: as, m => Safe hash m.user a ∧
      match perform hash a m with
      | (.ret _, m') => SafeRun as m'
      | (.throw _, m') => SafeRun as m'
      | _ => True

/-- One action. -/
theorem perform_idle (a : Action) :
    Triple (fun u : World τ => Idle u ∧ Safe hash u a) (perform hash a)
      (fun _ => Idle) (fun _ => Idle) := by
  cases a with
  | get url =>
    exact Triple.bind (triple_get hash url) fun _ => Triple.pure fun _ h => h
  | put url json_response max_age_seconds =>
    exact Triple.bind (triple_put hash url json_response max_age_seconds)
      fun _ => Triple.pure fun _ h => h
  | others table =>
    exact Triple.modify (f := fun u : World τ => { u with table := table })
      fun u h => ⟨h.1.held, h.1.disciplined⟩

/-- A run. -/
theorem run_idle (as : List Action) {m : Machine CppException (World τ)} (hm : Idle m.user)
    (hs : SafeRun hash as m) : Idle (run hash as m).user := by
  induction as generalizing m with
  | nil => exact hm
  | cons a as ih =>
    have hend := perform_idle hash a m ⟨hm, hs.1⟩
    have hrest := hs.2
    unfold run
    rcases hp : perform hash a m with ⟨_ | _ | _ | _, m₁⟩ <;> rw [hp] at hend hrest
    · exact ih hend hrest
    · exact ih hend hrest
    · exact hend
    · exact hend

/-- An entry of zeros. -/
def blank_entry : HttpCacheEntry where
  url := List.replicate url_size 0
  json_response := List.replicate json_response_size 0
  expiration := 0
  url_length := List.length_replicate
  json_length := List.length_replicate

/-- An attached backend at time `t`, with `table` in shared memory and nothing failing. -/
def quiet_machine (table : Table HttpCacheEntry) (t : ℤ) :
    Machine CppException (World Unit) where
  exception_stack := some 0
  error_data := []
  memory_context := .other 0
  next_buffer := 1
  next_error := 0
  faults _ := .none
  ticks := 0
  log := []
  user :=
    { table, held := [], trace := [], failures := fun _ => .none, memory := blank_entry,
      segment := none, state_lock := false, next_handle := 0,
      rest := { cache_ := some ⟨0, 0⟩, clock := fun _ => t, clock_reads := 0, rest := () } }

end OidcValidator.HttpCache
