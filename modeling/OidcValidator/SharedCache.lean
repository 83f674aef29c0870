/-
`SharedCache.lean` -- many backends read and write one cache.

`put` writes an entry field by field, `get` reads it field by field, and the clock is read
in between. What keeps a reader from seeing half of a `put` is the lock of the partition:
it is taken by the lookup and given back by the `entry_ref`.

Each access to the table, each field that is read or written and each reading of the clock
is one step here, and so is a whole transfer, which touches nothing that is shared. The
backend is attached to the one table there is, or not attached at all. Every put is entered in
a log when its lock is released; the log is not part of the program.
-/
import OidcValidator.HttpClient
import OidcValidator.Interleaving

set_option autoImplicit false

namespace OidcValidator.SharedCache

open OidcValidator.ByteString OidcValidator.Dshash OidcValidator.HttpCache
open OidcValidator.HttpClient OidcValidator.Interleaving
open OidcValidator.Picojson (Value parse parse_c_str)

/-! ## What is shared -/

/-- The lock of a partition: any number of shared holders, or one exclusive holder. -/
inductive PartitionLock (ι : Type) where
  | shared (holders : List ι)
  | exclusive (holder : ι)

/-- What a `get_json` call wants to put: the response to its transfer, complete and with
status 200, the value it has parsed from the whole body, and the age it has read from the
headers. -/
structure Document where
  url : Bytes
  response : Response
  value : Value
  max_age : ℤ
  ok : response.error = none ∧ response.response_code = 200
  parsed : parse response.body.flatten = .value value
  aged : response.headers.foldl header_callback none = some max_age

/-- The body of the response. -/
def Document.body (doc : Document) : Bytes := doc.response.body.flatten

/-- The key of the document: its URL as a C string. -/
def Document.key (doc : Document) : Bytes := c_str doc.url

/-- A put: the document and the reading of the clock that `put` made. -/
structure Put extends Document where
  clock : ℤ

/-- The table, the locks of its partitions, and the log of completed puts, newest first. -/
structure Shared (ι : Type) where
  table : Table HttpCacheEntry
  locks : ℕ → PartitionLock ι
  puts : List Put

/-- The most recent completed put under a key. -/
def latest (puts : List Put) (key : Bytes) : Option Put :=
  puts.find? fun put => put.key = key

/-! ## The steps -/

/-- The writes of `put` before its reading of the clock. -/
inductive Stage where
  | copy_url | end_url | copy_json | end_json

/-- What `get` is left with when it gives the lock back: the body, with the reading of the
clock and the log at that moment; nothing; or an exception. -/
inductive Got where
  | hit (json : Bytes) (t : ℤ) (log : List Put)
  | miss
  | thrown

/-- Where a backend is in `get_json`, `get` and `put`, with the locals that it still needs. -/
inductive Pc where
  | idle
  | get (url : Bytes)
  | read_clock (url : Bytes) (entry : ℕ)
  | read_expiration (url : Bytes) (entry : ℕ) (t : ℤ) (log : List Put)
  | erase (url : Bytes) (entry : ℕ)
  | read_json (url : Bytes) (entry : ℕ) (t : ℤ) (log : List Put)
  | release_get (url : Bytes) (entry : ℕ) (got : Got)
  | parse (url json : Bytes) (t : ℤ) (log : List Put)
  | fetch (url : Bytes)
  | put (doc : Document)
  | write (stage : Stage) (doc : Document) (entry : ℕ)
  | read_put_clock (doc : Document) (entry : ℕ)
  | set_expiration (put : Put) (entry : ℕ)
  | release_put (put : Put) (entry : ℕ)
  | finish (url : Bytes) (value : Value)
  | returned (url : Bytes) (value : Value) (hit : Option (ℤ × List Put))
  | failed

/-- What is not up to the backend. `fail_locked` is a failure that leaves a lock behind: an
`ERROR` of a request that has already taken it, or one that is raised while the `ERROR` of a
deletion is handled and so jumps over the destructor of the `entry_ref`. -/
inductive Choice where
  | call (url : Bytes)
  | go
  | detached
  | clock (t : ℤ)
  | transfer (response : Response)
  | memory (m : HttpCacheEntry)
  | fail
  | fail_locked
  | exit

variable {ι : Type}

/-- Replace the lock of a partition. -/
def Shared.relock (s : Shared ι) (p : ℕ) (l : PartitionLock ι) : Shared ι :=
  { s with locks := Function.update s.locks p l }

/-- `LWLockAcquire(LW_SHARED)`. -/
def Shared.lock_shared (i : ι) (p : ℕ) (s : Shared ι) : Option (Shared ι) :=
  match s.locks p with
  | .shared holders => some (s.relock p (.shared (i :: holders)))
  | .exclusive _ => none

/-- `LWLockAcquire(LW_EXCLUSIVE)`. -/
def Shared.lock_exclusive (i : ι) (p : ℕ) (s : Shared ι) : Option (Shared ι) :=
  match s.locks p with
  | .shared [] => some (s.relock p (.exclusive i))
  | _ => none

/-- What `stage` writes. -/
def Stage.apply (doc : Document) : Stage → HttpCacheEntry → HttpCacheEntry
  | .copy_url => HttpCacheEntry.copy_url doc.url
  | .end_url => HttpCacheEntry.end_url
  | .copy_json => HttpCacheEntry.copy_json doc.body
  | .end_json => HttpCacheEntry.end_json

/-- What follows `stage`. -/
def Stage.after (doc : Document) (entry : ℕ) : Stage → Pc
  | .copy_url => .write .end_url doc entry
  | .end_url => .write .copy_json doc entry
  | .copy_json => .write .end_json doc entry
  | .end_json => .read_put_clock doc entry

/-- What follows the destructor of the `entry_ref` in `get`. -/
def Got.after (url : Bytes) : Got → Pc
  | .hit json t log => .parse url json t log
  | .miss => .fetch url
  | .thrown => .failed

/-- What follows the parsing of a cached body. -/
def parsed (url json : Bytes) (t : ℤ) (log : List Put) : Pc :=
  match parse json with
  | .value v => .returned url v (some (t, log))
  | .error _ => .fetch url
  | .overflow_error => .failed

/-- What follows a transfer. -/
def fetched (url : Bytes) (response : Response) : Pc :=
  if hok : response.error = none ∧ response.response_code = 200 then
    match hparse : parse response.body.flatten with
    | .value v =>
        match hage : response.headers.foldl header_callback none with
        | some max_age =>
            if 0 < max_age then .put ⟨url, response, v, max_age, hok, hparse, hage⟩
            else .finish url v
        | none => .finish url v
    | _ => .failed
  else .failed

/-- The backend is not inside `get_json`. -/
def Pc.outside : Pc → Bool
  | .idle | .returned _ _ _ | .failed => true
  | _ => false

section Steps

variable [DecidableEq ι] (hash : Bytes → ℕ)

/-- `LWLockRelease` of the lock of the partition an entry is filed under. -/
def Shared.unlock (i : ι) (entry : ℕ) (s : Shared ι) : Option (Shared ι) :=
  (s.table.deref entry).map fun item =>
    match s.locks item.partition with
    | .shared holders => s.relock item.partition (.shared (holders.erase i))
    | .exclusive _ => s.relock item.partition (.shared [])

/-- `LWLockReleaseAll`, at the end of a process. -/
def PartitionLock.without (i : ι) : PartitionLock ι → PartitionLock ι
  | .shared holders => .shared (holders.filter (· ≠ i))
  | .exclusive j => if j = i then .shared [] else .exclusive j

/-- The lookup of `get`. -/
def get_step (i : ι) (url : Bytes) (s : Shared ι) : Option (Shared ι × Pc) :=
  if max_url_len < url.length then some (s, .fetch url)
  else
    (s.lock_shared i (hash (c_str url))).map fun s' =>
      match s.table.find (entry_type hash) (c_str url) with
      | some item => (s', .read_clock url item.address)
      | none => (s, .fetch url)

/-- The lookup of `put`, or its refusal. -/
def put_step (i : ι) (doc : Document) (memory : HttpCacheEntry) (s : Shared ι) :
    Option (Shared ι × Pc) :=
  if max_url_len < doc.url.length ∨ max_json_len < doc.body.length ∨ doc.max_age ≤ 0 then
    some (s, .finish doc.url doc.value)
  else
    (s.lock_exclusive i (hash doc.key)).map fun s' =>
      match s.table.find (entry_type hash) doc.key with
      | some item => (s', .write .copy_url doc item.address)
      | none =>
          ({ s' with table := s.table.insert (entry_type hash) doc.key memory },
            .write .copy_url doc s.table.fresh)

/-- `dshash_delete_key`, which takes and releases the lock itself. -/
def erase_step (i : ι) (url : Bytes) (entry : ℕ) (s : Shared ι) : Option (Shared ι × Pc) :=
  (s.lock_exclusive i (hash (c_str url))).map fun _ =>
    ({ s with table := s.table.delete (entry_type hash) (c_str url) }, .release_get url entry .miss)

/-- The next step inside `get_json`, or the call of it. -/
def get_json_step (i : ι) (s : Shared ι) : Pc → Choice → Option (Shared ι × Pc)
  | .idle, .call url => some (s, .get url)
  | .returned _ _ _, .call url => some (s, .get url)
  | .failed, .call url => some (s, .get url)
  | .get url, .detached => some (s, .fetch url)
  | .get url, .go => get_step hash i url s
  | .get _, .fail => some (s, .failed)
  | .get url, .fail_locked => (s.lock_shared i (hash (c_str url))).map fun s' => (s', .failed)
  | .read_clock url entry, .clock t => some (s, .read_expiration url entry t s.puts)
  | .read_expiration url entry t log, .go =>
      (s.table.deref entry).map fun item =>
        (s, if item.entry.expiration ≤ t then .erase url entry else .read_json url entry t log)
  | .erase url entry, .go => erase_step hash i url entry s
  | .erase url entry, .fail => some (s, .release_get url entry .thrown)
  | .erase _ _, .fail_locked => some (s, .failed)
  | .read_json url entry t log, .go =>
      (s.table.deref entry).map fun item =>
        (s, .release_get url entry (.hit (c_str item.entry.json_response) t log))
  | .read_json url entry _ _, .fail => some (s, .release_get url entry .thrown)
  | .release_get url entry got, .go => (s.unlock i entry).map fun s' => (s', got.after url)
  | .parse url json t log, .go => some (s, parsed url json t log)
  | .parse _ _ _ _, .fail => some (s, .failed)
  | .fetch url, .transfer response => some (s, fetched url response)
  | .fetch _, .fail => some (s, .failed)
  | .put doc, .detached => some (s, .finish doc.url doc.value)
  | .put doc, .memory m => put_step hash i doc m s
  | .put _, .fail => some (s, .failed)
  | .put doc, .fail_locked => (s.lock_exclusive i (hash doc.key)).map fun s' => (s', .failed)
  | .write stage doc entry, .go =>
      some ({ s with table := s.table.update entry (stage.apply doc) }, stage.after doc entry)
  | .read_put_clock doc entry, .clock t => some (s, .set_expiration ⟨doc, t⟩ entry)
  | .set_expiration put entry, .go =>
      let set := HttpCacheEntry.set_expiration (put.clock + put.max_age)
      some ({ s with table := s.table.update entry set }, .release_put put entry)
  | .release_put put entry, .go =>
      (s.unlock i entry).map fun s' =>
        ({ s' with puts := put :: s'.puts }, .finish put.url put.value)
  | .finish url value, .go => some (s, .returned url value none)
  | .finish _ _, .fail => some (s, .failed)
  | _, _ => none

/-- A backend. Outside `get_json` its process may end, which gives back the locks that a
failed request has left. -/
def backend : Threads ι Choice (Shared ι) Pc := fun i c s pc =>
  match c with
  | .exit =>
      if pc.outside then some ({ s with locks := fun p => (s.locks p).without i }, .idle) else none
  | c => get_json_step hash i s pc c

/-- An empty table, before any backend has called. -/
def init : Config ι (Shared ι) Pc := ⟨⟨Table.empty, fun _ => .shared [], []⟩, fun _ => .idle⟩

end Steps

/-! ## The assertions -/

section Assertions

variable (hash : Bytes → ℕ)

/-- The entry is what `put` has stored: none of its three fields is from another put. -/
structure Stored (put : Put) (e : HttpCacheEntry) : Prop where
  url : c_str e.url = put.key
  json : c_str e.json_response = c_str put.body
  expiration : e.expiration = put.clock + put.max_age

/-- What is found under `k` is what the most recent completed put has stored. -/
def Good (s : Shared ι) (k : Bytes) : Prop :=
  ∀ item, s.table.find (entry_type hash) k = some item →
    ∃ put, latest s.puts k = some put ∧ Stored put item.entry

/-- Every entry is good, unless the lock of its partition is held exclusively. -/
def Sound (s : Shared ι) : Prop :=
  ∀ k, (∀ i, s.locks (hash k) ≠ .exclusive i) → Good hash s k

/-- `i` is among the shared holders of a partition. -/
def HoldsShared (i : ι) (s : Shared ι) (p : ℕ) : Prop := ∃ holders, s.locks p = .shared holders ∧ i ∈ holders

/-- `i` has found `entry` under `url` and holds the shared lock. -/
structure Reading (i : ι) (s : Shared ι) (url : Bytes) (entry : ℕ) : Prop where
  lock : HoldsShared i s (hash (c_str url))
  found : ∃ item, s.table.find (entry_type hash) (c_str url) = some item ∧ item.address = entry

/-- `i` has found or made `entry` for `doc`, holds the exclusive lock, and has come as far as
`F` says. -/
structure Writing (i : ι) (s : Shared ι) (doc : Document) (entry : ℕ) (F : HttpCacheEntry → Prop) :
    Prop where
  lock : s.locks (hash doc.key) = .exclusive i
  found : ∃ item, s.table.find (entry_type hash) doc.key = some item ∧ item.address = entry ∧
    F item.entry
  fits : doc.url.length ≤ max_url_len ∧ doc.body.length ≤ max_json_len

/-- `log` is the log at an earlier moment, and nothing has been put under `url` since. -/
def Current (s : Shared ι) (url : Bytes) (log : List Put) : Prop :=
  log <:+ s.puts ∧ latest log (c_str url) = latest s.puts (c_str url)

/-- At the reading `t` of the clock, when the log was `log`, the most recent put under `url`
had not expired and is what `P` says. -/
def Hit (s : Shared ι) (url : Bytes) (t : ℤ) (log : List Put) (P : Put → Prop) : Prop :=
  log <:+ s.puts ∧
    ∃ put, latest log (c_str url) = some put ∧ P put ∧ t < put.clock + put.max_age

/-- How far the entry is before `stage`. -/
def Stage.before (doc : Document) : Stage → HttpCacheEntry → Prop
  | .end_json, e => ∃ dst, dst.length = json_response_size ∧
      e.json_response = strncpy dst doc.body max_json_len
  | _, _ => True

/-- The body is in the entry. -/
def HasBody (doc : Document) (e : HttpCacheEntry) : Prop :=
  c_str e.json_response = c_str doc.body

/-- The key of the entry that a backend is writing. -/
def Pc.writes : Pc → Option Bytes
  | .write _ doc _ => some doc.key
  | .read_put_clock doc _ => some doc.key
  | .set_expiration p _ => some p.key
  | .release_put p _ => some p.key
  | _ => none

/-- What backend `i` may rely on where it is. -/
def Knows (i : ι) (s : Shared ι) : Pc → Prop
  | .read_clock url entry => Reading hash i s url entry
  | .read_expiration url entry _ log => Reading hash i s url entry ∧ Current s url log
  | .erase url entry => Reading hash i s url entry
  | .read_json url entry t log =>
      Reading hash i s url entry ∧ Current s url log ∧ Hit s url t log fun _ => True
  | .release_get url entry got => Reading hash i s url entry ∧
      ∀ json t log, got = .hit json t log → Hit s url t log fun put => json = c_str put.body
  | .parse url json t log => Hit s url t log fun put => json = c_str put.body
  | .write stage doc entry => Writing hash i s doc entry (stage.before doc)
  | .read_put_clock doc entry => Writing hash i s doc entry (HasBody doc)
  | .set_expiration put entry => Writing hash i s put.toDocument entry (HasBody put.toDocument)
  | .release_put put entry => Writing hash i s put.toDocument entry (Stored put)
  | .returned url value hit => ∀ t log, hit = some (t, log) →
      Hit s url t log fun put => value = put.value
  | _ => True

/-- Also, in the partitions that it holds exclusively every entry but the one it is writing
is good. -/
def Relies (i : ι) (s : Shared ι) (pc : Pc) : Prop :=
  Knows hash i s pc ∧
    ∀ k, s.locks (hash k) = .exclusive i → pc.writes ≠ some k → Good hash s k

/-! ## What a step does to the others -/

/-- `i` holds the lock of a partition, one way or the other. -/
def HoldsLock (i : ι) (s : Shared ι) (p : ℕ) : Prop :=
  HoldsShared i s p ∨ s.locks p = .exclusive i

/-- A step of `i` takes no lock away from another backend, and changes nothing in a partition
that another backend holds. -/
structure Frame (i : ι) (s s' : Shared ι) : Prop where
  shared : ∀ j, j ≠ i → ∀ p, HoldsShared j s p → HoldsShared j s' p
  exclusive : ∀ j, j ≠ i → ∀ p, (s'.locks p = .exclusive j ↔ s.locks p = .exclusive j)
  find : ∀ j, j ≠ i → ∀ k, HoldsLock j s (hash k) →
    s'.table.find (entry_type hash) k = s.table.find (entry_type hash) k
  latest : ∀ j, j ≠ i → ∀ k, HoldsLock j s (hash k) → latest s'.puts k = latest s.puts k
  puts : s.puts <:+ s'.puts

variable {hash}

theorem Good.congr {s s' : Shared ι} {k : Bytes} (h : Good hash s k)
    (hfind : s'.table.find (entry_type hash) k = s.table.find (entry_type hash) k)
    (hlatest : latest s'.puts k = latest s.puts k) : Good hash s' k := by
  intro item hitem
  rw [hfind] at hitem
  rw [hlatest]
  exact h item hitem

theorem Hit.mono {s s' : Shared ι} {url : Bytes} {t : ℤ} {log : List Put} {P : Put → Prop}
    (h : Hit s url t log P) (hputs : s.puts <:+ s'.puts) : Hit s' url t log P :=
  ⟨h.1.trans hputs, h.2⟩

section Others

variable {i j : ι} {s s' : Shared ι}

theorem Reading.frame {url : Bytes} {entry : ℕ} (hij : j ≠ i) (h : Reading hash j s url entry)
    (hf : Frame hash i s s') : Reading hash j s' url entry :=
  ⟨hf.shared j hij _ h.lock, by rw [hf.find j hij _ (.inl h.lock)]; exact h.found⟩

theorem Current.frame {url : Bytes} {log : List Put} (hij : j ≠ i) (h : Current s url log)
    (hlock : HoldsShared j s (hash (c_str url))) (hf : Frame hash i s s') : Current s' url log :=
  ⟨h.1.trans hf.puts, by rw [hf.latest j hij _ (.inl hlock)]; exact h.2⟩

theorem Writing.frame {doc : Document} {entry : ℕ} {F : HttpCacheEntry → Prop} (hij : j ≠ i)
    (h : Writing hash j s doc entry F) (hf : Frame hash i s s') : Writing hash j s' doc entry F :=
  ⟨(hf.exclusive j hij _).mpr h.lock, by rw [hf.find j hij _ (.inr h.lock)]; exact h.found, h.fits⟩

/-- A step of one backend leaves what another one relies on. -/
theorem Relies.frame {pc : Pc} (hij : j ≠ i) (h : Relies hash j s pc) (hf : Frame hash i s s') :
    Relies hash j s' pc := by
  obtain ⟨hk, hgood⟩ := h
  refine ⟨?_, fun k hlock' hk' => ?_⟩
  · -- what was read under a lock stays, and so does what has ever been put
    cases pc with
    | read_clock url entry => exact Reading.frame hij hk hf
    | read_expiration url entry t log =>
      exact ⟨hk.1.frame hij hf, hk.2.frame hij hk.1.lock hf⟩
    | erase url entry => exact Reading.frame hij hk hf
    | read_json url entry t log =>
      exact ⟨hk.1.frame hij hf, hk.2.1.frame hij hk.1.lock hf, hk.2.2.mono hf.puts⟩
    | release_get url entry got =>
      exact ⟨hk.1.frame hij hf, fun json t log hgot => (hk.2 json t log hgot).mono hf.puts⟩
    | parse url json t log => exact Hit.mono hk hf.puts
    | write stage doc entry => exact Writing.frame hij hk hf
    | read_put_clock doc entry => exact Writing.frame hij hk hf
    | set_expiration put entry => exact Writing.frame hij hk hf
    | release_put put entry => exact Writing.frame hij hk hf
    | returned url value hit => exact fun t log hhit => (hk t log hhit).mono hf.puts
    | _ => trivial
  · have hlock := (hf.exclusive j hij _).mp hlock'
    exact (hgood k hlock hk').congr (hf.find j hij k (.inr hlock)) (hf.latest j hij k (.inr hlock))

end Others

/-! ## One step -/

variable (hash) in
/-- What one step does. -/
structure StepSpec (i : ι) (s s' : Shared ι) (pc' : Pc) : Prop where
  sound : Sound hash s'
  relies : Relies hash i s' pc'
  frame : Frame hash i s s'

section Step

variable {i : ι} {s s' : Shared ι} {pc pc' : Pc}

theorem Frame.refl (i : ι) (s : Shared ι) : Frame hash i s s :=
  ⟨fun _ _ _ h => h, fun _ _ _ => Iff.rfl, fun _ _ _ _ => rfl, fun _ _ _ _ => rfl,
    List.suffix_refl _⟩

/-- A step that changes nothing that is shared. -/
theorem spec_stay (hs : Sound hash s) (h : Relies hash i s pc)
    (hw : ∀ k, pc'.writes ≠ some k → pc.writes ≠ some k) (hk : Knows hash i s pc') :
    StepSpec hash i s s pc' :=
  ⟨hs, ⟨hk, fun k hlock hk' => h.2 k hlock (hw k hk')⟩, Frame.refl i s⟩

theorem lock_shared_eq_some {p : ℕ} (h : s.lock_shared i p = some s') :
    ∃ holders, s.locks p = .shared holders ∧ s' = s.relock p (.shared (i :: holders)) := by
  unfold Shared.lock_shared at h
  rcases hp : s.locks p with holders | j <;> rw [hp] at h
  · exact ⟨holders, rfl, (Option.some.inj h).symm⟩
  · exact absurd h nofun

theorem lock_exclusive_eq_some {p : ℕ} (h : s.lock_exclusive i p = some s') :
    s.locks p = .shared [] ∧ s' = s.relock p (.exclusive i) := by
  unfold Shared.lock_exclusive at h
  rcases hp : s.locks p with (_ | ⟨j, holders⟩) | j <;> rw [hp] at h
  · exact ⟨rfl, (Option.some.inj h).symm⟩
  · exact absurd h nofun
  · exact absurd h nofun

/-- A step that changes a shared lock into a shared lock, for `i` alone. -/
theorem spec_relock {p : ℕ} {holders holders' : List ι} (hs : Sound hash s)
    (h : Relies hash i s pc) (hp : s.locks p = .shared holders)
    (hothers : ∀ j, j ≠ i → j ∈ holders → j ∈ holders') (hw : pc.writes = none)
    (hk : Knows hash i (s.relock p (.shared holders')) pc') :
    StepSpec hash i s (s.relock p (.shared holders')) pc' := by
  -- no exclusive lock comes or goes
  have hex : ∀ j q, (s.relock p (.shared holders')).locks q = .exclusive j ↔
      s.locks q = .exclusive j := by
    intro j q
    by_cases hq : q = p
    · subst hq
      simp [Shared.relock, hp]
    · simp [Shared.relock, hq]
  refine ⟨fun k hfree => ?_, ⟨hk, fun k hlock _ => ?_⟩, ⟨fun j hj q hheld => ?_, fun j _ q => hex j q,
    fun _ _ _ _ => rfl, fun _ _ _ _ => rfl, List.suffix_refl _⟩⟩
  · exact hs k fun j hj => hfree j ((hex j _).mpr hj)
  · exact h.2 k ((hex i _).mp hlock) (by rw [hw]; exact nofun)
  · obtain ⟨l, hl, hmem⟩ := hheld
    by_cases hq : q = p
    · subst hq
      rw [hp] at hl
      obtain rfl := PartitionLock.shared.inj hl
      exact ⟨holders', by simp [Shared.relock], hothers j hj hmem⟩
    · exact ⟨l, by simp [Shared.relock, hq, hl], hmem⟩

/-- A step in a partition that no other backend holds: it changes what is known of one key,
and takes, keeps or gives back the exclusive lock. -/
theorem spec_private (key : Bytes) {l : PartitionLock ι} (hs : Sound hash s)
    (h : Relies hash i s pc) (hw : ∀ k, k ≠ key → pc.writes ≠ some k)
    (hmine : s.locks (hash key) = .exclusive i ∨ s.locks (hash key) = .shared [])
    (hl : l = .exclusive i ∨ l = .shared [])
    (hlocks : s'.locks = Function.update s.locks (hash key) l)
    (hfind : ∀ k, k ≠ key →
      s'.table.find (entry_type hash) k = s.table.find (entry_type hash) k)
    (hlatest : ∀ k, k ≠ key → latest s'.puts k = latest s.puts k)
    (hputs : s.puts <:+ s'.puts)
    (hkey : (l = .exclusive i ∧ pc'.writes = some key) ∨ Good hash s' key)
    (hk : Knows hash i s' pc') : StepSpec hash i s s' pc' := by
  have hself : s'.locks (hash key) = l := by rw [hlocks, Function.update_self]
  have hother : ∀ q, q ≠ hash key → s'.locks q = s.locks q := fun q hq => by
    rw [hlocks, Function.update_of_ne hq]
  -- the other keys of the partition were good when it was locked
  have hgood : ∀ k, k ≠ key → hash k = hash key → Good hash s' k := by
    intro k hne heq
    refine Good.congr ?_ (hfind k hne) (hlatest k hne)
    rcases hmine with hex | hfree
    · exact h.2 k (heq ▸ hex) (hw k hne)
    · exact hs k fun j => by rw [heq, hfree]; exact nofun
  -- nobody else holds a lock on the partition
  have hforeign : ∀ j, j ≠ i → ¬ HoldsLock j s (hash key) := by
    rintro j hj (⟨holders, hheld, hmem⟩ | hheld) <;>
      rcases hmine with hex | hfree
    · exact absurd (hheld.symm.trans hex) nofun
    · obtain rfl := PartitionLock.shared.inj (hheld.symm.trans hfree)
      exact absurd hmem List.not_mem_nil
    · exact hj (PartitionLock.exclusive.inj (hheld.symm.trans hex))
    · exact absurd (hheld.symm.trans hfree) nofun
  -- so what others rely on is in other partitions
  have hne : ∀ j, j ≠ i → ∀ k, HoldsLock j s (hash k) → k ≠ key := by
    rintro j hj k hheld rfl
    exact hforeign j hj hheld
  refine ⟨fun k hfree => ?_, ⟨hk, fun k hlock hwrites => ?_⟩, ⟨fun j hj q hheld => ?_,
    fun j hj q => ?_, fun j hj k hheld => hfind k (hne j hj k hheld),
    fun j hj k hheld => hlatest k (hne j hj k hheld), hputs⟩⟩
  · by_cases hkk : k = key
    · subst hkk
      rcases hkey with ⟨hl', -⟩ | hgoodkey
      · exact absurd (hself.trans hl') (hfree i)
      · exact hgoodkey
    · by_cases hp : hash k = hash key
      · exact hgood k hkk hp
      · exact (hs k fun j => by rw [← hother _ hp]; exact hfree j).congr (hfind k hkk) (hlatest k hkk)
  · by_cases hkk : k = key
    · subst hkk
      rcases hkey with ⟨-, hwrites'⟩ | hgoodkey
      · exact absurd hwrites' hwrites
      · exact hgoodkey
    · by_cases hp : hash k = hash key
      · exact hgood k hkk hp
      · rw [hother _ hp] at hlock
        exact (h.2 k hlock (hw k hkk)).congr (hfind k hkk) (hlatest k hkk)
  · have hq : q ≠ hash key := by
      rintro rfl
      exact hforeign j hj (.inl hheld)
    obtain ⟨holders, hholders, hmem⟩ := hheld
    exact ⟨holders, (hother q hq).trans hholders, hmem⟩
  · by_cases hq : q = hash key
    · subst hq
      rw [hself]
      refine iff_of_false ?_ fun hheld => hforeign j hj (.inr hheld)
      rcases hl with rfl | rfl
      · exact fun heq => hj (PartitionLock.exclusive.inj heq).symm
      · exact nofun
    · rw [hother q hq]

/-- A write to the entry that leaves its key alone. -/
theorem Writing.update {doc : Document} {entry : ℕ} {F F' : HttpCacheEntry → Prop}
    {f : HttpCacheEntry → HttpCacheEntry} (h : Writing hash i s doc entry F)
    (hf : ∀ e, c_str e.url = doc.key → F e → c_str (f e).url = doc.key ∧ F' (f e)) :
    Writing hash i { s with table := s.table.update entry f } doc entry F' ∧
      ∀ k, k ≠ doc.key → (s.table.update entry f).find (entry_type hash) k
        = s.table.find (entry_type hash) k := by
  obtain ⟨item, hitem, rfl, hF⟩ := h.found
  obtain ⟨hkey, hF'⟩ := hf item.entry (Table.key_of_find (entry_type hash) hitem) hF
  refine ⟨⟨h.lock, ⟨{ item with entry := f item.entry }, ?_, rfl, hF'⟩, h.fits⟩, fun k hne => ?_⟩
  · exact Table.find_update_self (entry_type hash) hitem hkey
  · exact Table.find_update_of_ne (entry_type hash) hitem hkey hne

/-- A write to the entry. -/
theorem spec_update {doc : Document} {entry : ℕ} {F G : HttpCacheEntry → Prop}
    {f : HttpCacheEntry → HttpCacheEntry} (hs : Sound hash s) (h : Relies hash i s pc)
    (hw : pc.writes = some doc.key) (hw' : pc'.writes = some doc.key)
    (hwriting : Writing hash i s doc entry F)
    (hf : ∀ e, c_str e.url = doc.key → F e → c_str (f e).url = doc.key ∧ G (f e))
    (hk : Writing hash i { s with table := s.table.update entry f } doc entry G →
      Knows hash i { s with table := s.table.update entry f } pc') :
    StepSpec hash i s { s with table := s.table.update entry f } pc' := by
  obtain ⟨hwriting', hfind⟩ := hwriting.update hf
  refine spec_private doc.key hs h ?_ (.inl hwriting.lock) (.inl rfl) ?_ hfind (fun _ _ => rfl)
    (List.suffix_refl _) (.inl ⟨rfl, hw'⟩) (hk hwriting')
  · intro k hne heq
    exact hne (Option.some.inj (heq.symm.trans hw))
  · exact (Function.update_eq_self_iff.mpr hwriting.lock.symm).symm

theorem length_key_le {doc : Document} (h : doc.url.length ≤ max_url_len) :
    doc.key.length ≤ max_url_len :=
  (length_c_str_le doc.url).trans h

/-- The four writes before the reading of the clock. -/
theorem spec_write {stage : Stage} {doc : Document} {entry : ℕ} (hs : Sound hash s)
    (h : Relies hash i s (.write stage doc entry)) :
    StepSpec hash i s { s with table := s.table.update entry (stage.apply doc) }
      (stage.after doc entry) := by
  have hwriting : Writing hash i s doc entry (stage.before doc) := h.1
  have hurl := length_key_le hwriting.fits.1
  -- each write keeps what the ones before it have made
  cases stage with
  | copy_url =>
    refine spec_update hs h rfl rfl hwriting (G := fun _ => True) (fun e he _ => ⟨?_, trivial⟩)
      fun hw => hw
    exact c_str_strncpy_self he hurl (by rw [e.url_length]; decide)
  | end_url =>
    refine spec_update hs h rfl rfl hwriting (G := fun _ => True) (fun e he _ => ⟨?_, trivial⟩)
      fun hw => hw
    exact (c_str_set_zero (by rw [he]; exact hurl) (by rw [e.url_length]; decide)).trans he
  | copy_json =>
    exact spec_update hs h rfl rfl hwriting (G := Stage.before doc .end_json)
      (fun e he _ => ⟨he, e.json_response, e.json_length, rfl⟩) fun hw => hw
  | end_json =>
    refine spec_update hs h rfl rfl hwriting (G := HasBody doc) (fun e he hF => ⟨he, ?_⟩)
      fun hw => hw
    obtain ⟨dst, hdst, hjson⟩ := hF
    show c_str (e.json_response.set max_json_len 0) = c_str doc.body
    rw [hjson]
    exact c_str_strncpy_set ((length_c_str_le _).trans hwriting.fits.2) (by rw [hdst]; decide)

/-- The last write. -/
theorem spec_set_expiration {put : Put} {entry : ℕ} (hs : Sound hash s)
    (h : Relies hash i s (.set_expiration put entry)) :
    StepSpec hash i s
      { s with table := s.table.update entry
                (HttpCacheEntry.set_expiration (put.clock + put.max_age)) }
      (.release_put put entry) :=
  have hwriting : Writing hash i s put.toDocument entry (HasBody put.toDocument) := h.1
  spec_update hs h rfl rfl hwriting (G := Stored put) (fun _ he hF => ⟨he, ⟨he, hF, rfl⟩⟩)
    fun hw => hw

/-- An entry that has been found is filed under the partition of its key. -/
theorem unlock_eq_some [DecidableEq ι] {k : Bytes} {entry : ℕ}
    (hfound : ∃ item, s.table.find (entry_type hash) k = some item ∧ item.address = entry)
    (h : s.unlock i entry = some s') :
    s' = match s.locks (hash k) with
      | .shared holders => s.relock (hash k) (.shared (holders.erase i))
      | .exclusive _ => s.relock (hash k) (.shared []) := by
  obtain ⟨item, hitem, rfl⟩ := hfound
  have hp : item.partition = hash k := Table.partition_of_find (entry_type hash) hitem
  unfold Shared.unlock at h
  rw [Table.deref_of_find (entry_type hash) hitem, Option.map_some, hp] at h
  exact (Option.some.inj h).symm

/-- The end of `put`, which enters it in the log. -/
theorem spec_release_put [DecidableEq ι] {put : Put} {entry : ℕ} {s₁ : Shared ι} (hs : Sound hash s)
    (h : Relies hash i s (.release_put put entry)) (hunlock : s.unlock i entry = some s₁) :
    StepSpec hash i s { s₁ with puts := put :: s₁.puts } (.finish put.url put.value) := by
  have hwriting : Writing hash i s put.toDocument entry (Stored put) := h.1
  obtain ⟨item, hitem, haddr, hstored⟩ := hwriting.found
  have hs₁ := unlock_eq_some ⟨item, hitem, haddr⟩ hunlock
  rw [hwriting.lock] at hs₁
  obtain rfl : s₁ = s.relock (hash put.key) (.shared []) := hs₁
  refine spec_private put.key hs h ?_ (.inl hwriting.lock) (.inr rfl) rfl
    (fun _ _ => rfl) (fun k hne => ?_) (List.suffix_cons _ _) (.inr fun item' hitem' => ?_) trivial
  · intro k hne heq
    exact hne (Option.some.inj heq).symm
  · exact List.find?_cons_of_neg (by simp [hne.symm])
  · obtain rfl := Option.some.inj (hitem.symm.trans hitem')
    exact ⟨put, List.find?_cons_of_pos (by simp), hstored⟩

/-- The lookup of `get`. -/
theorem spec_get {url : Bytes} (hs : Sound hash s) (h : Relies hash i s (.get url))
    (hstep : get_step hash i url s = some (s', pc')) : StepSpec hash i s s' pc' := by
  unfold get_step at hstep
  split_ifs at hstep
  · obtain ⟨rfl, rfl⟩ := Prod.mk.inj (Option.some.inj hstep)
    exact spec_stay hs h (fun _ _ => nofun) trivial
  · obtain ⟨s₁, hlock, heq⟩ := Option.map_eq_some_iff.mp hstep
    obtain ⟨holders, hp, rfl⟩ := lock_shared_eq_some hlock
    rcases hitem : s.table.find (entry_type hash) (c_str url) with _ | item <;>
      rw [hitem] at heq <;> obtain ⟨rfl, rfl⟩ := Prod.mk.inj heq
    · exact spec_stay hs h (fun _ _ => nofun) trivial
    · refine spec_relock hs h hp (fun _ _ hmem => List.mem_cons_of_mem i hmem) rfl ?_
      exact ⟨⟨i :: holders, by simp [Shared.relock], List.mem_cons_self⟩, item, hitem, rfl⟩

/-- The lookup of `put`. -/
theorem spec_put {doc : Document} {memory : HttpCacheEntry} (hs : Sound hash s)
    (h : Relies hash i s (.put doc)) (hstep : put_step hash i doc memory s = some (s', pc')) :
    StepSpec hash i s s' pc' := by
  unfold put_step at hstep
  split_ifs at hstep with hrefuse
  · obtain ⟨rfl, rfl⟩ := Prod.mk.inj (Option.some.inj hstep)
    exact spec_stay hs h (fun _ _ => nofun) trivial
  · obtain ⟨s₁, hlock, heq⟩ := Option.map_eq_some_iff.mp hstep
    obtain ⟨hp, rfl⟩ := lock_exclusive_eq_some hlock
    have hfits : doc.url.length ≤ max_url_len ∧ doc.body.length ≤ max_json_len := by omega
    -- the key is copied whole, since the URL fits
    have hcopy : ((entry_type hash).key ((entry_type hash).copy doc.key memory)) = doc.key := by
      have hidem : c_str doc.key = doc.key := c_str_idem doc.url
      have hlen := length_key_le hfits.1
      refine (c_str_strlcpy ?_).trans hidem
      rw [hidem, memory.url_length]
      exact hlen.trans_lt (by decide)
    have hself : Function.update s.locks (hash doc.key) (.exclusive i) (hash doc.key)
        = .exclusive i := Function.update_self ..
    rcases hitem : s.table.find (entry_type hash) doc.key with _ | item <;>
      rw [hitem] at heq <;> obtain ⟨rfl, rfl⟩ := Prod.mk.inj heq
    · refine spec_private doc.key hs h (fun _ _ => nofun) (.inr hp) (.inl rfl) rfl
        (fun k hne => ?_) (fun _ _ => rfl) (List.suffix_refl _) (.inl ⟨rfl, rfl⟩) ?_
      · exact Table.find_insert_of_ne (entry_type hash) hcopy hne
      · exact ⟨hself, ⟨_, Table.find_insert_self (entry_type hash) hcopy, rfl, trivial⟩, hfits⟩
    · refine spec_private doc.key hs h (fun _ _ => nofun) (.inr hp) (.inl rfl) rfl
        (fun _ _ => rfl) (fun _ _ => rfl) (List.suffix_refl _) (.inl ⟨rfl, rfl⟩) ?_
      exact ⟨hself, ⟨item, hitem, rfl, trivial⟩, hfits⟩

/-- Whoever reads sees what the most recent completed put has stored. -/
theorem Reading.stored {url : Bytes} {entry : ℕ} (h : Reading hash i s url entry)
    (hs : Sound hash s) :
    ∃ item put, s.table.deref entry = some item ∧ latest s.puts (c_str url) = some put ∧
      Stored put item.entry := by
  obtain ⟨holders, hp, -⟩ := h.lock
  obtain ⟨item, hitem, rfl⟩ := h.found
  obtain ⟨put, hput, hstored⟩ := hs (c_str url) (fun j => by rw [hp]; exact nofun) item hitem
  exact ⟨item, put, Table.deref_of_find (entry_type hash) hitem, hput, hstored⟩

/-- Whoever reads holds the lock that the deletion asks for. -/
theorem erase_step_eq_none {url : Bytes} {entry : ℕ} (h : Reading hash i s url entry) :
    erase_step hash i url entry s = none := by
  obtain ⟨holders, hp, hmem⟩ := h.lock
  unfold erase_step Shared.lock_exclusive
  rw [hp]
  cases holders with
  | nil => exact absurd hmem List.not_mem_nil
  | cons j holders => rfl

/-- The end of `get`. -/
theorem spec_release_get [DecidableEq ι] {url : Bytes} {entry : ℕ} {got : Got} (hs : Sound hash s)
    (h : Relies hash i s (.release_get url entry got)) (hunlock : s.unlock i entry = some s') :
    StepSpec hash i s s' (got.after url) := by
  obtain ⟨hreading, hhit⟩ := h.1
  obtain ⟨holders, hp, -⟩ := hreading.lock
  have hs' := unlock_eq_some hreading.found hunlock
  rw [hp] at hs'
  obtain rfl : s' = s.relock (hash (c_str url)) (.shared (holders.erase i)) := hs'
  refine spec_relock hs h hp (fun j hj hmem => (List.mem_erase_of_ne hj).mpr hmem) rfl ?_
  cases got with
  | hit json t log => exact hhit json t log rfl
  | miss => trivial
  | thrown => trivial

/-- What was cached can be parsed, to the value that was parsed from the whole body. -/
theorem knows_parsed {url json : Bytes} {t : ℤ} {log : List Put}
    (h : Hit s url t log fun put => json = c_str put.body) : Knows hash i s (parsed url json t log) := by
  obtain ⟨hlog, put, hput, rfl, hfresh⟩ := h
  have hparse : parse (c_str put.body) = .value put.value := parse_c_str put.parsed
  unfold parsed
  rw [hparse]
  rintro t' log' heq
  obtain ⟨rfl, rfl⟩ := Prod.mk.inj (Option.some.inj heq)
  exact ⟨hlog, put, hput, rfl, hfresh⟩

theorem knows_fetched (url : Bytes) (response : Response) : Knows hash i s (fetched url response) := by
  unfold fetched
  split_ifs
  · split
    · split
      · split_ifs <;> trivial
      · trivial
    · trivial
  · trivial

variable [DecidableEq ι]

/-- One step inside `get_json`. -/
theorem get_json_step_spec {c : Choice} (hs : Sound hash s) (h : Relies hash i s pc)
    (hstep : get_json_step hash i s pc c = some (s', pc')) : StepSpec hash i s s' pc' := by
  -- most steps leave the shared state alone
  have hstay : ∀ {pc''}, some (s, pc'') = some (s', pc') → pc.writes = none →
      Knows hash i s pc'' → StepSpec hash i s s' pc' := by
    rintro pc'' heq hw hk
    obtain ⟨rfl, rfl⟩ := Prod.mk.inj (Option.some.inj heq)
    exact spec_stay hs h (fun _ _ => by rw [hw]; exact nofun) hk
  cases pc with
  | idle =>
    cases c with
    | call url => exact hstay hstep rfl trivial
    | _ => exact absurd hstep nofun
  | get url =>
    cases c with
    | detached => exact hstay hstep rfl trivial
    | go => exact spec_get hs h hstep
    | fail => exact hstay hstep rfl trivial
    | fail_locked =>
      -- the lock stays behind
      obtain ⟨s₁, hlock, heq⟩ := Option.map_eq_some_iff.mp hstep
      obtain ⟨holders, hp, rfl⟩ := lock_shared_eq_some hlock
      obtain ⟨rfl, rfl⟩ := Prod.mk.inj heq
      exact spec_relock hs h hp (fun _ _ hmem => List.mem_cons_of_mem i hmem) rfl trivial
    | _ => exact absurd hstep nofun
  | read_clock url entry =>
    cases c with
    | clock t => exact hstay hstep rfl ⟨h.1, List.suffix_refl _, rfl⟩
    | _ => exact absurd hstep nofun
  | read_expiration url entry t log =>
    cases c with
    | go =>
      obtain ⟨hreading, hcurrent⟩ := h.1
      obtain ⟨item, put, hderef, hput, hstored⟩ := hreading.stored hs
      simp only [get_json_step, hderef, Option.map_some] at hstep
      split_ifs at hstep with hexpired
      · exact hstay hstep rfl hreading
      · rw [hstored.expiration, not_le] at hexpired
        exact hstay hstep rfl
          ⟨hreading, hcurrent, hcurrent.1, put, hcurrent.2.trans hput, trivial, hexpired⟩
    | _ => exact absurd hstep nofun
  | erase url entry =>
    cases c with
    | go =>
      -- the deletion waits for the lock that this lookup holds
      have hnone := erase_step_eq_none h.1
      exact absurd (hnone.symm.trans hstep) nofun
    | fail => exact hstay hstep rfl ⟨h.1, fun _ _ _ => nofun⟩
    | fail_locked => exact hstay hstep rfl trivial
    | _ => exact absurd hstep nofun
  | read_json url entry t log =>
    cases c with
    | go =>
      obtain ⟨hreading, hcurrent, hlog, put, hput, -, hfresh⟩ := h.1
      obtain ⟨item, put', hderef, hput', hstored⟩ := hreading.stored hs
      -- the entry still belongs to the put whose expiration was read
      obtain rfl : put = put' := Option.some.inj (hput.symm.trans (hcurrent.2.trans hput'))
      simp only [get_json_step, hderef, Option.map_some] at hstep
      refine hstay hstep rfl ⟨hreading, fun json t' log' heq => ?_⟩
      obtain ⟨rfl, rfl, rfl⟩ := Got.hit.inj heq
      exact ⟨hlog, put, hput, hstored.json, hfresh⟩
    | fail => exact hstay hstep rfl ⟨h.1.1, fun _ _ _ => nofun⟩
    | _ => exact absurd hstep nofun
  | release_get url entry got =>
    cases c with
    | go =>
      obtain ⟨s₁, hunlock, heq⟩ := Option.map_eq_some_iff.mp hstep
      obtain ⟨rfl, rfl⟩ := Prod.mk.inj heq
      exact spec_release_get hs h hunlock
    | _ => exact absurd hstep nofun
  | parse url json t log =>
    cases c with
    | go => exact hstay hstep rfl (knows_parsed h.1)
    | fail => exact hstay hstep rfl trivial
    | _ => exact absurd hstep nofun
  | fetch url =>
    cases c with
    | transfer response => exact hstay hstep rfl (knows_fetched url response)
    | fail => exact hstay hstep rfl trivial
    | _ => exact absurd hstep nofun
  | put doc =>
    cases c with
    | detached => exact hstay hstep rfl trivial
    | memory m => exact spec_put hs h hstep
    | fail => exact hstay hstep rfl trivial
    | fail_locked =>
      obtain ⟨s₁, hlock, heq⟩ := Option.map_eq_some_iff.mp hstep
      obtain ⟨hp, rfl⟩ := lock_exclusive_eq_some hlock
      obtain ⟨rfl, rfl⟩ := Prod.mk.inj heq
      -- the lock stays behind, over an entry that nobody was writing
      have hgood : Good hash s doc.key := hs _ fun j => by rw [hp]; exact nofun
      exact spec_private doc.key hs h (fun _ _ => nofun) (.inr hp) (.inl rfl) rfl
        (fun _ _ => rfl) (fun _ _ => rfl) (List.suffix_refl _) (.inr (hgood.congr rfl rfl)) trivial
    | _ => exact absurd hstep nofun
  | write stage doc entry =>
    cases c with
    | go =>
      obtain ⟨rfl, rfl⟩ := Prod.mk.inj (Option.some.inj hstep)
      exact spec_write hs h
    | _ => exact absurd hstep nofun
  | read_put_clock doc entry =>
    cases c with
    | clock t =>
      obtain ⟨rfl, rfl⟩ := Prod.mk.inj (Option.some.inj hstep)
      exact spec_stay hs h (fun _ hw => hw) h.1
    | _ => exact absurd hstep nofun
  | set_expiration put entry =>
    cases c with
    | go =>
      obtain ⟨rfl, rfl⟩ := Prod.mk.inj (Option.some.inj hstep)
      exact spec_set_expiration hs h
    | _ => exact absurd hstep nofun
  | release_put put entry =>
    cases c with
    | go =>
      obtain ⟨s₁, hunlock, heq⟩ := Option.map_eq_some_iff.mp hstep
      obtain ⟨rfl, rfl⟩ := Prod.mk.inj heq
      exact spec_release_put hs h hunlock
    | _ => exact absurd hstep nofun
  | finish url value =>
    cases c with
    | go => exact hstay hstep rfl fun _ _ => nofun
    | fail => exact hstay hstep rfl trivial
    | _ => exact absurd hstep nofun
  | returned url value hit =>
    cases c with
    | call url => exact hstay hstep rfl trivial
    | _ => exact absurd hstep nofun
  | failed =>
    cases c with
    | call url => exact hstay hstep rfl trivial
    | _ => exact absurd hstep nofun

theorem without_eq_exclusive {l : PartitionLock ι} {j : ι} :
    l.without i = .exclusive j ↔ j ≠ i ∧ l = .exclusive j := by
  rcases l with holders | j'
  · exact iff_of_false nofun nofun
  · simp only [PartitionLock.without]
    split_ifs with hj'
    · refine iff_of_false nofun ?_
      rintro ⟨hj, heq⟩
      exact hj (PartitionLock.exclusive.inj heq ▸ hj')
    · exact ⟨fun heq => ⟨PartitionLock.exclusive.inj heq ▸ hj', heq⟩, fun heq => heq.2⟩

/-- The end of a process. -/
theorem spec_exit (hs : Sound hash s) (h : Relies hash i s pc) (houtside : pc.outside = true) :
    StepSpec hash i s { s with locks := fun p => (s.locks p).without i } .idle := by
  have hw : pc.writes = none := by
    cases pc <;> first | rfl | exact absurd houtside nofun
  refine ⟨fun k hfree => ?_, ⟨trivial, fun k hlock _ => ?_⟩, ⟨fun j hj p hheld => ?_,
    fun j hj p => ?_, fun _ _ _ _ => rfl, fun _ _ _ _ => rfl, List.suffix_refl _⟩⟩
  · by_cases hmine : s.locks (hash k) = .exclusive i
    · exact h.2 k hmine (by rw [hw]; exact nofun)
    · refine hs k fun j hj => hfree j (without_eq_exclusive.mpr ⟨?_, hj⟩)
      rintro rfl
      exact hmine hj
  · exact absurd rfl (without_eq_exclusive.mp hlock).1
  · obtain ⟨holders, hp, hmem⟩ := hheld
    refine ⟨holders.filter (· ≠ i), ?_, List.mem_filter.mpr ⟨hmem, by simpa using hj⟩⟩
    show (s.locks p).without i = _
    rw [hp]
    rfl
  · exact without_eq_exclusive.trans (and_iff_right hj)

theorem backend_spec {c : Choice} (hs : Sound hash s) (h : Relies hash i s pc)
    (hstep : backend hash i c s pc = some (s', pc')) : StepSpec hash i s s' pc' := by
  unfold backend at hstep
  split at hstep
  · split_ifs at hstep with houtside
    obtain ⟨rfl, rfl⟩ := Prod.mk.inj (Option.some.inj hstep)
    exact spec_exit hs h houtside
  · exact get_json_step_spec hs h hstep

end Step

/-! ## Every run -/

variable [DecidableEq ι]

theorem outline : Outline (backend (ι := ι) hash) (Sound hash) (Relies hash) where
  own hs h hstep := ⟨(backend_spec hs h hstep).sound, (backend_spec hs h hstep).relies⟩
  others hij hs h hj hstep := hj.frame hij (backend_spec hs h hstep).frame

omit [DecidableEq ι] in
theorem holds_init : Holds (ι := ι) (Sound hash) (Relies hash) init :=
  ⟨fun _ _ => nofun, fun _ => ⟨trivial, fun _ => nofun⟩⟩

/-- The URL and the entry of a `get` that holds its lock. -/
def Pc.reads : Pc → Option (Bytes × ℕ)
  | .read_clock url entry => some (url, entry)
  | .read_expiration url entry _ _ => some (url, entry)
  | .erase url entry => some (url, entry)
  | .read_json url entry _ _ => some (url, entry)
  | .release_get url entry _ => some (url, entry)
  | _ => none

omit [DecidableEq ι] in
theorem Relies.reading {i : ι} {s : Shared ι} {pc : Pc} {url : Bytes} {entry : ℕ}
    (h : Relies hash i s pc) (hreads : pc.reads = some (url, entry)) :
    Reading hash i s url entry := by
  cases pc with
  | read_clock url' entry' =>
    obtain ⟨rfl, rfl⟩ := Prod.mk.inj (Option.some.inj hreads)
    exact h.1
  | read_expiration url' entry' t log =>
    obtain ⟨rfl, rfl⟩ := Prod.mk.inj (Option.some.inj hreads)
    exact h.1.1
  | erase url' entry' =>
    obtain ⟨rfl, rfl⟩ := Prod.mk.inj (Option.some.inj hreads)
    exact h.1
  | read_json url' entry' t log =>
    obtain ⟨rfl, rfl⟩ := Prod.mk.inj (Option.some.inj hreads)
    exact h.1.1
  | release_get url' entry' got =>
    obtain ⟨rfl, rfl⟩ := Prod.mk.inj (Option.some.inj hreads)
    exact h.1.1
  | _ => exact absurd hreads nofun

/-- **The cache is transparent.** However the steps of any number of backends interleave,
whatever fails, whatever the servers answer and whatever the clocks say: a `get_json` that
returns a cached value returns the one that the most recent completed put under its URL had
parsed from the whole body of its response, and read the clock before that put expired. All
the while that a `get` holds its lock, the three fields of its entry are from that one put,
and the stored body still parses to its value. -/
theorem cache_transparent (hash : Bytes → ℕ) {g : Config ι (Shared ι) Pc}
    (h : Steps (backend hash) init g) :
    (∀ i url value t log, g.locals i = .returned url value (some (t, log)) →
        log <:+ g.shared.puts ∧ ∃ put, latest log (c_str url) = some put ∧
          value = put.value ∧ t < put.clock + put.max_age) ∧
      ∀ i url entry, (g.locals i).reads = some (url, entry) →
        ∃ item put, g.shared.table.deref entry = some item ∧
          latest g.shared.puts (c_str url) = some put ∧ Stored put item.entry ∧
          parse (c_str item.entry.json_response) = .value put.value := by
  have hg : Holds (Sound hash) (Relies hash) g := outline.steps holds_init h
  constructor
  · intro i url value t log hi
    have hk := (hg.2 i).1
    rw [hi] at hk
    exact hk t log rfl
  · intro i url entry hreads
    obtain ⟨item, put, hderef, hput, hstored⟩ := ((hg.2 i).reading hreads).stored hg.1
    refine ⟨item, put, hderef, hput, hstored, ?_⟩
    rw [hstored.json]
    exact parse_c_str put.parsed

end Assertions

/-- A response that may be kept for a minute, as its trailer says, and whose body has a NUL
behind the value. -/
def kept_response : Response where
  headers := [bytes "HTTP/1.1 200 OK\r\n", bytes "\r\n", bytes "cache-control: max-age=60\r\n"]
  body := [bytes "[1]", 0 :: bytes "2"]
  error := none
  response_code := 200

/-- One backend fetches and puts a document at time 100; another one asks for it at time 120,
by a URL that is the same C string. -/
def schedule : List (Bool × Choice) :=
  [.call (bytes "https://idp"), .go, .transfer kept_response, .memory blank_entry, .go, .go, .go,
      .go, .clock 100, .go, .go, .go].map (Prod.mk false) ++
    [.call (bytes "https://idp" ++ 0 :: bytes "x"), .go, .clock 120, .go, .go, .go, .go].map
      (Prod.mk true)

/-- The reading of the clock at which a value was taken from the cache. -/
def Pc.cached_at : Pc → Option ℤ
  | .returned _ _ (some (t, _)) => some t
  | _ => none

theorem cached_at_eq_some {pc : Pc} {t : ℤ} (h : pc.cached_at = some t) :
    ∃ url value log, pc = .returned url value (some (t, log)) := by
  unfold Pc.cached_at at h
  split at h
  · obtain rfl := Option.some.inj h
    exact ⟨_, _, _, rfl⟩
  · exact absurd h nofun

/-- Where the schedule ends. -/
def visited : Config Bool (Shared Bool) Pc := (run (backend List.length) schedule init).getD init

theorem cache_transparent_kept_response :
    ∃ url value log, visited.locals true = .returned url value (some (120, log)) ∧
      log <:+ visited.shared.puts ∧ ∃ put, latest log (c_str url) = some put ∧
        value = put.value ∧ 120 < put.clock + put.max_age := by
  have hsome : (run (backend List.length) schedule (init (ι := Bool))).isSome = true := by
    decide +kernel
  obtain ⟨g, hrun⟩ := Option.isSome_iff_exists.mp hsome
  have hvisited : visited = g := by rw [visited, hrun, Option.getD_some]
  have hend : (visited.locals true).cached_at = some 120 := by decide +kernel
  obtain ⟨url, value, log, hpc⟩ := cached_at_eq_some hend
  have h := cache_transparent List.length (hvisited ▸ steps_of_run hrun)
  exact ⟨url, value, log, hpc, h.1 true url value 120 log hpc⟩

end OidcValidator.SharedCache
