/-
`CacheFailure.lean` -- what a failing cache does to `get_json`.

`validate_token` goes on without a cache when it cannot attach to one: the exception that
`pg_try` makes of the `ERROR` is caught and logged. `get_json` calls `cache.get` and
`cache.put` the same way, and catches nothing. Both are a `pg_try` around the request to the
table, so an `ERROR` in the table leaves them as a `postgres_exception`, and the caching
decision at the end of `get_json` is one more `pg_try`, which lets an exception through.

So an answer that the provider has given, or would give, is lost when the table fails. The
main theorem says exactly when: [`Spared`] is the condition on the state before the call.
-/
import OidcValidator.HttpClient

set_option autoImplicit false

namespace OidcValidator.CacheFailure

open OidcValidator.ByteString OidcValidator.Control OidcValidator.PgUtils
open OidcValidator.Dshash OidcValidator.HttpCache OidcValidator.HttpClient
open OidcValidator.Picojson (Value parse)

variable {τ : Type} (hash : Bytes → ℕ)

/-! ## The condition -/

/-- The entry under `url`, if there is one. -/
def entry_of (url : Bytes) (u : World τ) : Option (Item HttpCacheEntry) :=
  u.table.find (entry_type hash) (c_str url)

/-- The lookup that `get url` makes does not fail, and it does not find an entry that has
expired. Deleting one takes the lock that the lookup still holds. -/
structure LookupSpared (url : Bytes) (u : World τ) : Prop where
  granted : Granted (hash (c_str url)) u
  fresh : Fresh hash url u

/-- The text that is found makes the parser throw. -/
def Overflows (url : Bytes) (u : World τ) : Prop :=
  ∃ i, entry_of hash url u = some i ∧ parse (c_str i.entry.json_response) = .overflow_error

/-- The answer is in the cache. -/
def Served (url : Bytes) (u : World τ) : Prop :=
  GetAsks url u ∧ ∃ i v, entry_of hash url u = some i ∧ parse (c_str i.entry.json_response) = .value v

/-- The `max-age` that `header_callback` is left with after a response. -/
def max_age_of (response : Response) : Option ℤ := response.headers.foldl header_callback none

/-- The insertion that follows a transfer with `response`, if one does, is the request
number `n`, and it does not fail. -/
def InsertSpared (url : Bytes) (response : Response) (n : ℕ) (u : World τ) : Prop :=
  ∀ max_age, max_age_of response = some max_age →
    PutAsks url response.body.flatten max_age u → u.failures n = .none

/-- What the next transfer brings. -/
def response_of (u : ClientWorld τ) : Response := u.rest.rest.responses u.rest.rest.transfers

/-- The cache does not get in the way of `get_json url`. -/
structure Spared (url : Bytes) (u : ClientWorld τ) : Prop where
  lookup : GetAsks url u → LookupSpared hash url u ∧ ¬Overflows hash url u
  insert : ¬Served hash url u → InsertSpared url (response_of u) (u.trace.length + 1) u

/-! ## `get` -/

/-- The clock has been read once more. -/
def ticked (u : World τ) : World τ :=
  { u with rest := { u.rest with clock_reads := u.rest.clock_reads + 1 } }

variable {hash}

theorem triple_is_expired_from {entry : ℕ} {i : Item HttpCacheEntry} {u : World τ}
    {X : Exit → World τ → Prop} (hderef : u.table.deref entry = some i) :
    Triple (fun v => v = u) (is_expired entry)
      (fun b v => b = decide (i.entry.expiration ≤ now u) ∧ v = ticked u) X := by
  refine Triple.bind (R := fun t v => t = now u ∧ v = ticked u) ?_ fun t => ?_
  · exact triple_time fun v hv => by rw [hv]; exact ⟨rfl, rfl⟩
  refine Triple.bind (R := fun e v => t = now u ∧ e = i.entry ∧ v = ticked u) ?_ fun e => ?_
  · refine triple_deref ?_
    rintro v ⟨rfl, rfl⟩
    exact ⟨i, hderef, rfl, rfl, rfl⟩
  · refine Triple.pure ?_
    rintro v ⟨rfl, rfl, rfl⟩
    exact ⟨rfl, rfl⟩

/-- A deletion does not come back while this process holds the lock it wants. -/
theorem triple_erase_held {key : Bytes} {u : World τ} (hheld : ¬Free (hash key) u) :
    Triple (fun v => v = u) (erase (entry_type hash) key) (fun _ _ => False) fun _ _ => True := by
  refine triple_pg_try (Y := fun _ _ => True) ?_ (fun _ h => h) (fun _ _ h => h) fun _ h => h
  refine Triple.bind (R := fun _ _ => False) ?_ fun _ _ h => h.elim
  rw [request_eq]
  exact (triple_request_with _ _ _ u).consequence (fun _ h => h) (fun _ _ h => hheld h.1.2)
    fun _ _ _ => trivial

theorem not_free_locked {p : ℕ} {mode : Mode} (u : World τ) : ¬Free p (u.locked p mode) := by
  simp [Free, Backend.locked]

/-- What `get` does with an entry only comes back if the entry is fresh. -/
theorem triple_get_entry_from {url : Bytes} {i : Item HttpCacheEntry} {u : World τ}
    (hderef : u.table.deref i.address = some i) (hheld : ¬Free (hash (c_str url)) u) :
    Triple (fun v => v = u) (get_entry hash url i.address)
      (fun r v => now u < i.entry.expiration ∧ r = some (c_str i.entry.json_response) ∧ v = ticked u)
      fun _ _ => True := by
  refine Triple.bind (triple_is_expired_from hderef) fun b => Triple.ite (fun _ => ?_) fun hb => ?_
  · -- an expired entry: `erase` wants the lock that `find` has taken
    refine Triple.bind (R := fun _ _ => False) ?_ fun _ _ h => h.elim
    have hticked : ¬Free (hash (c_str url)) (ticked u) := hheld
    exact (triple_erase_held hticked).consequence (fun _ h => h.2) (fun _ _ h => h) fun _ _ h => h
  · refine Triple.bind (R := fun _ v => now u < i.entry.expiration ∧ v = ticked u)
      (Triple.alloc ?_ fun _ _ => trivial) fun _ => ?_
    · rintro v ⟨rfl, rfl⟩
      exact ⟨by simpa using hb, rfl⟩
    refine Triple.bind (R := fun e v => now u < i.entry.expiration ∧ e = i.entry ∧ v = ticked u)
      (triple_deref ?_) fun e => Triple.pure ?_
    · rintro v ⟨hfresh, rfl⟩
      exact ⟨i, hderef, hfresh, rfl, rfl⟩
    · rintro v ⟨hfresh, rfl, rfl⟩
      exact ⟨hfresh, rfl, rfl⟩

/-- How a `get` that comes back has come back. -/
inductive Got (hash : Bytes → ℕ) (url : Bytes) (u : World τ) : Option Bytes → World τ → Prop
  | not_asked (h : ¬GetAsks url u) : Got hash url u none u
  | miss (h : GetAsks url u) (hspared : LookupSpared hash url u) (hfind : entry_of hash url u = none) :
      Got hash url u none (u.asked .dshash_find)
  | hit (h : GetAsks url u) (hspared : LookupSpared hash url u) {i : Item HttpCacheEntry}
      (hfind : entry_of hash url u = some i) :
      Got hash url u (some (c_str i.entry.json_response)) (ticked (u.asked .dshash_find))

/-- A `get` that comes back was spared. -/
theorem triple_get_from (url : Bytes) (u : World τ) :
    Triple (fun v => v = u) (HttpCache.get hash url) (Got hash url u) fun _ _ => True := by
  refine triple_pg_try (Y := fun _ _ => True) ?_ (fun _ h => h) (fun _ _ h => h) fun _ h => h
  refine Triple.get_bind ?_
  rintro u rfl
  refine Triple.ite (fun hcache => Triple.pure ?_) fun hcache => ?_
  · rintro u rfl
    exact .not_asked fun h => absurd h.1 (by simp [Option.isNone_iff_eq_none.mp hcache])
  refine Triple.ite (fun hurl => ?_) fun hurl => ?_
  · refine Triple.bind (R := fun _ v => v = u)
      (Triple.elog (fun _ h => h) (fun _ _ => trivial) fun _ _ => trivial) fun _ => Triple.pure ?_
    rintro u rfl
    exact .not_asked fun h => absurd h.2 (by omega)
  have hasks : GetAsks url u := ⟨by simpa [Option.isSome_iff_ne_none] using hcache, by omega⟩
  -- the table is asked, under the lock from here on if there is an entry
  refine Triple.bind ((triple_find_from (entry_type hash) (c_str url) false u).consequence
    (fun _ h => h) (fun _ _ h => h) fun _ _ _ => trivial) fun r => ?_
  cases r with
  | none =>
    refine Triple.pure ?_
    rintro v ⟨hgranted, ⟨-, hfind, rfl⟩ | ⟨i, heq, -⟩⟩
    · exact .miss hasks ⟨hgranted, fun i hi => absurd (hfind.symm.trans hi) (by simp)⟩ hfind
    · exact absurd heq (by simp)
  | some entry =>
    rintro m ⟨hgranted, ⟨heq, -⟩ | ⟨i, heq, hfind, hm⟩⟩
    · exact absurd heq (by simp)
    obtain rfl := Option.some.inj heq
    let v := (u.asked .dshash_find).locked (hash (c_str url)) .shared
    have hderef : v.table.deref i.address = some i := Table.deref_of_find _ hfind
    have hheld : (ticked v).held = (i.partition, .shared) :: u.held := by
      rw [Table.partition_of_find _ hfind]
      rfl
    refine Triple.with_destructor (Y := fun _ _ => True)
      (triple_get_entry_from hderef (not_free_locked _)) (fun r => ?_) (Triple.trivial _)
      (fun _ h => h) (fun _ h => h) m hm
    rintro m' ⟨hfresh, rfl, hm'⟩
    refine (triple_entry_ref_destructor_from (u := ticked v) hderef hheld).consequence
      (fun _ h => h) (fun _ w hw => ?_) (fun _ _ h => h) m' hm'
    subst hw
    have hspared : LookupSpared hash url u := by
      refine ⟨hgranted, fun j hj => ?_⟩
      obtain rfl := Option.some.inj (hfind.symm.trans hj)
      exact hfresh
    exact .hit hasks hspared hfind

/-! ## `put` -/

/-- A `put` that comes back, if it asks the table, was not refused. -/
theorem triple_put_from (url json_response : Bytes) (max_age : ℤ) (u : World τ) :
    Triple (fun v => v = u) (HttpCache.put hash url json_response max_age)
      (fun _ _ => PutAsks url json_response max_age u → Granted (hash (c_str url)) u)
      fun _ _ => True := by
  refine triple_pg_try (Y := fun _ _ => True) ?_ (fun _ h => h) (fun _ _ h => h) fun _ h => h
  refine Triple.get_bind ?_
  rintro u rfl
  -- where the table is not asked, there is nothing to show
  have hrefused (hnot : ¬PutAsks url json_response max_age u) (p : Prog CppException (World τ) Bool) :
      Triple (fun v => v = u) p
        (fun _ _ => PutAsks url json_response max_age u → Granted (hash (c_str url)) u)
        fun _ _ => True :=
    Triple.of_fact p fun _ _ h => absurd h hnot
  refine Triple.ite (fun hcache => hrefused ?_ _) fun _ => ?_
  · exact fun h => absurd h.1 (by simp [Option.isNone_iff_eq_none.mp hcache])
  refine Triple.ite (fun hurl => hrefused (fun h => absurd h.2.1 (by omega)) _) fun _ => ?_
  refine Triple.ite (fun hjson => hrefused (fun h => absurd h.2.2.1 (by omega)) _) fun _ => ?_
  refine Triple.ite (fun hage => hrefused (fun h => absurd h.2.2.2 (by omega)) _) fun _ => ?_
  -- where it is, the insertion has come back
  refine Triple.bind ((triple_find_or_insert_from (entry_type hash) (c_str url) u).consequence
    (fun _ h => h) (fun _ _ h => h) fun _ _ _ => trivial) fun r => ?_
  exact Triple.of_fact _ fun _ hgranted _ => hgranted

/-! ## `get_json` -/

/-- The caching decision comes back only if the insertion was not refused. -/
theorem triple_store_from (url json_string : Bytes) (u : ClientWorld τ) :
    Triple (fun v => v = u) (store hash url json_string)
      (fun _ _ => ∀ max_age, u.rest.rest.last_max_age_ = some max_age →
        PutAsks url json_string max_age u → Granted (hash (c_str url)) u) fun _ _ => True := by
  refine triple_pg_try (Y := fun _ _ => True) ?_ (fun _ h => h) (fun _ _ h => h) fun _ h => h
  refine Triple.get_bind ?_
  rintro u rfl
  rcases hlast : u.rest.rest.last_max_age_ with _ | max_age
  · exact Triple.of_fact _ fun _ _ _ h => absurd h (by simp)
  refine Triple.ite (fun _ => ?_) fun hpos => ?_
  · refine Triple.bind (triple_put_from url json_string max_age u) fun cached => ?_
    refine Triple.of_fact _ fun _ hput a ha => ?_
    obtain rfl := Option.some.inj ha
    exact hput
  · -- `put` would refuse such a `max-age`, too
    refine Triple.of_fact _ fun _ _ a ha hasks => ?_
    obtain rfl := Option.some.inj ha
    exact absurd hasks.2.2.2 hpos

/-- The client after the transfer. -/
def transferred (u : ClientWorld τ) : ClientWorld τ :=
  { u with rest := { u.rest with rest := { u.rest.rest with
      transfers := u.rest.rest.transfers + 1
      last_max_age_ := max_age_of (response_of u) } } }

theorem transfer_apply (m : Machine CppException (ClientWorld τ)) :
    transfer m = (.ret (response_of m.user), { m with user := transferred m.user }) := rfl

theorem triple_transfer_from (u : ClientWorld τ) {X : Exit → ClientWorld τ → Prop} :
    Triple (fun v => v = u) transfer (fun r v => r = response_of u ∧ v = transferred u) X := by
  rintro m rfl
  rw [transfer_apply]
  exact ⟨rfl, rfl⟩

theorem triple_note_from (level : Level) (msg : Bytes) (u : ClientWorld τ) :
    Triple (fun v => v = u) (pg_try (elog level msg) : Prog CppException (ClientWorld τ) Unit)
      (fun _ v => v = u) fun _ _ => True := by
  refine triple_pg_try (Y := fun _ _ => True) (Triple.elog (fun _ h => h) ?_ ?_) (fun _ h => h)
    (fun _ _ h => h) fun _ h => h
  · exact fun _ _ => trivial
  · exact fun _ _ => trivial

/-- A provider that answers with a JSON document. -/
structure Answers (response : Response) (w : Value) : Prop where
  done : response.error = none
  ok : response.response_code = 200
  parses : parse response.body.flatten = .value w

theorem Answers.parse_json {response : Response} {w : Value} (h : Answers response w)
    (fail : Bytes → CppException) : parse_json response.body.flatten fail = .ok w := by
  unfold HttpClient.parse_json
  rw [h.parses]

theorem triple_fetch_from {url : Bytes} {u : ClientWorld τ} {w : Value}
    (h : Answers (response_of u) w) :
    Triple (fun v => v = u) (fetch hash url)
      (fun v _ => v = w ∧ InsertSpared url (response_of u) u.trace.length u) fun _ _ => True := by
  refine Triple.bind (triple_note_from _ _ u) fun _ => ?_
  refine Triple.bind (R := fun _ v => v = u) (Triple.alloc (fun _ h => h) fun _ _ => trivial) fun _ => ?_
  refine Triple.bind (triple_transfer_from u) fun response => ?_
  rintro m ⟨rfl, hm⟩
  rw [h.done]
  dsimp only
  rw [if_neg (not_not.mpr h.ok)]
  rw [h.parse_json]
  refine Triple.bind (triple_store_from url _ (transferred u)) (fun _ => Triple.pure ?_) m hm
  exact fun v hstore => ⟨rfl, fun max_age hage hasks => (hstore max_age hage hasks).1⟩

/-- A `get_json` that returns was spared, and returns what the provider sent if it asked. -/
theorem triple_get_json_from {url : Bytes} {u : ClientWorld τ} {w : Value}
    (h : Answers (response_of u) w) :
    Triple (fun v => v = u) (get_json hash url)
      (fun v u' => Spared hash url u ∧ (u'.rest.rest.transfers ≠ u.rest.rest.transfers → v = w))
      fun _ _ => True := by
  refine Triple.bind (triple_get_from url u) fun cached_json m hgot => ?_
  generalize hm : m.user = u₁ at hgot
  cases hgot with
  | not_asked hnot =>
    refine (triple_fetch_from h).consequence (fun _ h => h) (fun v u' hend => ?_) (fun _ _ h => h) m hm
    exact ⟨⟨fun hasks => absurd hasks hnot, fun _ _ _ hput => absurd ⟨hput.1, hput.2.1⟩ hnot⟩,
      fun _ => hend.1⟩
  | miss hasks hlookup hfind =>
    have hnone : ¬Overflows hash url u := by
      rintro ⟨i, hi, -⟩
      exact absurd (hfind.symm.trans hi) (by simp)
    refine (triple_fetch_from (u := u.asked .dshash_find) h).consequence (fun _ h => h)
      (fun v u' hend => ?_) (fun _ _ h => h) m hm
    exact ⟨⟨fun _ => ⟨hlookup, hnone⟩, fun _ => hend.2⟩, fun _ => hend.1⟩
  | @hit hasks hlookup i hfind =>
    have hover (ho : parse (c_str i.entry.json_response) ≠ .overflow_error) : ¬Overflows hash url u := by
      rintro ⟨j, hj, hparse⟩
      obtain rfl := Option.some.inj (hfind.symm.trans hj)
      exact ho hparse
    show Ends _ _ (from_cache hash url _ m)
    unfold from_cache
    -- a text that does not parse is passed over like a miss, and one that overflows is not
    rcases hparse : parse (c_str i.entry.json_response) with v | e | _
    · refine Triple.bind (triple_note_from _ _ _) (fun _ => Triple.pure ?_) m hm
      rintro v rfl
      refine ⟨⟨fun _ => ⟨hlookup, hover (by rw [hparse]; simp)⟩, fun hnot => ?_⟩, fun hne => ?_⟩
      · exact absurd ⟨hasks, i, _, hfind, hparse⟩ hnot
      · exact absurd rfl hne
    · refine Triple.bind (triple_note_from _ _ _) (fun _ => ?_) m hm
      refine (triple_fetch_from (u := ticked (u.asked .dshash_find)) h).consequence (fun _ h => h)
        (fun v u' hend => ?_) fun _ _ h => h
      exact ⟨⟨fun _ => ⟨hlookup, hover (by rw [hparse]; simp)⟩, fun _ => hend.2⟩, fun _ => hend.1⟩
    · trivial

/-! ## The other direction

Where nothing else fails, a cache that is spared lets everything through. -/

theorem evals_time (u : World τ) : Evals time u (now u) (ticked u) :=
  Evals.get_bind (Evals.bind (Evals.modify _ u) (Evals.pure _ _))

theorem evals_deref {entry : ℕ} {i : Item HttpCacheEntry} {u : World τ}
    (h : u.table.deref entry = some i) : Evals (deref entry) u i.entry u := by
  refine Evals.get_bind ?_
  rw [h]
  exact Evals.pure _ u

theorem evals_get_entry {url : Bytes} {i : Item HttpCacheEntry} {u : World τ}
    (hderef : u.table.deref i.address = some i) (hfresh : now u < i.entry.expiration) :
    Evals (get_entry hash url i.address) u (some (c_str i.entry.json_response)) (ticked u) := by
  have hexpired : Evals (is_expired i.address) u false (ticked u) := by
    have hfalse : decide (i.entry.expiration ≤ now u) = false := by simpa using hfresh
    rw [← hfalse]
    exact Evals.bind (evals_time u) (Evals.bind (evals_deref hderef) (Evals.pure _ _))
  refine Evals.bind hexpired ?_
  rw [if_neg (by simp)]
  have hticked : (ticked u).table.deref i.address = some i := hderef
  exact Evals.bind (Evals.alloc _) (Evals.bind (evals_deref hticked) (Evals.pure _ _))

/-- A `get` that is spared comes back. -/
theorem evals_get {url : Bytes} {u : World τ} (h : GetAsks url u → LookupSpared hash url u) :
    ∃ r u', Evals (HttpCache.get hash url) u r u' ∧ Got hash url u r u' := by
  by_cases hasks : GetAsks url u
  · have hcache : ¬u.rest.cache_.isNone = true := by
      simpa [Option.isSome_iff_ne_none] using hasks.1
    have hurl : ¬max_url_len < url.length := by have := hasks.2; omega
    obtain ⟨hgranted, hfresh⟩ := h hasks
    rcases hfind : u.table.find (entry_type hash) (c_str url) with _ | i
    · refine ⟨none, u.asked .dshash_find, evals_pg_try (Evals.get_bind ?_),
        .miss hasks (h hasks) hfind⟩
      rw [if_neg hcache, if_neg hurl]
      exact Evals.bind (evals_find_none (entry_type hash) false hgranted hfind) (Evals.pure _ _)
    · refine ⟨some (c_str i.entry.json_response), ticked (u.asked .dshash_find),
        evals_pg_try (Evals.get_bind ?_), .hit hasks (h hasks) hfind⟩
      rw [if_neg hcache, if_neg hurl]
      refine Evals.bind (evals_find_some (entry_type hash) false hgranted hfind) ?_
      -- the entry is read under a shared lock, which the destructor gives back
      let v := (u.asked .dshash_find).locked (hash (c_str url)) .shared
      have hderef : v.table.deref i.address = some i := Table.deref_of_find _ hfind
      have hheld : (ticked v).held = (i.partition, .shared) :: u.held := by
        rw [Table.partition_of_find _ hfind]
        rfl
      refine Evals.with_destructor (evals_get_entry (u := v) hderef (hfresh i hfind)) ?_
      exact evals_entry_ref_destructor (u := ticked v) hderef hheld
  · refine ⟨none, u, evals_pg_try (Evals.get_bind ?_), .not_asked hasks⟩
    -- without a table, or for a URL that is too long, nothing is looked up
    split_ifs with hcache hurl
    · exact Evals.pure _ _
    · exact Evals.bind (Evals.elog _ _ _) (Evals.pure _ _)
    · exact absurd ⟨by simpa [Option.isSome_iff_ne_none] using hcache, by omega⟩ hasks

/-- The entry is there, and the lock on top is its own. -/
def Locked (entry : ℕ) (held : List (ℕ × Mode)) (u : World τ) : Prop :=
  ∃ i, u.table.deref entry = some i ∧ u.held = (i.partition, .exclusive) :: held

theorem evals_assign {entry : ℕ} {held : List (ℕ × Mode)} {u : World τ} (h : Locked entry held u)
    (f : HttpCacheEntry → HttpCacheEntry) :
    ∃ u', Evals (assign entry f) u () u' ∧ Locked entry held u' := by
  obtain ⟨i, hderef, hheld⟩ := h
  refine ⟨_, Evals.modify _ u, { i with entry := f i.entry }, ?_, hheld⟩
  rw [Table.deref_update, hderef, Option.map_some, if_pos rfl]

theorem evals_put_entry (url json_response : Bytes) (max_age : ℤ) {entry : ℕ}
    {held : List (ℕ × Mode)} {u : World τ} (h : Locked entry held u) :
    ∃ u', Evals (put_entry url json_response max_age entry) u true u' ∧ Locked entry held u' := by
  obtain ⟨u₁, he₁, h₁⟩ := evals_assign h (HttpCacheEntry.copy_url url)
  obtain ⟨u₂, he₂, h₂⟩ := evals_assign h₁ HttpCacheEntry.end_url
  obtain ⟨u₃, he₃, h₃⟩ := evals_assign h₂ (HttpCacheEntry.copy_json json_response)
  obtain ⟨u₄, he₄, h₄⟩ := evals_assign h₃ HttpCacheEntry.end_json
  have h₅ : Locked entry held (ticked u₄) := h₄
  obtain ⟨u₆, he₆, h₆⟩ := evals_assign h₅ (HttpCacheEntry.set_expiration (now u₄ + max_age))
  refine ⟨u₆, ?_, h₆⟩
  refine Evals.bind he₁ (Evals.bind he₂ (Evals.bind he₃ (Evals.bind he₄ ?_)))
  exact Evals.bind (evals_time u₄) (Evals.bind he₆ (Evals.pure _ _))

/-- A `put` that is not refused comes back. -/
theorem evals_put {url json_response : Bytes} {max_age : ℤ} {u : World τ}
    (h : PutAsks url json_response max_age u → Granted (hash (c_str url)) u) :
    ∃ b u', Evals (HttpCache.put hash url json_response max_age) u b u' := by
  by_cases hasks : PutAsks url json_response max_age u
  · obtain ⟨r, u₁, hinsert, ⟨i, hderef, hpart⟩, hheld⟩ :=
      evals_find_or_insert (entry_type hash) (h hasks)
    -- the entry is written under the lock that `find_or_insert` has taken
    have hlocked : Locked r.1 u.held u₁ := ⟨i, hderef, by rw [hpart]; exact hheld⟩
    obtain ⟨u₂, hput, i₂, hderef₂, hheld₂⟩ := evals_put_entry url json_response max_age hlocked
    obtain ⟨hsome, hurl, hjson, hage⟩ := hasks
    have hcache : ¬u.rest.cache_.isNone = true := by simpa [Option.isSome_iff_ne_none] using hsome
    refine ⟨true, { u₂ with held := u.held }, evals_pg_try (Evals.get_bind ?_)⟩
    rw [if_neg hcache, if_neg (by omega), if_neg (by omega), if_neg (by omega)]
    refine Evals.bind hinsert ?_
    exact Evals.with_destructor hput (evals_entry_ref_destructor hderef₂ hheld₂)
  · refine ⟨false, u, evals_pg_try (Evals.get_bind ?_)⟩
    split_ifs with hcache hurl hjson hage
    · exact Evals.pure _ _
    · exact Evals.bind (Evals.elog _ _ _) (Evals.pure _ _)
    · exact Evals.bind (Evals.elog _ _ _) (Evals.pure _ _)
    · exact Evals.pure _ _
    · exact absurd ⟨by simpa [Option.isSome_iff_ne_none] using hcache, by omega, by omega, by omega⟩ hasks

theorem evals_store {url json_string : Bytes} {u : ClientWorld τ}
    (h : ∀ max_age, u.rest.rest.last_max_age_ = some max_age →
      PutAsks url json_string max_age u → Granted (hash (c_str url)) u) :
    ∃ u', Evals (store hash url json_string) u () u' := by
  rcases hlast : u.rest.rest.last_max_age_ with _ | max_age
  · refine ⟨u, evals_pg_try (Evals.get_bind ?_)⟩
    rw [hlast]
    exact Evals.elog _ _ _
  · by_cases hpos : 0 < max_age
    · -- only a positive `max-age` leads to `put`
      obtain ⟨cached, u₁, hput⟩ := evals_put (h max_age hlast)
      refine ⟨u₁, evals_pg_try (Evals.get_bind ?_)⟩
      rw [hlast]
      dsimp only
      rw [if_pos hpos]
      refine Evals.bind hput ?_
      split_ifs
      · exact Evals.elog _ _ _
      · exact Evals.pure _ _
    · refine ⟨u, evals_pg_try (Evals.get_bind ?_)⟩
      rw [hlast]
      dsimp only
      rw [if_neg hpos]
      exact Evals.elog _ _ _

theorem evals_transfer (u : ClientWorld τ) : Evals transfer u (response_of u) (transferred u) := by
  rintro m hm rfl
  exact ⟨_, transfer_apply m, hm, rfl⟩

theorem evals_note (level : Level) (msg : Bytes) (u : ClientWorld τ) :
    Evals (pg_try (elog level msg) : Prog CppException (ClientWorld τ) Unit) u () u :=
  evals_pg_try (Evals.elog _ _ _)

theorem evals_fetch {url : Bytes} {u : ClientWorld τ} {w : Value} (h : Answers (response_of u) w)
    (hinsert : ∀ max_age, max_age_of (response_of u) = some max_age →
      PutAsks url (response_of u).body.flatten max_age u → Granted (hash (c_str url)) u) :
    ∃ u', Evals (fetch hash url) u w u' := by
  have hstored : ∃ u', Evals (store hash url (response_of u).body.flatten) (transferred u) () u' :=
    evals_store hinsert
  obtain ⟨u', hstore⟩ := hstored
  refine ⟨u', Evals.bind (evals_note _ _ u) (Evals.bind (Evals.alloc u) (Evals.bind (evals_transfer u) ?_))⟩
  rw [h.done]
  dsimp only
  rw [if_neg (not_not.mpr h.ok), h.parse_json]
  exact Evals.bind (Evals.pure w _) (Evals.bind hstore (Evals.pure w u'))

theorem evals_get_json {url : Bytes} {u : ClientWorld τ} {w : Value} (h : Answers (response_of u) w)
    (hspared : Spared hash url u) : ∃ v u', Evals (get_json hash url) u v u' := by
  obtain ⟨r, u₁, hget, hgot⟩ := evals_get fun hasks => (hspared.lookup hasks).1
  -- the insertion asks for the lock that the lookup has found free
  have hgranted (hasks : GetAsks url u) (hnot : ¬Served hash url u) : ∀ max_age,
      max_age_of (response_of u) = some max_age →
      PutAsks url (response_of u).body.flatten max_age u →
      Granted (hash (c_str url)) (u.asked .dshash_find) :=
    fun max_age hage hput =>
      ⟨hspared.insert hnot max_age hage hput, (hspared.lookup hasks).1.granted.2⟩
  cases hgot with
  | not_asked hnot =>
    have hfetched : ∃ u', Evals (fetch hash url) u w u' :=
      evals_fetch h fun _ _ hput => absurd ⟨hput.1, hput.2.1⟩ hnot
    obtain ⟨u', hfetch⟩ := hfetched
    exact ⟨w, u', Evals.bind hget hfetch⟩
  | miss hasks _ hfind =>
    have hnot : ¬Served hash url u := by
      rintro ⟨-, i, v, hi, -⟩
      exact absurd (hfind.symm.trans hi) (by simp)
    obtain ⟨u', hfetch⟩ := evals_fetch (u := u.asked .dshash_find) h (hgranted hasks hnot)
    exact ⟨w, u', Evals.bind hget hfetch⟩
  | @hit hasks _ i hfind =>
    rcases hparse : parse (c_str i.entry.json_response) with v | e | _
    · refine ⟨v, ticked (u.asked .dshash_find), Evals.bind hget ?_⟩
      show Evals (from_cache hash url _) _ _ _
      unfold from_cache
      rw [hparse]
      exact Evals.bind (evals_note _ _ _) (Evals.pure _ _)
    · have hnot : ¬Served hash url u := by
        rintro ⟨-, j, v, hj, hvalue⟩
        obtain rfl := Option.some.inj (hfind.symm.trans hj)
        exact absurd (hparse.symm.trans hvalue) (by simp)
      obtain ⟨u', hfetch⟩ := evals_fetch (u := ticked (u.asked .dshash_find)) h (hgranted hasks hnot)
      refine ⟨w, u', Evals.bind hget ?_⟩
      show Evals (from_cache hash url _) _ _ _
      unfold from_cache
      rw [hparse]
      exact Evals.bind (evals_note _ _ _) hfetch
    · exact absurd ⟨i, hfind, hparse⟩ (hspared.lookup hasks).2

/-! ## The condition is exact -/

/-- **When a failing cache costs the answer.** The provider answers with a JSON document, and
nothing fails but requests to the table. Then `get_json` returns a value, the provider's if
the cache does not serve one, exactly when the cache is spared. -/
theorem get_json_survives_iff (hash : Bytes → ℕ) (url : Bytes)
    {m : Machine CppException (ClientWorld τ)} {w : Value}
    (hquiet : Quiet m) (hanswers : Answers (next_response m) w) :
    (∃ v m', get_json hash url m = (.ret v, m') ∧
      (m'.user.rest.rest.transfers ≠ m.user.rest.rest.transfers → v = w)) ↔
      Spared hash url m.user := by
  have hreturned {v : Value} {m' : Machine CppException (ClientWorld τ)}
      (hrun : get_json hash url m = (.ret v, m')) : Spared hash url m.user ∧
        (m'.user.rest.rest.transfers ≠ m.user.rest.rest.transfers → v = w) :=
    Triple.of_eq_ret (triple_get_json_from hanswers) rfl hrun
  constructor
  · rintro ⟨v, m', hrun, -⟩
    exact (hreturned hrun).1
  · intro hspared
    obtain ⟨v, u', heval⟩ := evals_get_json hanswers hspared
    obtain ⟨m', hrun, -, -⟩ := heval m hquiet rfl
    exact ⟨v, m', hrun, (hreturned hrun).2⟩

/-- An attached client whose first request to the table ends as the oracle says, and whose
provider answers. -/
def attached_client (first : Failure) : Machine CppException (ClientWorld Unit) :=
  let m := client_machine (response_with "Cache-Control: max-age=60\r\n")
  { m with user := { m.user with
      failures := fun n => if n = 0 then first else .none
      rest := { m.user.rest with cache_ := some ⟨0, 0⟩ } } }

theorem attached_client_quiet (first : Failure) : Quiet (attached_client first) := fun _ => rfl

theorem attached_client_answers (first : Failure) :
    Answers (next_response (attached_client first)) (.int64 1) :=
  ⟨rfl, rfl, rfl⟩

/-- With no failure the answer comes through. -/
theorem get_json_survives_quiet_cache :
    ∃ v m', get_json List.length (bytes "https://idp") (attached_client .none) = (.ret v, m') ∧
      (m'.user.rest.rest.transfers ≠ (attached_client .none).user.rest.rest.transfers →
        v = .int64 1) := by
  refine (get_json_survives_iff List.length (bytes "https://idp") (attached_client_quiet .none)
    (attached_client_answers .none)).mpr ⟨fun _ => ⟨⟨⟨rfl, ?_⟩, ?_⟩, ?_⟩, fun _ _ _ _ => rfl⟩
  · exact nofun
  · exact fun i hi => absurd hi (Option.some_ne_none i).symm
  · rintro ⟨i, hi, -⟩
    exact absurd hi (Option.some_ne_none i).symm

/-- A lookup that fails is an exception of `get_json`, although the provider would have
answered. -/
theorem lookup_failure_loses_answer :
    Quiet (attached_client (.after (some (bytes "could not attach to segment")))) ∧
      Answers (next_response (attached_client (.after (some (bytes "could not attach to segment")))))
        (.int64 1) ∧
      (get_json List.length (bytes "https://idp")
          (attached_client (.after (some (bytes "could not attach to segment"))))).1
        = .throw (postgres_exception (bytes "PostgreSQL error: could not attach to segment")) :=
  ⟨attached_client_quiet _, attached_client_answers _, rfl⟩

end OidcValidator.CacheFailure
