/-
`CacheSteps.lean` -- the steps that a backend really makes.

`SharedCache.lean` says what a step does wherever its backend may be. Of a backend that has
come there in a run more is known: the entry that it holds is there and belongs to the most
recent put, the lock that it gives back is the one it has, a body from the cache can be parsed,
and an entry is never deleted. [`Move`] lists the steps with all that filled in, and what is said
about steps from here on is said about these.
-/
import OidcValidator.SharedCache

set_option autoImplicit false

namespace OidcValidator.CacheSteps

open OidcValidator.ByteString OidcValidator.Dshash OidcValidator.HttpCache
open OidcValidator.HttpClient OidcValidator.Interleaving OidcValidator.SharedCache
open OidcValidator.Picojson (Value parse parse_c_str)

variable {ι : Type} (hash : Bytes → ℕ)

/-! ## The steps -/

/-- The steps inside a call. -/
def within_call : Choice → Bool
  | .call _ | .exit => false
  | _ => true

/-- Where a failure leads that leaves no lock behind. -/
def fails : Pc → Option Pc
  | .get _ | .parse _ _ _ _ | .fetch _ | .put _ | .finish _ _ => some .failed
  | .erase url entry => some (.release_get url entry .thrown)
  | .read_json url entry _ _ => some (.release_get url entry .thrown)
  | _ => none

/-- The steps of backend `i`, when it can rely on what it relies on. -/
inductive Move [DecidableEq ι] (i : ι) (s : Shared ι) : Pc → Choice → Shared ι → Pc → Prop
  | call {pc : Pc} {url : Bytes} (houtside : pc.outside = true) : Move i s pc (.call url) s (.get url)
  | exit {pc : Pc} (houtside : pc.outside = true) :
      Move i s pc .exit { s with locks := fun p => (s.locks p).without i } .idle
  | fail {pc pc' : Pc} (hfails : fails pc = some pc') : Move i s pc .fail s pc'
  | detached {url : Bytes} : Move i s (.get url) .detached s (.fetch url)
  | too_long {url : Bytes} (hlen : max_url_len < url.length) : Move i s (.get url) .go s (.fetch url)
  | miss {url : Bytes} {holders : List ι} (hlen : url.length ≤ max_url_len)
      (hlock : s.locks (hash (c_str url)) = .shared holders)
      (hmiss : s.table.find (entry_type hash) (c_str url) = none) :
      Move i s (.get url) .go s (.fetch url)
  | found {url : Bytes} {holders : List ι} {item : Item HttpCacheEntry}
      (hlen : url.length ≤ max_url_len) (hlock : s.locks (hash (c_str url)) = .shared holders)
      (hfound : s.table.find (entry_type hash) (c_str url) = some item) :
      Move i s (.get url) .go (s.relock (hash (c_str url)) (.shared (i :: holders)))
        (.read_clock url item.address)
  | get_locked {url : Bytes} {holders : List ι}
      (hlock : s.locks (hash (c_str url)) = .shared holders) :
      Move i s (.get url) .fail_locked (s.relock (hash (c_str url)) (.shared (i :: holders))) .failed
  | read_clock {url : Bytes} {entry : ℕ} {t : ℤ} {put : Put}
      (hput : latest s.puts (c_str url) = some put) :
      Move i s (.read_clock url entry) (.clock t) s (.read_expiration url entry t s.puts)
  | expired {url : Bytes} {entry : ℕ} {t : ℤ} {log : List Put} {put : Put}
      (hput : latest s.puts (c_str url) = some put) (hlog : latest log (c_str url) = some put)
      (hexpired : put.clock + put.max_age ≤ t) :
      Move i s (.read_expiration url entry t log) .go s (.erase url entry)
  | fresh {url : Bytes} {entry : ℕ} {t : ℤ} {log : List Put} {put : Put}
      (hput : latest s.puts (c_str url) = some put) (hlog : latest log (c_str url) = some put)
      (hfresh : t < put.clock + put.max_age) :
      Move i s (.read_expiration url entry t log) .go s (.read_json url entry t log)
  | erase_locked {url : Bytes} {entry : ℕ} : Move i s (.erase url entry) .fail_locked s .failed
  | read_json {url : Bytes} {entry : ℕ} {t : ℤ} {log : List Put} {put : Put}
      (hput : latest s.puts (c_str url) = some put) (hlog : latest log (c_str url) = some put)
      (hfresh : t < put.clock + put.max_age) :
      Move i s (.read_json url entry t log) .go s
        (.release_get url entry (.hit (c_str put.body) t log))
  | release_get {url : Bytes} {entry : ℕ} {got : Got} {holders : List ι}
      (hlock : s.locks (hash (c_str url)) = .shared holders) (hmem : i ∈ holders) :
      Move i s (.release_get url entry got) .go
        (s.relock (hash (c_str url)) (.shared (holders.erase i))) (got.after url)
  | parse {url : Bytes} {t : ℤ} {log : List Put} {put : Put}
      (hlog : latest log (c_str url) = some put) (hfresh : t < put.clock + put.max_age) :
      Move i s (.parse url (c_str put.body) t log) .go s (.returned url put.value (some (t, log)))
  | transfer {url : Bytes} {response : Response} :
      Move i s (.fetch url) (.transfer response) s (fetched url response)
  | put_detached {doc : Document} :
      Move i s (.put doc) .detached s (.finish doc.url doc.value)
  | put_refused {doc : Document} {m : HttpCacheEntry}
      (hrefused : max_url_len < doc.url.length ∨ max_json_len < doc.body.length ∨ doc.max_age ≤ 0) :
      Move i s (.put doc) (.memory m) s (.finish doc.url doc.value)
  | put_found {doc : Document} {m : HttpCacheEntry} {item : Item HttpCacheEntry}
      (hlock : s.locks (hash doc.key) = .shared [])
      (hfound : s.table.find (entry_type hash) doc.key = some item) :
      Move i s (.put doc) (.memory m) (s.relock (hash doc.key) (.exclusive i))
        (.write .copy_url doc item.address)
  | put_inserted {doc : Document} {m : HttpCacheEntry} (hlen : doc.url.length ≤ max_url_len)
      (hlock : s.locks (hash doc.key) = .shared [])
      (hmiss : s.table.find (entry_type hash) doc.key = none) :
      Move i s (.put doc) (.memory m)
        { s.relock (hash doc.key) (.exclusive i) with
          table := s.table.insert (entry_type hash) doc.key m }
        (.write .copy_url doc s.table.fresh)
  | put_locked {doc : Document} (hlock : s.locks (hash doc.key) = .shared []) :
      Move i s (.put doc) .fail_locked (s.relock (hash doc.key) (.exclusive i)) .failed
  | write {stage : Stage} {doc : Document} {entry : ℕ}
      (hwriting : Writing hash i s doc entry (stage.before doc)) :
      Move i s (.write stage doc entry) .go
        { s with table := s.table.update entry (stage.apply doc) } (stage.after doc entry)
  | read_put_clock {doc : Document} {entry : ℕ} {t : ℤ}
      (hwriting : Writing hash i s doc entry (HasBody doc)) :
      Move i s (.read_put_clock doc entry) (.clock t) s (.set_expiration ⟨doc, t⟩ entry)
  | set_expiration {put : Put} {entry : ℕ}
      (hwriting : Writing hash i s put.toDocument entry (HasBody put.toDocument)) :
      Move i s (.set_expiration put entry) .go
        { s with table := s.table.update entry
                  (HttpCacheEntry.set_expiration (put.clock + put.max_age)) }
        (.release_put put entry)
  | release_put {put : Put} {entry : ℕ} {item : Item HttpCacheEntry}
      (hlock : s.locks (hash put.key) = .exclusive i)
      (hfound : s.table.find (entry_type hash) put.key = some item) :
      Move i s (.release_put put entry) .go
        { s.relock (hash put.key) (.shared []) with puts := put :: s.puts }
        (.finish put.url put.value)
  | finish {url : Bytes} {value : Value} :
      Move i s (.finish url value) .go s (.returned url value none)

variable {hash} [DecidableEq ι] {i : ι} {s s' : Shared ι} {pc pc' : Pc}

/-! ## Every step is one of them -/

/-- The lookup of `get`. -/
theorem move_of_get {url : Bytes} (hstep : get_step hash i url s = some (s', pc')) :
    Move hash i s (.get url) .go s' pc' := by
  unfold get_step at hstep
  split_ifs at hstep with hlen
  · obtain ⟨rfl, rfl⟩ := Prod.mk.inj (Option.some.inj hstep)
    exact .too_long hlen
  · obtain ⟨s₁, hlock, heq⟩ := Option.map_eq_some_iff.mp hstep
    obtain ⟨holders, hp, rfl⟩ := lock_shared_eq_some hlock
    rcases hitem : s.table.find (entry_type hash) (c_str url) with _ | item <;>
      rw [hitem] at heq <;> obtain ⟨rfl, rfl⟩ := Prod.mk.inj heq
    · exact .miss (not_lt.mp hlen) hp hitem
    · exact .found (not_lt.mp hlen) hp hitem

/-- The lookup of `put`. -/
theorem move_of_put {doc : Document} {m : HttpCacheEntry}
    (hstep : put_step hash i doc m s = some (s', pc')) :
    Move hash i s (.put doc) (.memory m) s' pc' := by
  unfold put_step at hstep
  split_ifs at hstep with hrefused
  · obtain ⟨rfl, rfl⟩ := Prod.mk.inj (Option.some.inj hstep)
    exact .put_refused hrefused
  · obtain ⟨s₁, hlock, heq⟩ := Option.map_eq_some_iff.mp hstep
    obtain ⟨hp, rfl⟩ := lock_exclusive_eq_some hlock
    rcases hitem : s.table.find (entry_type hash) doc.key with _ | item <;>
      rw [hitem] at heq <;> obtain ⟨rfl, rfl⟩ := Prod.mk.inj heq
    · exact .put_inserted (by omega) hp hitem
    · exact .put_found hp hitem

/-- Only a backend outside `get_json` takes a call. -/
theorem call_of_step {url : Bytes} (hstep : get_json_step hash i s pc (.call url) = some (s', pc')) :
    Move hash i s pc (.call url) s' pc' := by
  cases pc with
  | idle | returned _ _ _ | failed =>
    obtain ⟨rfl, rfl⟩ := Prod.mk.inj (Option.some.inj hstep)
    exact .call rfl
  | _ => exact absurd hstep nofun

/-- A failure changes nothing that is shared. -/
theorem fail_of_step (hstep : get_json_step hash i s pc .fail = some (s', pc')) :
    Move hash i s pc .fail s' pc' := by
  cases pc with
  | get _ | erase _ _ | read_json _ _ _ _ | parse _ _ _ _ | fetch _ | put _ | finish _ _ =>
    obtain ⟨rfl, rfl⟩ := Prod.mk.inj (Option.some.inj hstep)
    exact .fail rfl
  | _ => exact absurd hstep nofun

/-- A failure that leaves a lock behind. -/
theorem locked_of_step (hstep : get_json_step hash i s pc .fail_locked = some (s', pc')) :
    Move hash i s pc .fail_locked s' pc' := by
  cases pc with
  | get url =>
    obtain ⟨s₁, hlock, heq⟩ := Option.map_eq_some_iff.mp hstep
    obtain ⟨holders, hp, rfl⟩ := lock_shared_eq_some hlock
    obtain ⟨rfl, rfl⟩ := Prod.mk.inj heq
    exact .get_locked hp
  | erase url entry =>
    obtain ⟨rfl, rfl⟩ := Prod.mk.inj (Option.some.inj hstep)
    exact .erase_locked
  | put doc =>
    obtain ⟨s₁, hlock, heq⟩ := Option.map_eq_some_iff.mp hstep
    obtain ⟨hp, rfl⟩ := lock_exclusive_eq_some hlock
    obtain ⟨rfl, rfl⟩ := Prod.mk.inj heq
    exact .put_locked hp
  | _ => exact absurd hstep nofun

/-- A step that nothing goes wrong with. -/
theorem go_of_step (hs : Sound hash s) (h : Relies hash i s pc)
    (hstep : get_json_step hash i s pc .go = some (s', pc')) : Move hash i s pc .go s' pc' := by
  cases pc with
  | get url => exact move_of_get hstep
  -- the entry that is read under the lock stores the latest put
  | read_expiration url entry t log =>
    obtain ⟨hreading, hcurrent⟩ := h.1
    obtain ⟨item, put, hderef, hput, hstored⟩ := hreading.stored hs
    have hlog := hcurrent.2.trans hput
    simp only [get_json_step, hderef, Option.map_some, hstored.expiration] at hstep
    obtain ⟨rfl, rfl⟩ := Prod.mk.inj (Option.some.inj hstep)
    split_ifs with hexpired
    · exact .expired hput hlog hexpired
    · exact .fresh hput hlog (not_le.mp hexpired)
  | erase url entry =>
    -- `dshash_delete_key` waits for the lock of its own backend
    have hnone := (erase_step_eq_none h.1).symm.trans hstep
    cases hnone
  | read_json url entry t log =>
    obtain ⟨hreading, hcurrent, -, put, hlog, -, hfresh⟩ := h.1
    obtain ⟨item, put', hderef, hput, hstored⟩ := hreading.stored hs
    obtain rfl : put = put' := Option.some.inj (hlog.symm.trans (hcurrent.2.trans hput))
    simp only [get_json_step, hderef, Option.map_some, hstored.json] at hstep
    obtain ⟨rfl, rfl⟩ := Prod.mk.inj (Option.some.inj hstep)
    exact .read_json hput hlog hfresh
  | release_get url entry got =>
    obtain ⟨s₁, hunlock, heq⟩ := Option.map_eq_some_iff.mp hstep
    obtain ⟨rfl, rfl⟩ := Prod.mk.inj heq
    obtain ⟨holders, hp, hmem⟩ := h.1.1.lock
    have hs₁ := unlock_eq_some h.1.1.found hunlock
    rw [hp] at hs₁
    obtain rfl : s₁ = s.relock (hash (c_str url)) (.shared (holders.erase i)) := hs₁
    exact .release_get hp hmem
  | parse url json t log =>
    obtain ⟨-, put, hlog, rfl, hfresh⟩ := h.1
    -- what was put has been parsed before, and is cut at its first zero
    have hparse : parse (c_str put.body) = .value put.value := parse_c_str put.parsed
    obtain ⟨rfl, rfl⟩ := Prod.mk.inj (Option.some.inj hstep)
    unfold parsed
    rw [hparse]
    exact .parse hlog hfresh
  | write stage doc entry =>
    obtain ⟨rfl, rfl⟩ := Prod.mk.inj (Option.some.inj hstep)
    exact .write h.1
  | set_expiration put entry =>
    obtain ⟨rfl, rfl⟩ := Prod.mk.inj (Option.some.inj hstep)
    exact .set_expiration h.1
  | release_put put entry =>
    have hwriting : Writing hash i s put.toDocument entry (Stored put) := h.1
    obtain ⟨item, hitem, haddr, -⟩ := hwriting.found
    obtain ⟨s₁, hunlock, heq⟩ := Option.map_eq_some_iff.mp hstep
    obtain ⟨rfl, rfl⟩ := Prod.mk.inj heq
    have hs₁ := unlock_eq_some ⟨item, hitem, haddr⟩ hunlock
    rw [hwriting.lock] at hs₁
    obtain rfl : s₁ = s.relock (hash put.key) (.shared []) := hs₁
    exact .release_put hwriting.lock hitem
  | finish url value =>
    obtain ⟨rfl, rfl⟩ := Prod.mk.inj (Option.some.inj hstep)
    exact .finish
  | _ => cases hstep

/-- **What a step can do.** -/
theorem move_of_step {c : Choice} (hs : Sound hash s) (h : Relies hash i s pc)
    (hstep : backend hash i c s pc = some (s', pc')) : Move hash i s pc c s' pc' := by
  cases c with
  | call url => exact call_of_step hstep
  | go => exact go_of_step hs h hstep
  | detached =>
    cases pc with
    | get _ | put _ =>
      obtain ⟨rfl, rfl⟩ := Prod.mk.inj (Option.some.inj hstep)
      first | exact .detached | exact .put_detached
    | _ => exact absurd hstep nofun
  | clock t =>
    cases pc with
    | read_clock url entry =>
      obtain ⟨rfl, rfl⟩ := Prod.mk.inj (Option.some.inj hstep)
      obtain ⟨item, put, -, hput, -⟩ := Reading.stored h.1 hs
      exact .read_clock hput
    | read_put_clock doc entry =>
      obtain ⟨rfl, rfl⟩ := Prod.mk.inj (Option.some.inj hstep)
      exact .read_put_clock h.1
    | _ => exact absurd hstep nofun
  | transfer response =>
    cases pc with
    | fetch url =>
      obtain ⟨rfl, rfl⟩ := Prod.mk.inj (Option.some.inj hstep)
      exact .transfer
    | _ => exact absurd hstep nofun
  | memory m =>
    cases pc with
    | put doc => exact move_of_put hstep
    | _ => exact absurd hstep nofun
  | fail => exact fail_of_step hstep
  | fail_locked => exact locked_of_step hstep
  | exit =>
    obtain ⟨houtside, heq⟩ := Option.ite_none_right_eq_some.mp hstep
    obtain ⟨rfl, rfl⟩ := Prod.mk.inj (Option.some.inj heq)
    exact .exit houtside

/-- A step of a run. -/
theorem move_of_run_step {c : Choice} {g g' : Config ι (Shared ι) Pc}
    (hg : Holds (Sound hash) (Relies hash) g) (hstep : step (backend hash) i c g = some g') :
    Move hash i g.shared (g.locals i) c g'.shared (g'.locals i) := by
  obtain ⟨s', pc', hback, rfl⟩ := step_eq_some.mp hstep
  dsimp only
  rw [Function.update_self]
  exact move_of_step hg.1 (hg.2 i) hback

end OidcValidator.CacheSteps
