/-
`AtomicCache.lean` -- what the shared cache is for.

To its callers the cache is one map from keys to documents. A lookup and a put each happen at
one moment: the lookup when it reads the clock, the put some time after it has read the clock.
There is no table here, no partition, no lock and no half-written entry.

The steps of `SharedCache.lean` refine this: whatever a run of them lets be seen of calls,
transfers, clock readings, answers and failures, the map could have let be seen. So what the
map guarantees about answers holds for the cache, whatever the hash function is and however the
steps of the backends interleave.
-/
import OidcValidator.CacheSteps
import OidcValidator.Refinement

set_option autoImplicit false

namespace OidcValidator.AtomicCache

open OidcValidator.ByteString OidcValidator.Dshash OidcValidator.HttpCache
open OidcValidator.HttpClient OidcValidator.Interleaving OidcValidator.Refinement
open OidcValidator.SharedCache OidcValidator.CacheSteps
open OidcValidator.Picojson (Value parse)

variable {ι : Type}

/-! ## What can be seen -/

/-- What a backend does that others can see, or is done to it. -/
inductive Event (ι : Type) where
  | call (i : ι) (url : Bytes)
  | detached (i : ι)
  | clock (i : ι) (t : ℤ)
  | transfer (i : ι) (url : Bytes) (response : Response)
  | ret (i : ι) (url : Bytes) (value : Value)
  | fail (i : ι)

/-! ## The map -/

/-- Where a call is. -/
inductive Phase where
  | idle
  | asked (url : Bytes)
  | serving (url : Bytes) (value : Value)
  | doomed
  | fetching (url : Bytes)
  | storing (doc : Document)
  | stamped (put : Put)
  | returning (url : Bytes) (value : Value)

/-- The map, and where the calls are. -/
structure State (ι : Type) where
  store : Bytes → Option Put
  phase : ι → Phase

/-- A document that there is room for. -/
def Fits (doc : Document) : Prop :=
  doc.url.length ≤ max_url_len ∧ doc.body.length ≤ max_json_len

/-- A response with status 200 and this value. -/
def Brings (response : Response) (value : Value) : Prop :=
  response.error = none ∧ response.response_code = 200 ∧ parse response.body.flatten = .value value

/-- The phases in which a call may fail. -/
def Phase.fails : Phase → Prop
  | .idle | .stamped _ => False
  | _ => True

/-- What backend `i` does to the map and how its call goes on. -/
inductive Act (i : ι) (store : Bytes → Option Put) :
    Phase → Option (Event ι) → (Bytes → Option Put) → Phase → Prop
  | call {url : Bytes} : Act i store .idle (some (.call i url)) store (.asked url)
  | detached {url : Bytes} : Act i store (.asked url) (some (.detached i)) store (.fetching url)
  | too_long {url : Bytes} (hlen : max_url_len < url.length) :
      Act i store (.asked url) none store (.fetching url)
  | miss {url : Bytes} (hmiss : store (c_str url) = none) :
      Act i store (.asked url) none store (.fetching url)
  | hit {url : Bytes} {put : Put} {t : ℤ} (hput : store (c_str url) = some put)
      (hfresh : t < put.clock + put.max_age) :
      Act i store (.asked url) (some (.clock i t)) store (.serving url put.value)
  | late {url : Bytes} {put : Put} {t : ℤ} (hput : store (c_str url) = some put)
      (hlate : put.clock + put.max_age ≤ t) :
      Act i store (.asked url) (some (.clock i t)) store .doomed
  | spoil {url : Bytes} {value : Value} : Act i store (.serving url value) none store .doomed
  | serve {url : Bytes} {value : Value} :
      Act i store (.serving url value) (some (.ret i url value)) store .idle
  | transfer_put {doc : Document} (hage : 0 < doc.max_age) :
      Act i store (.fetching doc.url) (some (.transfer i doc.url doc.response)) store (.storing doc)
  | transfer_ret {url : Bytes} {response : Response} {value : Value} (hbrings : Brings response value)
      (hage : ∀ a, response.headers.foldl header_callback none = some a → a ≤ 0) :
      Act i store (.fetching url) (some (.transfer i url response)) store (.returning url value)
  | transfer_fail {url : Bytes} {response : Response} (hbad : ∀ value, ¬Brings response value) :
      Act i store (.fetching url) (some (.transfer i url response)) store .idle
  | put_detached {doc : Document} :
      Act i store (.storing doc) (some (.detached i)) store (.returning doc.url doc.value)
  | put_refused {doc : Document} (hrefused : ¬Fits doc ∨ doc.max_age ≤ 0) :
      Act i store (.storing doc) none store (.returning doc.url doc.value)
  | stamp {doc : Document} {t : ℤ} (hfits : Fits doc) :
      Act i store (.storing doc) (some (.clock i t)) store (.stamped ⟨doc, t⟩)
  | put {put : Put} :
      Act i store (.stamped put) none (Function.update store put.key (some put))
        (.returning put.url put.value)
  | ret {url : Bytes} {value : Value} :
      Act i store (.returning url value) (some (.ret i url value)) store .idle
  | fail {phase : Phase} (hfails : phase.fails) : Act i store phase (some (.fail i)) store .idle

/-- The map as a system. -/
def atomic (ι : Type) [DecidableEq ι] : System (State ι) (Event ι) where
  start a := a = ⟨fun _ => none, fun _ => .idle⟩
  step a e a' := ∃ i store phase, Act i a.store (a.phase i) e store phase ∧
    a' = ⟨store, Function.update a.phase i phase⟩

/-! ## The cache -/

/-- What can be seen of a step. -/
def seen (i : ι) (c : Choice) (pc pc' : Pc) : Option (Event ι) :=
  match c, pc, pc' with
  | .call url, _, _ => some (.call i url)
  | .detached, _, _ => some (.detached i)
  | .clock t, _, _ => some (.clock i t)
  | .transfer response, .fetch url, _ => some (.transfer i url response)
  | .exit, _, _ => none
  | _, _, .returned url value _ => some (.ret i url value)
  | _, _, .failed => some (.fail i)
  | _, _, _ => none

/-- The cache as a system. -/
def cache [DecidableEq ι] (hash : Bytes → ℕ) : System (Config ι (Shared ι) Pc) (Event ι) :=
  observed (backend hash) (fun g => g = init) seen

/-! ## How the cache is a map -/

/-- A lookup under `url` that has read the clock as `t` when the log was `log`. -/
def served (url : Bytes) (t : ℤ) (log : List Put) : Phase :=
  match latest log (c_str url) with
  | some put => if t < put.clock + put.max_age then .serving url put.value else .doomed
  | none => .doomed

/-- Where a call is, seen from outside. -/
def phase : Pc → Phase
  | .idle | .returned _ _ _ | .failed => .idle
  | .get url | .read_clock url _ => .asked url
  | .read_expiration url _ t log | .read_json url _ t log | .parse url _ t log
  | .release_get url _ (.hit _ t log) => served url t log
  | .erase _ _ | .release_get _ _ .thrown => .doomed
  | .fetch url | .release_get url _ .miss => .fetching url
  | .put doc | .write _ doc _ | .read_put_clock doc _ => .storing doc
  | .set_expiration put _ | .release_put put _ => .stamped put
  | .finish url value => .returning url value

/-- The map that the cache is. -/
def view (g : Config ι (Shared ι) Pc) : State ι :=
  ⟨latest g.shared.puts, fun i => phase (g.locals i)⟩

theorem served_eq_serving {url : Bytes} {t : ℤ} {log : List Put} {put : Put}
    (hlog : latest log (c_str url) = some put) (hfresh : t < put.clock + put.max_age) :
    served url t log = .serving url put.value := by
  unfold served
  rw [hlog]
  exact if_pos hfresh

theorem served_eq_doomed {url : Bytes} {t : ℤ} {log : List Put} {put : Put}
    (hlog : latest log (c_str url) = some put) (hlate : put.clock + put.max_age ≤ t) :
    served url t log = .doomed := by
  unfold served
  rw [hlog]
  exact if_neg (not_lt.mpr hlate)

/-- The map after a put. -/
theorem latest_cons (put : Put) (puts : List Put) :
    latest (put :: puts) = Function.update (latest puts) put.key (some put) := by
  funext k
  unfold latest
  by_cases hk : k = put.key
  · rw [hk, Function.update_self]
    exact List.find?_cons_of_pos (by simp)
  · rw [Function.update_of_ne hk]
    exact List.find?_cons_of_neg (by simp [Ne.symm hk])

/-! ## Nothing that was put is gone -/

section Kept

variable (hash : Bytes → ℕ)

/-- Whatever was put under a key, there is an entry for the key. -/
def Kept (s : Shared ι) : Prop :=
  ∀ k put, latest s.puts k = some put → ∃ item, s.table.find (entry_type hash) k = some item

variable {hash} {i : ι} {s s' : Shared ι} {pc pc' : Pc}

/-- The writes of `put` leave the key of the entry alone. -/
theorem key_apply {stage : Stage} {doc : Document} {e : HttpCacheEntry}
    (hlen : doc.url.length ≤ max_url_len) (he : c_str e.url = doc.key) :
    c_str (stage.apply doc e).url = doc.key := by
  have hurl : doc.key.length ≤ max_url_len := length_key_le hlen
  cases stage with
  | copy_url => exact c_str_strncpy_self he hurl (by rw [e.url_length]; decide)
  | end_url =>
    exact (c_str_set_zero (by rw [he]; exact hurl) (by rw [e.url_length]; decide)).trans he
  | copy_json => exact he
  | end_json => exact he

/-- A new entry is filed under the whole key. -/
theorem key_copy {doc : Document} (m : HttpCacheEntry) (hlen : doc.url.length ≤ max_url_len) :
    (entry_type hash).key ((entry_type hash).copy doc.key m) = doc.key := by
  have hidem : c_str doc.key = doc.key := c_str_idem doc.url
  refine (c_str_strlcpy ?_).trans hidem
  rw [hidem, m.url_length]
  exact (length_key_le hlen).trans_lt (by decide)

/-- Whatever key has an entry keeps it, at its address. -/
def Stays (hash : Bytes → ℕ) (s s' : Shared ι) : Prop :=
  ∀ k item, s.table.find (entry_type hash) k = some item →
    ∃ item', s'.table.find (entry_type hash) k = some item' ∧ item'.address = item.address

theorem Stays.refl (s : Shared ι) : Stays hash s s := fun _ item hfind => ⟨item, hfind, rfl⟩

theorem Stays.trans {s₁ s₂ s₃ : Shared ι} (h : Stays hash s₁ s₂) (h' : Stays hash s₂ s₃) :
    Stays hash s₁ s₃ := by
  intro k item hfind
  obtain ⟨item', hfind', haddr⟩ := h k item hfind
  obtain ⟨item'', hfind'', haddr'⟩ := h' k item' hfind'
  exact ⟨item'', hfind'', haddr'.trans haddr⟩

/-- A write to an entry takes no entry away. -/
theorem stays_update {doc : Document} {entry : ℕ} {F : HttpCacheEntry → Prop}
    {f : HttpCacheEntry → HttpCacheEntry} (hwriting : Writing hash i s doc entry F)
    (hf : ∀ e, c_str e.url = doc.key → c_str (f e).url = doc.key) :
    Stays hash s { s with table := s.table.update entry f } := by
  obtain ⟨hself, hother⟩ := @Writing.update _ hash i s doc entry F (fun _ => True) f hwriting
    fun e he _ => ⟨hf e he, trivial⟩
  intro k item hfind
  by_cases hk : k = doc.key
  · subst hk
    obtain ⟨before, hbefore, haddr, -⟩ := hwriting.found
    obtain ⟨after, hafter, haddr', -⟩ := hself.found
    obtain rfl := Option.some.inj (hfind.symm.trans hbefore)
    exact ⟨after, hafter, haddr'.trans haddr.symm⟩
  · exact ⟨item, (hother k hk).trans hfind, rfl⟩

variable [DecidableEq ι]

/-- No step takes an entry away: `dshash_delete_key` waits for its own backend. -/
theorem stays_of_move {c : Choice} (h : Move hash i s pc c s' pc') : Stays hash s s' := by
  cases h with
  | @put_inserted doc m hlen _ hmiss =>
    intro k item hfind
    -- a key that has an entry is not the one that was looked up in vain
    have hk : k ≠ doc.key := by
      rintro rfl
      rw [hmiss] at hfind
      cases hfind
    exact ⟨item, (Table.find_insert_of_ne (entry_type hash) (key_copy m hlen) hk).trans hfind, rfl⟩
  | write hwriting => exact stays_update hwriting fun e he => key_apply hwriting.fits.1 he
  | set_expiration hwriting => exact stays_update hwriting fun e he => he
  | _ => exact fun _ item hfind => ⟨item, hfind, rfl⟩

theorem Kept.move {c : Choice} (h : Kept hash s) (hmove : Move hash i s pc c s' pc') :
    Kept hash s' := by
  have hstays := stays_of_move hmove
  have hkept : s'.puts = s.puts → Kept hash s' := by
    intro hputs k put hput
    rw [hputs] at hput
    obtain ⟨item, hitem⟩ := h k put hput
    obtain ⟨item', hitem', -⟩ := hstays k item hitem
    exact ⟨item', hitem'⟩
  cases hmove with
  | @release_put put _ item _ hfound =>
    intro k put' hput
    rw [latest_cons] at hput
    by_cases hk : k = put.key
    · subst hk
      exact ⟨item, hfound⟩
    · rw [Function.update_of_ne hk] at hput
      exact h k put' hput
  | _ => exact hkept rfl

/-- **Entries stay.** Whatever any number of backends do, and whatever fails: a key that has an
entry keeps it at the same address. So no entry that an `entry_ref` refers to goes away, and none
that has expired does. -/
theorem entries_stay (hash : Bytes → ℕ) {g g' : Config ι (Shared ι) Pc}
    (hg : Steps (backend hash) init g) (h : Steps (backend hash) g g') {k : Bytes}
    {item : Item HttpCacheEntry} (hfind : g.shared.table.find (entry_type hash) k = some item) :
    ∃ item', g'.shared.table.find (entry_type hash) k = some item' ∧
      item'.address = item.address := by
  have hholds : Holds (Sound hash) (Relies hash) g := outline.steps holds_init hg
  have hstays : Stays hash g.shared g'.shared := by
    refine outline.steps_rel Stays.refl (fun _ _ _ => Stays.trans) ?_ hholds h
    exact fun hs hrelies hstep => stays_of_move (move_of_step hs hrelies hstep)
  exact hstays k item hfind

/-- The first backend has put its document; the second one asks for it. -/
theorem entries_stay_kept :
    ∃ g g' : Config Bool (Shared Bool) Pc, ∃ item item' : Item HttpCacheEntry,
      run (backend List.length) (schedule.take 12) init = some g ∧
      run (backend List.length) (schedule.drop 12) g = some g' ∧
      g.shared.table.find (entry_type List.length) (bytes "https://idp") = some item ∧
      g'.shared.table.find (entry_type List.length) (bytes "https://idp") = some item' ∧
      item'.address = item.address := by
  have hruns : ((run (backend List.length) (schedule.take 12) (init (ι := Bool))).bind fun g =>
      (g.shared.table.find (entry_type List.length) (bytes "https://idp")).bind fun item =>
        (run (backend List.length) (schedule.drop 12) g).map fun _ => item.address).isSome
      = true := by decide +kernel
  obtain ⟨address, hruns⟩ := Option.isSome_iff_exists.mp hruns
  obtain ⟨g, hrun, hruns⟩ := Option.bind_eq_some_iff.mp hruns
  obtain ⟨item, hfind, hruns⟩ := Option.bind_eq_some_iff.mp hruns
  obtain ⟨g', hrun', -⟩ := Option.map_eq_some_iff.mp hruns
  obtain ⟨item', hfind', haddr⟩ :=
    entries_stay List.length (steps_of_run hrun) (steps_of_run hrun') hfind
  exact ⟨g, g', item, item', hrun, hrun', hfind, hfind', haddr⟩

end Kept

/-! ## The cache refines the map -/

section Simulation

variable {i : ι} {store : Bytes → Option Put}

/-- A step that the map takes too, or does not notice. -/
def Follows (i : ι) (store : Bytes → Option Put) (ph : Phase) (e : Option (Event ι))
    (store' : Bytes → Option Put) (ph' : Phase) : Prop :=
  (e = none ∧ store' = store ∧ ph' = ph) ∨ Act i store ph e store' ph'

theorem served_cases (url : Bytes) (t : ℤ) (log : List Put) :
    served url t log = .doomed ∨ ∃ value, served url t log = .serving url value := by
  unfold served
  split
  · split_ifs
    · exact .inr ⟨_, rfl⟩
    · exact .inl rfl
  · exact .inl rfl

theorem fails_served (url : Bytes) (t : ℤ) (log : List Put) : (served url t log).fails := by
  obtain h | ⟨value, h⟩ := served_cases url t log <;> rw [h] <;> trivial

theorem phase_outside {pc : Pc} (h : pc.outside = true) : phase pc = .idle := by
  cases pc with
  | idle | returned _ _ _ | failed => rfl
  | _ => exact absurd h nofun

theorem phase_after_stage {stage : Stage} {doc : Document} {entry : ℕ} :
    phase (stage.after doc entry) = .storing doc := by
  cases stage <;> rfl

/-- The end of a transfer. -/
theorem act_transfer (url : Bytes) (response : Response) :
    Act i store (.fetching url) (some (.transfer i url response)) store
      (phase (fetched url response)) := by
  unfold fetched
  split_ifs with hok
  · split
    · rename_i value hparse
      have hbrings : Brings response value := ⟨hok.1, hok.2, hparse⟩
      split
      · rename_i max_age hage
        split_ifs with hpos
        · -- only a positive `max-age` goes on to `put`
          exact @Act.transfer_put _ i store
            ⟨url, response, value, max_age, hok, hparse, hage⟩ hpos
        · refine .transfer_ret hbrings fun a ha => ?_
          obtain rfl := Option.some.inj (hage.symm.trans ha)
          exact not_lt.mp hpos
      · rename_i hage
        refine .transfer_ret hbrings fun a ha => ?_
        cases hage.symm.trans ha
    · rename_i hparse
      exact .transfer_fail fun value hbrings => hparse value hbrings.2.2
  · exact .transfer_fail fun value hbrings => hok ⟨hbrings.1, hbrings.2.1⟩

/-- A failure ends the call, or dooms it until the lock is given back. -/
theorem follows_fail {pc pc' : Pc} (h : fails pc = some pc') :
    Follows i store (phase pc) (seen i .fail pc pc') store (phase pc') := by
  cases pc with
  | get _ | fetch _ | put _ | finish _ _ =>
    obtain rfl := Option.some.inj h
    exact .inr (.fail trivial)
  | parse url json t log =>
    obtain rfl := Option.some.inj h
    exact .inr (.fail (fails_served url t log))
  | erase url entry =>
    obtain rfl := Option.some.inj h
    exact .inl ⟨rfl, rfl, rfl⟩
  | read_json url entry t log =>
    obtain rfl := Option.some.inj h
    -- a hit that would have been served is spoilt
    obtain hserved | ⟨value, hserved⟩ := served_cases url t log
    · exact .inl ⟨rfl, rfl, hserved.symm⟩
    · refine .inr ?_
      show Act i store (served url t log) none store .doomed
      rw [hserved]
      exact .spoil
  | _ => exact absurd h nofun

variable [DecidableEq ι] {hash : Bytes → ℕ} {s s' : Shared ι} {pc pc' : Pc}

/-- What a step of the cache is to the map. -/
theorem follows_of_move {c : Choice} (hkept : Kept hash s) (h : Move hash i s pc c s' pc') :
    Follows i (latest s.puts) (phase pc) (seen i c pc pc') (latest s'.puts) (phase pc') := by
  cases h with
  | call houtside =>
    rw [phase_outside houtside]
    exact .inr .call
  | exit houtside =>
    rw [phase_outside houtside]
    exact .inl ⟨rfl, rfl, rfl⟩
  | fail hfails => exact follows_fail hfails
  | detached => exact .inr .detached
  | too_long hlen => exact .inr (.too_long hlen)
  | @miss url _ _ _ hmiss =>
    refine .inr (.miss ?_)
    -- nothing was put, or there would be an entry
    rcases hput : latest s.puts (c_str url) with _ | put
    · rfl
    · obtain ⟨item, hitem⟩ := hkept _ put hput
      exact absurd (hitem.symm.trans hmiss) nofun
  | found => exact .inl ⟨rfl, rfl, rfl⟩
  | get_locked => exact .inr (.fail trivial)
  | @read_clock url entry t put hput =>
    refine .inr ?_
    show Act i _ (.asked url) (some (.clock i t)) _ (served url t s.puts)
    by_cases hfresh : t < put.clock + put.max_age
    · rw [served_eq_serving hput hfresh]
      exact .hit hput hfresh
    · rw [served_eq_doomed hput (not_lt.mp hfresh)]
      exact .late hput (not_lt.mp hfresh)
  | expired _ hlog hexpired => exact .inl ⟨rfl, rfl, (served_eq_doomed hlog hexpired).symm⟩
  | fresh => exact .inl ⟨rfl, rfl, rfl⟩
  | erase_locked => exact .inr (.fail trivial)
  | read_json => exact .inl ⟨rfl, rfl, rfl⟩
  | @release_get url entry got =>
    cases got with
    | hit json t log => exact .inl ⟨rfl, rfl, rfl⟩
    | miss => exact .inl ⟨rfl, rfl, rfl⟩
    | thrown => exact .inr (.fail trivial)
  | @parse url t log put hlog hfresh =>
    refine .inr ?_
    show Act i _ (served url t log) (some (.ret i url put.value)) _ .idle
    rw [served_eq_serving hlog hfresh]
    exact .serve
  | transfer => exact .inr (act_transfer _ _)
  | put_detached => exact .inr .put_detached
  | put_refused hrefused =>
    refine .inr (.put_refused ?_)
    unfold Fits
    omega
  | put_found => exact .inl ⟨rfl, rfl, rfl⟩
  | put_inserted => exact .inl ⟨rfl, rfl, rfl⟩
  | put_locked => exact .inr (.fail trivial)
  | @write stage =>
    refine .inl ⟨?_, rfl, phase_after_stage⟩
    cases stage <;> rfl
  | read_put_clock hwriting => exact .inr (.stamp hwriting.fits)
  | set_expiration => exact .inl ⟨rfl, rfl, rfl⟩
  | release_put =>
    refine .inr ?_
    dsimp only
    rw [latest_cons]
    exact .put
  | finish => exact .inr .ret

/-- How a state of the cache and one of the map belong together. -/
def Agree (hash : Bytes → ℕ) (g : Config ι (Shared ι) Pc) (a : State ι) : Prop :=
  Holds (Sound hash) (Relies hash) g ∧ Kept hash g.shared ∧ a = view g

theorem simulates (hash : Bytes → ℕ) : Simulates (cache (ι := ι) hash) (atomic ι) (Agree hash) where
  start := by
    rintro g rfl
    exact ⟨view init, rfl, holds_init, fun k put hput => absurd hput nofun, rfl⟩
  step := by
    rintro g a e g' ⟨hg, hkept, rfl⟩ ⟨i, c, hstep, rfl⟩
    have hmove := move_of_run_step hg hstep
    have hg' := outline.step hg ⟨i, c, hstep⟩
    have hview : view g' =
        ⟨latest g'.shared.puts, Function.update (view g).phase i (phase (g'.locals i))⟩ := by
      obtain ⟨s', pc', -, rfl⟩ := step_eq_some.mp hstep
      dsimp only
      rw [Function.update_self]
      exact congrArg (State.mk _) (funext (Function.apply_update (fun _ => phase) g.locals i pc'))
    refine ⟨view g', ?_, hg', hkept.move hmove, rfl⟩
    -- either nothing is seen of the step and the map stays, or it is one access of the map
    obtain ⟨hseen, hstore, hphase⟩ | hact := follows_of_move hkept hmove
    · rw [hview, hseen, hstore, hphase]
      have hself : Function.update (view g).phase i (phase (g.locals i)) = (view g).phase :=
        Function.update_eq_self i _
      rw [hself]
      exact .refl
    · exact .single ⟨i, _, _, hact, hview⟩

/-- What a run of the cache keeps. -/
theorem agree_of_run {history : List (Event ι)} {g : Config ι (Shared ι) Pc}
    (h : (cache hash).Run init history g) : Agree hash g (view g) := by
  obtain ⟨a₀, -, hagree₀⟩ := (simulates (ι := ι) hash).start rfl
  obtain ⟨a, -, hg, hkept, rfl⟩ := (simulates hash).run hagree₀ h
  exact ⟨hg, hkept, rfl⟩

/-- **The cache is one map.** Whatever can be seen of the backends and the shared cache --
calls, transfers, readings of the clock, answers and failures, in the order in which they
happen -- could be seen if every lookup were one access to a map at the moment at which it
reads the clock, and every put one assignment. -/
theorem cache_refines_map (hash : Bytes → ℕ) {history : List (Event ι)}
    (h : (cache hash).Shows history) : (atomic ι).Shows history :=
  (simulates hash).shows h

end Simulation

/-! ## What an answer is worth -/

/-- Something has happened, with what `P` asks of what was before, and `i` has not called
since. -/
def Since (i : ι) (P : Event ι → List (Event ι) → Prop) (history : List (Event ι)) : Prop :=
  ∃ newer e older, history = newer ++ e :: older ∧ (∀ url, .call i url ∉ newer) ∧ P e older

/-- The current call of `i` is for `url`. -/
def Called (i : ι) (url : Bytes) (history : List (Event ι)) : Prop :=
  Since i (fun e _ => e = .call i url) history

/-- In its current call `i` has transferred a document with this value. -/
def Fetched (i : ι) (url : Bytes) (value : Value) (history : List (Event ι)) : Prop :=
  Since i (fun e _ => ∃ response, e = .transfer i url response ∧ Brings response value) history

/-- Some backend has transferred the document of the put, and has then read its clock. -/
def Stamped (put : Put) (history : List (Event ι)) : Prop :=
  ∃ newer j older, history = newer ++ .clock j put.clock :: older ∧
    .transfer j put.url put.response ∈ older

/-- In its current call `i` has read the clock, before a document with this value expired that
had been transferred and stamped under the same key. -/
def Cached (i : ι) (url : Bytes) (value : Value) (history : List (Event ι)) : Prop :=
  Since i (fun e older => ∃ t put, e = .clock i t ∧ put.key = c_str url ∧ put.value = value ∧
    t < put.clock + put.max_age ∧ Stamped put older) history

/-- What an answer to `i` is worth. -/
def Current (i : ι) (url : Bytes) (value : Value) (history : List (Event ι)) : Prop :=
  Called i url history ∧ (Fetched i url value history ∨ Cached i url value history)

/-- What the history says of a call. -/
def Phase.traced (i : ι) (history : List (Event ι)) : Phase → Prop
  | .idle | .doomed => True
  | .asked url | .fetching url => Called i url history
  | .serving url value => Called i url history ∧ Cached i url value history
  | .storing doc => Called i doc.url history ∧
      Since i (fun e _ => e = .transfer i doc.url doc.response) history
  | .stamped put => Called i put.url history ∧
      Since i (fun e _ => e = .transfer i put.url put.response) history ∧ Stamped put history
  | .returning url value => Called i url history ∧ Fetched i url value history

/-- What the history says of the map and the calls. -/
structure Traced (history : List (Event ι)) (a : State ι) : Prop where
  store : ∀ k put, a.store k = some put → put.key = k ∧ Stamped put history
  phase : ∀ i, (a.phase i).traced i history

section Histories

variable {i j : ι} {e : Event ι} {history : List (Event ι)} {P Q : Event ι → List (Event ι) → Prop}

theorem Since.now (h : P e history) : Since i P (e :: history) :=
  ⟨[], e, history, rfl, fun _ => List.not_mem_nil, h⟩

theorem Since.cons (h : Since i P history) (he : ∀ url, e ≠ .call i url) :
    Since i P (e :: history) := by
  obtain ⟨newer, x, older, rfl, hnone, hP⟩ := h
  refine ⟨e :: newer, x, older, rfl, fun url hmem => ?_, hP⟩
  obtain heq | hmem := List.mem_cons.mp hmem
  · exact he url heq.symm
  · exact hnone url hmem

/-- The newest event is the one, or there has been no call since then. -/
theorem Since.of_cons (h : Since i P (e :: history)) :
    P e history ∨ (∀ url, e ≠ .call i url) ∧ Since i P history := by
  obtain ⟨newer, x, older, heq, hnone, hP⟩ := h
  cases newer with
  | nil =>
    obtain ⟨rfl, rfl⟩ := List.cons.inj heq
    exact .inl hP
  | cons y newer =>
    obtain ⟨hey, htail⟩ := List.cons.inj heq
    exact .inr ⟨fun url he => hnone url (List.mem_cons.mpr (.inl (he.symm.trans hey))),
      newer, x, older, htail, fun url hmem => hnone url (List.mem_cons_of_mem y hmem), hP⟩

theorem Since.mono (h : Since i P history) (hPQ : ∀ e older, P e older → Q e older) :
    Since i Q history := by
  obtain ⟨newer, x, older, heq, hnone, hP⟩ := h
  exact ⟨newer, x, older, heq, hnone, hPQ x older hP⟩

theorem Since.mem {x : Event ι} (h : Since i (fun e _ => e = x) history) : x ∈ history := by
  obtain ⟨newer, e, older, rfl, -, rfl⟩ := h
  exact List.mem_append_right newer List.mem_cons_self

/-- The last call is one call. -/
theorem Called.unique {url url' : Bytes} (h : Called i url history) (h' : Called i url' history) :
    url = url' := by
  induction history with
  | nil =>
    obtain ⟨newer, e, older, heq, -⟩ := h
    exact absurd (congrArg List.length heq) (by simp)
  | cons x history ih =>
    obtain hx | ⟨hx, hrest⟩ := Since.of_cons h <;>
      obtain hx' | ⟨hx', hrest'⟩ := Since.of_cons h'
    · exact (Event.call.inj (hx.symm.trans hx')).2
    · exact absurd hx (hx' url)
    · exact absurd hx' (hx url')
    · exact ih hrest hrest'

theorem Stamped.cons {put : Put} (h : Stamped put history) : Stamped put (e :: history) := by
  obtain ⟨newer, j, older, rfl, hmem⟩ := h
  exact ⟨e :: newer, j, older, rfl, hmem⟩

theorem Phase.traced.cons {ph : Phase} (h : ph.traced i history) (he : ∀ url, e ≠ .call i url) :
    ph.traced i (e :: history) := by
  cases ph with
  | idle | doomed => trivial
  | asked url | fetching url => exact Since.cons h he
  | serving url value => exact ⟨h.1.cons he, h.2.cons he⟩
  | storing doc => exact ⟨h.1.cons he, h.2.cons he⟩
  | stamped put => exact ⟨h.1.cons he, h.2.1.cons he, h.2.2.cons⟩
  | returning url value => exact ⟨h.1.cons he, h.2.cons he⟩

/-- The value of a document is what its response brings. -/
theorem Document.brings (doc : Document) : Brings doc.response doc.value :=
  ⟨doc.ok.1, doc.ok.2, doc.parsed⟩

theorem fetched_of_transfer {doc : Document}
    (h : Since i (fun e _ => e = .transfer i doc.url doc.response) history) :
    Fetched i doc.url doc.value history :=
  h.mono fun _ _ he => ⟨doc.response, he, Document.brings doc⟩

end Histories

section Answers

variable {i : ι} {store store' : Bytes → Option Put} {ph ph' : Phase} {e : Option (Event ι)}
  {history : List (Event ι)}

/-- Nobody calls for another. -/
theorem ne_call_of_act {x : Event ι} (h : Act i store ph (some x) store' ph') {j : ι} (hij : j ≠ i)
    (url : Bytes) : x ≠ .call j url := by
  cases h with
  | call =>
    intro heq
    exact hij (Event.call.inj heq).1.symm
  | _ => exact nofun

/-- What an act makes of its own call and of the map. -/
theorem traced_of_act (h : Act i store ph e store' ph')
    (hstore : ∀ k put, store k = some put → put.key = k ∧ Stamped put history)
    (hph : ph.traced i history) :
    (∀ k put, store' k = some put → put.key = k ∧ Stamped put (e.toList ++ history)) ∧
      ph'.traced i (e.toList ++ history) := by
  have hstamped : ∀ {x : Event ι} k put, store k = some put →
      put.key = k ∧ Stamped put (x :: history) :=
    fun k put hput => ⟨(hstore k put hput).1, (hstore k put hput).2.cons⟩
  cases h with
  | call => exact ⟨hstamped, Since.now rfl⟩
  | detached => exact ⟨hstamped, Since.cons hph fun _ => nofun⟩
  | too_long | miss => exact ⟨hstore, hph⟩
  -- the put is fresh at the time that is read here
  | @hit url put t hput hfresh =>
    obtain ⟨hkey, hput⟩ := hstore _ put hput
    exact ⟨hstamped, Since.cons hph fun _ => nofun, .now ⟨t, put, rfl, hkey, rfl, hfresh, hput⟩⟩
  | late => exact ⟨hstamped, trivial⟩
  | spoil => exact ⟨hstore, trivial⟩
  | serve | ret | transfer_fail | fail => exact ⟨hstamped, trivial⟩
  | transfer_put => exact ⟨hstamped, Since.cons hph fun _ => nofun, .now rfl⟩
  | transfer_ret hbrings =>
    exact ⟨hstamped, Since.cons hph fun _ => nofun, .now ⟨_, rfl, hbrings⟩⟩
  | put_detached =>
    exact ⟨hstamped, hph.1.cons fun _ => nofun, (fetched_of_transfer hph.2).cons fun _ => nofun⟩
  | put_refused => exact ⟨hstore, hph.1, fetched_of_transfer hph.2⟩
  | @stamp doc t =>
    refine ⟨hstamped, hph.1.cons fun _ => nofun, hph.2.cons fun _ => nofun, ?_⟩
    exact ⟨[], i, history, rfl, hph.2.mem⟩
  | @put put =>
    refine ⟨fun k put' hput' => ?_, hph.1, fetched_of_transfer hph.2.1⟩
    -- only the one key is assigned
    by_cases hk : k = put.key
    · subst hk
      rw [Function.update_self] at hput'
      obtain rfl := Option.some.inj hput'
      exact ⟨rfl, hph.2.2⟩
    · rw [Function.update_of_ne hk] at hput'
      exact hstore k put' hput'

/-- An answer comes from its own transfer, or from a put that was good when the clock was
read. -/
theorem current_of_act {url : Bytes} {value : Value} {j : ι} (hph : ph.traced i history)
    (h : Act i store ph (some (.ret j url value)) store' ph') : Current j url value history := by
  cases h with
  | serve => exact ⟨hph.1, .inr hph.2⟩
  | ret => exact ⟨hph.1, .inl hph.2⟩

variable [DecidableEq ι]

theorem Traced.step {a a' : State ι} (h : Traced history a) (hstep : (atomic ι).step a e a') :
    Traced (e.toList ++ history) a' := by
  obtain ⟨i, store', ph', hact, rfl⟩ := hstep
  obtain ⟨hstore, hown⟩ := traced_of_act hact h.store (h.phase i)
  refine ⟨hstore, fun j => ?_⟩
  dsimp only
  by_cases hji : j = i
  · subst hji
    rw [Function.update_self]
    exact hown
  · rw [Function.update_of_ne hji]
    cases e with
    | none => exact h.phase j
    | some x => exact (h.phase j).cons (ne_call_of_act hact hji)

/-- Every answer that can be seen is current when it is given. -/
theorem justified_of_shows (hash : Bytes → ℕ) {history : List (Event ι)}
    (h : (cache hash).Shows history) :
    Justified (fun older e => ∀ i url value, e = .ret i url value → Current i url value older)
      history := by
  refine ((simulates hash).shows h).justified (I := Traced) ?_ fun {_ _ e _} hI hstep =>
    ⟨hI.step hstep, ?_⟩
  · rintro a rfl
    exact ⟨fun _ _ hput => absurd hput nofun, fun _ => trivial⟩
  · rintro x rfl i url value rfl
    obtain ⟨j, store', ph', hact, -⟩ := hstep
    exact current_of_act (hI.phase j) hact

/-- **What an answer is worth.** Whenever `get_json` returns a value, in any run of any number
of backends: it was asked for this URL, and since then its backend has either transferred a
complete response with status 200 whose body parses to that value, or it has read the clock
before the expiration of such a response that a backend had earlier transferred for the same
key and stamped. -/
theorem answers_are_current (hash : Bytes → ℕ) {history : List (Event ι)}
    (h : (cache hash).Shows history) {newer older : List (Event ι)} {i : ι} {url : Bytes}
    {value : Value} (hret : history = newer ++ .ret i url value :: older) :
    Current i url value older :=
  justified_of_shows hash h newer _ older hret i url value rfl

end Answers

/-- What is seen of the backend that fetches and puts, and of the one that asks later. -/
def kept_history : List (Event Bool) := shown (backend List.length) seen schedule init

theorem kept_history_shows : (cache List.length).Shows kept_history := by
  have hsome : (run (backend List.length) schedule (init (ι := Bool))).isSome = true := by
    decide +kernel
  obtain ⟨g, hrun⟩ := Option.isSome_iff_exists.mp hsome
  exact ⟨init, g, rfl, run_shown hrun⟩

theorem cache_refines_map_kept : (atomic Bool).Shows kept_history :=
  cache_refines_map List.length kept_history_shows

/-- Whom an event answers, and for which URL. -/
def Event.answers : Event ι → Option (ι × Bytes)
  | .ret i url _ => some (i, url)
  | _ => none

theorem answers_eq_some {e : Event ι} {i : ι} {url : Bytes} (h : e.answers = some (i, url)) :
    ∃ value, e = .ret i url value := by
  cases e with
  | ret j url' value =>
    obtain ⟨rfl, rfl⟩ := Prod.mk.inj (Option.some.inj h)
    exact ⟨value, rfl⟩
  | _ => exact absurd h nofun

theorem answers_are_current_kept :
    ∃ value older, kept_history = .ret true (bytes "https://idp" ++ 0 :: bytes "x") value :: older ∧
      Current true (bytes "https://idp" ++ 0 :: bytes "x") value older := by
  have hlast : kept_history.head?.bind Event.answers =
      some (true, bytes "https://idp" ++ 0 :: bytes "x") := by decide +kernel
  obtain ⟨e, hhead, hanswers⟩ := Option.bind_eq_some_iff.mp hlast
  obtain ⟨value, rfl⟩ := answers_eq_some hanswers
  obtain ⟨older, hhistory⟩ := List.head?_eq_some_iff.mp hhead
  have hret : kept_history = [] ++ .ret true (bytes "https://idp" ++ 0 :: bytes "x") value :: older :=
    hhistory
  exact ⟨value, older, hhistory, answers_are_current List.length kept_history_shows hret⟩

end OidcValidator.AtomicCache
