/-
`CacheProgress.lean` -- how far the backends get with the cache.

A call of `get_json` makes a bounded number of steps, so what can go wrong is that a backend
waits for ever. It waits in two places only. `dshash_find` and `dshash_find_or_insert` wait for
the lock of a partition, and as long as no failure has left a lock behind, that lock belongs to
a backend that is still using it. `dshash_delete_key` waits for a lock that its own backend
holds: `get` calls it under the `entry_ref` of the entry that has expired.

So an expired entry is where everything stops. Whoever finds one waits for himself, everyone
who puts into the same partition waits for him, and the entry can neither be replaced nor be
read again.
-/
import OidcValidator.CacheSteps
import OidcValidator.Progress

set_option autoImplicit false

namespace OidcValidator.CacheProgress

open OidcValidator.ByteString OidcValidator.Dshash OidcValidator.HttpCache
open OidcValidator.HttpClient OidcValidator.Interleaving OidcValidator.Progress
open OidcValidator.SharedCache OidcValidator.CacheSteps
open OidcValidator.Picojson (Value)

variable {ι : Type} (hash : Bytes → ℕ)

/-! ## Who holds which lock -/

/-- The lock that a backend works under. -/
def uses (pc : Pc) : Option (ℕ × Mode) :=
  match pc.reads, pc.writes with
  | some (url, _), _ => some (hash (c_str url), .shared)
  | none, some key => some (hash key, .exclusive)
  | none, none => none

/-- How a backend holds a lock. -/
def held_by [DecidableEq ι] (i : ι) : PartitionLock ι → Option Mode
  | .shared holders => if i ∈ holders then some .shared else none
  | .exclusive j => if j = i then some .exclusive else none

/-- Whoever holds a lock works under it, and holds it once. -/
structure Tidy [DecidableEq ι] (g : Config ι (Shared ι) Pc) : Prop where
  used : ∀ i p mode, held_by i (g.shared.locks p) = some mode →
    uses hash (g.locals i) = some (p, mode)
  once : ∀ p holders, g.shared.locks p = .shared holders → holders.Nodup

/-- What a step does to the locks: `i` takes or gives back one, and then works under it or
under none. -/
inductive Relocks [DecidableEq ι] (i : ι) (s s' : Shared ι) :
    Option (ℕ × Mode) → Option (ℕ × Mode) → Prop
  | stay {u : Option (ℕ × Mode)} (h : s'.locks = s.locks) : Relocks i s s' u u
  | share {p : ℕ} {holders : List ι} (hp : s.locks p = .shared holders)
      (h : s'.locks = Function.update s.locks p (.shared (i :: holders))) :
      Relocks i s s' none (some (p, .shared))
  | unshare {p : ℕ} {holders : List ι} (hp : s.locks p = .shared holders)
      (h : s'.locks = Function.update s.locks p (.shared (holders.erase i))) :
      Relocks i s s' (some (p, .shared)) none
  | seize {p : ℕ} (hp : s.locks p = .shared [])
      (h : s'.locks = Function.update s.locks p (.exclusive i)) :
      Relocks i s s' none (some (p, .exclusive))
  | yield {p : ℕ} (hp : s.locks p = .exclusive i)
      (h : s'.locks = Function.update s.locks p (.shared [])) :
      Relocks i s s' (some (p, .exclusive)) none
  | leave (h : s'.locks = fun p => (s.locks p).without i) : Relocks i s s' none none

variable {hash}

theorem uses_of_outside {pc : Pc} (h : pc.outside = true) : uses hash pc = none := by
  cases pc with
  | idle | returned _ _ _ | failed => rfl
  | _ => exact absurd h nofun

theorem uses_after_stage {stage : Stage} {doc : Document} {entry : ℕ} :
    uses hash (stage.after doc entry) = some (hash doc.key, .exclusive) := by
  cases stage <;> rfl

theorem uses_after_got {url : Bytes} {got : Got} : uses hash (got.after url) = none := by
  cases got <;> rfl

theorem uses_fetched {url : Bytes} {response : Response} :
    uses hash (fetched url response) = none := by
  unfold fetched
  split_ifs
  · split
    · split
      · split_ifs <;> rfl
      · rfl
    · rfl
  · rfl

section Locks

variable [DecidableEq ι] {i j : ι} {s s' : Shared ι} {pc pc' : Pc} {u u' : Option (ℕ × Mode)}

theorem relocks_of_fails (h : fails pc = some pc') :
    Relocks i s s (uses hash pc) (uses hash pc') := by
  have heq : uses hash pc' = uses hash pc := by
    cases pc with
    | get _ | parse _ _ _ _ | fetch _ | put _ | finish _ _ | erase _ _ | read_json _ _ _ _ =>
      obtain rfl := Option.some.inj h
      rfl
    | _ => exact absurd h nofun
  rw [heq]
  exact .stay rfl

theorem relocks_of_move {c : Choice} (h : Move hash i s pc c s' pc') (hc : c ≠ .fail_locked) :
    Relocks i s s' (uses hash pc) (uses hash pc') := by
  cases h with
  | call houtside =>
    rw [uses_of_outside houtside]
    exact .stay rfl
  | exit houtside =>
    rw [uses_of_outside houtside]
    exact .leave rfl
  | fail hfails => exact relocks_of_fails hfails
  | get_locked | erase_locked | put_locked => exact absurd rfl hc
  | found _ hlock => exact .share hlock rfl
  | release_get hlock =>
    rw [uses_after_got]
    exact .unshare hlock rfl
  | transfer =>
    rw [uses_fetched]
    exact .stay rfl
  | put_found hlock => exact .seize hlock rfl
  | put_inserted _ hlock => exact .seize hlock rfl
  | write =>
    rw [uses_after_stage]
    exact .stay rfl
  | release_put hlock => exact .yield hlock rfl
  -- the other steps leave the locks alone
  | _ => exact .stay rfl

/-- Nobody holds a free lock. -/
theorem held_by_free : held_by i (.shared [] : PartitionLock ι) = none := by
  simp only [held_by, List.not_mem_nil, if_false]

theorem held_by_without (l : PartitionLock ι) : held_by i (l.without i) = none := by
  rcases l with holders | k
  · exact if_neg (by simp)
  · simp only [PartitionLock.without]
    split_ifs with hk
    · exact held_by_free
    · exact if_neg hk

theorem held_by_without_of_ne (hj : j ≠ i) (l : PartitionLock ι) :
    held_by j (l.without i) = held_by j l := by
  rcases l with holders | k
  · simp only [PartitionLock.without, held_by, List.mem_filter, ne_eq, hj, not_false_eq_true,
      decide_true, and_true]
  · simp only [PartitionLock.without]
    split_ifs with hk
    · subst hk
      rw [held_by_free, held_by, if_neg (Ne.symm hj)]
    · rfl

/-- The locks of the others are left alone. -/
theorem Relocks.held_by_of_ne (h : Relocks i s s' u u') (hj : j ≠ i) (p : ℕ) :
    held_by j (s'.locks p) = held_by j (s.locks p) := by
  -- a step touches the lock of one partition at most
  have hupdate : ∀ {q : ℕ} {l : PartitionLock ι}, s'.locks = Function.update s.locks q l →
      held_by j l = held_by j (s.locks q) → held_by j (s'.locks p) = held_by j (s.locks p) := by
    intro q l hs' hl
    rw [hs']
    by_cases hpq : p = q
    · subst hpq
      rw [Function.update_self, hl]
    · rw [Function.update_of_ne hpq]
  cases h with
  | stay h => rw [h]
  | share hp h =>
    refine hupdate h ?_
    simp only [hp, held_by, List.mem_cons, hj, false_or]
  | unshare hp h =>
    refine hupdate h ?_
    simp only [hp, held_by, List.mem_erase_of_ne hj]
  | seize hp h =>
    refine hupdate h ?_
    rw [hp, held_by_free, held_by, if_neg (Ne.symm hj)]
  | yield hp h =>
    refine hupdate h ?_
    rw [hp, held_by_free, held_by, if_neg (Ne.symm hj)]
  | leave h =>
    rw [h]
    exact held_by_without_of_ne hj _

/-- If `i` held only the lock that it worked under, it still does. -/
theorem Relocks.used (h : Relocks i s s' u u')
    (hused : ∀ p mode, held_by i (s.locks p) = some mode → u = some (p, mode))
    (honce : ∀ p holders, s.locks p = .shared holders → holders.Nodup) {p : ℕ} {mode : Mode}
    (hheld : held_by i (s'.locks p) = some mode) : u' = some (p, mode) := by
  -- the lock that a step takes is the one that it goes on under
  cases h with
  | stay h => exact hused p mode (h ▸ hheld)
  | share hp h =>
    rename_i q holders
    by_cases hpq : p = q
    · subst hpq
      rw [h, Function.update_self, held_by, if_pos List.mem_cons_self] at hheld
      rw [Option.some.inj hheld]
    · rw [h, Function.update_of_ne hpq] at hheld
      exact absurd (hused p mode hheld) nofun
  | unshare hp h =>
    rename_i q holders
    by_cases hpq : p = q
    · subst hpq
      rw [h, Function.update_self, held_by, if_neg (honce p holders hp).not_mem_erase] at hheld
      exact absurd hheld nofun
    · rw [h, Function.update_of_ne hpq] at hheld
      exact absurd (Prod.mk.inj (Option.some.inj (hused p mode hheld))).1.symm hpq
  | seize hp h =>
    rename_i q
    by_cases hpq : p = q
    · subst hpq
      rw [h, Function.update_self, held_by, if_pos rfl] at hheld
      rw [Option.some.inj hheld]
    · rw [h, Function.update_of_ne hpq] at hheld
      exact absurd (hused p mode hheld) nofun
  | yield hp h =>
    rename_i q
    by_cases hpq : p = q
    · subst hpq
      rw [h, Function.update_self, held_by_free] at hheld
      exact absurd hheld nofun
    · rw [h, Function.update_of_ne hpq] at hheld
      exact absurd (Prod.mk.inj (Option.some.inj (hused p mode hheld))).1.symm hpq
  | leave h =>
    rw [h] at hheld
    exact absurd ((held_by_without _).symm.trans hheld) nofun

/-- Nobody comes to hold a lock twice. -/
theorem Relocks.once (h : Relocks i s s' u u')
    (hused : ∀ p mode, held_by i (s.locks p) = some mode → u = some (p, mode))
    (honce : ∀ p holders, s.locks p = .shared holders → holders.Nodup) {p : ℕ} {holders : List ι}
    (hp' : s'.locks p = .shared holders) : holders.Nodup := by
  have hupdate : ∀ {q : ℕ} {l : PartitionLock ι}, s'.locks = Function.update s.locks q l →
      (∀ hs, l = .shared hs → hs.Nodup) → holders.Nodup := by
    intro q l hs' hl
    rw [hs'] at hp'
    by_cases hpq : p = q
    · subst hpq
      rw [Function.update_self] at hp'
      exact hl holders hp'
    · rw [Function.update_of_ne hpq] at hp'
      exact honce p holders hp'
  cases h with
  | stay h => exact honce p holders (h ▸ hp')
  | share hp h =>
    rename_i q held
    refine hupdate h fun hs heq => ?_
    obtain rfl := PartitionLock.shared.inj heq
    refine List.nodup_cons.mpr ⟨fun hmem => ?_, honce q held hp⟩
    -- if it held this lock already, it would be working under it
    exact absurd (hused q .shared (by rw [hp, held_by, if_pos hmem])) nofun
  | unshare hp h =>
    rename_i q held
    refine hupdate h fun hs heq => ?_
    obtain rfl := PartitionLock.shared.inj heq
    exact (honce q held hp).erase i
  | seize hp h => exact hupdate h fun _ => nofun
  | yield hp h =>
    refine hupdate h fun hs heq => ?_
    obtain rfl := PartitionLock.shared.inj heq
    exact List.nodup_nil
  | leave h =>
    rw [h] at hp'
    dsimp only at hp'
    rcases hl : s.locks p with held | k <;> rw [hl] at hp'
    · obtain rfl := PartitionLock.shared.inj hp'
      exact (honce p held hl).filter _
    · simp only [PartitionLock.without] at hp'
      split_ifs at hp'
      obtain rfl := PartitionLock.shared.inj hp'
      exact List.nodup_nil

/-- A step that leaves no lock behind keeps the locks tidy. -/
theorem Tidy.step {c : Choice} {g g' : Config ι (Shared ι) Pc} (ht : Tidy hash g)
    (hg : Holds (Sound hash) (Relies hash) g) (hc : c ≠ .fail_locked)
    (hstep : Interleaving.step (backend hash) i c g = some g') : Tidy hash g' := by
  have hrelocks := relocks_of_move (move_of_run_step hg hstep) hc
  refine ⟨fun j p mode hheld => ?_, fun p holders hp => hrelocks.once (ht.used i) ht.once hp⟩
  by_cases hji : j = i
  · subst hji
    exact hrelocks.used (ht.used j) ht.once hheld
  · rw [hrelocks.held_by_of_ne hji] at hheld
    rw [locals_of_step_of_ne hji hstep]
    exact ht.used j p mode hheld

theorem tidy_init : Tidy hash (init (ι := ι)) :=
  ⟨fun _ _ _ hheld => absurd (held_by_free.symm.trans hheld) nofun,
    fun _ _ hp => PartitionLock.shared.inj hp ▸ List.nodup_nil⟩

end Locks

/-! ## What a call has left -/

/-- The steps inside a call that nothing goes wrong with, of a backend that is attached. -/
def onward : Choice → Bool
  | .go | .clock _ | .transfer _ | .memory _ => true
  | _ => false

/-- How many more steps a call can make. -/
def left : Pc → ℕ
  | .idle | .returned _ _ _ | .failed => 0
  | .finish _ _ | .parse _ _ _ _ => 1
  | .release_put _ _ | .release_get _ _ (.hit _ _ _) | .release_get _ _ .thrown => 2
  | .set_expiration _ _ | .read_json _ _ _ _ | .erase _ _ => 3
  | .read_put_clock _ _ | .read_expiration _ _ _ _ => 4
  | .write .end_json _ _ | .read_clock _ _ => 5
  | .write .copy_json _ _ => 6
  | .write .end_url _ _ => 7
  | .write .copy_url _ _ => 8
  | .put _ => 9
  | .fetch _ => 10
  | .get _ | .release_get _ _ .miss => 11

theorem left_le (pc : Pc) : left pc ≤ 11 := by
  cases pc with
  | write stage _ _ => cases stage <;> simp [left]
  | release_get _ _ got => cases got <;> simp [left]
  | _ => simp [left]

theorem left_fetched_lt (url : Bytes) (response : Response) : left (fetched url response) < 10 := by
  unfold fetched
  split_ifs
  · split
    · split
      · split_ifs <;> simp [left]
      · simp [left]
    · simp [left]
  · simp [left]

section Calls

variable [DecidableEq ι] {i : ι} {s s' : Shared ι} {pc pc' : Pc}

theorem left_of_fails (h : fails pc = some pc') : left pc' < left pc := by
  cases pc with
  | get _ | parse _ _ _ _ | fetch _ | put _ | finish _ _ | erase _ _ | read_json _ _ _ _ =>
    obtain rfl := Option.some.inj h
    simp [left]
  | _ => exact absurd h nofun

theorem left_of_move {c : Choice} (h : Move hash i s pc c s' pc') (hc : within_call c = true) :
    left pc' < left pc := by
  cases h with
  | call | exit => exact absurd hc nofun
  | fail hfails => exact left_of_fails hfails
  | @release_get _ _ got => cases got <;> simp [left, Got.after]
  | @write stage => cases stage <;> simp [left, Stage.after]
  | transfer => exact left_fetched_lt _ _
  | _ => simp [left]

theorem descends {Q : Choice → Bool} (hQ : ∀ c, Q c = true → within_call c = true) :
    Descends (backend (ι := ι) hash) (Sound hash) (Relies hash) (fun c _ => Q c = true) left :=
  fun _ _ _ _ _ _ hs h hc hstep => left_of_move (move_of_step hs h hstep) (hQ _ hc)

theorem inner_of_onward (c : Choice) (h : onward c = true) : within_call c = true := by
  cases c with
  | go | clock _ | transfer _ | memory _ => rfl
  | _ => exact absurd h nofun

/-! ## Where a call waits -/

/-- A put that is not refused. -/
def Fits (doc : Document) : Prop :=
  doc.url.length ≤ max_url_len ∧ doc.body.length ≤ max_json_len ∧ 0 < doc.max_age

/-- `i` cannot go on. -/
def Halts (hash : Bytes → ℕ) (i : ι) (s : Shared ι) (pc : Pc) : Prop :=
  ∀ c, onward c = true → backend hash i c s pc = none

omit [DecidableEq ι] in
theorem Reading.deref {url : Bytes} {entry : ℕ} (h : Reading hash i s url entry) :
    ∃ item, s.table.deref entry = some item := by
  obtain ⟨item, hitem, rfl⟩ := h.found
  exact ⟨item, Table.deref_of_find (entry_type hash) hitem⟩

omit [DecidableEq ι] in
theorem Writing.deref {doc : Document} {entry : ℕ} {F : HttpCacheEntry → Prop}
    (h : Writing hash i s doc entry F) : ∃ item, s.table.deref entry = some item := by
  obtain ⟨item, hitem, rfl, -⟩ := h.found
  exact ⟨item, Table.deref_of_find (entry_type hash) hitem⟩

/-- Whoever has a lock goes on, but for the deletion. -/
theorem erases_of_halts {u : ℕ × Mode} (h : Relies hash i s pc) (huses : uses hash pc = some u)
    (hhalts : Halts hash i s pc) : ∃ url entry, pc = .erase url entry := by
  have hgo := hhalts .go rfl
  cases pc with
  | erase url entry => exact ⟨url, entry, rfl⟩
  | read_clock url entry => cases hhalts (.clock 0) rfl
  | read_put_clock doc entry => cases hhalts (.clock 0) rfl
  -- what is read or released is still in the table
  | read_expiration url entry t log =>
    obtain ⟨item, hderef⟩ := Reading.deref h.1.1
    simp only [backend, get_json_step, hderef, Option.map_some] at hgo
    cases hgo
  | read_json url entry t log =>
    obtain ⟨item, hderef⟩ := Reading.deref h.1.1
    simp only [backend, get_json_step, hderef, Option.map_some] at hgo
    cases hgo
  | release_get url entry got =>
    obtain ⟨item, hderef⟩ := Reading.deref h.1.1
    simp only [backend, get_json_step, Shared.unlock, hderef, Option.map_some] at hgo
    cases hgo
  | write stage doc entry => cases hgo
  | set_expiration put entry => cases hgo
  | release_put put entry =>
    obtain ⟨item, hderef⟩ := Writing.deref h.1
    simp only [backend, get_json_step, Shared.unlock, hderef, Option.map_some] at hgo
    cases hgo
  | _ => cases huses

/-- Whoever has no lock goes on, but for the two lookups. -/
theorem waits_of_halts (huses : uses hash pc = none) (hhalts : Halts hash i s pc) :
    pc.outside = true ∨
      (∃ url j, pc = .get url ∧ s.locks (hash (c_str url)) = .exclusive j) ∨
      ∃ doc, pc = .put doc ∧ Fits doc ∧ s.locks (hash doc.key) ≠ .shared [] := by
  have hgo := hhalts .go rfl
  cases pc with
  | idle | returned _ _ _ | failed => exact .inl rfl
  | get url =>
    refine .inr (.inl ⟨url, ?_⟩)
    simp only [backend, get_json_step, get_step] at hgo
    split_ifs at hgo
    -- a shared lock is refused only because of an exclusive one
    simp only [Shared.lock_shared] at hgo
    rcases hp : s.locks (hash (c_str url)) with holders | j <;> rw [hp] at hgo
    · cases hgo
    · exact ⟨j, rfl, rfl⟩
  | put doc =>
    have hmemory := hhalts (.memory blank_entry) rfl
    simp only [backend, get_json_step, put_step] at hmemory
    split_ifs at hmemory with hrefused
    refine .inr (.inr ⟨doc, rfl, ?_, fun hp => ?_⟩)
    · unfold Fits
      omega
    · simp only [Shared.lock_exclusive, hp] at hmemory
      cases hmemory
  | parse url json t log => cases hgo
  | fetch url => cases hhalts (.transfer ⟨[], [], none, 0⟩) rfl
  | finish url value => cases hgo
  | _ => cases huses

end Calls

/-! ## Where everybody waits -/

/-- A backend that nobody but a failure gets any further: it is not inside `get_json`, or it
waits in `dshash_delete_key` for the lock that it holds, or it waits in `dshash_find_or_insert`
for one that waits in `dshash_delete_key`. -/
inductive Waits (hash : Bytes → ℕ) (g : Config ι (Shared ι) Pc) : Pc → Prop
  | outside {pc : Pc} (h : pc.outside = true) : Waits hash g pc
  | erase {url : Bytes} {entry : ℕ} : Waits hash g (.erase url entry)
  | put {doc : Document} {j : ι} {url : Bytes} {entry : ℕ} (hfits : Fits doc)
      (hj : g.locals j = .erase url entry) (hp : hash (c_str url) = hash doc.key) :
      Waits hash g (.put doc)

variable [DecidableEq ι]

/-- Nobody goes on. -/
abbrev Standstill (hash : Bytes → ℕ) (g : Config ι (Shared ι) Pc) : Prop :=
  Stuck (backend hash) (fun c _ => onward c = true) g

section Standstills

variable {g : Config ι (Shared ι) Pc}

theorem Standstill.halts (h : Standstill hash g) (i : ι) : Halts hash i g.shared (g.locals i) :=
  fun c hc => Option.map_eq_none_iff.mp (h i c hc)

/-- Whoever holds a lock while nobody goes on is at the deletion. -/
theorem Standstill.erases (h : Standstill hash g) (hg : Holds (Sound hash) (Relies hash) g)
    (ht : Tidy hash g) {j : ι} {p : ℕ} {mode : Mode}
    (hheld : held_by j (g.shared.locks p) = some mode) :
    mode = .shared ∧ ∃ url entry, g.locals j = .erase url entry ∧ hash (c_str url) = p := by
  have huses := ht.used j p mode hheld
  obtain ⟨url, entry, hj⟩ := erases_of_halts (hg.2 j) huses (h.halts j)
  rw [hj] at huses
  obtain ⟨hp, hmode⟩ := Prod.mk.inj (Option.some.inj huses)
  exact ⟨hmode.symm, url, entry, hj, hp⟩

theorem Standstill.waits (h : Standstill hash g) (hg : Holds (Sound hash) (Relies hash) g)
    (ht : Tidy hash g) (i : ι) : Waits hash g (g.locals i) := by
  -- whoever holds a lock exclusively is writing, and goes on
  have hexclusive : ∀ {p j}, g.shared.locks p ≠ .exclusive j := by
    intro p j hp
    have hheld : held_by j (g.shared.locks p) = some .exclusive := by rw [hp, held_by, if_pos rfl]
    exact absurd (h.erases hg ht hheld).1 nofun
  rcases huses : uses hash (g.locals i) with _ | u
  · obtain houtside | ⟨url, j, -, hp⟩ | ⟨doc, hput, hfits, hp⟩ := waits_of_halts huses (h.halts i)
    · exact .outside houtside
    · exact absurd hp hexclusive
    · rw [hput]
      rcases hlock : g.shared.locks (hash doc.key) with (_ | ⟨j, holders⟩) | j
      · exact absurd hlock hp
      · have hheld : held_by j (g.shared.locks (hash doc.key)) = some .shared := by
          rw [hlock, held_by, if_pos List.mem_cons_self]
        -- so the lock that `put` waits for is shared, and its holder is deleting an entry
        obtain ⟨-, url, entry, hj, heq⟩ := h.erases hg ht hheld
        exact .put hfits hj heq
      · exact absurd hlock hexclusive
  · obtain ⟨url, entry, hi⟩ := erases_of_halts (hg.2 i) huses (h.halts i)
    rw [hi]
    exact .erase

omit [DecidableEq ι] in
/-- Behind one that holds the lock of the partition, `put` waits. -/
theorem put_step_eq_none {s : Shared ι} {i j : ι} {doc : Document} {m : HttpCacheEntry}
    (hfits : Fits doc) (hj : HoldsShared j s (hash doc.key)) : put_step hash i doc m s = none := by
  obtain ⟨holders, hp, hmem⟩ := hj
  obtain ⟨hurl, hbody, hage⟩ := hfits
  unfold put_step Shared.lock_exclusive
  rw [if_neg (by omega), hp]
  cases holders with
  | nil => exact absurd hmem List.not_mem_nil
  | cons k holders => rfl

theorem standstill_of_waits (hg : Holds (Sound hash) (Relies hash) g)
    (h : ∀ i, Waits hash g (g.locals i)) : Standstill hash g := by
  intro i c hc
  refine Option.map_eq_none_iff.mpr ?_
  have hrelies := hg.2 i
  have hi := h i
  generalize g.locals i = pc at hrelies hi
  cases hi with
  | outside houtside =>
    -- from outside there are only calls and exits, which do not go on
    cases pc with
    | idle | returned _ _ _ | failed =>
      cases c with
      | go | clock _ | transfer _ | memory _ => rfl
      | _ => exact absurd hc nofun
    | _ => exact absurd houtside nofun
  | erase =>
    cases c with
    | go => exact erase_step_eq_none hrelies.1
    | clock _ | transfer _ | memory _ => rfl
    | _ => exact absurd hc nofun
  | put hfits hj hp =>
    cases c with
    | memory m =>
      rename_i j url entry
      have hreading : Reading hash j g.shared url entry := (hg.2 j).reading (by rw [hj]; rfl)
      exact put_step_eq_none hfits (hp ▸ hreading.lock)
    | go | clock _ | transfer _ => rfl
    | _ => exact absurd hc nofun

end Standstills

/-- What holds after a run in which no failure leaves a lock behind. -/
theorem tidy_of_run {schedule : List (ι × Choice)} {g g' : Config ι (Shared ι) Pc}
    (hg : Holds (Sound hash) (Relies hash) g) (ht : Tidy hash g)
    (hrun : run (backend hash) schedule g = some g')
    (hlocks : ∀ ic ∈ schedule, ic.2 ≠ .fail_locked) :
    Holds (Sound hash) (Relies hash) g' ∧ Tidy hash g' := by
  refine keeps_run (I := fun g => Holds (Sound hash) (Relies hash) g ∧ Tidy hash g)
    (Q := fun _ c _ => c ≠ .fail_locked) (fun {i c g g'} hI hc hstep => ?_) ⟨hg, ht⟩
    (each_of_forall fun ic hmem _ => hlocks ic hmem) hrun
  exact ⟨outline.step hI.1 ⟨i, c, hstep⟩, hI.2.step hI.1 hc hstep⟩

/-- **Only an expired entry stops the cache.** As long as no failure leaves a lock behind: a
call of `get_json` makes at most eleven steps, however the others move in between; nobody can
go on exactly if everybody inside `get_json` is deleting an expired entry under his own lock,
or wants to put into a partition in which somebody does; and every run can be carried on to
such a state without any failure. -/
theorem get_json_goes_on (hash : Bytes → ℕ) [Fintype ι] {schedule : List (ι × Choice)}
    {g : Config ι (Shared ι) Pc} (hrun : run (backend hash) schedule init = some g)
    (hlocks : ∀ ic ∈ schedule, ic.2 ≠ .fail_locked) :
    (∀ i schedule' g', run (backend hash) schedule' g = some g' →
        (∀ c, (i, c) ∈ schedule' → within_call c = true) →
        schedule'.countP (fun ic => ic.1 = i) ≤ 11) ∧
      (Standstill hash g ↔ ∀ i, Waits hash g (g.locals i)) ∧
      ∃ schedule' g', (∀ ic ∈ schedule', onward ic.2 = true) ∧
        run (backend hash) schedule' g = some g' ∧ ∀ i, Waits hash g' (g'.locals i) := by
  obtain ⟨hg, ht⟩ := tidy_of_run holds_init tidy_init hrun hlocks
  refine ⟨fun i schedule' g' hrun' hinner => ?_, ⟨fun h => h.waits hg ht, standstill_of_waits hg⟩,
    ?_⟩
  · have heach : Each (backend hash) (fun j c _ => j = i → within_call c = true) schedule' g :=
      each_of_forall (Q := fun j c _ => j = i → within_call c = true)
        (fun ic hmem _ hi => hinner ic.2 (hi ▸ hmem))
    have hcount := (descends fun _ h => h).count_le outline i hg heach hrun'
    have hle := left_le (g.locals i)
    omega
  · obtain ⟨schedule', g', heach, hrun', hstuck⟩ :=
      (descends inner_of_onward).exists_stuck outline hg
    have honward := forall_of_each heach hrun'
    obtain ⟨hg', ht'⟩ := tidy_of_run hg ht hrun' fun ic hmem heq =>
      absurd (heq ▸ honward ic hmem) nofun
    exact ⟨schedule', g', honward, hrun', fun i => Standstill.waits hstuck hg' ht' i⟩

/-- One backend puts a document that is good until 160; another one asks for it at 160. -/
def expired_schedule : List (Bool × Choice) :=
  schedule.take 12 ++ [.call (bytes "https://idp"), .go, .clock 160, .go].map (Prod.mk true)

/-- The two places that the examples are about, in a form that can be compared. -/
def place : Pc → Option (Bytes × Option ℕ)
  | .get url => some (url, none)
  | .erase url entry => some (url, some entry)
  | _ => none

theorem eq_get_of_place {pc : Pc} {url : Bytes} (h : place pc = some (url, none)) :
    pc = .get url := by
  unfold place at h
  split at h
  · rw [(Prod.mk.inj (Option.some.inj h)).1]
  · exact absurd (Prod.mk.inj (Option.some.inj h)).2 nofun
  · exact absurd h nofun

theorem eq_erase_of_place {pc : Pc} {url : Bytes} {entry : ℕ}
    (h : place pc = some (url, some entry)) : pc = .erase url entry := by
  unfold place at h
  split at h
  · exact absurd (Prod.mk.inj (Option.some.inj h)).2 nofun
  · obtain ⟨rfl, hentry⟩ := Prod.mk.inj (Option.some.inj h)
    rw [Option.some.inj hentry]
  · exact absurd h nofun

/-- Where a schedule ends. -/
def after (schedule : List (Bool × Choice)) : Config Bool (Shared Bool) Pc :=
  (run (backend List.length) schedule init).getD init

theorem run_eq_after {schedule : List (Bool × Choice)}
    (h : (run (backend List.length) schedule (init (ι := Bool))).isSome = true) :
    run (backend List.length) schedule init = some (after schedule) := by
  obtain ⟨g, hrun⟩ := Option.isSome_iff_exists.mp h
  rw [after, hrun, Option.getD_some]

theorem get_json_goes_on_expired : Standstill List.length (after expired_schedule) := by
  have hrun := @run_eq_after expired_schedule (by decide +kernel)
  refine (get_json_goes_on List.length hrun ?_).2.1.mpr fun i => ?_
  · simp [expired_schedule, schedule]
  · cases i with
    | false => exact .outside (by decide +kernel)
    | true =>
      have hplace : place ((after expired_schedule).locals true) =
          some (bytes "https://idp", some 1) := by decide +kernel
      rw [eq_erase_of_place hplace]
      exact .erase

/-! ## What an expired entry stops -/

/-- Since the state `s₀`, `j` has waited in `dshash_delete_key`, and nothing has changed in the
partition of its key. -/
structure Frozen (hash : Bytes → ℕ) (s₀ : Shared ι) (j : ι) (url : Bytes) (entry : ℕ)
    (g : Config ι (Shared ι) Pc) : Prop where
  holds : Holds (Sound hash) (Relies hash) g
  waiting : g.locals j = .erase url entry
  find : ∀ k, hash k = hash (c_str url) →
    g.shared.table.find (entry_type hash) k = s₀.table.find (entry_type hash) k
  latest : ∀ k, hash k = hash (c_str url) → latest g.shared.puts k = latest s₀.puts k

/-- Where a `get` of `url` can be that finds an entry expired. -/
inductive Barred (url : Bytes) : Pc → Prop
  | get : Barred url (.get url)
  | read_clock {entry : ℕ} : Barred url (.read_clock url entry)
  | read_expiration {entry : ℕ} {t : ℤ} {log : List Put}
      (hlate : ∀ put, latest log (c_str url) = some put → put.clock + put.max_age ≤ t) :
      Barred url (.read_expiration url entry t log)
  | erase {entry : ℕ} : Barred url (.erase url entry)
  | thrown {entry : ℕ} : Barred url (.release_get url entry .thrown)
  | failed : Barred url .failed

section Freeze

variable {s₀ s s' : Shared ι} {i j : ι} {c : Choice} {url : Bytes} {entry : ℕ} {pc pc' : Pc}
  {g g' : Config ι (Shared ι) Pc}

/-- Only a failure leads out of `dshash_delete_key`. -/
theorem fails_of_erase (h : Move hash i s (.erase url entry) c s' pc') :
    c = .fail ∨ c = .fail_locked := by
  cases h with
  | call houtside | exit houtside => exact absurd houtside nofun
  | fail => exact .inl rfl
  | erase_locked => exact .inr rfl

/-- A `get` that finds an entry, and finds it expired. -/
theorem Barred.of_move {put : Put} (hb : Barred url pc) (h : Move hash i s pc c s' pc')
    (hput : SharedCache.latest s.puts (c_str url) = some put)
    (hfound : ∃ item, s.table.find (entry_type hash) (c_str url) = some item)
    (hlen : url.length ≤ max_url_len) (hclock : ∀ t, c = .clock t → put.clock + put.max_age ≤ t)
    (hinner : within_call c = true) (hattached : c ≠ .detached) : Barred url pc' := by
  cases hb with
  | get =>
    cases h with
    | call | exit => exact absurd hinner nofun
    | fail hfails =>
      obtain rfl := Option.some.inj hfails
      exact .failed
    | detached => exact absurd rfl hattached
    | too_long hlong => exact absurd hlen (not_le.mpr hlong)
    | miss _ _ hmiss =>
      obtain ⟨item, hitem⟩ := hfound
      exact absurd (hitem.symm.trans hmiss) nofun
    | found => exact .read_clock
    | get_locked => exact .failed
  | read_clock =>
    cases h with
    | call houtside | exit houtside => exact absurd houtside nofun
    | fail hfails => exact absurd hfails nofun
    | read_clock =>
      -- the time that was read is past the expiration of what is there
      refine .read_expiration fun put' hput' => ?_
      obtain rfl : put = put' := Option.some.inj (hput.symm.trans hput')
      exact hclock _ rfl
  | read_expiration hlate =>
    cases h with
    | call houtside | exit houtside => exact absurd houtside nofun
    | fail hfails => exact absurd hfails nofun
    | expired => exact .erase
    | fresh _ hlog hfresh => exact absurd hfresh (not_lt.mpr (hlate _ hlog))
  | erase =>
    cases h with
    | call houtside | exit houtside => exact absurd houtside nofun
    | fail hfails =>
      obtain rfl := Option.some.inj hfails
      exact .thrown
    | erase_locked => exact .failed
  | thrown =>
    cases h with
    | call houtside | exit houtside => exact absurd houtside nofun
    | fail hfails => exact absurd hfails nofun
    | release_get => exact .failed
  | failed =>
    cases h with
    | call | exit => exact absurd hinner nofun
    | fail hfails => exact absurd hfails nofun

omit [DecidableEq ι] in
theorem Frozen.reading (h : Frozen hash s₀ j url entry g) : Reading hash j g.shared url entry :=
  (h.holds.2 j).reading (by rw [h.waiting]; rfl)

/-- Only a failure gets `j` any further, and nobody else gets past its lock. -/
theorem Frozen.step (h : Frozen hash s₀ j url entry g)
    (hc : i = j → c ≠ .fail ∧ c ≠ .fail_locked)
    (hstep : Interleaving.step (backend hash) i c g = some g') : Frozen hash s₀ j url entry g' := by
  by_cases hji : j = i
  · subst hji
    have hmove := move_of_run_step h.holds hstep
    rw [h.waiting] at hmove
    obtain ⟨hfail, hlocked⟩ := hc rfl
    exact ((fails_of_erase hmove).elim hfail hlocked).elim
  · have hlock := h.reading.lock
    have hframe := (backend_spec h.holds.1 (h.holds.2 i) (locals_of_step hstep)).frame
    refine ⟨outline.step h.holds ⟨i, c, hstep⟩, ?_, fun k hk => ?_, fun k hk => ?_⟩
    · rw [locals_of_step_of_ne hji hstep, h.waiting]
    · exact (hframe.find j hji k (.inl (hk ▸ hlock))).trans (h.find k hk)
    · exact (hframe.latest j hji k (.inl (hk ▸ hlock))).trans (h.latest k hk)

/-- Whoever asks for the same key finds the entry that `j` still reads. -/
theorem Barred.step {k : ι} {put : Put} {url' : Bytes} (hb : Barred url' (g.locals i))
    (h : Frozen hash s₀ j url entry g) (hput : SharedCache.latest s₀.puts (c_str url) = some put)
    (hkey : c_str url' = c_str url) (hlen : url'.length ≤ max_url_len)
    (hclock : ∀ t, c = .clock t → put.clock + put.max_age ≤ t)
    (hc : k = i → within_call c = true ∧ c ≠ .detached)
    (hstep : Interleaving.step (backend hash) k c g = some g') : Barred url' (g'.locals i) := by
  by_cases hik : i = k
  · subst hik
    obtain ⟨item, hitem, -⟩ := h.reading.found
    refine hb.of_move (move_of_run_step h.holds hstep) ?_ ⟨item, hkey ▸ hitem⟩ hlen hclock
      (hc rfl).1 (hc rfl).2
    rw [hkey, h.latest _ rfl, hput]
  · rw [locals_of_step_of_ne hik hstep]
    exact hb

end Freeze

/-- The first backend asks for its document again. -/
def again_schedule : List (Bool × Choice) :=
  expired_schedule ++ [(false, .call (bytes "https://idp"))]

/-- It gets the lock and reads the clock. -/
def late_schedule : List (Bool × Choice) := [.go, .clock 170, .go].map (Prod.mk false)

end OidcValidator.CacheProgress
