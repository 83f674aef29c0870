/-
`OneBackend.lean` -- `get_json` is a schedule of the steps of the shared cache.

`HttpClient.lean` has `get_json` as one function of one process, with the table and the
locks in the state of that process. `SharedCache.lean` has it as steps between which other
processes move. Here the function is run next to the steps: wherever it ends, a run of the
steps in which nobody else moves has brought its backend to the same end, with the same
table and the same locks.

So what holds of every run of the steps holds of the function. The function may end in one
way that the steps have no place for: the process waits or exits, and then there is nothing
to say.
-/
import OidcValidator.CacheSteps

set_option autoImplicit false

namespace OidcValidator.OneBackend

open OidcValidator.ByteString OidcValidator.Control OidcValidator.PgUtils
open OidcValidator.Dshash OidcValidator.HttpCache OidcValidator.HttpClient
open OidcValidator.Interleaving OidcValidator.SharedCache
open OidcValidator.CacheSteps (within_call)
open OidcValidator.Picojson (Value parse)

variable {ι τ : Type}

/-! ## The locks, seen from one process -/

/-- A lock that `i` holds alone. -/
def lock_in (i : ι) : Mode → PartitionLock ι
  | .shared => .shared [i]
  | .exclusive => .exclusive i

/-- The lock of a partition when all locks are held by `i`, which holds `held`. -/
def lock_of (i : ι) (held : List (ℕ × Mode)) (p : ℕ) : PartitionLock ι :=
  match held.find? fun l => l.1 = p with
  | some l => lock_in i l.2
  | none => .shared []

theorem lock_of_eq_free {i : ι} {held : List (ℕ × Mode)} {p : ℕ}
    (h : held.any (fun l => l.1 = p) = false) : lock_of i held p = .shared [] := by
  have hnone : held.find? (fun l => l.1 = p) = none := by
    rw [List.find?_eq_none]
    intro l hl hp
    exact absurd (List.any_eq_true.mpr ⟨l, hl, hp⟩) (by rw [h]; exact nofun)
  unfold lock_of
  rw [hnone]

/-- A lock of which `i` is a holder is among those that `i` holds. -/
theorem any_of_holds {i : ι} {held : List (ℕ × Mode)} {p : ℕ} {s : Shared ι}
    (hlocks : s.locks = lock_of i held) (h : HoldsLock i s p) :
    held.any (fun l => l.1 = p) = true := by
  by_contra hany
  have hnone : s.locks p = .shared [] := by
    rw [hlocks, lock_of_eq_free (Bool.eq_false_iff.mpr hany)]
  rcases h with ⟨holders, hp, hmem⟩ | hp
  · rw [hnone] at hp
    obtain rfl := PartitionLock.shared.inj hp
    exact absurd hmem List.not_mem_nil
  · exact absurd (hnone.symm.trans hp) nofun

/-- To take a lock is to put it in front. -/
theorem lock_of_cons (i : ι) (held : List (ℕ × Mode)) (p : ℕ) (mode : Mode) :
    lock_of i ((p, mode) :: held) = Function.update (lock_of i held) p (lock_in i mode) := by
  funext q
  by_cases hq : q = p
  · subst hq
    rw [Function.update_self]
    unfold lock_of
    rw [List.find?_cons_of_pos (by simp)]
  · rw [Function.update_of_ne hq]
    unfold lock_of
    rw [List.find?_cons_of_neg (by simp [Ne.symm hq])]

/-- To give a lock back is to strike it from the list. -/
theorem lock_of_eraseP (i : ι) {held : List (ℕ × Mode)} (hd : (held.map Prod.fst).Nodup) (p : ℕ) :
    lock_of i (held.eraseP fun l => l.1 = p) = Function.update (lock_of i held) p (.shared []) := by
  induction held with
  | nil =>
    have hnil : lock_of i [] p = .shared [] := rfl
    rw [← hnil, Function.update_eq_self]
    rfl
  | cons l held ih =>
    obtain ⟨q, mode⟩ := l
    rw [List.map_cons, List.nodup_cons] at hd
    by_cases hq : q = p
    · subst hq
      rw [List.eraseP_cons_of_pos (by simp), lock_of_cons, Function.update_idem]
      -- the partition is not in the rest of the list
      have hfree : lock_of i held q = .shared [] := by
        refine lock_of_eq_free (Bool.eq_false_iff.mpr fun hany => ?_)
        obtain ⟨l, hl, hlq⟩ := List.any_eq_true.mp hany
        exact hd.1 (List.mem_map.mpr ⟨l, hl, by simpa using hlq⟩)
      rw [← hfree, Function.update_eq_self]
    · rw [List.eraseP_cons_of_neg (by simp [hq]), lock_of_cons, lock_of_cons, ih hd.2,
        Function.update_comm hq]

/-- The table and the locks as the function sees them and as the steps do. -/
structure Seen (i : ι) (u : ClientWorld τ) (s : Shared ι) : Prop where
  table : s.table = u.table
  locks : s.locks = lock_of i u.held
  distinct : (u.held.map Prod.fst).Nodup

/-- A lock that is given back. -/
theorem Seen.release [DecidableEq ι] {i : ι} {u : ClientWorld τ} {s : Shared ι} {entry : ℕ}
    {item : Item HttpCacheEntry} (h : Seen i u s) (hderef : s.table.deref entry = some item) :
    ∃ s', s.unlock i entry = some s' ∧
      Seen i { u with held := u.held.eraseP fun l => l.1 = item.partition } s' := by
  have hlocks := lock_of_eraseP i h.distinct item.partition
  have hd : ((u.held.eraseP fun l => l.1 = item.partition).map Prod.fst).Nodup :=
    h.distinct.sublist (List.eraseP_sublist.map _)
  refine ⟨s.relock item.partition (.shared []), ?_, h.table, ?_, hd⟩
  · unfold Shared.unlock
    rw [hderef, Option.map_some, h.locks]
    -- nobody else has it, so it is free afterwards
    unfold lock_of
    rcases u.held.find? _ with _ | ⟨p, _ | _⟩
    · rfl
    · simp [lock_in]
    · rfl
  · rw [hlocks, ← h.locks]
    rfl

/-! ## Where the steps are -/

/-- Where backend `i` can be in some system in which its calls of `get_json` go these steps,
and what it shares with the others then. -/
structure Course [DecidableEq ι] (hash : Bytes → ℕ) (i : ι) where
  Reached : Pc → Shared ι → Prop
  relies : ∀ {pc s}, Reached pc s → Sound hash s ∧ Relies hash i s pc
  step : ∀ {pc pc' s s' c}, Reached pc s → within_call c = true →
    backend hash i c s pc = some (s', pc') → Reached pc' s'

section Steps

variable [DecidableEq ι] {hash : Bytes → ℕ} {i : ι} (K : Course hash i)

/-- `i` can have come to `pc`, where it sees `u`. -/
def At (pc : Pc) (u : ClientWorld τ) : Prop := ∃ s, K.Reached pc s ∧ Seen i u s

/-- What is left when the function does not return. A process that waits or exits makes no
further step. -/
def Left (x : Exit) (u : ClientWorld τ) : Prop := x ≠ .stop → At K .failed u

/-- `i` has a lock that its next step is going to take. -/
def Granted (pc : Pc) (p : ℕ) (mode : Mode) (u : ClientWorld τ) : Prop :=
  ∃ held, u.held = (p, mode) :: held ∧ held.any (fun l => l.1 = p) = false ∧
    At K pc { u with held := held }

variable {K} {pc pc' : Pc} {u u' : ClientWorld τ}

/-- One more step. -/
theorem At.step (h : At K pc u)
    (hstep : ∀ s, Sound hash s → Relies hash i s pc → Seen i u s →
      ∃ c s', within_call c = true ∧ backend hash i c s pc = some (s', pc') ∧ Seen i u' s') :
    At K pc' u' := by
  obtain ⟨s, hreached, hseen⟩ := h
  obtain ⟨hsound, hrelies⟩ := K.relies hreached
  obtain ⟨c, s', hc, hback, hseen'⟩ := hstep s hsound hrelies hseen
  exact ⟨s', K.step hreached hc hback, hseen'⟩

/-- A step that the function does not notice. -/
theorem At.go (c : Choice) (h : At K pc u) (hc : within_call c = true)
    (hstep : ∀ s, Seen i u s → backend hash i c s pc = some (s, pc')) : At K pc' u :=
  h.step fun s _ _ hseen => ⟨c, s, hc, hstep s hseen, hseen⟩

/-- What the function changes and the steps do not see. -/
theorem At.congr (h : At K pc u) (htable : u'.table = u.table) (hheld : u'.held = u.held) :
    At K pc u' := by
  obtain ⟨s, hreached, hseen⟩ := h
  exact ⟨s, hreached, htable ▸ hseen.table, hheld ▸ hseen.locks, hheld ▸ hseen.distinct⟩

/-- What `i` may rely on. -/
theorem At.relies (h : At K pc u) : ∃ s, Sound hash s ∧ Relies hash i s pc ∧ Seen i u s := by
  obtain ⟨s, hreached, hseen⟩ := h
  obtain ⟨hsound, hrelies⟩ := K.relies hreached
  exact ⟨s, hsound, hrelies, hseen⟩

/-- The step that takes the lock. -/
theorem Granted.step {p : ℕ} {mode : Mode} (h : Granted K pc p mode u)
    (hstep : ∀ s, s.table = u.table → s.locks p = .shared [] →
      ∃ c s', within_call c = true ∧ backend hash i c s pc = some (s', pc') ∧ s'.table = u'.table ∧
        s'.locks = Function.update s.locks p (lock_in i mode)) (hheld : u'.held = u.held) :
    At K pc' u' := by
  obtain ⟨held, hu, hfree, hat⟩ := h
  refine hat.step fun s _ _ hseen => ?_
  have hp : s.locks p = .shared [] := by rw [hseen.locks, lock_of_eq_free hfree]
  obtain ⟨c, s', hc, hback, htable, hlocks⟩ := hstep s hseen.table hp
  refine ⟨c, s', hc, hback, htable, ?_, ?_⟩
  · rw [hlocks, hseen.locks, hheld, hu, lock_of_cons]
  · rw [hheld, hu, List.map_cons, List.nodup_cons]
    refine ⟨fun hmem => ?_, hseen.distinct⟩
    obtain ⟨l, hl, hlp⟩ := List.mem_map.mp hmem
    have hany : held.any (fun l => l.1 = p) = true :=
      List.any_eq_true.mpr ⟨l, hl, by simpa using hlp⟩
    exact absurd (hfree.symm.trans hany) nofun

/-! ## The pieces of the functions -/

/-- Logging, where the steps allow for a failure. -/
theorem triple_elog {level : Level} {msg : Bytes}
    (hfail : ∀ s, backend hash i .fail s pc = some (s, .failed)) :
    Triple (At K pc) (elog level msg : Prog CppException (ClientWorld τ) Unit)
      (fun _ => At K pc) (Left K) :=
  Triple.elog (fun _ h => h) (fun _ h _ => h.go .fail rfl fun s _ => hfail s) fun _ _ => nofun

/-- Logging through `pg_try`. -/
theorem triple_pg_try_elog {level : Level} {msg : Bytes}
    (hfail : ∀ s, backend hash i .fail s pc = some (s, .failed)) :
    Triple (At K pc) (pg_try (elog level msg) : Prog CppException (ClientWorld τ) Unit)
      (fun _ => At K pc) (Left K) :=
  triple_pg_try (triple_elog hfail) (fun _ h => h) (fun _ _ h _ => h nofun) fun _ h => h

/-- The lock of a request. A lock that is held already is waited for. -/
theorem triple_acquire {p : ℕ} {mode : Mode} {X : Exit → ClientWorld τ → Prop}
    (hstop : ∀ u, X .stop u) :
    Triple (At K pc) (acquire p mode : Prog CppException (ClientWorld τ) Unit)
      (fun _ => Granted K pc p mode) X := by
  refine Triple.get_bind fun u hu => Triple.ite (fun _ => Triple.halt fun _ _ => hstop _) ?_
  intro hany
  refine Triple.modify ?_
  rintro u rfl
  exact ⟨u.held, rfl, Bool.eq_false_iff.mpr hany, hu⟩

/-- The start of a request. -/
theorem triple_request {r : Request} {p : ℕ} {mode : Mode} {R : ClientWorld τ → Prop}
    {X : Exit → ClientWorld τ → Prop}
    (hacquire : Triple (At K pc) (acquire p mode : Prog CppException (ClientWorld τ) Unit)
      (fun _ => R) X)
    (hbefore : ∀ u, At K pc u → X .jump u) (hafter : ∀ u, R u → X .jump u)
    (hstop : ∀ u, X .stop u) :
    Triple (At K pc) (request r p mode : Prog CppException (ClientWorld τ) Unit)
      (fun _ => R) X := by
  refine Triple.get_bind fun u hu => ?_
  refine Triple.modify_bind (R := At K pc) ?_ ?_
  · rintro _ rfl
    exact hu.congr rfl rfl
  rcases u.failures u.trace.length with _ | msg | msg
  · exact hacquire
  · exact Triple.raise hbefore fun _ _ => hstop _
  · exact Triple.bind hacquire fun _ => Triple.raise hafter fun _ _ => hstop _

/-- The release of a lock that `i` holds. -/
theorem triple_release {p : ℕ} {P : ClientWorld τ → Prop} {Q : Unit → ClientWorld τ → Prop}
    {X : Exit → ClientWorld τ → Prop} (hheld : ∀ u, P u → u.held.any (fun l => l.1 = p) = true)
    (hQ : ∀ u, P u → Q () { u with held := u.held.eraseP fun l => l.1 = p }) :
    Triple P (release p) Q X := by
  refine Triple.get_bind fun u hu => Triple.ite (fun _ => Triple.modify ?_) fun hany => ?_
  · rintro _ rfl
    exact hQ _ hu
  · exact absurd (hheld u hu) hany

/-- The destructor of an `entry_ref`, which cannot fail: the lock is held. -/
theorem triple_entry_ref_destructor {entry : ℕ} {X : Exit → ClientWorld τ → Prop}
    (hheld : ∀ s, Relies hash i s pc → ∃ item, s.table.deref entry = some item ∧
      HoldsLock i s item.partition)
    (hgo : ∀ s s₁, s.unlock i entry = some s₁ → ∃ s', backend hash i .go s pc = some (s', pc') ∧
      s'.table = s₁.table ∧ s'.locks = s₁.locks) :
    Triple (At K pc)
      (entry_ref_destructor entry : Prog CppException (ClientWorld τ) Unit)
      (fun _ => At K pc') X := by
  refine triple_pg_assert_noerror (Y := fun _ _ => False) ?_ (fun _ h => absurd h id)
    (fun _ h => absurd h id) fun _ h => absurd h id
  refine Triple.get_bind fun u hu => ?_
  -- the entry is there, and its lock is one that this backend holds
  obtain ⟨s, -, hrelies, hseen⟩ := hu.relies
  obtain ⟨item, hderef, hlock⟩ := hheld s hrelies
  rw [hseen.table] at hderef
  rw [hderef]
  refine triple_release ?_ ?_
  · rintro _ rfl
    exact any_of_holds hseen.locks hlock
  · rintro _ rfl
    refine hu.step fun s _ _ hseen => ?_
    obtain ⟨s₁, hunlock, hseen₁⟩ := hseen.release (hseen.table ▸ hderef)
    obtain ⟨s', hback, htable, hlocks⟩ := hgo s s₁ hunlock
    exact ⟨.go, s', rfl, hback, htable.trans hseen₁.table, hlocks.trans hseen₁.locks, hseen₁.distinct⟩

/-! ## `get` -/

/-- How `get` is left inside the scope of its `entry_ref`. An exception still has the lock to
give back, a jump has left it behind. -/
def Unwinding (K : Course hash i) (url : Bytes) (entry : ℕ) :
    Exit → ClientWorld τ → Prop
  | .throw => At K (.release_get url entry .thrown)
  | .jump => At K .failed
  | .stop => fun _ => True

/-- The lookup of `get`. -/
theorem triple_find {url : Bytes} (hurl : ¬ max_url_len < url.length) :
    Triple (At K (.get url))
      (find (entry_type hash) (c_str url) false : Prog CppException (ClientWorld τ) (Option ℕ))
      (fun r u => r.elim (At K (.fetch url) u) fun a => At K (.read_clock url a) u)
      (Left K) := by
  have hlock : ∀ s : Shared ι, s.locks (hash (c_str url)) = .shared [] →
      s.lock_shared i (hash (c_str url)) = some (s.relock (hash (c_str url)) (.shared [i])) := by
    intro s hp
    unfold Shared.lock_shared
    rw [hp]
  refine triple_pg_try (Y := Left K) ?_ (fun _ h => h) (fun _ _ h _ => h nofun) fun _ h => h
  refine Triple.bind (triple_request (triple_acquire fun _ => nofun)
    (fun _ h _ => h.go .fail rfl fun _ _ => rfl) ?_ fun _ => nofun) fun _ => Triple.get_bind ?_
  · -- the request fails with its lock taken
    intro u hu _
    refine hu.step (fun s htable hp =>
      ⟨.fail_locked, s.relock (hash (c_str url)) (.shared [i]), rfl, ?_, htable, rfl⟩) rfl
    show (s.lock_shared i (hash (c_str url))).map _ = _
    rw [hlock s hp, Option.map_some]
  intro u hu
  rcases hfind : u.table.find (entry_type hash) (c_str url) with _ | item
  · -- a miss gives the lock back before it returns
    obtain ⟨held, hheld, hfree, hat⟩ := hu
    refine Triple.bind (R := fun _ => At K (.fetch url)) ?_ fun _ => Triple.pure fun _ h => h
    refine triple_release ?_ ?_
    · rintro _ rfl
      rw [hheld]
      exact List.any_eq_true.mpr ⟨_, List.mem_cons_self, by simp [entry_type]⟩
    · -- the lock is taken and given back in one step
      rintro u rfl
      have hback : At K (.fetch url) { u with held := held } := by
        refine hat.step fun s _ _ hseen => ⟨.go, s, rfl, ?_, hseen⟩
        have hp : s.locks (hash (c_str url)) = .shared [] := by
          rw [hseen.locks]
          exact lock_of_eq_free hfree
        have hnone : s.table.find (entry_type hash) (c_str url) = none := by
          rw [hseen.table]
          exact hfind
        show get_step hash i url s = _
        unfold get_step
        rw [if_neg hurl, hlock s hp, Option.map_some, hnone]
      refine hback.congr rfl ?_
      show List.eraseP _ u.held = held
      rw [hheld, List.eraseP_cons_of_pos (by simp [entry_type])]
  · -- a hit goes on with the lock
    refine Triple.pure ?_
    rintro _ rfl
    refine hu.step (fun s htable hp =>
      ⟨.go, s.relock (hash (c_str url)) (.shared [i]), rfl, ?_, htable, rfl⟩) rfl
    show get_step hash i url s = _
    unfold get_step
    rw [if_neg hurl, hlock s hp, Option.map_some, htable, hfind]

/-- The reading of the clock and of `expiration`. -/
theorem triple_is_expired {url : Bytes} {entry : ℕ} {X : Exit → ClientWorld τ → Prop} :
    Triple (At K (.read_clock url entry))
      (is_expired entry : Prog CppException (ClientWorld τ) Bool)
      (fun b u => if b then At K (.erase url entry) u
        else ∃ t log, At K (.read_json url entry t log) u) X := by
  refine Triple.bind (R := fun t u => ∃ log, At K (.read_expiration url entry t log) u)
    (triple_time fun u hu => ?_) fun t => ?_
  · obtain ⟨s, hreached, hseen⟩ := hu
    have hread : At K (.read_expiration url entry (now u) s.puts) u :=
      ⟨s, K.step (c := .clock (now u)) hreached rfl rfl, hseen⟩
    exact ⟨s.puts, hread.congr rfl rfl⟩
  refine Triple.bind (R := fun e u => ∃ log, At K
    (if e.expiration ≤ t then .erase url entry else .read_json url entry t log) u)
    (triple_deref ?_) fun e => Triple.pure ?_
  · -- the entry is where the lookup has seen it: the lock is held
    rintro u ⟨log, hu⟩
    obtain ⟨s, -, hrelies, hseen⟩ := hu.relies
    obtain ⟨item, hitem, rfl⟩ := (Relies.reading hrelies rfl).found
    have hderef := Table.deref_of_find _ hitem
    rw [hseen.table] at hderef
    refine ⟨item, hderef, log, hu.go .go rfl fun s hseen => ?_⟩
    rw [← hseen.table] at hderef
    show (s.table.deref item.address).map _ = _
    rw [hderef, Option.map_some]
  · rintro u ⟨log, hu⟩
    by_cases he : e.expiration ≤ t
    · rw [if_pos he] at hu
      rw [if_pos (by simpa using he)]
      exact hu
    · rw [if_neg he] at hu
      rw [if_neg (by simpa using he)]
      exact ⟨t, log, hu⟩

/-- The deletion. Its lock is the one that `i` holds, so it fails or waits. -/
theorem triple_erase {url : Bytes} {entry : ℕ} {Q : Bool → ClientWorld τ → Prop} :
    Triple (At K (.erase url entry))
      (erase (entry_type hash) (c_str url) : Prog CppException (ClientWorld τ) Bool) Q
      (Unwinding K url entry) := by
  have hjump : ∀ x (u : ClientWorld τ), At K (.erase url entry) u →
      Unwinding K url entry x u := by
    intro x u hu
    cases x with
    | throw => exact At.go .fail hu rfl fun _ _ => rfl
    | jump => exact At.go .fail_locked hu rfl fun _ _ => rfl
    | stop => trivial
  refine triple_pg_try (Y := fun x u => x = .jump ∧ At K (.erase url entry) u ∨ x = .stop) ?_
    ?_ ?_ fun _ _ => trivial
  · refine Triple.bind (R := fun _ _ => False) (triple_request ?_ (fun _ h => .inl ⟨rfl, h⟩)
      (fun _ h => h.elim) fun _ => .inr rfl) fun _ => fun _ h => h.elim
    refine Triple.get_bind fun u hu => Triple.ite (fun _ => Triple.halt fun _ _ => .inr rfl) ?_
    intro hany
    -- the lookup holds a shared lock on the same partition
    obtain ⟨s, -, hrelies, hseen⟩ := hu.relies
    have hlock := (Relies.reading hrelies rfl).lock
    exact absurd (any_of_holds hseen.locks (.inl hlock)) hany
  · rintro u (⟨h, -⟩ | h)
    · exact absurd h nofun
    · exact absurd h nofun
  · rintro x u (⟨-, h⟩ | h)
    · exact hjump x u h
    · exact absurd h nofun

/-- The scope of the `entry_ref` in `get`. -/
theorem triple_get_entry {url : Bytes} {entry : ℕ} :
    Triple (At K (.read_clock url entry))
      (get_entry hash url entry : Prog CppException (ClientWorld τ) (Option Bytes))
      (fun r u => ∃ json t log, r = some json ∧
        At K (.release_get url entry (.hit json t log)) u)
      (Unwinding K url entry) := by
  refine Triple.bind triple_is_expired fun b => Triple.ite (fun hb => ?_) fun hb => ?_
  · refine Triple.bind (R := fun _ _ => False) ?_ fun _ => fun _ h => h.elim
    exact triple_erase.consequence (fun u hu => by rwa [if_pos hb] at hu) (fun _ _ h => h)
      fun _ _ h => h
  · refine Triple.bind (R := fun _ u => ∃ t log, At K (.read_json url entry t log) u)
      (Triple.alloc (fun u hu => by rwa [if_neg hb] at hu) fun u hu => ?_) fun _ => ?_
    · rw [if_neg hb] at hu
      obtain ⟨t, log, hu⟩ := hu
      exact At.go .fail hu rfl fun _ _ => rfl
    -- the text is read from the entry that the lookup has seen
    refine Triple.bind (R := fun e u => ∃ t log,
      At K (.release_get url entry (.hit (c_str e.json_response) t log)) u)
      (triple_deref ?_) fun e => Triple.pure ?_
    · rintro u ⟨t, log, hu⟩
      obtain ⟨s, -, hrelies, hseen⟩ := hu.relies
      obtain ⟨item, hitem, rfl⟩ := (Relies.reading hrelies rfl).found
      have hderef := Table.deref_of_find _ hitem
      rw [hseen.table] at hderef
      refine ⟨item, hderef, t, log, hu.go .go rfl fun s hseen => ?_⟩
      rw [← hseen.table] at hderef
      show (s.table.deref item.address).map _ = _
      rw [hderef, Option.map_some]
    · rintro u ⟨t, log, hu⟩
      exact ⟨_, t, log, rfl, hu⟩

/-- The destructor in `get`. -/
theorem triple_release_get {url : Bytes} {entry : ℕ} {got : Got}
    {X : Exit → ClientWorld τ → Prop} :
    Triple (At K (.release_get url entry got))
      (entry_ref_destructor entry : Prog CppException (ClientWorld τ) Unit)
      (fun _ => At K (got.after url)) X := by
  refine triple_entry_ref_destructor (fun s hrelies => ?_) fun s s₁ hunlock => ⟨s₁, ?_, rfl, rfl⟩
  · have hreading := Relies.reading hrelies rfl
    obtain ⟨item, hitem, rfl⟩ := hreading.found
    refine ⟨item, Table.deref_of_find _ hitem, .inl ?_⟩
    rw [Table.partition_of_find _ hitem]
    exact hreading.lock
  · show (s.unlock i entry).map _ = _
    rw [hunlock, Option.map_some]

/-- `http_cache::get`. -/
theorem triple_get (url : Bytes) :
    Triple (At K (.get url))
      (HttpCache.get hash url : Prog CppException (ClientWorld τ) (Option Bytes))
      (fun r u => r.elim (At K (.fetch url) u) fun json =>
        ∃ t log, At K (.parse url json t log) u)
      (Left K) := by
  refine triple_pg_try (Y := Left K) ?_ (fun _ h => h) (fun _ _ h _ => h nofun) fun _ h => h
  refine Triple.get_bind fun u hu => Triple.ite (fun _ => Triple.pure ?_) fun _ => ?_
  · rintro _ rfl
    exact At.go .detached hu rfl fun _ _ => rfl
  refine Triple.ite (fun hlong => ?_) fun hurl => ?_
  · refine Triple.bind (R := fun _ => At K (.get url)) ?_ fun _ => Triple.pure fun v hv => ?_
    · exact (triple_elog fun _ => rfl).consequence (fun _ h => h ▸ hu) (fun _ _ h => h)
        fun _ _ h => h
    · refine At.go .go hv rfl fun s _ => ?_
      show get_step hash i url s = _
      unfold get_step
      rw [if_pos hlong]
  -- a call that asks the table: the lookup, and the `entry_ref` if it has found something
  refine Triple.bind ((triple_find hurl).consequence (fun _ h => h ▸ hu) (fun _ _ h => h)
    fun _ _ h => h) fun entry_ref => ?_
  rcases entry_ref with _ | entry
  · exact Triple.pure fun _ h => h
  · refine Triple.with_destructor triple_get_entry (fun r => ?_) ?_ (fun _ h _ => h) fun _ _ => nofun
    · rintro m ⟨json, t, log, rfl, h⟩
      exact (triple_release_get.consequence (fun _ h => h) (fun _ _ h => ⟨t, log, h⟩)
        fun _ _ h => h) m h
    · exact triple_release_get.consequence (fun _ h => h) (fun _ _ h _ => h) fun _ _ h => h

/-! ## `put` -/

/-- The response that `put` will be given fits. -/
def Fits (doc : Document) : Prop :=
  ¬ (max_url_len < doc.url.length ∨ max_json_len < doc.body.length ∨ doc.max_age ≤ 0)

/-- The lookup of `put`. -/
theorem triple_find_or_insert {doc : Document} (hfits : Fits doc) :
    Triple (At K (.put doc))
      (find_or_insert (entry_type hash) (c_str doc.url) : Prog CppException (ClientWorld τ) (ℕ × Bool))
      (fun r => At K (.write .copy_url doc r.1)) (Left K) := by
  have hlock : ∀ s : Shared ι, s.locks (hash doc.key) = .shared [] →
      s.lock_exclusive i (hash doc.key) = some (s.relock (hash doc.key) (.exclusive i)) := by
    intro s hp
    unfold Shared.lock_exclusive
    rw [hp]
  refine triple_pg_try (Y := Left K) ?_ (fun _ h => h) (fun _ _ h _ => h nofun) fun _ h => h
  refine Triple.bind (R := fun r => At K (.write .copy_url doc r.1)) ?_ fun r =>
    Triple.pure fun _ h => h
  refine Triple.bind (triple_request (triple_acquire fun _ => nofun)
    (fun _ h _ => h.go .fail rfl fun _ _ => rfl) ?_ fun _ => nofun) fun _ => Triple.get_bind ?_
  · -- the request fails with its lock taken
    intro u hu _
    refine hu.step (fun s htable hp =>
      ⟨.fail_locked, s.relock (hash doc.key) (.exclusive i), rfl, ?_, htable, rfl⟩) rfl
    show (s.lock_exclusive i (hash doc.key)).map _ = _
    rw [hlock s hp, Option.map_some]
  intro u hu
  rcases hfind : u.table.find (entry_type hash) (c_str doc.url) with _ | item
  · -- no entry: the new one is blank but for its key
    refine Triple.modify_bind (R := At K (.write .copy_url doc u.table.fresh)) ?_
      (Triple.pure fun _ h => h)
    rintro v rfl
    refine hu.step (fun s htable hp => ⟨.memory v.memory, { s.relock (hash doc.key) (.exclusive i) with
      table := v.table.insert (entry_type hash) doc.key v.memory }, rfl, ?_, rfl, rfl⟩) rfl
    have hnone : s.table.find (entry_type hash) doc.key = none := by rw [htable]; exact hfind
    show put_step hash i doc v.memory s = _
    unfold put_step
    rw [if_neg hfits, hlock s hp, Option.map_some, hnone, htable]
  · refine Triple.pure ?_
    rintro v rfl
    refine hu.step (fun s htable hp =>
      ⟨.memory v.memory, s.relock (hash doc.key) (.exclusive i), rfl, ?_, htable, rfl⟩) rfl
    have hsome : s.table.find (entry_type hash) doc.key = some item := by rw [htable]; exact hfind
    show put_step hash i doc v.memory s = _
    unfold put_step
    rw [if_neg hfits, hlock s hp, Option.map_some, hsome]

/-- The writes of `put`. -/
theorem triple_put_entry {doc : Document} {entry : ℕ} {X : Exit → ClientWorld τ → Prop} :
    Triple (At K (.write .copy_url doc entry))
      (put_entry doc.url doc.body doc.max_age entry : Prog CppException (ClientWorld τ) Bool)
      (fun _ u => ∃ t, At K (.release_put ⟨doc, t⟩ entry) u) X := by
  have hassign : ∀ stage : Stage, Triple (At K (.write stage doc entry))
      (assign entry (stage.apply doc) : Prog CppException (ClientWorld τ) Unit)
      (fun _ => At K (stage.after doc entry)) X := by
    refine fun stage => Triple.modify fun u hu => hu.step fun s _ _ hseen => ?_
    refine ⟨.go, _, rfl, rfl, ?_, hseen.locks, hseen.distinct⟩
    rw [hseen.table]
  -- the statements of `put` in their order
  refine Triple.bind (hassign .copy_url) fun _ => Triple.bind (hassign .end_url) fun _ => ?_
  refine Triple.bind (hassign .copy_json) fun _ => Triple.bind (hassign .end_json) fun _ => ?_
  refine Triple.bind (R := fun t => At K (.set_expiration ⟨doc, t⟩ entry))
    (triple_time fun u hu => ?_) fun t => ?_
  · exact At.congr (At.go (.clock (now u)) hu rfl fun _ _ => rfl) rfl rfl
  refine Triple.bind (R := fun _ => At K (.release_put ⟨doc, t⟩ entry))
    (Triple.modify fun u hu => ?_) fun _ => Triple.pure fun _ h => ⟨t, h⟩
  refine hu.step fun s _ _ hseen => ⟨.go, _, rfl, rfl, ?_, hseen.locks, hseen.distinct⟩
  rw [hseen.table]

/-- The destructor in `put`. -/
theorem triple_release_put {put : Put} {entry : ℕ} {X : Exit → ClientWorld τ → Prop} :
    Triple (At K (.release_put put entry))
      (entry_ref_destructor entry : Prog CppException (ClientWorld τ) Unit)
      (fun _ => At K (.finish put.url put.value)) X := by
  refine triple_entry_ref_destructor (fun s hrelies => ?_)
    fun s s₁ hunlock => ⟨{ s₁ with puts := put :: s₁.puts }, ?_, rfl, rfl⟩
  · have hwriting : Writing hash i s put.toDocument entry (Stored put) := hrelies.1
    obtain ⟨item, hitem, rfl, -⟩ := hwriting.found
    refine ⟨item, Table.deref_of_find _ hitem, .inr ?_⟩
    rw [Table.partition_of_find _ hitem]
    exact hwriting.lock
  · show (s.unlock i entry).map _ = _
    rw [hunlock, Option.map_some]

/-- `http_cache::put`. -/
theorem triple_put (doc : Document) :
    Triple (At K (.put doc))
      (HttpCache.put hash doc.url doc.body doc.max_age : Prog CppException (ClientWorld τ) Bool)
      (fun _ => At K (.finish doc.url doc.value)) (Left K) := by
  -- the three ways to refuse
  have hrefuse : ¬ Fits doc → ∀ u : ClientWorld τ, At K (.put doc) u →
      At K (.finish doc.url doc.value) u := by
    refine fun hfits u hu => At.go (.memory u.memory) hu rfl fun s _ => ?_
    show put_step hash i doc u.memory s = _
    unfold put_step
    rw [if_pos (not_not.mp hfits)]
  have hwarn : ∀ (u : ClientWorld τ) (msg : Bytes), At K (.put doc) u → ¬ Fits doc →
      Triple (fun v => v = u)
        (elog .WARNING msg >>= fun _ => pure false : Prog CppException (ClientWorld τ) Bool)
        (fun _ => At K (.finish doc.url doc.value)) (Left K) := by
    intro u msg hu hfits
    refine Triple.bind (R := fun _ => At K (.put doc)) ?_ fun _ => Triple.pure (hrefuse hfits)
    exact (triple_elog fun _ => rfl).consequence (fun _ h => h ▸ hu) (fun _ _ h => h)
      fun _ _ h => h
  refine triple_pg_try (Y := Left K) ?_ (fun _ h => h) (fun _ _ h _ => h nofun) fun _ h => h
  refine Triple.get_bind fun u hu => Triple.ite (fun _ => Triple.pure ?_) fun _ => ?_
  · rintro _ rfl
    exact At.go .detached hu rfl fun _ _ => rfl
  refine Triple.ite (fun hurl => hwarn u _ hu fun h => h (.inl hurl)) fun hurl => ?_
  refine Triple.ite (fun hjson => hwarn u _ hu fun h => h (.inr (.inl hjson))) fun hjson => ?_
  refine Triple.ite (fun hage => Triple.pure ?_) fun hage => ?_
  · rintro _ rfl
    exact hrefuse (fun h => h (.inr (.inr hage))) _ hu
  have hfits : Fits doc := by
    rintro (h | h | h)
    · exact hurl h
    · exact hjson h
    · exact hage h
  refine Triple.bind ((triple_find_or_insert hfits).consequence (fun _ h => h ▸ hu)
    (fun _ _ h => h) fun _ _ h => h) fun r => ?_
  refine Triple.with_destructor (Y := fun _ _ => False) triple_put_entry (fun _ => ?_)
    (fun _ h => h.elim) (fun _ h => h.elim) fun _ h => h.elim
  rintro m ⟨t, h⟩
  exact triple_release_put m h

/-! ## `get_json` -/

section Fetched

variable {url : Bytes} {response : Response} {v : Value}

/-- A response that is put. -/
theorem fetched_of_aged {max_age : ℤ} (hok : response.error = none ∧ response.response_code = 200)
    (hparse : parse response.body.flatten = .value v)
    (hage : response.headers.foldl header_callback none = some max_age) (hpos : 0 < max_age) :
    fetched url response = .put ⟨url, response, v, max_age, hok, hparse, hage⟩ := by
  unfold fetched
  rw [dif_pos hok]
  split
  · rename_i w hw
    obtain rfl : v = w := Picojson.ParseResult.value.inj (hparse.symm.trans hw)
    split
    · rename_i max_age' hage'
      obtain rfl := Option.some.inj (hage.symm.trans hage')
      rw [if_pos hpos]
    · rename_i hnone
      exact absurd (hage.symm.trans hnone) (Option.some_ne_none max_age)
  · rename_i hnot
    exact absurd hparse (hnot v)

/-- A response that is used and not put. -/
theorem fetched_of_not_aged (hok : response.error = none ∧ response.response_code = 200)
    (hparse : parse response.body.flatten = .value v)
    (hage : ∀ max_age, response.headers.foldl header_callback none = some max_age →
      ¬ 0 < max_age) : fetched url response = .finish url v := by
  unfold fetched
  rw [dif_pos hok]
  split
  · rename_i w hw
    obtain rfl : v = w := Picojson.ParseResult.value.inj (hparse.symm.trans hw)
    split
    · rename_i max_age hmax
      rw [if_neg (hage max_age hmax)]
    · rfl
  · rename_i hnot
    exact absurd hparse (hnot v)

/-- A response that is an error. -/
theorem fetched_of_failed (h : response.error = none ∧ response.response_code = 200 →
    ∀ w, parse response.body.flatten ≠ .value w) : fetched url response = .failed := by
  unfold fetched
  split
  · rename_i hok
    split
    · rename_i w hw
      exact absurd hw (h hok w)
    · rfl
  · rfl

end Fetched

/-- The caching decision. -/
theorem triple_store {url : Bytes} {response : Response} {v : Value}
    (hok : response.error = none ∧ response.response_code = 200)
    (hparse : parse response.body.flatten = .value v) :
    Triple (fun u : ClientWorld τ => At K (fetched url response) u ∧
        u.rest.rest.last_max_age_ = response.headers.foldl header_callback none)
      (store hash url response.body.flatten) (fun _ => At K (.finish url v)) (Left K) := by
  have hlog : ∀ (P : ClientWorld τ → Prop) (level : Level) (msg : Bytes),
      (∀ u, P u → At K (.finish url v) u) →
      Triple P (elog level msg : Prog CppException (ClientWorld τ) Unit)
        (fun _ => At K (.finish url v)) (Left K) := fun P level msg hP =>
    (triple_elog fun _ => rfl).consequence hP (fun _ _ h => h) fun _ _ h => h
  refine triple_pg_try (Y := Left K) ?_ (fun _ h => h) (fun _ _ h _ => h nofun) fun _ h => h
  refine Triple.get_bind ?_
  rintro u ⟨hu, hlast⟩
  rw [hlast]
  -- `fetched` says where the steps go on: behind the put, or behind the decision not to put
  rcases hage : response.headers.foldl header_callback none with _ | max_age
  · rw [fetched_of_not_aged hok hparse (by rw [hage]; exact nofun)] at hu
    exact hlog _ _ _ fun _ h => h ▸ hu
  refine Triple.ite (fun hpos => ?_) fun hpos => ?_
  · rw [fetched_of_aged hok hparse hage hpos] at hu
    let doc : Document := ⟨url, response, v, max_age, hok, hparse, hage⟩
    have hput : Triple (fun w : ClientWorld τ => w = u)
        (HttpCache.put hash url response.body.flatten max_age)
        (fun _ => At K (.finish url v)) (Left K) :=
      (triple_put doc).consequence (fun _ h => h ▸ hu) (fun _ _ h => h) fun _ _ h => h
    refine Triple.bind hput fun cached => ?_
    exact Triple.ite (fun _ => hlog _ _ _ fun _ h => h) fun _ => Triple.pure fun _ h => h
  · rw [fetched_of_not_aged hok hparse fun max_age' h => by
      obtain rfl := Option.some.inj (hage.symm.trans h)
      exact hpos] at hu
    exact hlog _ _ _ fun _ h => h ▸ hu

/-- The transfer. -/
theorem triple_transfer {url : Bytes} {X : Exit → ClientWorld τ → Prop} :
    Triple (At K (.fetch url)) (transfer : Prog CppException (ClientWorld τ) Response)
      (fun response u => At K (fetched url response) u ∧
        u.rest.rest.last_max_age_ = response.headers.foldl header_callback none) X := by
  refine Triple.modify_bind (R := fun u => At K (.fetch url) u ∧
    u.rest.rest.last_max_age_ = none) (fun u hu => ⟨hu.congr rfl rfl, rfl⟩) ?_
  refine Triple.get_bind ?_
  rintro u ⟨hu, hlast⟩
  refine Triple.modify_bind (R := fun w => At K
    (fetched url (u.rest.rest.responses u.rest.rest.transfers)) w ∧ w.rest.rest.last_max_age_ =
      (u.rest.rest.responses u.rest.rest.transfers).headers.foldl header_callback none) ?_
    (Triple.pure fun _ h => h)
  rintro w rfl
  refine ⟨At.congr (At.go (.transfer _) hu rfl fun _ _ => rfl) rfl rfl, ?_⟩
  show List.foldl _ w.rest.rest.last_max_age_ _ = _
  rw [hlast]

/-- The parsing of a body. -/
theorem triple_parse_json {json : Bytes} {fail : Bytes → CppException} {P : ClientWorld τ → Prop}
    {Q : Value → ClientWorld τ → Prop} {X : Exit → ClientWorld τ → Prop}
    (hvalue : ∀ v u, parse json = .value v → P u → Q v u)
    (herror : (∀ v, parse json ≠ .value v) → ∀ u, P u → X .throw u) :
    Triple P (of_except (parse_json json fail)) Q X := by
  unfold parse_json
  rcases hparse : parse json with v | e | _
  · exact Triple.pure fun u => hvalue v u hparse
  · exact Triple.throw (herror fun v => by rw [hparse]; exact nofun)
  · exact Triple.throw (herror fun v => by rw [hparse]; exact nofun)

/-- `get_json` from the cache miss on. -/
theorem triple_fetch (url : Bytes) :
    Triple (At K (.fetch url)) (fetch hash url : Prog CppException (ClientWorld τ) Value)
      (fun v => At K (.returned url v none)) (Left K) := by
  refine Triple.bind (triple_pg_try_elog fun _ => rfl) fun _ => ?_
  refine Triple.bind (R := fun _ => At K (.fetch url))
    (Triple.alloc (fun _ h => h) fun _ h _ => h.go .fail rfl fun _ _ => rfl) fun _ => ?_
  refine Triple.bind triple_transfer fun response => ?_
  -- an exception after the transfer is one that the steps have seen coming
  have hthrow : ∀ (h : response.error = none ∧ response.response_code = 200 →
      ∀ w, parse response.body.flatten ≠ .value w) (u : ClientWorld τ),
      At K (fetched url response) u ∧
        u.rest.rest.last_max_age_ = response.headers.foldl header_callback none →
      Left K .throw u := by
    intro h u hu _
    rw [← fetched_of_failed h]
    exact hu.1
  rcases herror : response.error with _ | text
  · refine Triple.ite (fun hcode => Triple.throw (hthrow fun hok => absurd hok.2 hcode))
      fun hcode => ?_
    have hok : response.error = none ∧ response.response_code = 200 := ⟨herror, not_not.mp hcode⟩
    refine Triple.bind (R := fun v u => parse response.body.flatten = .value v ∧
      At K (fetched url response) u ∧
        u.rest.rest.last_max_age_ = response.headers.foldl header_callback none)
      (triple_parse_json (fun _ _ hparse hu => ⟨hparse, hu⟩) fun hnot => hthrow fun _ => hnot) fun v => ?_
    rintro m ⟨hparse, hm⟩
    refine Triple.bind (triple_store hok hparse) (fun _ => Triple.pure fun u hu => ?_) m hm
    exact At.go .go hu rfl fun _ _ => rfl
  · exact Triple.throw (hthrow fun hok => absurd (herror.symm.trans hok.1) nofun)

/-- `get_json` on a cache hit. -/
theorem triple_from_cache {url json : Bytes} {t : ℤ} {log : List Put} :
    Triple (At K (.parse url json t log))
      (from_cache hash url json : Prog CppException (ClientWorld τ) Value)
      (fun v u => ∃ hit, At K (.returned url v hit) u) (Left K) := by
  have hgo : ∀ u : ClientWorld τ, At K (.parse url json t log) u →
      At K (parsed url json t log) u := fun u hu => hu.go .go rfl fun _ _ => rfl
  unfold parsed at hgo
  unfold from_cache
  rcases hparse : parse json with v | e | _ <;> simp only [hparse] at hgo
  · refine Triple.bind (triple_pg_try_elog fun _ => rfl) fun _ => Triple.pure fun u hu => ?_
    exact ⟨some (t, log), hgo u hu⟩
  · refine Triple.bind (triple_pg_try_elog fun _ => rfl) fun _ => ?_
    exact (triple_fetch url).consequence hgo (fun _ _ h => ⟨none, h⟩) fun _ _ h => h
  · exact Triple.throw fun u hu _ => hgo u hu

/-- **The function is a schedule.** Where a backend has called, `get_json` takes the steps to
where that backend has returned with the same value, or to where it has failed, unless the
process waits or exits. -/
theorem triple_get_json (url : Bytes) :
    Triple (At K (.get url)) (get_json hash url : Prog CppException (ClientWorld τ) Value)
      (fun v u => ∃ hit, At K (.returned url v hit) u) (Left K) := by
  refine Triple.bind (triple_get url) fun cached_json => ?_
  rcases cached_json with _ | json
  · exact (triple_fetch url).consequence (fun _ h => h) (fun _ _ h => ⟨none, h⟩) fun _ _ h => h
  · rintro m ⟨t, log, hm⟩
    exact triple_from_cache m hm

/-! ## One process over the cache -/

/-- The runs of the cache. -/
def cache_course (hash : Bytes → ℕ) (i : ι) : Course hash i where
  Reached pc s := Reaches (backend hash) init i pc fun s' => s' = s
  relies := by
    rintro pc s ⟨g, hsteps, rfl, rfl⟩
    have hg := outline.steps holds_init hsteps
    exact ⟨hg.1, hg.2 i⟩
  step hreached _ hback :=
    hreached.step outline holds_init fun _ _ _ hs => ⟨_, _, hs ▸ hback, rfl⟩

/-- A backend that is outside may call. -/
theorem At.call {pc : Pc} {u : ClientWorld τ} (h : At (cache_course hash i) pc u)
    (hpc : pc.outside = true) (url : Bytes) : At (cache_course hash i) (.get url) u := by
  obtain ⟨s, hreached, hseen⟩ := h
  have hat : Reaches (backend hash) init i pc fun s' => s' = s := hreached
  have hcalled : Reaches (backend hash) init i (.get url) fun s' => s' = s := by
    refine hat.step outline holds_init fun s' _ _ hs => ⟨.call url, s', ?_, hs⟩
    cases pc with
    | idle | returned | failed => rfl
    | _ => exact absurd hpc nofun
  exact ⟨s, hcalled, hseen⟩

/-- Before the first call, with nothing in the table. -/
theorem at_init (htable : u.table = Table.empty) (hheld : u.held = []) :
    At (cache_course hash i) .idle u := by
  refine ⟨init.shared, ⟨init, .refl, rfl, rfl⟩, htable.symm, ?_, ?_⟩
  · rw [hheld]
    rfl
  · rw [hheld]
    exact List.nodup_nil

/-- **What `get_json` returns.** It is the value of a transfer of its own, or the value that
the most recent completed put under its URL had parsed, read before that put expired. -/
theorem get_json_transparent {url : Bytes} {m m' : Machine CppException (ClientWorld τ)}
    {v : Value} (hpc : pc.outside = true) (hm : At (cache_course hash i) pc m.user)
    (h : get_json hash url m = (.ret v, m')) :
    ∃ hit, At (cache_course hash i) (.returned url v hit) m'.user ∧ ∀ t log, hit = some (t, log) →
      ∃ put, latest log (c_str url) = some put ∧ v = put.value ∧ t < put.clock + put.max_age := by
  obtain ⟨hit, hat⟩ := Triple.of_eq_ret (triple_get_json url) (hm.call hpc url) h
  obtain ⟨s, -, hrelies, -⟩ := hat.relies
  exact ⟨hit, hat, fun t log heq => (hrelies.1 t log heq).2⟩

end Steps

end OidcValidator.OneBackend
