/-
`LoginProgress.lean` -- how far logins get.

A login calls `get_json` twice, and judges the token when it has both documents. Each of its
steps brings it nearer to its verdict, so it ends unless it waits, and it waits only in
`get_json`. What `CacheProgress.lean` says of the cache therefore holds of the logins: as long
as no failure leaves a lock behind, nothing but an expired entry keeps a login from its end.
-/
import OidcValidator.CacheProgress
import OidcValidator.Logins
import OidcValidator.Spelling

set_option autoImplicit false

namespace OidcValidator.LoginProgress

open OidcValidator.ByteString OidcValidator.Control OidcValidator.PgUtils
open OidcValidator.Interleaving OidcValidator.Progress OidcValidator.SharedCache
open OidcValidator.CacheSteps OidcValidator.CacheProgress OidcValidator.Validator
open OidcValidator.Logins
open OidcValidator.Picojson (Value)
open OidcValidator.Jwt (OpenSSL)

variable {ι : Type}

/-! ## What a login has left -/

/-- Outside `validate_token`. -/
def ended : Logins.Stage → Bool
  | .out _ => true
  | _ => false

/-- The turns that a login may still take, on the longest way: two calls of `get_json`, the step
between them and the verdict. -/
def turns_left : Logins.Stage × Pc → ℕ
  | (.out _, pc) => left pc
  | (.discovery _, pc) => left pc + 13
  | (.keys _, pc) => left pc + 1

theorem turns_left_le (l : Logins.Stage × Pc) : turns_left l ≤ 24 := by
  obtain ⟨stage, pc⟩ := l
  have hle := left_le pc
  cases stage <;> simp only [turns_left] <;> omega

/-- A turn inside a login. -/
def Underway (turn : Turn) (l : Logins.Stage × Pc) : Prop :=
  (∃ c, turn = .inside c ∧ within_call c = true) ∨ ended l.1 = false

/-- A turn with which a login goes on: what `get_json` goes on with, the second call, the
judgement, and the end of a login whose call has failed. -/
inductive Goes : Turn → Logins.Stage × Pc → Prop
  | inside {c : Choice} {l : Logins.Stage × Pc} (hc : onward c = true) : Goes (.inside c) l
  | go_on {token url : Bytes} {value : Value} {hit : Option (ℤ × List Put)} :
      Goes .go_on (.discovery token, .returned url value hit)
  | judge {now : ℤ} {m : Proc} {token url : Bytes} {value : Value} {hit : Option (ℤ × List Put)} :
      Goes (.judge now m) (.keys token, .returned url value hit)
  | give_up {stage : Logins.Stage} {pc : Pc} (hended : ended stage = false)
      (hpc : pc.outside = true) (hfailed : ∀ url value hit, pc ≠ .returned url value hit) :
      Goes .give_up (stage, pc)

theorem Goes.underway {turn : Turn} {l : Logins.Stage × Pc} (h : Goes turn l) :
    Underway turn l := by
  cases h with
  | inside hc => exact .inl ⟨_, rfl, inner_of_onward _ hc⟩
  | go_on => exact .inr rfl
  | judge => exact .inr rfl
  | give_up hended => exact .inr hended

/-- Going on leaves no lock behind. -/
theorem Goes.unlocked {turn : Turn} {l : Logins.Stage × Pc} (h : Goes turn l) :
    turn ≠ .inside .fail_locked := by
  rintro rfl
  cases h with
  | inside hc => cases hc

variable [DecidableEq ι] {ossl : OpenSSL} {hash : Bytes → ℕ} {cfg : Validator.Config}

/-- The assertions of the cache, of the logins. -/
theorem outline_login : Outline (login (ι := ι) ossl hash cfg) (Sound hash)
    (fun i s l => Relies hash i s l.2) where
  own hs hrelies h := by
    obtain ⟨c, -, hback, -⟩ | ⟨rfl, hpc, -⟩ := cache_of_login (move_of_login h)
    · exact outline.own hs hrelies hback
    · exact ⟨hs, hpc ▸ hrelies⟩
  others hij hs hrelies hk h := by
    obtain ⟨c, -, hback, -⟩ | ⟨rfl, -, -⟩ := cache_of_login (move_of_login h)
    · exact outline.others hij hs hrelies hk hback
    · exact hk

theorem descends_login : Descends (login (ι := ι) ossl hash cfg) (Sound hash)
    (fun i s l => Relies hash i s l.2) Underway turns_left := by
  intro i turn s l s' l' hs hrelies hunderway h
  cases move_of_login h with
  | start =>
    obtain ⟨c, heq, -⟩ | hended := hunderway
    · cases heq
    · cases hended
  | @inside c stage pc pc' _ hc hback =>
    have hlt : left pc' < left pc := left_of_move (move_of_step hs hrelies hback) hc
    cases stage <;> simp only [turns_left] <;> omega
  | keys => simp [turns_left, left]
  | refuse => simp [turns_left, left]
  | judge => simp [turns_left, left]
  | @give_up stage token pc =>
    obtain ⟨c, heq, -⟩ | hended := hunderway
    · cases heq
    · cases stage with
      | out _ => cases hended
      | discovery _ => simp [turns_left]
      | keys _ => simp [turns_left]
  | @exit stage pc pc' _ hback =>
    obtain ⟨c, heq, -⟩ | hended := hunderway
    · cases heq
    · obtain ⟨-, heq⟩ := Option.ite_none_right_eq_some.mp hback
      obtain ⟨-, rfl⟩ := Prod.mk.inj (Option.some.inj heq)
      cases stage with
      | out _ => cases hended
      | discovery _ => simp [turns_left, left]
      | keys _ => simp [turns_left, left]

/-! ## What the judgement needs -/

/-- Where nothing fails, every token is judged. -/
theorem exists_judge (ossl : OpenSSL) (cfg : Validator.Config) (now : ℤ) (token : Bytes)
    (value : Value) {m : Proc} (hm : Quiet m) (hres : result m.user = ⟨none, false⟩) :
    ∃ answer m', judge ossl cfg now token value m = (.ret answer, m') := by
  have hret : ∀ {r : Outcome CppException Bool × Proc} {b : Bool},
      (Spelling.observe r).1 = .ret b → ∃ answer m', r = (.ret answer, m') :=
    fun {r b} h => ⟨b, r.2, Prod.ext h rfl⟩
  unfold judge
  rw [Spelling.accept_token_conclude]
  rcases ht : Spelling.read_token token with e | t
  · obtain ⟨answer, m', hrun, -⟩ := Spelling.returns_report e m hm
    refine ⟨answer, m', ?_⟩
    unfold Spelling.conclude
    rw [ht]
    exact hrun
  · have hconclude : Spelling.conclude ossl cfg now token (some value)
        = Spelling.decide_on cfg t.1 (Spelling.verify_token ossl cfg.oauth_issuer now value t) := by
      unfold Spelling.conclude
      rw [ht]
      rfl
    rw [hconclude]
    rcases Spelling.verify_token ossl cfg.oauth_issuer now value t with e | ⟨⟩
    · exact hret (congrArg Prod.fst (Spelling.observe_decide_on_error cfg t.1 e hm hres))
    · have haccepted := Spelling.observe_decide_on_ok cfg t.1 hm hres
      obtain ⟨b, hb⟩ : ∃ b, (Spelling.accepted cfg t.1).1 = .ret b := by
        unfold Spelling.accepted
        split <;> exact ⟨_, rfl⟩
      exact hret ((congrArg Prod.fst haccepted).trans hb)

/-! ## Where logins wait -/

variable {g g' : Config ι (Shared ι) (Logins.Stage × Pc)}

/-- A login that has come to its end, or waits in `get_json`. -/
def Stopped (hash : Bytes → ℕ) (g : Config ι (Shared ι) (Logins.Stage × Pc)) (i : ι) : Prop :=
  (ended (g.locals i).1 = true ∨ (g.locals i).2.outside = false) ∧
    Waits hash (inside g) (g.locals i).2

/-- What holds as long as no failure leaves a lock behind. -/
def Orderly (hash : Bytes → ℕ) (g : Config ι (Shared ι) (Logins.Stage × Pc)) : Prop :=
  Holds (Sound hash) (Relies hash) (inside g) ∧ Tidy hash (inside g)

theorem Orderly.step {i : ι} {turn : Turn} (h : Orderly hash g)
    (hturn : turn ≠ .inside .fail_locked)
    (hstep : Interleaving.step (login ossl hash cfg) i turn g = some g') : Orderly hash g' := by
  obtain ⟨s', l', hlogin, rfl⟩ := step_eq_some.mp hstep
  unfold Orderly
  rw [inside_update]
  obtain ⟨c, hlocked, hback, -⟩ | ⟨rfl, hpc, -⟩ := cache_of_login (move_of_login hlogin)
  · have hc : c ≠ .fail_locked := fun heq => hturn (hlocked heq)
    have hinside : Interleaving.step (backend hash) i c (inside g) =
        some ⟨s', Function.update (inside g).locals i l'.2⟩ :=
      step_eq_some.mpr ⟨s', l'.2, hback, rfl⟩
    exact ⟨outline.step h.1 ⟨i, c, hinside⟩, h.2.step h.1 hc hinside⟩
  · have hself : Function.update (inside g).locals i (g.locals i).2 = (inside g).locals :=
      Function.update_eq_self i _
    rw [hpc, hself]
    exact h

theorem orderly_of_run {schedule : List (ι × Turn)} (hg : Orderly hash g)
    (hrun : run (login ossl hash cfg) schedule g = some g')
    (hlocks : Each (login ossl hash cfg) (fun _ turn _ => turn ≠ .inside .fail_locked) schedule g) :
    Orderly hash g' :=
  keeps_run (Q := fun _ turn _ => turn ≠ .inside .fail_locked)
    (fun hg hturn hstep => hg.step hturn hstep) hg hlocks hrun

/-- Where nobody goes on, the cache stands still. -/
theorem standstill_of_stuck (h : Stuck (login ossl hash cfg) Goes g) :
    Standstill hash (inside g) := by
  intro i c hc
  have hnone := Option.map_eq_none_iff.mp (h i (.inside c) (.inside hc))
  simp only [login, inner_of_onward c hc, if_true] at hnone
  exact Option.map_eq_none_iff.mpr (Option.map_eq_none_iff.mp hnone)

theorem stopped_of_stuck (h : Stuck (login ossl hash cfg) Goes g) (hg : Orderly hash g) (i : ι) :
    Stopped hash g i := by
  refine ⟨?_, (standstill_of_stuck h).waits hg.1 hg.2 i⟩
  by_contra hnot
  obtain ⟨hended, hpc⟩ := not_or.mp hnot
  have hstuck : ∀ turn, Goes turn (g.locals i) →
      login ossl hash cfg i turn g.shared (g.locals i) = none :=
    fun turn hgoes => Option.map_eq_none_iff.mp (h i turn hgoes)
  generalize g.locals i = l at hended hpc hstuck
  obtain ⟨stage, pc⟩ := l
  have hended' : ended stage = false := Bool.eq_false_iff.mpr hended
  have hout : pc.outside = true := by simpa using hpc
  -- a call that has not returned has failed
  by_cases hreturned : ∃ url value hit, pc = .returned url value hit
  · obtain ⟨url, value, hit, rfl⟩ := hreturned
    cases stage with
    | out _ => cases hended'
    | discovery token =>
      have hnone := hstuck .go_on .go_on
      simp only [login] at hnone
      rcases huri : jwks_uri value with _ | uri <;> rw [huri] at hnone <;> cases hnone
    | keys token =>
      have hquiet : Quiet judging_machine := fun _ => rfl
      have hresult : result judging_machine.user = ⟨none, false⟩ := rfl
      obtain ⟨answer, m', hjudge⟩ := exists_judge ossl cfg 0 token value hquiet hresult
      have hnone := hstuck (.judge 0 judging_machine) .judge
      simp only [login, hresult, if_true, hjudge, end_login] at hnone
      cases hnone
  · have hnone := hstuck .give_up (.give_up hended' hout fun url value hit heq =>
      hreturned ⟨url, value, hit, heq⟩)
    cases stage with
    | out _ => cases hended'
    | discovery token =>
      simp only [login, hout, if_true] at hnone
      cases hnone
    | keys token =>
      simp only [login, hout, if_true] at hnone
      cases hnone

theorem stuck_of_stopped (hg : Orderly hash g) (h : ∀ i, Stopped hash g i) :
    Stuck (login ossl hash cfg) Goes g := by
  intro i turn hgoes
  refine Option.map_eq_none_iff.mpr ?_
  have hstopped := (h i).1
  have hcache := standstill_of_waits hg.1 (fun j => (h j).2) i
  generalize hl : g.locals i = l at hgoes hstopped
  cases hgoes with
  | @inside c l hc =>
    have hback := Option.map_eq_none_iff.mp (hcache c hc)
    have hlocal : (inside g).locals i = l.2 := congrArg Prod.snd hl
    rw [hlocal] at hback
    simp only [login, inner_of_onward c hc, if_true]
    exact Option.map_eq_none_iff.mpr hback
  | go_on =>
    obtain hended | houtside := hstopped
    · cases hended
    · cases houtside
  | judge =>
    obtain hended | houtside := hstopped
    · cases hended
    · cases houtside
  | give_up hended hpc =>
    obtain hended' | houtside := hstopped
    · exact absurd (hended.symm.trans hended') Bool.false_ne_true
    · exact absurd (hpc.symm.trans houtside) (Ne.symm Bool.false_ne_true)

/-- **Only an expired entry stops a login.** As long as no failure leaves a lock behind: a call of
`validate_token` takes at most 24 turns, however the others move in between; nobody can go on
exactly if every login has ended or waits in `get_json`, for an entry that has expired; and every
run can be carried on to such a state. -/
theorem logins_go_on (ossl : OpenSSL) (hash : Bytes → ℕ) (cfg : Validator.Config) [Fintype ι]
    {schedule : List (ι × Turn)} (hrun : run (login ossl hash cfg) schedule start = some g)
    (hlocks : Each (login ossl hash cfg) (fun _ turn _ => turn ≠ .inside .fail_locked)
      schedule start) :
    (∀ i schedule' g', run (login ossl hash cfg) schedule' g = some g' →
        Each (login ossl hash cfg) (fun j turn g => j = i → Underway turn (g.locals j))
          schedule' g →
        schedule'.countP (fun it => it.1 = i) ≤ 24) ∧
      (Stuck (login ossl hash cfg) Goes g ↔ ∀ i, Stopped hash g i) ∧
      ∃ schedule' g',
        Each (login ossl hash cfg) (fun i turn g => Goes turn (g.locals i)) schedule' g ∧
        run (login ossl hash cfg) schedule' g = some g' ∧ ∀ i, Stopped hash g' i := by
  have hstart : Orderly hash (start (ι := ι)) := ⟨holds_init, tidy_init⟩
  have hg : Orderly hash g := orderly_of_run hstart hrun hlocks
  refine ⟨fun i schedule' g' hrun' hunderway => ?_,
    ⟨fun h => stopped_of_stuck h hg, stuck_of_stopped hg⟩, ?_⟩
  · have hcount := descends_login.count_le outline_login i hg.1 hunderway hrun'
    have hle := turns_left_le (g.locals i)
    omega
  · have hd : Descends (login (ι := ι) ossl hash cfg) (Sound hash)
        (fun i s l => Relies hash i s l.2) Goes turns_left :=
      fun _ _ _ _ _ _ hs hrelies hgoes h => descends_login hs hrelies hgoes.underway h
    obtain ⟨schedule', g', hgo, hrun', hstuck⟩ := hd.exists_stuck outline_login hg.1
    have hg' : Orderly hash g' := orderly_of_run hg hrun' (hgo.mono fun h => h.unlocked)
    exact ⟨schedule', g', hgo, hrun', stopped_of_stuck hstuck hg'⟩

/-- The first backend has the discovery document and asks for the keys. -/
theorem logins_go_on_alice :
    ∃ g, run provided (alice_schedule.take 6) (start (ι := Bool)) = some g ∧
      ∃ schedule g', run provided schedule g = some g' ∧ ∀ i, Stopped List.length g' i := by
  have hsome : (run provided (alice_schedule.take 6) (start (ι := Bool))).isSome = true := by
    decide +kernel
  obtain ⟨g, hrun⟩ := Option.isSome_iff_exists.mp hsome
  have hlocks : Each provided (fun _ turn _ => turn ≠ .inside .fail_locked)
      (alice_schedule.take 6) (start (ι := Bool)) := by
    refine each_of_forall ?_
    simp [alice_schedule]
  obtain ⟨-, -, schedule, g', -, hrun', hstopped⟩ := logins_go_on _ List.length _ hrun hlocks
  exact ⟨g, hrun, schedule, g', hrun', hstopped⟩

end OidcValidator.LoginProgress
