/-
`Ownership.lean` -- things that are owned by exactly one handle until they are given back.

A handle is alive or not, and a live handle owns one thing or none. Things are taken, and
given back; in between they move from handle to handle. The log says what was taken and
given back, newest first, and [`Accounts`] is the agreement between the two: the log never
gives back what is not outstanding, and what is outstanding is what the live handles own,
one each.

The agreement is kept by five ways to use a handle, and it says that everything taken is
either owned by exactly one handle and not given back, or by none and given back once.

Nothing in this file knows what is owned.
-/
import Mathlib.Data.List.Nodup
import Mathlib.Logic.ExistsUnique
import Mathlib.Logic.Function.Basic

set_option autoImplicit false

namespace OidcValidator.Ownership

/-! ## The log -/

/-- What happens to a thing. -/
inductive Event (L : Type) where
  | taken (l : L)
  | given_back (l : L)
  deriving DecidableEq

variable {ι L : Type} [DecidableEq L]

/-- What was taken and has not been given back. -/
def outstanding : List (Event L) → List L
  | [] => []
  | .taken l :: log => l :: outstanding log
  | .given_back l :: log => (outstanding log).erase l

/-- Nothing is taken twice, and only what is outstanding is given back. -/
inductive Orderly : List (Event L) → Prop
  | nil : Orderly []
  | taken {l : L} {log : List (Event L)} (h : Orderly log) (hl : .taken l ∉ log) :
      Orderly (.taken l :: log)
  | given_back {l : L} {log : List (Event L)} (h : Orderly log) (hl : l ∈ outstanding log) :
      Orderly (.given_back l :: log)

theorem taken_of_mem_outstanding {l : L} {log : List (Event L)} (hl : l ∈ outstanding log) :
    .taken l ∈ log := by
  induction log with
  | nil => exact absurd hl List.not_mem_nil
  | cons e log ih =>
    cases e with
    | taken k =>
      rcases List.mem_cons.mp hl with rfl | hl
      · exact List.mem_cons_self
      · exact List.mem_cons_of_mem _ (ih hl)
    | given_back k => exact List.mem_cons_of_mem _ (ih (List.mem_of_mem_erase hl))

theorem Orderly.nodup {log : List (Event L)} (h : Orderly log) : (outstanding log).Nodup := by
  induction h with
  | nil => exact List.nodup_nil
  | taken _ hl ih => exact List.nodup_cons.mpr ⟨fun hmem => hl (taken_of_mem_outstanding hmem), ih⟩
  | given_back _ _ ih => exact ih.erase _

/-- The books balance. -/
theorem Orderly.balance {log : List (Event L)} (h : Orderly log) (l : L) :
    log.count (.given_back l) + (outstanding log).count l = log.count (.taken l) := by
  induction h with
  | nil => rfl
  | @taken k log _ _ ih =>
    rw [List.count_cons, List.count_cons, outstanding, List.count_cons, ← ih]
    by_cases hk : k = l <;> simp [hk, Nat.add_assoc]
  | @given_back k log _ hk ih =>
    rw [List.count_cons, List.count_cons, outstanding, List.count_erase, ← ih]
    by_cases hkl : k = l
    · have hpos : 0 < (outstanding log).count k := List.count_pos_iff.mpr hk
      subst hkl
      simp
      omega
    · simp [hkl]

theorem Orderly.count_taken_le {log : List (Event L)} (h : Orderly log) (l : L) :
    log.count (.taken l) ≤ 1 := by
  induction h with
  | nil => exact Nat.zero_le 1
  | @taken k log _ hk ih =>
    rw [List.count_cons]
    by_cases hkl : k = l
    · subst hkl
      rw [List.count_eq_zero.mpr hk]
      simp
    · simpa [hkl] using ih
  | given_back _ _ ih => simpa [List.count_cons] using ih

theorem Orderly.taken_of_given_back {l : L} {log : List (Event L)} (h : Orderly log)
    (hl : .given_back l ∈ log) : .taken l ∈ log := by
  have hbalance := h.balance l
  have hpos : 0 < log.count (.given_back l) := List.count_pos_iff.mpr hl
  exact List.count_pos_iff.mp (by omega)

/-! ## The handles -/

/-- The handle `a` owns `l`. -/
def Owns (handles : ι → Option (Option L)) (a : ι) (l : L) : Prop := handles a = some (some l)

/-- What is outstanding is what the live handles own, one each. -/
structure Accounts (handles : ι → Option (Option L)) (log : List (Event L)) : Prop where
  orderly : Orderly log
  owned : ∀ l, l ∈ outstanding log ↔ ∃ a, Owns handles a l
  unique : ∀ {l a b}, Owns handles a l → Owns handles b l → a = b

variable {handles : ι → Option (Option L)} {log : List (Event L)}

theorem Accounts.empty : Accounts (fun _ : ι => none) ([] : List (Event L)) where
  orderly := .nil
  owned l := by simp [outstanding, Owns]
  unique h := absurd h (by simp [Owns])

/-! ## What the agreement says -/

/-- **Everything taken is owned by one handle and has not been given back, or is owned by none
and has been given back once.** -/
theorem Accounts.exactly_once (h : Accounts handles log) {l : L} (hl : .taken l ∈ log) :
    (log.count (.given_back l) = 0 ∧ ∃! a, Owns handles a l) ∨
      (log.count (.given_back l) = 1 ∧ ∀ a, ¬Owns handles a l) := by
  have hbalance := h.orderly.balance l
  have htaken : log.count (.taken l) = 1 :=
    Nat.le_antisymm (h.orderly.count_taken_le l) (List.count_pos_iff.mpr hl)
  by_cases hout : l ∈ outstanding log
  · obtain ⟨a, ha⟩ := (h.owned l).mp hout
    have hone : (outstanding log).count l = 1 :=
      List.count_eq_one_of_mem h.orderly.nodup hout
    exact .inl ⟨by omega, a, ha, fun b hb => h.unique hb ha⟩
  · have hzero : (outstanding log).count l = 0 := List.count_eq_zero.mpr hout
    exact .inr ⟨by omega, fun a ha => hout ((h.owned l).mpr ⟨a, ha⟩)⟩

/-- Without handles nothing is outstanding. -/
theorem Accounts.outstanding_eq_nil (h : Accounts handles log) (hnone : ∀ a, handles a = none) :
    outstanding log = [] := by
  refine List.eq_nil_iff_forall_not_mem.mpr fun l hl => ?_
  obtain ⟨a, ha⟩ := (h.owned l).mp hl
  exact absurd ((hnone a).symm.trans ha) (by simp)

/-! ## Ways to use a handle -/

variable [DecidableEq ι]

omit [DecidableEq L] in
theorem owns_update {a b : ι} {x : Option (Option L)} {l : L} :
    Owns (Function.update handles a x) b l ↔ if b = a then x = some (some l) else Owns handles b l := by
  unfold Owns
  rw [Function.update_apply]
  split_ifs <;> rfl

/-- A handle that owns nothing or is not there, and that goes on to own nothing or not to be
there. -/
theorem Accounts.idle {a : ι} {x : Option (Option L)} (h : Accounts handles log)
    (ha : ∀ l, ¬Owns handles a l) (hx : ∀ l, x ≠ some (some l)) :
    Accounts (Function.update handles a x) log := by
  have hsame (b : ι) (l : L) : Owns (Function.update handles a x) b l ↔ Owns handles b l := by
    rw [owns_update]
    split_ifs with hb
    · subst hb
      exact iff_of_false (hx l) (ha l)
    · rfl
  refine ⟨h.orderly, fun l => ?_, fun hb hc => ?_⟩
  · simp only [h.owned, hsame]
  · exact h.unique ((hsame _ _).mp hb) ((hsame _ _).mp hc)

/-- A new handle for a new thing. -/
theorem Accounts.take {a : ι} {l : L} (h : Accounts handles log) (ha : handles a = none)
    (hl : .taken l ∉ log) :
    Accounts (Function.update handles a (some (some l))) (.taken l :: log) := by
  have hown (b : ι) (k : L) : Owns (Function.update handles a (some (some l))) b k ↔
      b = a ∧ k = l ∨ Owns handles b k := by
    rw [owns_update]
    split_ifs with hb
    · subst hb
      simp [Owns, ha, eq_comm]
    · simp [hb]
  -- nobody owns it yet
  have hnone (b : ι) : ¬Owns handles b l := fun hb =>
    hl (taken_of_mem_outstanding ((h.owned l).mpr ⟨b, hb⟩))
  refine ⟨.taken h.orderly hl, fun k => ?_, fun {k b c} hb hc => ?_⟩
  · simp only [outstanding, List.mem_cons, h.owned, hown]
    constructor
    · rintro (rfl | ⟨b, hb⟩)
      · exact ⟨a, .inl ⟨rfl, rfl⟩⟩
      · exact ⟨b, .inr hb⟩
    · rintro ⟨b, ⟨-, rfl⟩ | hb⟩
      · exact .inl rfl
      · exact .inr ⟨b, hb⟩
  · rcases (hown b k).mp hb with ⟨hba, hk⟩ | hb'
    · rcases (hown c k).mp hc with ⟨hca, -⟩ | hc'
      · exact hba.trans hca.symm
      · exact absurd (hk ▸ hc') (hnone c)
    · rcases (hown c k).mp hc with ⟨-, hk⟩ | hc'
      · exact absurd (hk ▸ hb') (hnone b)
      · exact h.unique hb' hc'

/-- What `b` owns moves to `a`, which owned nothing or was not there. -/
theorem Accounts.move {a b : ι} {x : Option L} (h : Accounts handles log) (hab : a ≠ b)
    (ha : ∀ l, ¬Owns handles a l) (hb : handles b = some x) :
    Accounts (Function.update (Function.update handles a (some x)) b (some none)) log := by
  -- who owns what afterwards
  have hown (c : ι) (l : L) :
      Owns (Function.update (Function.update handles a (some x)) b (some none)) c l ↔
        c = a ∧ Owns handles b l ∨ c ≠ b ∧ Owns handles c l := by
    rw [owns_update, owns_update]
    split_ifs with hcb hca
    · subst hcb
      simp [hab.symm]
    · subst hca
      have hc := ha l
      unfold Owns at hc
      simp [Owns, hb, hcb, hc]
    · simp [hca, hcb]
  refine ⟨h.orderly, fun l => ?_, fun {l c d} hc hd => ?_⟩
  · simp only [h.owned, hown]
    constructor
    · rintro ⟨c, hc⟩
      by_cases hcb : c = b
      · exact ⟨a, .inl ⟨rfl, hcb ▸ hc⟩⟩
      · exact ⟨c, .inr ⟨hcb, hc⟩⟩
    · rintro ⟨c, ⟨-, hb⟩ | ⟨-, hc⟩⟩
      · exact ⟨b, hb⟩
      · exact ⟨c, hc⟩
  · rcases (hown c l).mp hc with ⟨hca, hbl⟩ | ⟨hcb, hc'⟩
    · rcases (hown d l).mp hd with ⟨hda, -⟩ | ⟨hdb, hd'⟩
      · exact hca.trans hda.symm
      · exact absurd (h.unique hd' hbl) hdb
    · rcases (hown d l).mp hd with ⟨-, hbl⟩ | ⟨-, hd'⟩
      · exact absurd (h.unique hc' hbl) hcb
      · exact h.unique hc' hd'

/-- A handle gives back what it owns. -/
theorem Accounts.give_back {a : ι} {l : L} (h : Accounts handles log) (ha : Owns handles a l) :
    Accounts (Function.update handles a none) (.given_back l :: log) := by
  -- who owns what afterwards
  have hown (b : ι) (k : L) :
      Owns (Function.update handles a none) b k ↔ b ≠ a ∧ Owns handles b k := by
    rw [owns_update]
    split_ifs with hb
    · simp [hb]
    · simp [hb]
  refine ⟨.given_back h.orderly ((h.owned l).mpr ⟨a, ha⟩), fun k => ?_, fun {k b c} hb hc => ?_⟩
  · rw [outstanding, h.orderly.nodup.mem_erase_iff, h.owned]
    simp only [hown]
    constructor
    · rintro ⟨hk, b, hb⟩
      refine ⟨b, fun hba => hk ?_, hb⟩
      subst hba
      exact Option.some.inj (Option.some.inj (hb.symm.trans ha))
    · rintro ⟨b, hba, hb⟩
      refine ⟨fun hk => hba ?_, b, hb⟩
      subst hk
      exact h.unique hb ha
  · exact h.unique ((hown b k).mp hb).2 ((hown c k).mp hc).2

end OidcValidator.Ownership
