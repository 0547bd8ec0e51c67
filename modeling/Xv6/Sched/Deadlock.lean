import Xv6.Sched.Steps

/-!
# No circular wait

Every thread takes its locks in the order of the discipline. The order is strict
and has a rank, so no set of CPUs can spin on locks that the set itself holds.
-/

namespace Xv6.Sched

open LockCode Runs

/-- The place of a lock in the lock order. -/
def Lock.rank : Lock → ℕ∞
  | .cond _ => 0
  | .wait => 1
  | .proc i => i + 2
  | .pid | .shm _ => ⊤

theorem Lock.Before.rank_lt {l l' : Lock} (h : l.Before l') : l.rank < l'.rank := by
  have htop : ∀ n : ℕ, (n : ℕ∞) + 2 < ⊤ := fun n => by
    exact_mod_cast ENat.natCast_lt_top (n + 2)
  cases l <;> cases l' <;> simp only [Lock.Before] at h <;> simp only [Lock.rank]
  case proc.proc i j => exact_mod_cast Nat.add_lt_add_right h 2
  case proc.pid i => exact htop i
  case proc.shm i key => exact htop i
  case wait.proc i => exact_mod_cast (by omega : 1 < i + 2)
  case cond.proc n i => exact_mod_cast (by omega : 0 < i + 2)
  all_goals simp

variable {C : Type}

/-- CPU `c` is in `acquire(lk)`. -/
def State.spins (s : State C) (c : C) (lk : Lock) : Prop :=
  (s.codeOf c (s.thread c)).head? = some (.acquire lk)

theorem Inv.rank_of_spins {s : State C} (h : Inv s) {c : C} {lk l : Lock} (hspin : s.spins c lk)
    (hown : s.holder l = some c) : l.rank < lk.rank := by
  obtain ⟨R, hR, -, hty⟩ := h.typed c
  obtain ⟨k, hk⟩ : ∃ k, s.codeAt (s.cur c) = .acquire lk :: k := by
    rw [State.spins, codeOf_eq_codeAt] at hspin
    exact List.head?_eq_some_iff.mp hspin
  rw [hk] at hty
  exact (hty.1.1 l ((hR l).mp hown)).rank_lt

variable [DecidableEq C]

/-- In every state that any number of CPUs reaches, no non-empty set of CPUs is such
that each of them spins on a lock that a CPU of the set, itself included, holds. -/
theorem no_circular_wait (ls : List (Label C)) (s : State C) (hrun : exec step boot ls = some s)
    (S : Finset C) (hS : S.Nonempty) :
    ¬ ∀ c ∈ S, ∃ lk, s.spins c lk ∧ ∃ c' ∈ S, s.holder lk = some c' := by
  intro hwait
  have hinv := inv_run hrun
  have : Nonempty Lock := ⟨.wait⟩
  choose! wants hspin hheld using hwait
  obtain ⟨c, hc, hfree⟩ := exists_wait_outside Lock.rank wants hS
    fun c hc l hown => hinv.rank_of_spins (hspin c hc) hown
  obtain ⟨c', hc', hown⟩ := hheld c hc
  exact hfree c' hc' hown

/-- Both CPUs scan the table: CPU 1 spins on the lock of the first process, which CPU 0
holds while it goes on to the next slot. -/
theorem no_circular_wait_twoScans : ∃ s : State (Fin 2),
    exec step boot [⟨0, .go⟩, ⟨1, .go⟩, ⟨0, .go⟩, ⟨0, .go⟩, ⟨0, .go⟩] = some s ∧
      s.spins 1 (.proc 0) ∧ s.holder (.proc 0) = some 0 ∧ s.spins 0 (.proc 1) ∧
      ¬ ∀ c ∈ ({0, 1} : Finset (Fin 2)), ∃ lk, s.spins c lk ∧
        ∃ c' ∈ ({0, 1} : Finset (Fin 2)), s.holder lk = some c' := by
  refine ⟨_, rfl, rfl, rfl, rfl, ?_⟩
  exact no_circular_wait [⟨0, .go⟩, ⟨1, .go⟩, ⟨0, .go⟩, ⟨0, .go⟩, ⟨0, .go⟩] _ rfl {0, 1}
    (Finset.insert_nonempty _ _)

end Xv6.Sched
