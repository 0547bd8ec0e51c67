import Mathlib.Data.Finset.Max
import Mathlib.Logic.Function.Basic

/-!
# Straight-line code with spinlocks

A thread is the list of commands it has still to run: take a lock, give a lock
back, or perform an atomic action, which may put further commands in front of
the rest. A discipline says which locks are held where; `Typed` checks the
remaining code of a thread against the locks it holds. `Holds` ties such a lock
set to the shared table of lock owners.
-/

namespace LockCode

open Function

inductive Cmd (L A : Type*) where
  | acquire (l : L)
  | release (l : L)
  | act (a : A)
  deriving DecidableEq

variable {L A C : Type*} [DecidableEq L]

/-- `frees a` are the locks that the expansion of `a` gives back in the end.
`side x R k` is what must hold where `x` runs under the locks `R`, followed by
the code `k`. -/
structure Discipline (L A : Type*) where
  frees : A → Finset L
  side : Cmd L A → Finset L → List (Cmd L A) → Prop

/-- The code may run under exactly these locks and ends without any. -/
def Typed (d : Discipline L A) : Finset L → List (Cmd L A) → Prop
  | R, [] => R = ∅
  | R, .acquire l :: k => d.side (.acquire l) R k ∧ Typed d (insert l R) k
  | R, .release l :: k => d.side (.release l) R k ∧ l ∈ R ∧ Typed d (R.erase l) k
  | R, .act a :: k => d.side (.act a) R k ∧ Typed d (R \ d.frees a) k

@[simp] theorem typed_nil {d : Discipline L A} {R : Finset L} : Typed d R [] ↔ R = ∅ := Iff.rfl

/-- The code needs lock `l` before it takes it: it gives it back, or runs an action
that is only allowed under it. -/
def Owes (d : Discipline L A) (l : L) : List (Cmd L A) → Prop
  | [] => False
  | .acquire l' :: k => l' ≠ l ∧ Owes d l k
  | .release l' :: k => l' = l ∨ Owes d l k
  | .act a :: k => (∀ R k', d.side (.act a) R k' → l ∈ R) ∨ Owes d l k

theorem Typed.mem_of_owes {d : Discipline L A} {l : L} {k : List (Cmd L A)} :
    ∀ {R : Finset L}, Typed d R k → Owes d l k → l ∈ R := by
  induction k with
  | nil => intro R _ h; exact h.elim
  | cons x k ih =>
    intro R ht ho
    cases x with
    | acquire l' =>
      rcases Finset.mem_insert.mp (ih ht.2 ho.2) with he | hm
      · exact absurd he.symm ho.1
      · exact hm
    | release l' =>
      rcases ho with rfl | ho
      · exact ht.2.1
      · exact Finset.mem_of_mem_erase (ih ht.2.2 ho)
    | act a =>
      rcases ho with ha | ho
      · exact ha R k ht.1
      · exact (Finset.mem_sdiff.mp (ih ht.2 ho)).1

/-! ## Lock owners -/

/-- `c` owns exactly the locks in `R`. -/
def Holds (holder : L → Option C) (c : C) (R : Finset L) : Prop :=
  ∀ l, holder l = some c ↔ l ∈ R

variable {holder : L → Option C} {c c' : C} {R : Finset L} {l : L}

theorem Holds.acquire (h : Holds holder c R) :
    Holds (update holder l (some c)) c (insert l R) := by
  intro x
  by_cases hx : x = l
  · subst hx; simp
  · simp [hx, h x]

theorem Holds.release (h : Holds holder c R) :
    Holds (update holder l none) c (R.erase l) := by
  intro x
  by_cases hx : x = l
  · subst hx; simp
  · simp [hx, h x]

theorem Holds.acquire_other (h : Holds holder c' R) (hne : c' ≠ c) (hfree : holder l = none) :
    Holds (update holder l (some c)) c' R := by
  intro x
  by_cases hx : x = l
  · subst hx
    have hnot : x ∉ R := fun hm => by
      have := (h x).mpr hm
      simp [hfree] at this
    simp [hnot, hne.symm]
  · simp [hx, h x]

theorem Holds.release_other (h : Holds holder c' R) (hne : c' ≠ c) (hown : holder l = some c) :
    Holds (update holder l none) c' R := by
  intro x
  by_cases hx : x = l
  · subst hx
    have hnot : x ∉ R := fun hm => by
      have := (h x).mpr hm
      rw [hown] at this
      exact hne (Option.some.inj this).symm
    simp [hnot]
  · simp [hx, h x]

omit [DecidableEq L] in
/-- The lock order rule: if every owner in a finite set waits for a lock that ranks
above all locks it owns, one of them waits for a lock that nobody in the set owns. -/
theorem exists_wait_outside {r : Type*} [LinearOrder r] (rank : L → r) (wants : C → L)
    {S : Finset C} (hS : S.Nonempty)
    (hord : ∀ c ∈ S, ∀ l, holder l = some c → rank l < rank (wants c)) :
    ∃ c ∈ S, ∀ c' ∈ S, holder (wants c) ≠ some c' := by
  obtain ⟨c, hc, hmax⟩ := S.exists_max_image (fun c => rank (wants c)) hS
  refine ⟨c, hc, fun c' hc' hown => ?_⟩
  exact absurd (hord c' hc' _ hown) (not_lt.mpr (hmax c' hc'))

end LockCode
