import Mathlib.Algebra.Order.Group.Multiset
import Mathlib.Algebra.BigOperators.Group.Finset.Basic
import Mathlib.Algebra.Order.BigOperators.Group.Finset
import Mathlib.Data.Multiset.Fintype

/-!
# Ledgers

Resources are counted in multisets: what each entry of a bounded table holds is
summed up. Changing one entry changes the sum by what the entry held before and
holds afterwards, stated without subtraction.
-/

namespace Bag

open Finset

variable {α β : Type*}

/-- What an optional reference holds. -/
def opt (o : Option β) : Multiset β := o.elim 0 singleton

@[simp] theorem opt_none : opt (none : Option β) = 0 := rfl

@[simp] theorem opt_some (x : β) : opt (some x) = {x} := rfl

@[simp] theorem mem_opt {o : Option β} {x : β} : x ∈ opt o ↔ o = some x := by
  cases o <;> simp [eq_comm]

/-- What the first `n` entries of a table hold. It is irreducible because tables are
large: no proof should compute it. -/
@[irreducible] def total {M : Type*} [AddCommMonoid M] (n : ℕ) (f : ℕ → M) : M := ∑ i ∈ range n, f i

section

variable {M : Type*} [AddCommMonoid M] {n i : ℕ}

theorem total_congr {f g : ℕ → M} (h : ∀ i < n, f i = g i) : total n f = total n g := by
  unfold total
  exact sum_congr rfl fun i hi => h i (mem_range.mp hi)

theorem total_zero {f : ℕ → M} (h : ∀ i < n, f i = 0) : total n f = 0 := by
  unfold total
  exact sum_eq_zero fun i hi => h i (mem_range.mp hi)

@[simp] theorem total_nil (f : ℕ → M) : total 0 f = 0 := by simp [total]

theorem total_succ (n : ℕ) (f : ℕ → M) : total (n + 1) f = total n f + f n := by
  unfold total
  exact sum_range_succ f n

theorem total_add (n : ℕ) (f g : ℕ → M) :
    total n (fun i => f i + g i) = total n f + total n g := by
  unfold total
  exact sum_add_distrib

theorem total_append (m n : ℕ) (f : ℕ → M) :
    total (m + n) f = total m f + total n fun i => f (m + i) := by
  unfold total
  exact sum_range_add f m n

theorem total_rows (k n : ℕ) (f : ℕ → M) :
    total n (fun i => total k fun j => f (i * k + j)) = total (n * k) f := by
  induction n with
  | zero => simp
  | succ n ih =>
    rw [total_succ, ih, Nat.succ_mul, total_append]

theorem total_change {f g : ℕ → M} (hi : i < n) (h : ∀ j < n, j ≠ i → g j = f j) :
    total n g + f i = total n f + g i := by
  have hmem : i ∈ range n := mem_range.mpr hi
  have hrest : ∑ j ∈ (range n).erase i, g j = ∑ j ∈ (range n).erase i, f j :=
    sum_congr rfl fun j hj => h j (mem_range.mp (mem_of_mem_erase hj)) (ne_of_mem_erase hj)
  rw [total, total, ← add_sum_erase _ _ hmem, ← add_sum_erase _ f hmem, hrest]
  ac_rfl

theorem total_single {f : ℕ → M} (hi : i < n) (h : ∀ j < n, j ≠ i → f j = 0) :
    total n f = f i := by
  have hsum := total_change (f := fun _ => (0 : M)) (g := f) hi h
  rwa [total_zero fun _ _ => rfl, zero_add, add_zero] at hsum

theorem total_update (f : ℕ → α) (F : ℕ → α → M) (hi : i < n) (v : α) :
    total n (fun j => F j (Function.update f i v j)) + F i (f i) =
      total n (fun j => F j (f j)) + F i v := by
  have h := total_change (f := fun j => F j (f j))
    (g := fun j => F j (Function.update f i v j)) hi fun j _ hj => by simp [hj]
  simpa using h

theorem total_split (f : ℕ → M) (hi : i < n) :
    ∃ rest, total n f = f i + rest := by
  unfold total
  exact ⟨_, (add_sum_erase _ f (mem_range.mpr hi)).symm⟩

end

theorem mem_total {n : ℕ} {f : ℕ → Multiset β} {x : β} :
    x ∈ total n f ↔ ∃ i < n, x ∈ f i := by
  simp [total, Multiset.mem_sum]

theorem total_mono {n : ℕ} {f g : ℕ → Multiset β} (h : ∀ i < n, f i ≤ g i) :
    total n f ≤ total n g := by
  unfold total
  exact sum_le_sum fun i hi => h i (mem_range.mp hi)

theorem total_split_two {M : Type*} [AddCommMonoid M] {n i j : ℕ} (f : ℕ → M) (hi : i < n)
    (hj : j < n) (h : i ≠ j) : ∃ rest, total n f = f i + f j + rest := by
  unfold total
  rw [← add_sum_erase _ f (mem_range.mpr hi), ← add_sum_erase _ f (mem_erase.mpr
    ⟨h.symm, mem_range.mpr hj⟩), ← add_assoc]
  exact ⟨_, rfl⟩

theorem add_le_total {n i j : ℕ} (f : ℕ → Multiset β) (hi : i < n) (hj : j < n) (h : i ≠ j) :
    f i + f j ≤ total n f := by
  obtain ⟨rest, hsum⟩ := total_split_two f hi hj h
  exact hsum ▸ Multiset.le_add_right _ _

end Bag
