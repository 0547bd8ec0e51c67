import Mathlib.Data.Nat.ModEq
import Mathlib.Logic.Function.Basic

/-!
# Rings with wrapping counters

A queue is kept in a table of `cap` cells. The cell of position `i` is `i % cap`, and
positions are counted by machine words, that is, modulo some `M` that `cap` divides.
The positions themselves are the lengths of what went in and out.
-/

namespace Ring

open Function

variable {α : Type*}

/-- The cells from position `r` on hold the list. -/
structure Holds (cap : ℕ) (data : ℕ → α) (r : ℕ) (xs : List α) : Prop where
  room : xs.length ≤ cap
  get : ∀ j x, xs[j]? = some x → data ((r + j) % cap) = x

variable {cap : ℕ} {data : ℕ → α} {r w M : ℕ} {x : α} {xs : List α}

theorem cell_ne {i j : ℕ} (hij : i < j) (hj : j < i + cap) : i % cap ≠ j % cap := by
  intro h
  have hmod : i ≡ j [MOD cap] := h
  have hdvd := (Nat.modEq_iff_dvd' hij.le).mp hmod
  have := Nat.le_of_dvd (by omega) hdvd
  omega

theorem Holds.nil (cap : ℕ) (data : ℕ → α) (r : ℕ) : Holds cap data r [] :=
  ⟨Nat.zero_le _, fun j x h => by cases h⟩

theorem Holds.write (h : Holds cap data r xs) (hroom : xs.length < cap) (x : α) :
    Holds cap (update data ((r + xs.length) % cap) x) r xs where
  room := h.room
  get j y hj := by
    have hlt : j < xs.length := (List.getElem?_eq_some_iff.mp hj).1
    rw [update_of_ne (cell_ne (by omega) (by omega))]
    exact h.get j y hj

theorem Holds.push (h : Holds cap data r xs) (hroom : xs.length < cap) (x : α) :
    Holds cap (update data ((r + xs.length) % cap) x) r (xs ++ [x]) where
  room := by
    rw [List.length_append]
    exact hroom
  get j y hj := by
    rcases Nat.lt_trichotomy j xs.length with hlt | rfl | hgt
    · rw [List.getElem?_append_left hlt] at hj
      exact (h.write hroom x).get j y hj
    · rw [List.getElem?_concat_length] at hj
      rw [update_self]
      exact Option.some.inj hj
    · rw [List.getElem?_eq_none (by simp; omega)] at hj
      cases hj

theorem Holds.front (h : Holds cap data r (x :: xs)) : data (r % cap) = x := h.get 0 x rfl

theorem Holds.pop (h : Holds cap data r (x :: xs)) : Holds cap data (r + 1) xs where
  room := Nat.le_of_succ_le h.room
  get j y hj := by
    rw [Nat.add_assoc, Nat.add_comm 1]
    exact h.get (j + 1) y hj

/-! ## Counters -/

theorem cell_counter (hcap : cap ∣ M) (i : ℕ) : i % M % cap = i % cap := Nat.mod_mod_of_dvd i hcap

theorem counter_eq (hle : r ≤ w) (hM : w < r + M) : w % M = r % M ↔ w = r := by
  refine ⟨fun h => ?_, fun h => by rw [h]⟩
  by_contra hne
  exact cell_ne (lt_of_le_of_ne hle (Ne.symm hne)) hM h.symm

/-- A queue in a ring: the counters `rd` and `wr` tell what went out and in. -/
def Queue (cap M : ℕ) (data : ℕ → α) (rd wr : ℕ) (xs : List α) : Prop :=
  ∃ r, rd = r % M ∧ wr = (r + xs.length) % M ∧ Holds cap data r xs

variable {rd wr : ℕ}

theorem Queue.nil (cap M : ℕ) (data : ℕ → α) : Queue cap M data 0 0 [] :=
  ⟨0, (Nat.zero_mod M).symm, (Nat.zero_mod M).symm, .nil cap data 0⟩

theorem Queue.room (h : Queue cap M data rd wr xs) : xs.length ≤ cap := by
  obtain ⟨r, -, -, hr⟩ := h
  exact hr.room

theorem Queue.empty_iff (h : Queue cap M data rd wr xs) (hM : cap < M) : rd = wr ↔ xs = [] := by
  obtain ⟨r, rfl, rfl, hr⟩ := h
  have hroom := hr.room
  rw [eq_comm, counter_eq (Nat.le_add_right r _) (by omega), Nat.add_eq_left,
    List.length_eq_zero_iff]

theorem Queue.full_iff (h : Queue cap M data rd wr xs) (hM : cap < M) :
    wr = (rd + cap) % M ↔ xs.length = cap := by
  obtain ⟨r, rfl, rfl, hr⟩ := h
  have hroom := hr.room
  rw [Nat.mod_add_mod, eq_comm, counter_eq (by omega) (by omega)]
  omega

theorem Queue.length (h : Queue cap M data rd wr xs) (hM : cap < M) :
    (wr + (M - rd)) % M = xs.length := by
  obtain ⟨r, rfl, rfl, hr⟩ := h
  have hroom := hr.room
  have hlt := Nat.mod_lt r (show 0 < M by omega)
  have hdiv := Nat.div_add_mod r M
  have hturns : M * (r / M + 1) = M * (r / M) + M := Nat.mul_succ M (r / M)
  have hsum : r + xs.length + (M - r % M) = xs.length + M * (r / M + 1) := by omega
  rw [Nat.mod_add_mod, hsum, Nat.add_mul_mod_self_left, Nat.mod_eq_of_lt (by omega)]

theorem Queue.write (h : Queue cap M data rd wr xs) (hdvd : cap ∣ M) (hroom : xs.length < cap)
    (x : α) : Queue cap M (update data (wr % cap) x) rd wr xs := by
  obtain ⟨r, rfl, rfl, hr⟩ := h
  rw [cell_counter hdvd]
  exact ⟨r, rfl, rfl, hr.write hroom x⟩

theorem Queue.push (h : Queue cap M data rd wr xs) (hdvd : cap ∣ M) (hroom : xs.length < cap)
    (x : α) : Queue cap M (update data (wr % cap) x) rd ((wr + 1) % M) (xs ++ [x]) := by
  obtain ⟨r, rfl, rfl, hr⟩ := h
  refine ⟨r, rfl, ?_, ?_⟩
  · rw [Nat.mod_add_mod, List.length_append, List.length_singleton, Nat.add_assoc]
  · rw [cell_counter hdvd]
    exact hr.push hroom x

theorem Queue.advance (h : Queue cap M data rd wr xs) (hdvd : cap ∣ M) (hroom : xs.length < cap)
    (hx : data (wr % cap) = x) : Queue cap M data rd ((wr + 1) % M) (xs ++ [x]) := by
  have hpush := h.push hdvd hroom x
  rwa [← hx, update_eq_self, hx] at hpush

theorem Queue.get (h : Queue cap M data rd wr xs) (hdvd : cap ∣ M) {j : ℕ}
    (hj : xs[j]? = some x) : data ((rd + j) % M % cap) = x := by
  obtain ⟨r, rfl, rfl, hr⟩ := h
  rw [Nat.mod_add_mod, cell_counter hdvd]
  exact hr.get j x hj

theorem Queue.front (h : Queue cap M data rd wr (x :: xs)) (hdvd : cap ∣ M) :
    data (rd % cap) = x := by
  obtain ⟨r, rfl, rfl, hr⟩ := h
  rw [cell_counter hdvd]
  exact hr.front

theorem Queue.pop (h : Queue cap M data rd wr (x :: xs)) :
    Queue cap M data ((rd + 1) % M) wr xs := by
  obtain ⟨r, rfl, rfl, hr⟩ := h
  refine ⟨r + 1, Nat.mod_add_mod r M 1, ?_, hr.pop⟩
  rw [List.length_cons, Nat.add_assoc, Nat.add_comm 1]

end Ring
