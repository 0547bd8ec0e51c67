import Mathlib.Data.List.Basic
import Mathlib.Logic.Function.Basic

/-!
# Replaying a sequence of block writes

A redo log is a list of `(address, value)` pairs. Replaying it overwrites the
addressed cells in order, so only the last write to an address counts.
-/

namespace Redo

open Function

variable {κ δ : Type*} [DecidableEq κ]

/-- The store after performing the writes in order. -/
def replay (f : κ → δ) (ws : List (κ × δ)) : κ → δ :=
  ws.foldl (fun g w => update g w.1 w.2) f

@[simp] theorem replay_nil (f : κ → δ) : replay f [] = f := rfl

theorem replay_append (f : κ → δ) (ws vs : List (κ × δ)) :
    replay f (ws ++ vs) = replay (replay f ws) vs := by
  simp [replay]

theorem replay_snoc (f : κ → δ) (ws : List (κ × δ)) (w : κ × δ) :
    replay f (ws ++ [w]) = update (replay f ws) w.1 w.2 := by
  simp [replay]

theorem replay_of_notMem (f : κ → δ) (ws : List (κ × δ)) {k : κ}
    (h : k ∉ ws.map Prod.fst) : replay f ws k = f k := by
  induction ws generalizing f with
  | nil => rfl
  | cons w ws ih =>
    simp only [List.map_cons, List.mem_cons, not_or] at h
    have hstep : replay f (w :: ws) = replay (update f w.1 w.2) ws := rfl
    rw [hstep, ih _ h.2, update_of_ne h.1]

end Redo
