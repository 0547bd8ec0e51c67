import Mathlib.Data.List.Basic
import Mathlib.Data.List.Induction

/-!
# Labelled runs of a partial step function

A system is a partial step function on its states. The label names who moves
and resolves every choice that the code leaves open, so that one label leads
to at most one successor. Safety arguments are inductions over runs and are
packaged here once.
-/

namespace Runs

variable {σ α : Type*}

/-- Run the labels from left to right; `none` when some step is not enabled. -/
def exec (step : σ → α → Option σ) : σ → List α → Option σ
  | s, [] => some s
  | s, a :: as => (step s a).bind fun t => exec step t as

variable {step : σ → α → Option σ}

@[simp] theorem exec_nil (s : σ) : exec step s [] = some s := rfl

theorem exec_cons {s t : σ} {a : α} {as : List α} :
    exec step s (a :: as) = some t ↔ ∃ u, step s a = some u ∧ exec step u as = some t := by
  simp [exec, Option.bind_eq_some_iff]

theorem exec_append (s : σ) (as bs : List α) :
    exec step s (as ++ bs) = (exec step s as).bind fun t => exec step t bs := by
  induction as generalizing s with
  | nil => rfl
  | cons a as ih =>
    cases h : step s a with
    | none => simp [exec, h]
    | some t => simp [exec, h, ih]

theorem exec_snoc {s t : σ} {a : α} {as : List α} :
    exec step s (as ++ [a]) = some t ↔ ∃ u, exec step s as = some u ∧ step u a = some t := by
  simp [exec_append, Option.bind_eq_some_iff, exec]

/-- The invariant rule: what holds at the start and is kept by every step
holds after every run. -/
theorem exec_invariant {I : σ → Prop} (hstep : ∀ s a t, I s → step s a = some t → I t) :
    ∀ {as : List α} {s t : σ}, I s → exec step s as = some t → I t := by
  intro as
  induction as with
  | nil =>
    intro s t hs h
    cases h
    exact hs
  | cons a as ih =>
    intro s t hs h
    obtain ⟨u, hu, ht⟩ := exec_cons.mp h
    exact ih (hstep s a u hs hu) ht

/-- The invariant rule for a history invariant, which also sees the labels
performed so far. -/
theorem exec_history {I : List α → σ → Prop} {s : σ} (hinit : I [] s)
    (hstep : ∀ as t a u, exec step s as = some t → I as t → step t a = some u → I (as ++ [a]) u)
    (as : List α) : ∀ {t : σ}, exec step s as = some t → I as t := by
  induction as using List.reverseRecOn with
  | nil =>
    intro t h
    cases h
    exact hinit
  | append_singleton as a ih =>
    intro t h
    obtain ⟨u, hu, ht⟩ := exec_snoc.mp h
    exact hstep as u a t hu (ih hu) ht

/-- Every step of the run is taken in a state in which `P` allows its label. -/
def Along (step : σ → α → Option σ) (P : σ → α → Prop) : σ → List α → Prop
  | _, [] => True
  | s, a :: as => P s a ∧ ∀ t, step s a = some t → Along step P t as

instance Along.decidable {P : σ → α → Prop} [∀ s a, Decidable (P s a)] :
    ∀ (as : List α) (s : σ), Decidable (Along step P s as)
  | [], _ => isTrue trivial
  | a :: as, s =>
    have : ∀ o : Option σ, Decidable (∀ t, o = some t → Along step P t as)
      | none => isTrue fun _ h => nomatch h
      | some t =>
        have : Decidable (Along step P t as) := Along.decidable as t
        decidable_of_iff (Along step P t as) ⟨fun h _ ht => Option.some.inj ht ▸ h, fun h => h t rfl⟩
    inferInstanceAs (Decidable (P s a ∧ ∀ t, step s a = some t → Along step P t as))

theorem along_snoc {P : σ → α → Prop} {s : σ} {as : List α} {a : α} :
    Along step P s (as ++ [a]) ↔
      Along step P s as ∧ ∀ t, exec step s as = some t → P t a := by
  induction as generalizing s with
  | nil => simp [Along]
  | cons b as ih =>
    simp only [List.cons_append, Along, ih, exec_cons]
    constructor
    · rintro ⟨hb, h⟩
      exact ⟨⟨hb, fun t ht => (h t ht).1⟩, fun t ⟨u, hu, ht⟩ => (h u hu).2 t ht⟩
    · rintro ⟨⟨hb, h⟩, ha⟩
      exact ⟨hb, fun t ht => ⟨h t ht, fun u hu => ha u ⟨t, ht, hu⟩⟩⟩

/-- The history rule for runs whose steps all satisfy a condition. -/
theorem exec_along {P : σ → α → Prop} {I : List α → σ → Prop} {s : σ} (hinit : I [] s)
    (hstep : ∀ as t a u, exec step s as = some t → I as t → P t a → step t a = some u →
      I (as ++ [a]) u)
    (as : List α) (hP : Along step P s as) : ∀ {t : σ}, exec step s as = some t → I as t := by
  induction as using List.reverseRecOn with
  | nil =>
    intro t h
    cases h
    exact hinit
  | append_singleton as a ih =>
    intro t h
    obtain ⟨hP, ha⟩ := along_snoc.mp hP
    obtain ⟨u, hu, ht⟩ := exec_snoc.mp h
    exact hstep as u a t hu (ih hP hu) (ha u hu) ht

/-- Whatever `n` labels with property `P` come next, the run ends in `t`. -/
def Forced (step : σ → α → Option σ) (P : α → Prop) (n : ℕ) (s t : σ) : Prop :=
  ∀ as : List α, as.length = n → (∀ a ∈ as, P a) → exec step s as = some t

section Forced

variable {P : α → Prop} {n m : ℕ} {s t u : σ}

theorem Forced.refl (s : σ) : Forced step P 0 s s := by
  intro as hlen _
  simp [List.length_eq_zero_iff.mp hlen]

theorem Forced.cons (hs : ∀ a, P a → step s a = some t) (h : Forced step P n t u) :
    Forced step P (n + 1) s u := by
  intro as hlen hP
  cases as with
  | nil => simp at hlen
  | cons a as =>
    have hrest := h as (by simpa using hlen) fun b hb => hP b (by simp [hb])
    exact exec_cons.mpr ⟨t, hs a (hP a (by simp)), hrest⟩

theorem Forced.trans (h : Forced step P n s t) (h' : Forced step P m t u) :
    Forced step P (n + m) s u := by
  intro as hlen hP
  rw [← List.take_append_drop n as, exec_append,
    h _ (by simp; omega) fun a ha => hP a (List.mem_of_mem_take ha)]
  exact h' _ (by simp; omega) fun a ha => hP a (List.mem_of_mem_drop ha)

end Forced

end Runs
