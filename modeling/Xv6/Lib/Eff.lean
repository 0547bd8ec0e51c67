import Mathlib.Data.Nat.Notation

/-!
# Programs with state and panics

A program reads and writes a state and may panic with a message. `Ensures f s Q` says
that `f` run in `s` does not panic and that its result and final state satisfy `Q`.
`Within E f s Q` lets `f` panic with the messages in `E`. The rules follow the structure
of the program; a loop has an invariant indexed by the number of iterations done.
`Respects R f` says that `f` does the same in states that `R` relates.
-/

namespace Eff

variable {σ ε α β : Type}

/-- The loop `for (i = 0; i < n; i++) f(i)`. -/
def forUpto (f : ℕ → StateT σ (Except ε) Unit) : ℕ → StateT σ (Except ε) Unit
  | 0 => pure ()
  | n + 1 => do forUpto f n; f n

def Ensures (f : StateT σ (Except ε) α) (s : σ) (Q : α → σ → Prop) : Prop :=
  ∃ a s', f s = .ok (a, s') ∧ Q a s'

variable {f : StateT σ (Except ε) α} {g : α → StateT σ (Except ε) β} {s : σ}

theorem Ensures.mono {Q Q' : α → σ → Prop} (h : Ensures f s Q) (hq : ∀ a s', Q a s' → Q' a s') :
    Ensures f s Q' := by
  obtain ⟨a, s', hf, ha⟩ := h
  exact ⟨a, s', hf, hq a s' ha⟩

theorem Ensures.and {Q Q' : α → σ → Prop} (h : Ensures f s Q) (h' : Ensures f s Q') :
    Ensures f s fun a s' => Q a s' ∧ Q' a s' := by
  obtain ⟨a, s', hf, ha⟩ := h
  obtain ⟨b, t', hf', hb⟩ := h'
  obtain ⟨rfl, rfl⟩ := Prod.mk.inj (Except.ok.inj (hf.symm.trans hf'))
  exact ⟨a, s', hf, ha, hb⟩

theorem Ensures.bind {Q : β → σ → Prop} {R : α → σ → Prop} (h : Ensures f s R)
    (hg : ∀ a s', R a s' → Ensures (g a) s' Q) : Ensures (f >>= g) s Q := by
  obtain ⟨a, s', hf, ha⟩ := h
  obtain ⟨b, s'', hb, hq⟩ := hg a s' ha
  refine ⟨b, s'', ?_, hq⟩
  change (f s >>= fun r => g r.1 r.2) = _
  rw [hf]
  exact hb

theorem ensures_eq_bind {Q : β → σ → Prop} {a : α} {s' : σ} (hf : f s = .ok (a, s'))
    (hg : Ensures (g a) s' Q) : Ensures (f >>= g) s Q := by
  refine Ensures.bind (R := fun b t => b = a ∧ t = s') ⟨a, s', hf, rfl, rfl⟩ ?_
  rintro b t ⟨rfl, rfl⟩
  exact hg

theorem ensures_pure {Q : α → σ → Prop} {a : α} (h : Q a s) :
    Ensures (pure a : StateT σ (Except ε) α) s Q := ⟨a, s, rfl, h⟩

theorem ensures_get_bind {g : σ → StateT σ (Except ε) β} {Q : β → σ → Prop}
    (h : Ensures (g s) s Q) : Ensures (get >>= g) s Q := h

theorem ensures_modify {Q : PUnit → σ → Prop} {u : σ → σ} (h : Q ⟨⟩ (u s)) :
    Ensures (modify u : StateT σ (Except ε) PUnit) s Q := ⟨⟨⟩, u s, rfl, h⟩

theorem ensures_modify_bind {g : PUnit → StateT σ (Except ε) β} {Q : β → σ → Prop} {u : σ → σ}
    (h : Ensures (g ⟨⟩) (u s) Q) : Ensures (modify u >>= g) s Q := h

theorem ensures_forUpto {f : ℕ → StateT σ (Except ε) Unit} {I : ℕ → σ → Prop} {n : ℕ}
    (h0 : I 0 s) (hstep : ∀ i < n, ∀ t, I i t → Ensures (f i) t fun _ t' => I (i + 1) t') :
    Ensures (forUpto f n) s fun _ s' => I n s' := by
  induction n with
  | zero => exact ensures_pure h0
  | succ n ih =>
    exact (ih fun i hi => hstep i (by omega)).bind fun _ t ht => hstep n (by omega) t ht

theorem Ensures.of_ok {Q : α → σ → Prop} (h : Ensures f s Q) {a : α} {s' : σ}
    (hf : f s = .ok (a, s')) : Q a s' := by
  obtain ⟨b, t, hb, hq⟩ := h
  rw [hf] at hb
  cases hb
  exact hq

/-! ## Programs that may panic -/

def Within (E : ε → Prop) (f : StateT σ (Except ε) α) (s : σ) (Q : α → σ → Prop) : Prop :=
  match f s with
  | .ok (a, s') => Q a s'
  | .error e => E e

variable {E : ε → Prop}

theorem Ensures.within {Q : α → σ → Prop} (h : Ensures f s Q) : Within E f s Q := by
  obtain ⟨a, s', hf, ha⟩ := h
  unfold Within
  rw [hf]
  exact ha

theorem Within.of_ok {Q : α → σ → Prop} (h : Within E f s Q) {a : α} {s' : σ}
    (hf : f s = .ok (a, s')) : Q a s' := by
  unfold Within at h
  rw [hf] at h
  exact h

theorem Within.of_error {Q : α → σ → Prop} (h : Within E f s Q) {e : ε}
    (hf : f s = .error e) : E e := by
  unfold Within at h
  rw [hf] at h
  exact h

theorem Within.fails {e : ε} (h : Within (· = e) f s fun _ _ => False) : f s = .error e := by
  unfold Within at h
  split at h
  · exact h.elim
  · rename_i hf
    rw [hf, h]

instance {Q : α → σ → Prop} [DecidablePred E] [∀ a s', Decidable (Q a s')] :
    Decidable (Within E f s Q) :=
  match h : f s with
  | .ok (a, s') => decidable_of_iff (Q a s') (by rw [Within, h])
  | .error e => decidable_of_iff (E e) (by rw [Within, h])

theorem ensures_iff_within {Q : α → σ → Prop} : Ensures f s Q ↔ Within (fun _ => False) f s Q := by
  refine ⟨Ensures.within, fun h => ?_⟩
  unfold Within at h
  split at h
  · rename_i hf
    exact ⟨_, _, hf, h⟩
  · exact h.elim

instance {Q : α → σ → Prop} [∀ a s', Decidable (Q a s')] : Decidable (Ensures f s Q) :=
  decidable_of_iff _ ensures_iff_within.symm

theorem Within.mono {Q Q' : α → σ → Prop} (h : Within E f s Q) (hq : ∀ a s', Q a s' → Q' a s') :
    Within E f s Q' := by
  unfold Within at h ⊢
  split at h
  · exact hq _ _ h
  · exact h

theorem Within.weaken {E' : ε → Prop} {Q : α → σ → Prop} (h : Within E f s Q)
    (he : ∀ e, E e → E' e) : Within E' f s Q := by
  unfold Within at h ⊢
  split at h
  · exact h
  · exact he _ h

theorem Within.bind {Q : β → σ → Prop} {R : α → σ → Prop} (h : Within E f s R)
    (hg : ∀ a s', R a s' → Within E (g a) s' Q) : Within E (f >>= g) s Q := by
  have hrun : (f >>= g) s = f s >>= fun r => g r.1 r.2 := rfl
  unfold Within at h ⊢
  rw [hrun]
  cases hf : f s with
  | error e =>
    rw [hf] at h
    exact h
  | ok r =>
    rw [hf] at h
    exact hg r.1 r.2 h

theorem within_pure {Q : α → σ → Prop} {a : α} (h : Q a s) :
    Within E (pure a : StateT σ (Except ε) α) s Q := h

theorem within_throw {Q : α → σ → Prop} {e : ε} (h : E e) :
    Within E (throw e : StateT σ (Except ε) α) s Q := h

theorem within_get_bind {g : σ → StateT σ (Except ε) β} {Q : β → σ → Prop}
    (h : Within E (g s) s Q) : Within E (get >>= g) s Q := h

theorem within_modify {Q : PUnit → σ → Prop} {u : σ → σ} (h : Q ⟨⟩ (u s)) :
    Within E (modify u : StateT σ (Except ε) PUnit) s Q := h

theorem within_modify_bind {g : PUnit → StateT σ (Except ε) β} {Q : β → σ → Prop} {u : σ → σ}
    (h : Within E (g ⟨⟩) (u s) Q) : Within E (modify u >>= g) s Q := h

theorem within_forUpto {f : ℕ → StateT σ (Except ε) Unit} {I : ℕ → σ → Prop} {n : ℕ}
    (h0 : I 0 s) (hstep : ∀ i < n, ∀ t, I i t → Within E (f i) t fun _ t' => I (i + 1) t') :
    Within E (forUpto f n) s fun _ s' => I n s' := by
  induction n with
  | zero => exact within_pure h0
  | succ n ih =>
    exact (ih fun i hi => hstep i (by omega)).bind fun _ t ht => hstep n (by omega) t ht

/-! ## Programs without a panic of their own -/

/-- In every state `f` panics with the messages in `E` only. -/
def Throws (E : ε → Prop) (f : StateT σ (Except ε) α) : Prop :=
  ∀ s, Within E f s fun _ _ => True

theorem Throws.bind (h : Throws E f) (hg : ∀ a, Throws E (g a)) : Throws E (f >>= g) :=
  fun s => (h s).bind fun a t _ => hg a t

/-- From related states a program gives the same result, and related states. -/
def Respects (R : σ → σ → Prop) (f : StateT σ (Except ε) α) : Prop :=
  ∀ s t, R s t → ∀ a s', f s = .ok (a, s') → ∃ t', f t = .ok (a, t') ∧ R s' t'

variable {R : σ → σ → Prop}

theorem respects_pure {a : α} : Respects R (pure a : StateT σ (Except ε) α) := by
  rintro s t hst b s' ⟨⟩
  exact ⟨t, rfl, hst⟩

theorem respects_throw {e : ε} : Respects R (throw e : StateT σ (Except ε) α) := by
  rintro s t hst b s' ⟨⟩

theorem respects_modify {u : σ → σ} (h : ∀ s t, R s t → R (u s) (u t)) :
    Respects R (modify u : StateT σ (Except ε) PUnit) := by
  rintro s t hst b s' ⟨⟩
  exact ⟨u t, rfl, h s t hst⟩

theorem Respects.bind (hf : Respects R f) (hg : ∀ a, Respects R (g a)) : Respects R (f >>= g) := by
  intro s t hst b s'' hrun
  obtain ⟨a, s', hfs, hgs⟩ : ∃ a s', f s = .ok (a, s') ∧ g a s' = .ok (b, s'') := by
    simp only [Bind.bind, StateT.bind, Except.bind] at hrun
    split at hrun
    · cases hrun
    · rename_i p hp
      exact ⟨p.1, p.2, hp, hrun⟩
  obtain ⟨t', hft, hst'⟩ := hf s t hst a s' hfs
  obtain ⟨t'', hgt, hst''⟩ := hg a s' t' hst' b s'' hgs
  refine ⟨t'', ?_, hst''⟩
  simp only [Bind.bind, StateT.bind, Except.bind, hft, hgt]

/-- A program that reads the state first, and of it only what related states share. -/
theorem respects_get_bind {g : σ → StateT σ (Except ε) β} (h : ∀ s t, R s t → g t = g s)
    (hg : ∀ s, Respects R (g s)) : Respects R (get >>= g) := by
  intro s t hst b s' hrun
  obtain ⟨t', ht, hst'⟩ := hg s s t hst b s' hrun
  refine ⟨t', ?_, hst'⟩
  rw [← h s t hst] at ht
  exact ht

theorem respects_ite {p : Prop} [Decidable p] {f' : StateT σ (Except ε) α} (h : Respects R f)
    (h' : Respects R f') : Respects R (if p then f else f') := by
  split
  · exact h
  · exact h'

end Eff
