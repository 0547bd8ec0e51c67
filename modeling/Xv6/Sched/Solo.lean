import Xv6.Sched.Invariant

/-!
# One process running alone

While only one CPU makes steps and its process does not switch, a call is a sequential
program: what it does to the process table, the locks and the counter of ids is followed
here command by command.
-/

namespace Xv6.Sched

open LockCode Runs Function

variable {C : Type} [DecidableEq C]

/-- CPU `c` runs process `p` with the code `k` still before it. -/
structure At (c : C) (p : ℕ) (s : State C) (proc : ℕ → Proc) (holder : Lock → Option C)
    (nextpid : ℤ) (k : Code) : Prop where
  thread : s.thread c = some p
  code : s.code p = k
  proc : s.proc = proc
  holder : s.holder = holder
  nextpid : s.nextpid = nextpid

/-- Steps of CPU `c` lead from one state to the other. -/
def Solo (c : C) (s t : State C) : Prop :=
  ∃ chs : List Choice, exec step s (chs.map fun ch => ⟨c, ch⟩) = some t

variable {c : C} {p i : ℕ} {s t u : State C} {P : ℕ → Proc} {H : Lock → Option C} {n : ℤ}
  {lk : Lock} {k : Code} {ch : Choice} {a : Act}

theorem Solo.refl (s : State C) : Solo c s s := ⟨[], rfl⟩

theorem Solo.trans (h : Solo c s t) (h' : Solo c t u) : Solo c s u := by
  obtain ⟨chs, hs⟩ := h
  obtain ⟨chs', hs'⟩ := h'
  refine ⟨chs ++ chs', ?_⟩
  rw [List.map_append, exec_append, hs]
  exact hs'

theorem Solo.step (h : Sched.step s ⟨c, ch⟩ = some t) : Solo c s t :=
  ⟨[ch], by rw [List.map_singleton, exec_cons]; exact ⟨t, h, rfl⟩⟩

/-- From every such state the code leads to one of the other kind. -/
def Leads (c : C) (p : ℕ) (P : ℕ → Proc) (H : Lock → Option C) (n : ℤ) (k : Code)
    (P' : ℕ → Proc) (H' : Lock → Option C) (n' : ℤ) (k' : Code) : Prop :=
  ∀ s, At c p s P H n k → ∃ t, Solo c s t ∧ At c p t P' H' n' k'

section

variable {P' P'' : ℕ → Proc} {H' H'' : Lock → Option C} {n' n'' : ℤ} {k' k'' : Code}

theorem Leads.trans (h : Leads c p P H n k P' H' n' k')
    (h' : Leads c p P' H' n' k' P'' H'' n'' k'') :
    Leads c p P H n k P'' H'' n'' k'' := by
  intro s hs
  obtain ⟨t, ht, hat⟩ := h s hs
  obtain ⟨u, hu, hau⟩ := h' t hat
  exact ⟨u, ht.trans hu, hau⟩

end

theorem leads_acquire (hfree : H lk = none) :
    Leads c p P H n (.acquire lk :: k) P (update H lk (some c)) n k := by
  intro s hs
  have hstep : Sched.step s ⟨c, .go⟩ = some ((s.acquire c lk).setCode c k (some p)) := by
    rw [step_command rfl, State.command, hs.thread, State.codeOf, hs.code]
    simp [hs.holder, hfree]
  refine ⟨_, .step hstep, ?_, ?_, hs.proc, ?_, hs.nextpid⟩
  · simpa [State.thread, State.setCode, State.acquire, State.setCpu] using hs.thread
  · exact update_self ..
  · simp [State.setCode, State.acquire, State.setCpu, hs.holder]

theorem leads_release (lk : Lock) (hown : H lk = some c) :
    Leads c p P H n (.release lk :: k) P (update H lk none) n k := by
  intro s hs
  have hstep : Sched.step s ⟨c, .go⟩ = some ((s.release c lk).setCode c k (some p)) := by
    rw [step_command rfl, State.command, hs.thread, State.codeOf, hs.code]
    simp [hs.holder, hown]
  refine ⟨_, .step hstep, ?_, ?_, hs.proc, ?_, hs.nextpid⟩
  · simpa [State.thread, State.setCode, State.release, State.setCpu] using hs.thread
  · exact update_self ..
  · simp [State.setCode, State.release, State.setCpu, hs.holder]

theorem leads_act (ch : Choice) (push : Code) (hch : ch.isInterrupt = false) {P' : ℕ → Proc}
    {n' : ℤ}
    (hact : ∀ s, At c p s P H n (.act a :: k) → ∃ s1, s.act c ch a = some (s1, push) ∧
      s1.cpu = s.cpu ∧ s1.proc = P' ∧ s1.holder = H ∧ s1.nextpid = n') :
    Leads c p P H n (.act a :: k) P' H n' (push ++ k) := by
  intro s hs
  obtain ⟨s1, hs1, hcpu, hproc, hholder, hnext⟩ := hact s hs
  have hstep : Sched.step s ⟨c, ch⟩ = some (s1.setCode c (push ++ k) (some p)) := by
    rw [step_command hch, State.command, hs.thread, State.codeOf, hs.code]
    simp [hs1]
  refine ⟨_, .step hstep, ?_, ?_, hproc, hholder, hnext⟩
  · simpa [State.thread, State.setCode, hcpu] using hs.thread
  · exact update_self ..

theorem leads_still (ch : Choice) (push : Code) (hch : ch.isInterrupt = false)
    (hact : ∀ s, At c p s P H n (.act a :: k) → s.act c ch a = some (s, push)) :
    Leads c p P H n (.act a :: k) P H n (push ++ k) :=
  leads_act ch push hch fun s hs => ⟨s, hact s hs, rfl, hs.proc, hs.holder, hs.nextpid⟩

theorem leads_locked (hfree : H (.proc i) = none) {P' : ℕ → Proc} {n' : ℤ} {k' : Code}
    (h : Leads c p P (update H (.proc i) (some c)) n k P'
      (update H (.proc i) (some c)) n' (.release (.proc i) :: k')) :
    Leads c p P H n (.acquire (.proc i) :: k) P' H n' k' := by
  refine (leads_acquire hfree).trans (h.trans ?_)
  have hrelease := leads_release (c := c) (p := p) (P := P') (n := n') (k := k')
    (H := update H (.proc i) (some c)) (.proc i) (update_self ..)
  rwa [update_idem, ← hfree, update_eq_self] at hrelease

end Xv6.Sched
