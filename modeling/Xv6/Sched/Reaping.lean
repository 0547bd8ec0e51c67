import Xv6.Sched.WaitLock

/-!
# Children are reaped exactly once

The invariants of the earlier modules hold in every reachable state. Together they
say how a zombie ends: by the wait call of its parent, once, with the status of its
exit; and that no parent sleeps through it.
-/

namespace Xv6.Sched

open LockCode Runs

variable {C : Type} [DecidableEq C] {s s1 s' : State C} {c : C} {ch : Choice} {push k : Code}

/-- What holds in every reachable state. -/
structure Sound (s : State C) : Prop where
  inv : Inv s
  family : Family s
  history : History s
  wakeful : Wakeful s.view

theorem Sound.step (h : Sound s) {l : Label C} (hstep : Sched.step s l = some s') : Sound s' where
  inv := h.inv.step hstep
  family := h.family.step h.inv hstep
  history := h.history.step h.inv h.family hstep
  wakeful := h.wakeful.step h.inv h.family hstep

theorem sound_run {ls : List (Label C)} (h : exec step boot ls = some s) : Sound s :=
  exec_invariant (fun _ _ _ hi hs => hi.step hs)
    ⟨inv_boot, family_boot, history_boot, wakeful_boot⟩ h

/-- The record of one reaping: the parent `p` of the zombie `q` frees its slot in a call
that accepts it, and no other slot changes. -/
structure Reaps (s s' : State C) (c : C) (p q : ℕ) (w : WaitCall) : Prop where
  caller : s.thread c = some p
  parent : (s.proc q).parent = some p
  wants : w.wants (s.proc q).pid
  zombie : (s.proc q).state = .zombie
  freed : (s'.proc q).state = .unused
  others : ∀ j ≠ q, s'.proc j = s.proc j
  logged : s'.hist = s.hist ++ [.reap p q w (s.proc q).pid (s.proc q).xstate]

theorem Sound.look (h : Sound s) {p q : ℕ} {w : WaitCall}
    (hcode : s.codeAt (s.cur c) = .act (.look p w q) :: k)
    (hact : s.act c ch (.look p w q) = some (s1, push)) :
    Reaps s (s1.setCode c (push ++ k) (s.thread c)) c p q w ∨ s1 = s := by
  obtain ⟨R, -, ⟨ht, -⟩, -⟩ := h.inv.side hcode
  have hacc := h.family.accepted p w q (h.inv.live_thread ht)
    (by rw [cur_of_thread ht] at hcode; simp [show s.code p = _ from hcode])
  simp only [State.act] at hact
  split_ifs at hact with hz hf <;> cases hact
  · exact .inr rfl
  · exact .inr rfl
  · left
    constructor
    · exact ht
    · exact parent_of_accepts hacc
    · exact wants_of_accepts hacc
    · exact hz
    · rw [setCode_proc, log_proc, setProc_self]; rfl
    · intro j hj
      rw [setCode_proc, log_proc, setProc_of_ne _ hj]
    · rw [setCode_hist]; rfl
  · exact .inr rfl

theorem Sound.zombie_end (h : Sound s) {l : Label C} (hstep : Sched.step s l = some s') {q : ℕ}
    (hz : (s.proc q).state = .zombie) (hz' : (s'.proc q).state ≠ .zombie) :
    ∃ p w, Reaps s s' l.cpu p q w := by
  rcases step_act_or (step_inv hstep) with ⟨a, k, s1, push, hcode, hact, rfl⟩ | ⟨hp, -⟩
  · rw [setCode_proc] at hz'
    rcases (hz ▸ h.inv.act_change hcode hact q).of_zombie with he | ⟨p, w, rfl, -⟩
    · exact absurd he hz'
    · rcases h.look hcode hact with hr | rfl
      · exact ⟨p, w, hr⟩
      · exact absurd hz hz'
  · exact absurd (hp ▸ hz) hz'

theorem Sound.reap_logged (h : Sound s) {l : Label C} (hstep : Sched.step s l = some s')
    {p q : ℕ} {w : WaitCall} {pid status : ℤ}
    (hlog : s'.hist = s.hist ++ [.reap p q w pid status]) :
    Reaps s s' l.cpu p q w ∧ pid = (s.proc q).pid ∧ status = (s.proc q).xstate := by
  rcases step_act_or (step_inv hstep) with ⟨a, k, s1, push, hcode, hact, rfl⟩ | ⟨-, hh, -⟩
  · rw [setCode_hist] at hlog
    rcases act_hist hact with he | ⟨e, he, hl⟩
    · simp [he] at hlog
    · obtain rfl : e = .reap p q w pid status := by
        rw [he] at hlog
        simpa using hlog
      cases hl with
      | reap _ _ _ hz hu =>
        rcases h.look hcode hact with hr | rfl
        · exact ⟨hr, rfl, rfl⟩
        · simp at he
  · simp [hh] at hlog

omit [DecidableEq C] in
theorem Sound.no_lost_wakeup (h : Sound s) {p : ℕ} {w : WaitCall} {i : ℕ} {havekids : Bool}
    (hs : (s.proc p).state = .sleeping) (hscan : .act (.scan p w i havekids) ∈ s.code p)
    (hfree : s.holder .wait = none) {q : ℕ} (hacc : w.accepts p (s.proc q) = true) :
    (s.proc q).state ≠ .zombie := by
  intro hz
  have hlive : (s.proc p).state ≠ .unused := by simp [hs]
  have hout := h.inv.outside hlive fun c _ => by simp [hfree]
  have hd : Dozing s.view p w :=
    ⟨hlive, ⟨i, havekids, scan_view.mpr hscan⟩,
      fun hm => hout.scan p w i havekids hscan (mem_view.mp hm).1, .inr hs⟩
  obtain ⟨r, j, hr, -⟩ := h.wakeful.wake p w q hd hacc hz
  obtain ⟨c, hc, -⟩ := waiter_eq_some.mp hr
  simp [hfree] at hc

/-- In every state that any number of CPUs reaches:
the recorded exits and wait calls are such that a call reaps a slot only if the last
event of the slot is its exit, with the status of that exit and with a pid the call asks
for, that a call reaps at most one child and returns the value for it, and that a call
which returns -1 for a missing child, a kill or a failed `copyout` has reaped none;
a zombie still has the status of its exit, ends only when its parent reaps it in one
of the calls, and every recorded reaping is such a step; and while `wait_lock` is free
no process sleeps in a call that would accept a zombie. -/
theorem reaping_exactlyOnce (ls : List (Label C)) (s : State C)
    (hrun : exec step boot ls = some s) :
    HistoryOk s.hist ∧
    (∀ q, (s.proc q).state = .zombie →
      lastLife q s.hist = some (.exit q (s.proc q).xstate)) ∧
    (∀ l s' q, step s l = some s' → (s.proc q).state = .zombie → (s'.proc q).state ≠ .zombie →
      ∃ p w, Reaps s s' l.cpu p q w) ∧
    (∀ l s' p q w pid status, step s l = some s' →
      s'.hist = s.hist ++ [.reap p q w pid status] →
      Reaps s s' l.cpu p q w ∧ pid = (s.proc q).pid ∧ status = (s.proc q).xstate) ∧
    ∀ p w i havekids, (s.proc p).state = .sleeping → .act (.scan p w i havekids) ∈ s.code p →
      s.holder .wait = none → ∀ q, w.accepts p (s.proc q) = true →
        (s.proc q).state ≠ .zombie := by
  have h := sound_run hrun
  exact ⟨h.history.events, h.history.zombie, fun l s' q hstep => h.zombie_end hstep,
    fun l s' p q w pid status hstep => h.reap_logged hstep,
    fun p w i havekids hs hscan hfree q => h.no_lost_wakeup hs hscan hfree⟩

/-- The first process forks, waits and goes to sleep, the child exits with status 7, and
the first process wakes up and reaps it. -/
theorem reaping_exactlyOnce_forkWait : ∃ s : State (Fin 1),
    exec step boot (List.replicate 258 ⟨0, .go⟩ ++ [⟨0, .call (.spawn .kfork)⟩] ++
      List.replicate 18 ⟨0, .go⟩ ++ [⟨0, .call (.wait (.kwait true))⟩] ++
      List.replicate 337 ⟨0, .go⟩ ++ [⟨0, .call (.kexit 7)⟩] ++
      List.replicate 594 ⟨0, .go⟩) = some s ∧
    s.hist = [.begin 0 (.kwait true), .exit 1 7, .reap 0 1 (.kwait true) 2 7,
      .ret 0 (.kwait true) 2 (.reaped 1)] ∧ HistoryOk s.hist := by
  have hrun : (exec step (boot : State (Fin 1)) (List.replicate 258 ⟨0, .go⟩ ++
      [⟨0, .call (.spawn .kfork)⟩] ++ List.replicate 18 ⟨0, .go⟩ ++
      [⟨0, .call (.wait (.kwait true))⟩] ++ List.replicate 337 ⟨0, .go⟩ ++
      [⟨0, .call (.kexit 7)⟩] ++ List.replicate 594 ⟨0, .go⟩)).map State.hist =
      some [.begin 0 (.kwait true), .exit 1 7, .reap 0 1 (.kwait true) 2 7,
        .ret 0 (.kwait true) 2 (.reaped 1)] := by
    decide +kernel
  obtain ⟨s, hs, hhist⟩ := Option.map_eq_some_iff.mp hrun
  exact ⟨s, hs, hhist, (reaping_exactlyOnce _ s hs).1⟩

end Xv6.Sched
