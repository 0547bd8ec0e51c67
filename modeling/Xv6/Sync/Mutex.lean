import Xv6.Sync.Once

/-!
# Kernel mutexes

A mutex that is initialised once before use excludes and strands nobody. An init call
on a mutex in use does both: it frees the mutex under its holder and wakes no sleeper.
-/

namespace Xv6.Sync

open Runs Sched

variable {C : Type} [DecidableEq C]

section

variable {s t : State C} {l : Label C}

theorem soundOnce_run (o : Obj) {ls : List (Label C)}
    (hcond : Along step (fun s l => s.orderly l ∧ s.once o l) boot ls)
    (hrun : exec step boot ls = some s) : SoundOnce o s :=
  exec_along (I := fun _ s => SoundOnce o s) (soundOnce_boot o)
    (fun _ _ _ _ _ h hP hstep => h.step hP.1 hP.2 hstep) ls hcond hrun

omit [DecidableEq C] in
theorem Did.locks {id : Fin nkmutex} (h : Did s l t) (hs : (s.kmutexes id).locked = false)
    (ht : (t.kmutexes id).locked = true) :
    ∃ k, t.hist = s.hist ++ [.ret k (.mutexAcquire id) 0] := by
  cases h with
  | idle _ _ hsame => simp [hsame.locked, hs] at ht
  | begin _ _ _ _ _ _ _ _ hsame => simp [hsame.locked, hs] at ht
  | phase _ _ _ _ _ _ _ _ _ hsame => simp [hsame.locked, hs] at ht
  | body p x ph s1 r hp hat hrun hop hhist hsame =>
    rw [hsame.locked] at ht
    by_cases ho : x.obj = .mutex id
    · cases x <;> simp only [Op.obj, Obj.mutex.injEq, reduceCtorEq] at ho <;> subst ho <;>
        cases ph <;> simp only [State.run, reduceCtorEq] at hrun <;>
        (try split_ifs at hrun) <;> cases hrun <;>
        first | exact ⟨_, hhist⟩ | simp_all [State.setMutex]
    · have hready := (run_other hrun (Ne.symm ho)).mpr hs
      simp only [State.ready] at hready
      simp [hready] at ht

omit [DecidableEq C] in
/-- A call that returns -1 leaves the mutexes and semaphores as they are. -/
theorem Did.fails {k : ℕ} {x : Op} (h : Did s l t)
    (hhist : t.hist = s.hist ++ [.ret k x (-1)]) : Same s t := by
  obtain ⟨p, ph, s1, -, -, -, hrun, hsame⟩ := h.returns hhist
  cases x <;> cases ph <;> simp only [State.run, reduceCtorEq] at hrun <;>
    (try split_ifs at hrun) <;>
    simp only [Option.some.injEq, Prod.mk.injEq, reduceCtorEq, and_false] at hrun <;>
    first | (obtain ⟨rfl, -⟩ := hrun; exact hsame) | simp at hrun

end

/-- At most one process is between a successful acquire and its release, an acquire that
returns -1 does not take the mutex, and no process is left sleeping on a free mutex. -/
theorem mutex_excludes (id : Fin nkmutex) (ls : List (Label C)) (s : State C)
    (hcond : Along step (fun s l => s.orderly l ∧ s.once (.mutex id) l) boot ls)
    (hrun : exec step boot ls = some s) :
    (∀ k k', held s.hist k (.mutex id) = true → held s.hist k' (.mutex id) = true → k = k') ∧
    (∀ l t, step s l = some t →
      ((s.kmutexes id).locked = false → (t.kmutexes id).locked = true →
        ∃ k, t.hist = s.hist ++ [.ret k (.mutexAcquire id) 0]) ∧
      ∀ k, t.hist = s.hist ++ [.ret k (.mutexAcquire id) (-1)] →
        (t.kmutexes id).locked = (s.kmutexes id).locked) ∧
    (s.sched.holder (.cond (Obj.mutex id).num) = none → (s.kmutexes id).locked = false →
      ∀ p, ¬ Asleep s p (.mutex id)) := by
  have h := soundOnce_run (.mutex id) hcond hrun
  refine ⟨h.excl.unique, fun l t hstep => ?_, fun hfree hlocked p => ?_⟩
  · have hd := (step_moved hstep).did h.sound.staged h.sound.first
    exact ⟨hd.locks, fun k hk => (hd.fails hk).locked id⟩
  · exact h.sound.not_asleep rfl hfree hlocked

instance : NeZero nkmutex := ⟨by decide⟩

instance (s : State C) (p : ℕ) (o : Obj) : Decidable (Asleep s p o) :=
  inferInstanceAs (Decidable (_ ∧ _))

/-- A step of the only processor. -/
def cpu0 (ch : Choice) : Label (Fin 1) := ⟨0, ch⟩

def go (n : ℕ) : List (Label (Fin 1)) := List.replicate n (cpu0 (.sched .go))

/-- The first process initialises and takes mutex 0. -/
def takeMutex : List (Label (Fin 1)) :=
  go 258 ++ [cpu0 (.call (.mutexInit 0)), cpu0 .op] ++ go 1 ++ [cpu0 .op] ++ go 1 ++
    [cpu0 (.call (.mutexAcquire 0))] ++ go 1 ++ [cpu0 .op] ++ go 1

theorem mutex_excludes_takeMutex : ∃ s : State (Fin 1), exec step boot takeMutex = some s ∧
    Along step (fun s l => s.orderly l ∧ s.once (.mutex 0) l) boot takeMutex ∧
    held s.hist 0 (.mutex 0) = true ∧ ∀ k, held s.hist k (.mutex 0) = true → k = 0 := by
  have hrun : (exec step (boot : State (Fin 1)) takeMutex).map (fun s =>
      held s.hist 0 (.mutex 0)) = some true := by
    decide +kernel
  have hcond : Along step (fun s l => s.orderly l ∧ s.once (.mutex 0) l)
      (boot : State (Fin 1)) takeMutex := by decide +kernel
  obtain ⟨s, hs, hheld⟩ := Option.map_eq_some_iff.mp hrun
  exact ⟨s, hs, hcond, hheld,
    fun k hk => (mutex_excludes 0 takeMutex s hcond hs).1 k 0 hk hheld⟩

/-! ## Re-initialisation -/

section

variable {s : State C} {l : Label C}

/-- The objects of the two tables `kmutexes` and `ksems`. -/
def Obj.tabled : Obj → Bool
  | .mutex _ | .sem _ => true
  | .sleeplock _ => false

omit [DecidableEq C] in
theorem orderly_of_quiet (h : s.quiet (·.tabled) l) : s.orderly l := by
  rintro ⟨p, x⟩ hy hfresh
  have hinit := (fresh_iff.mp hfresh).1
  have htabled : x.obj.tabled = true := by
    cases x <;> first | rfl | simp [Op.isInit] at hinit
  have hcond := (h _ hy htabled).1
  simp only [hinit, if_true] at hcond
  exact hcond.1

theorem sound_run {ls : List (Label C)}
    (hcond : Along step (fun s l => s.quiet (·.tabled) l) boot ls)
    (hrun : exec step boot ls = some s) : Sound (·.tabled) s ∧ ∀ o : Obj, o.tabled → Excl s o :=
  exec_along (I := fun _ s => Sound (·.tabled) s ∧ ∀ o : Obj, o.tabled → Excl s o)
    ⟨sound_boot, fun o _ => excl_boot o⟩
    (fun _ _ _ _ _ h hP hstep => sound_step h (orderly_of_quiet hP) hP hstep) ls hcond hrun

end

/-- The first process takes mutex 0, forks twice and waits. The first child finds the
mutex locked and sleeps. -/
def contention : List (Label (Fin 1)) :=
  takeMutex ++ [cpu0 (.sched (.call (.spawn .kfork)))] ++ go 18 ++
    [cpu0 (.sched (.call (.spawn .kfork)))] ++ go 22 ++
    [cpu0 (.sched (.call (.wait (.kwait true))))] ++ go 340 ++
    [cpu0 (.call (.mutexAcquire 0))] ++ go 1 ++ [cpu0 .op] ++ go 1 ++ [cpu0 .op] ++ go 1 ++
    [cpu0 .op] ++ go 265

/-- While the first process holds mutex 0 and its first child sleeps on it, the second
child initialises it again: the sleeper stays asleep on a free mutex, and the second
child takes the mutex that the first process still holds. -/
theorem reinit_strands_and_shares : ∃ s t : State (Fin 1),
    exec step boot (contention ++ [⟨0, .call (.mutexInit 0)⟩, ⟨0, .sched .go⟩, ⟨0, .op⟩,
      ⟨0, .sched .go⟩]) = some s ∧
    Asleep s 1 (.mutex 0) ∧ s.sched.holder (.cond (Obj.mutex 0).num) = none ∧
    (s.kmutexes 0).locked = false ∧
    exec step s [⟨0, .call (.mutexAcquire 0)⟩, ⟨0, .sched .go⟩, ⟨0, .op⟩] = some t ∧
    held t.hist 0 (.mutex 0) = true ∧ held t.hist 2 (.mutex 0) = true := by
  have hrun : (exec step (boot : State (Fin 1)) (contention ++ [⟨0, .call (.mutexInit 0)⟩,
      ⟨0, .sched .go⟩, ⟨0, .op⟩, ⟨0, .sched .go⟩])).map (fun s =>
      (decide (Asleep s 1 (.mutex 0) ∧ s.sched.holder (.cond (Obj.mutex 0).num) = none ∧
        (s.kmutexes 0).locked = false),
      (exec step s [⟨0, .call (.mutexAcquire 0)⟩, ⟨0, .sched .go⟩, ⟨0, .op⟩]).map fun t =>
        held t.hist 0 (.mutex 0) && held t.hist 2 (.mutex 0))) = some (true, some true) := by
    decide +kernel
  obtain ⟨s, hs, h⟩ := Option.map_eq_some_iff.mp hrun
  obtain ⟨h1, h2⟩ := Prod.mk.inj h
  obtain ⟨t, ht, h3⟩ := Option.map_eq_some_iff.mp h2
  obtain ⟨hsleep, hfree, hlocked⟩ := of_decide_eq_true h1
  obtain ⟨hk, hk'⟩ := Bool.and_eq_true_iff.mp h3
  exact ⟨s, t, hs, hsleep, hfree, hlocked, ht, hk, hk'⟩

/-- If an init call on an object starts only when no call on it is in progress and no
process holds it, other calls on it start only when no init call on it is in progress,
and only the holder releases, then nobody is stranded and mutexes exclude. -/
theorem quiet_reinit_safe (ls : List (Label C)) (s : State C)
    (hcond : Along step (fun s l => s.quiet (·.tabled) l) boot ls)
    (hrun : exec step boot ls = some s) :
    (∀ id : Fin nkmutex, s.sched.holder (.cond (Obj.mutex id).num) = none →
      (s.kmutexes id).locked = false → ∀ p, ¬ Asleep s p (.mutex id)) ∧
    (∀ id : Fin nksem, s.sched.holder (.cond (Obj.sem id).num) = none →
      0 < (s.ksems id).count → ∀ p, ¬ Asleep s p (.sem id)) ∧
    ∀ (id : Fin nkmutex) k k', held s.hist k (.mutex id) = true →
      held s.hist k' (.mutex id) = true → k = k' := by
  obtain ⟨h, he⟩ := sound_run hcond hrun
  refine ⟨fun id hfree hlocked p => ?_, fun id hfree hcount p => ?_, fun id => ?_⟩
  · exact h.not_asleep rfl hfree hlocked
  · exact h.not_asleep rfl hfree (ne_of_gt hcount)
  · exact (he (.mutex id) rfl).unique

theorem quiet_reinit_safe_takeMutex : ∃ s : State (Fin 1), exec step boot takeMutex = some s ∧
    Along step (fun s l => s.quiet (·.tabled) l) boot takeMutex ∧
    ∀ (id : Fin nkmutex) k k', held s.hist k (.mutex id) = true →
      held s.hist k' (.mutex id) = true → k = k' := by
  have hrun : (exec step (boot : State (Fin 1)) takeMutex).isSome = true := by decide +kernel
  have hcond : Along step (fun s l => s.quiet (·.tabled) l)
      (boot : State (Fin 1)) takeMutex := by decide +kernel
  obtain ⟨s, hs⟩ := Option.isSome_iff_exists.mp hrun
  exact ⟨s, hs, hcond, (quiet_reinit_safe takeMutex s hcond hs).2.2⟩

end Xv6.Sync
