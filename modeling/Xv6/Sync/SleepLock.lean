import Xv6.Sync.Mutex

/-!
# Sleep-locks (`sleeplock.c`)

Sleep-locks have no init call, so the only condition on the callers is that
`releasesleep` is called by the holder. The pid stored in a locked sleep-lock is that
of the process that holds it.
-/

namespace Xv6.Sync

open LockCode Runs Sched

variable {C : Type} [DecidableEq C]

/-- `releasesleep` is called by the holder of the lock. -/
def State.byHolder (s : State C) (lk : ℕ) (l : Label C) : Prop :=
  ∀ y ∈ s.calls l, y.2 = .releasesleep lk → held s.hist (s.born y.1) (.sleeplock lk) = true

instance (s : State C) (lk : ℕ) (l : Label C) : Decidable (s.byHolder lk l) :=
  inferInstanceAs (Decidable (∀ y ∈ s.calls l, y.2 = .releasesleep lk → _))

section

variable {X : Obj → Prop} {s s1 t : State C} {l : Label C} {lk p q : ℕ} {x : Op} {o : Obj}
  {ph : Phase} {st : Stage} {r : Reply}

omit [DecidableEq C] in
theorem quiet_of_byHolder (h : s.byHolder lk l) : s.quiet (· = .sleeplock lk) l := by
  have hno : ∀ {x : Op}, x.obj = .sleeplock lk → x.isInit = false := by
    intro x hx
    cases x <;> first | rfl | cases hx
  rintro ⟨p, x⟩ hy hobj
  simp only [hno hobj]
  refine ⟨fun q _ z _ hz => hno (hz.trans hobj), fun hgive => ?_⟩
  have hx : x = .releasesleep lk := by
    cases x <;> simp_all [Op.obj, Op.gives]
  subst hx
  exact h _ hy rfl

/-- The pid in a locked sleep-lock is that of a process that holds it. -/
def Tagged (s : State C) (lk : ℕ) : Prop :=
  (s.sleeplocks lk).locked = true →
    ∃ k, held s.hist k (.sleeplock lk) = true ∧ s.pids[k]? = some (s.sleeplocks lk).pid

omit [DecidableEq C] in
theorem run_sleeplock (h : s.run p x ph = some (s1, r)) (ho : x.obj ≠ .sleeplock lk) :
    s1.sleeplocks lk = s.sleeplocks lk := by
  have hset : ∀ lk' v, lk' ≠ lk → (s.setSleepLock lk' v).sleeplocks lk = s.sleeplocks lk :=
    fun lk' v hne => Function.update_of_ne (Ne.symm hne) ..
  cases x <;> cases ph <;> simp only [State.run, reduceCtorEq] at h <;>
    (try split_ifs at h) <;> cases h <;>
    first | rfl | exact hset _ _ fun he => ho (congrArg Obj.sleeplock he)

omit [DecidableEq C] in
theorem Tagged.frame (ht : Tagged s lk) (hg : Grown s t)
    (hlock : t.sleeplocks lk = s.sleeplocks lk)
    (hheld : ∀ k, held t.hist k (.sleeplock lk) = held s.hist k (.sleeplock lk)) :
    Tagged t lk := by
  intro hlocked
  rw [hlock] at hlocked ⊢
  obtain ⟨k, hk, hpid⟩ := ht hlocked
  exact ⟨k, (hheld k).trans hk, hg.pid hpid⟩

omit [DecidableEq C] in
theorem Tagged.did (ht : Tagged s lk) (he : Excl s (.sleeplock lk)) (hb : Births s)
    (hs : Staged s) (hg : Grown s t) (hd : Did s l t) : Tagged t lk := by
  cases hd with
  | idle hop hhist hsame =>
    refine ht.frame hg (by rw [hsame.sleeplocks]) fun k => ?_
    rcases hhist with hh | ⟨k', call, hh⟩
    · rw [hh]
    · rw [hh, held_append]
  | begin p x ph hcalls hnone hph hop hhist hsame =>
    exact ht.frame hg (by rw [hsame.sleeplocks]) fun k => by rw [hhist, held_append]
  | phase p x ph ph' hp hph hph' hop hhist hsame =>
    exact ht.frame hg (by rw [hsame.sleeplocks]) fun k => by rw [hhist]
  | body p x ph s1 r hp hat hrun hop hhist hsame =>
    have hlock : t.sleeplocks lk = s1.sleeplocks lk := by rw [hsame.sleeplocks]
    by_cases ho : x.obj = .sleeplock lk
    · rcases run_cases hrun (by simp [ho]) with ⟨h1, rfl, rfl, h4, h5⟩ |
        ⟨h1, rfl, rfl, h4⟩ | ⟨h1, rfl, rfl, rfl⟩ | ⟨h1, h2⟩ | ⟨h1, rfl, h3, h4⟩
      · -- the lock is taken, and stores the pid of the caller
        intro _
        have hx : x = .acquiresleep lk := by
          cases x <;> simp_all [Op.obj, Op.takes]
        subst hx
        refine ⟨s.born p, ?_, ?_⟩
        · rw [hhist, held_reply]
          simp [Op.obj, Op.takes]
        · rw [hlock, hg.pid (hb.pid p (hs.live (by simp [hp])))]
          replace h4 : (s.sleeplocks lk).locked = false := h4
          simp only [State.run, h4] at hrun
          cases hrun
          simp [State.setSleepLock]
      · intro hlocked
        rw [ho] at h4
        rw [hlock] at hlocked
        rw [State.ready, hlocked] at h4
        cases h4
      · intro hlocked
        have hready := he.woken p x hp ho h1
        rw [hlock] at hlocked
        rw [State.ready, hlocked] at hready
        cases hready
      · cases x <;> simp [Op.isInit, Op.obj] at h1 ho
      · refine ht.frame hg hlock fun k => ?_
        rw [hhist, held_reply]
        split_ifs with hr
        · simp [h4 hr.1]
        · rfl
    · refine ht.frame hg (hlock.trans (run_sleeplock hrun ho)) fun k => ?_
      rw [hhist, held_reply, if_neg fun hk => ho hk.2.2]

omit [DecidableEq C] in
/-- Between the check of the condition and the sleep no `wakeup` on the same object
looks at the process. -/
theorem no_wakeup_between (h : Sound X s) (hat : s.At p o ph st)
    (hst : st.waits ph = true ∨ Falls s p o) : ¬ s.At q o .woken (.wakeLook p) := by
  intro hwake
  obtain ⟨c, hc, -⟩ := h.staged.holder hwake rfl
  rcases hst with hw | hf
  · obtain rfl := h.staged.alone hat (Stage.inside_of_waits hw) hwake rfl
    obtain ⟨-, rfl, rfl⟩ := hat.inj hwake
    simp [Stage.waits] at hw
  · obtain ⟨c', hc', hown'⟩ := falls_holder h.staged h.alert hf
    have hown : s.sched.holder (.proc p) = some c := by
      obtain ⟨R, hR, -, hty⟩ := h.staged.inv.typed c
      rw [hc, cur_of_thread hc, State.codeAt, hwake.code] at hty
      exact (hR _).mpr hty.1.1.1
    obtain rfl := Option.some.inj (hown.symm.trans hown')
    obtain rfl := Option.some.inj (hc'.symm.trans hc)
    rcases hf with hf | hf <;> simpa using (hf.inj hwake).2.1

/-- The invariant of runs in which the holder releases the lock. -/
structure SoundLock (lk : ℕ) (s : State C) : Prop where
  sound : Sound (· = .sleeplock lk) s
  excl : Excl s (.sleeplock lk)
  tagged : Tagged s lk

theorem SoundLock.step (h : SoundLock lk s) (ho : s.orderly l) (hc : s.byHolder lk l)
    (hstep : step s l = some t) : SoundLock lk t := by
  have hq := quiet_of_byHolder hc
  have hm := step_moved hstep
  have hg := hm.grown h.sound.staged.inv (h.sound.first.lockFree l.cpu)
  have hd := hm.did h.sound.staged h.sound.first
  exact ⟨h.sound.moved ho hq hm, h.excl.did h.sound rfl hg hq hd,
    h.tagged.did h.excl h.sound.births h.sound.staged hg hd⟩

theorem soundLock_run {ls : List (Label C)}
    (hcond : Along step (fun s l => s.orderly l ∧ s.byHolder lk l) boot ls)
    (hrun : exec step boot ls = some s) : SoundLock lk s :=
  exec_along (I := fun _ s => SoundLock lk s)
    ⟨sound_boot, excl_boot _, fun h => by simp [boot] at h⟩
    (fun _ _ _ _ _ h hP hstep => h.step hP.1 hP.2 hstep) ls hcond hrun

omit [DecidableEq C] in
theorem SoundLock.holding (h : SoundLock lk s) (hd : Did s l t) (hpids : s.pids.Nodup) {k : ℕ}
    {v : ℤ} (hhist : t.hist = s.hist ++ [.ret k (.holdingsleep lk) v]) :
    (v = 0 ∨ v = 1) ∧ (v = 1 ↔ held s.hist k (.sleeplock lk) = true) := by
  obtain ⟨p, ph, s1, hp, rfl, hat, hrun, -⟩ := hd.returns hhist
  have hpid := h.sound.births.pid p (h.sound.staged.live (by simp [hp]))
  cases ph <;> simp only [State.run, Option.some.injEq, Prod.mk.injEq, Reply.ret.injEq,
    reduceCtorEq] at hrun
  obtain ⟨-, rfl⟩ := hrun
  split_ifs with hmine
  · refine ⟨.inr rfl, fun _ => ?_, fun _ => rfl⟩
    obtain ⟨k, hk, htag⟩ := h.tagged hmine.1
    rw [hmine.2] at htag
    have hlt := (List.getElem?_eq_some_iff.mp htag).1
    rwa [← (List.getElem?_inj hlt hpids).mp (htag.trans hpid.symm)]
  · refine ⟨.inl rfl, fun h0 => absurd h0 (by simp), fun hheld => absurd ?_ hmine⟩
    have hlocked : (s.sleeplocks lk).locked = true := by
      by_contra hfree
      obtain ⟨q, y, hq, hgive, hy⟩ := h.excl.locked _ hheld (by simpa [State.ready] using hfree)
      obtain rfl := woken_self h.sound hat hq hy
      rw [hp] at hq
      cases hq
    obtain ⟨k, hk, htag⟩ := h.tagged hlocked
    rw [h.excl.unique k _ hk hheld, hpid] at htag
    exact ⟨hlocked, (Option.some.inj htag).symm⟩

end

/-- At most one process is between `acquiresleep` and `releasesleep`; `holdingsleep` is
true exactly for that process; no process is left sleeping on a free lock, since no
`wakeup` comes between a process's check of the lock and its sleep. -/
theorem sleeplock_excludes (lk : ℕ) (ls : List (Label C)) (s : State C)
    (hcond : Along step (fun s l => s.orderly l ∧ s.byHolder lk l) boot ls)
    (hrun : exec step boot ls = some s) :
    (∀ k k', held s.hist k (.sleeplock lk) = true → held s.hist k' (.sleeplock lk) = true →
      k = k') ∧
    (s.pids.Nodup → ∀ l t k v, step s l = some t →
      t.hist = s.hist ++ [.ret k (.holdingsleep lk) v] →
      (v = 0 ∨ v = 1) ∧ (v = 1 ↔ held s.hist k (.sleeplock lk) = true)) ∧
    (s.sched.holder (.cond (Obj.sleeplock lk).num) = none → (s.sleeplocks lk).locked = false →
      ∀ p, ¬ Asleep s p (.sleeplock lk)) ∧
    ∀ p q ph st, s.At p (.sleeplock lk) ph st →
      (st.waits ph = true ∨ Falls s p (.sleeplock lk)) →
      ¬ s.At q (.sleeplock lk) .woken (.wakeLook p) := by
  have h := soundLock_run hcond hrun
  refine ⟨h.excl.unique, fun hpids l t k v hstep hhist => ?_, fun hfree hlocked p => ?_,
    fun p q ph st hat hst => ?_⟩
  · exact h.holding ((step_moved hstep).did h.sound.staged h.sound.first) hpids hhist
  · exact h.sound.not_asleep rfl hfree hlocked
  · exact no_wakeup_between h.sound hat hst

/-- The first process takes sleep-lock 0. -/
def takeSleepLock : List (Label (Fin 1)) :=
  go 258 ++ [cpu0 (.call (.acquiresleep 0))] ++ go 1 ++ [cpu0 .op] ++ go 1

theorem sleeplock_excludes_takeSleepLock : ∃ s : State (Fin 1),
    exec step boot takeSleepLock = some s ∧
    Along step (fun s l => s.orderly l ∧ s.byHolder 0 l) boot takeSleepLock ∧
    held s.hist 0 (.sleeplock 0) = true ∧
    ∀ k, held s.hist k (.sleeplock 0) = true → k = 0 := by
  have hrun : (exec step (boot : State (Fin 1)) takeSleepLock).map (fun s =>
      held s.hist 0 (.sleeplock 0)) = some true := by
    decide +kernel
  have hcond : Along step (fun s l => s.orderly l ∧ s.byHolder 0 l)
      (boot : State (Fin 1)) takeSleepLock := by decide +kernel
  obtain ⟨s, hs, hheld⟩ := Option.map_eq_some_iff.mp hrun
  exact ⟨s, hs, hcond, hheld,
    fun k hk => (sleeplock_excludes 0 takeSleepLock s hcond hs).1 k 0 hk hheld⟩

end Xv6.Sync
