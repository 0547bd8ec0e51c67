import Xv6.Sync.Conduct

/-!
# Mutual exclusion

A process holds an object from the call that took it to the one that gives it back.
At most one process does, and while one does the object is locked, except under the
spinlock of a call that gives it back and has not returned.
-/

namespace Xv6.Sync

open LockCode Sched Function

variable {C : Type} [DecidableEq C]

section

variable {X : Obj → Prop} {s s1 t : State C} {l : Label C} {p q : ℕ} {x y : Op} {o : Obj}
  {ph : Phase} {r : Reply}

/-! ## Bodies and holders -/

theorem held_reply (hist : List Event) (r : Reply) (k' k : ℕ) (x : Op) (o : Obj) :
    held (hist ++ r.events k' x) k o =
      if r = .ret 0 ∧ k' = k ∧ x.obj = o then x.takes || held hist k o && !x.gives
      else held hist k o := by
  cases r with
  | ret v =>
    by_cases hv : v = 0
    · subst hv
      simp only [Reply.events, held_append, true_and]
    · rw [Reply.events, held_append]
      simp only [Reply.ret.injEq, hv, false_and, if_false]
      split
      · rename_i h
        cases h
        exact absurd rfl hv
      · rfl
  | _ => simp [Reply.events]

omit [DecidableEq C] in
/-- What the bodies of the calls on mutexes and sleep-locks do. -/
theorem run_cases (h : s.run p x ph = some (s1, r)) (hsem : ∀ id, x.obj ≠ .sem id) :
    (x.takes = true ∧ ph = .loop ∧ r = .ret 0 ∧ s.ready x.obj ∧ ¬ s1.ready x.obj) ∨
    (x.gives = true ∧ ph = .loop ∧ r = .wakeup ∧ s1.ready x.obj) ∨
    (x.gives = true ∧ ph = .woken ∧ r = .ret 0 ∧ s1 = s) ∨
    (x.isInit = true ∧ r = .ret 0) ∨
    (ph ≠ .woken ∧ s1 = s ∧ r ≠ .wakeup ∧ (r = .ret 0 → x.takes = false ∧ x.gives = false)) := by
  cases x <;> cases ph <;> simp only [State.run, reduceCtorEq] at h <;>
    (try split_ifs at h) <;> cases h <;>
    simp_all [Op.takes, Op.gives, Op.isInit, Op.obj, State.ready, State.setMutex,
      State.setSleepLock]

omit [DecidableEq C] in
theorem woken_at (hs : Staged s) (hop : s.op p = some (x, .woken)) :
    ∃ st, s.At p x.obj .woken st ∧ st.inside = true := by
  have hshape := hs.shape p (hs.live (by simp [hop]))
  rw [hop] at hshape
  generalize hk : s.sched.code p = k at hshape
  cases hshape with
  | stage st hfit =>
    refine ⟨st, ⟨⟨x, hop, rfl⟩, hk, hfit⟩, ?_⟩
    cases st <;> first | rfl | simp [Stage.fits] at hfit

omit [DecidableEq C] in
theorem calls_live (hs : Staged s) (h : s.calls l = some (p, x)) :
    (s.sched.proc p).state ≠ .unused := by
  unfold State.calls at h
  split at h
  · rename_i call q _ hnext
    obtain ⟨y, -, he⟩ := Option.map_eq_some_iff.mp h
    cases he
    exact hs.inv.live_cur l.cpu p (cur_of_thread (next_user hs.inv hnext).1)
  · cases h

/-! ## The invariant of one object -/

structure Excl (s : State C) (o : Obj) : Prop where
  bound : ∀ k, held s.hist k o = true → k < s.pids.length
  unique : ∀ k k', held s.hist k o = true → held s.hist k' o = true → k = k'
  locked : ∀ k, held s.hist k o = true → s.ready o →
    ∃ q x, s.op q = some (x, .woken) ∧ x.gives = true ∧ x.obj = o
  gives : ∀ p x ph, s.op p = some (x, ph) → x.obj = o → x.gives = true →
    held s.hist (s.born p) o = true
  inits : ∀ p x ph, s.op p = some (x, ph) → x.obj = o → x.isInit = true →
    ∀ k, held s.hist k o = false
  woken : ∀ p x, s.op p = some (x, .woken) → x.obj = o → x.gives = true → s.ready o

omit [DecidableEq C] in
theorem Excl.sem (s : State C) (id : Fin nksem) : Excl s (.sem id) := by
  have hno : ∀ {x : Op}, x.obj = .sem id → x.gives = false := by
    intro x hx
    cases x <;> simp_all [Op.obj, Op.gives]
  refine ⟨?_, ?_, ?_, fun p x ph _ hx hgive => ?_, fun _ _ _ _ _ _ k => held_sem _ _ _,
    fun p x _ hx hgive => ?_⟩
  · simp [held_sem]
  · simp [held_sem]
  · simp [held_sem]
  · simp [hno hx] at hgive
  · simp [hno hx] at hgive

omit [DecidableEq C] in
theorem Excl.frame (he : Excl s o) (hs : Staged s) (hg : Grown s t)
    (hheld : ∀ k, held t.hist k o = held s.hist k o) (hready : t.ready o ↔ s.ready o)
    (hwoken : ∀ q x, x.obj = o → x.gives = true →
      (t.op q = some (x, .woken) ↔ s.op q = some (x, .woken)))
    (hop : ∀ q x ph, x.obj = o → t.op q = some (x, ph) → (∃ ph', s.op q = some (x, ph')) ∨
      (x.gives = true → held s.hist (t.born q) o = true) ∧
        (x.isInit = true → ∀ k, held s.hist k o = false)) : Excl t o := by
  refine ⟨?_, ?_, ?_, ?_, ?_, ?_⟩ <;> simp only [hheld, hready]
  · intro k hk
    exact lt_of_lt_of_le (he.bound k hk) hg.pids.length_le
  · exact he.unique
  · intro k hk hr
    obtain ⟨q, x, hq, hgive, ho⟩ := he.locked k hk hr
    exact ⟨q, x, (hwoken q x ho hgive).mpr hq, hgive, ho⟩
  · intro q x ph hq ho hgive
    rcases hop q x ph ho hq with ⟨ph', hq'⟩ | ⟨hh, -⟩
    · rw [hg.born q (hs.live (by simp [hq']))]
      exact he.gives q x ph' hq' ho hgive
    · exact hh hgive
  · intro q x ph hq ho hx
    rcases hop q x ph ho hq with ⟨ph', hq'⟩ | ⟨-, hh⟩
    · exact he.inits q x ph' hq' ho hx
    · exact hh hx
  · intro q x hq ho hgive
    exact he.woken q x ((hwoken q x ho hgive).mp hq) ho hgive

omit [DecidableEq C] in
theorem Excl.clear (hnone : ∀ k, held t.hist k o = false)
    (hgive : ∀ q x ph, t.op q = some (x, ph) → x.obj = o → x.gives = false) : Excl t o := by
  refine ⟨?_, ?_, ?_, fun q x ph hq ho hx => ?_, fun _ _ _ _ _ _ k => hnone k,
    fun q x hq ho hx => ?_⟩
  · simp [hnone]
  · simp [hnone]
  · simp [hnone]
  · simp [hgive q x ph hq ho] at hx
  · simp [hgive q x _ hq ho] at hx

/-! ## Decisions of the bodies -/

section

variable (he : Excl s x.obj) (h : Sound X s) (hX : X x.obj) (hg : Grown s t)
  (hp : s.op p = some (x, ph)) (hat : s.At p x.obj ph .body) (hsame : Same s1 t)
  (hop : t.op = update s.op p (r.op x))
  (hhist : t.hist = s.hist ++ r.events (s.born p) x)
include h hat

omit [DecidableEq C] in
theorem woken_self (hq : s.op q = some (y, .woken)) (hy : y.obj = x.obj) : q = p := by
  obtain ⟨st, hat', hin⟩ := woken_at h.staged hq
  rw [hy] at hat'
  exact h.staged.alone hat' hin hat rfl

include he hX hg hp hsame hop hhist

omit [DecidableEq C] in
theorem Excl.taken (htakes : x.takes = true) (hph : ph = .loop) (hr : r = .ret 0)
    (hready : s.ready x.obj) (hnot : ¬ s1.ready x.obj) : Excl t x.obj := by
  subst hph hr
  have hfree : ∀ k, held s.hist k x.obj = false := by
    intro k
    by_contra hk
    obtain ⟨q, y, hq, -, hy⟩ := he.locked k (by simpa using hk) hready
    obtain rfl := woken_self h hat hq hy
    rw [hp] at hq
    cases hq
  have hheld : ∀ k, held t.hist k x.obj = decide (s.born p = k) := by
    intro k
    rw [hhist, held_reply, hfree]
    by_cases hk : s.born p = k <;> simp [hk, htakes]
  have hother : ∀ {q y ph}, t.op q = some (y, ph) → q ≠ p ∧ s.op q = some (y, ph) := by
    intro q y ph hq
    rw [hop] at hq
    by_cases hqp : q = p
    · subst hqp; simp [Reply.op] at hq
    · rw [update_of_ne hqp] at hq
      exact ⟨hqp, hq⟩
  constructor
  · intro k hk
    rw [hheld, decide_eq_true_eq] at hk
    rw [← hk]
    exact lt_of_lt_of_le (h.births.bound (h.staged.live (by simp [hp]))) hg.pids.length_le
  · intro k k' hk hk'
    rw [hheld, decide_eq_true_eq] at hk hk'
    exact hk.symm.trans hk'
  · intro k _ hr
    exact absurd (hsame.ready.mp hr) hnot
  · intro q y ph hq hy hgive
    have := he.gives q y ph (hother hq).2 hy hgive
    simp [hfree] at this
  · intro q y ph hq hy hinit
    obtain ⟨hqp, hq'⟩ := hother hq
    exact absurd (h.apart q p y x ph .loop hq' hp hy (hy ▸ hX) hinit) hqp
  · intro q y hq hy _
    obtain ⟨hqp, hq'⟩ := hother hq
    exact absurd (woken_self h hat hq' hy) hqp

omit [DecidableEq C] hX in
theorem Excl.unlocked (hgives : x.gives = true) (hr : r = .wakeup)
    (hready : s1.ready x.obj) : Excl t x.obj := by
  subst hr
  have hheld : ∀ k, held t.hist k x.obj = held s.hist k x.obj := by
    intro k
    rw [hhist, held_reply, if_neg (by simp)]
  have hborn := hg.born p (h.staged.live (by simp [hp]))
  have hmine : t.op p = some (x, .woken) := by simp [hop, Reply.op]
  have hother : ∀ {q y ph}, q ≠ p → t.op q = some (y, ph) → s.op q = some (y, ph) := by
    intro q y ph hqp hq
    rwa [hop, update_of_ne hqp] at hq
  refine ⟨?_, ?_, ?_, ?_, ?_, fun _ _ _ _ _ => hsame.ready.mpr hready⟩ <;> simp only [hheld]
  · intro k hk
    exact lt_of_lt_of_le (he.bound k hk) hg.pids.length_le
  · exact he.unique
  · intro k _ _
    exact ⟨p, x, hmine, hgives, rfl⟩
  · intro q y ph hq hy hgive
    by_cases hqp : q = p
    · subst hqp
      rw [hborn]
      exact he.gives q x _ hp rfl hgives
    · have hq' := hother hqp hq
      rw [hg.born q (h.staged.live (by simp [hq']))]
      exact he.gives q y ph hq' hy hgive
  · intro q y ph hq hy hinit
    by_cases hqp : q = p
    · subst hqp
      rw [hmine] at hq
      cases hq
      cases x <;> simp [Op.gives, Op.isInit] at hgives hinit
    · exact he.inits q y ph (hother hqp hq) hy hinit

omit [DecidableEq C] hX hg hsame in
theorem Excl.returned (hgives : x.gives = true) (hr : r = .ret 0) : Excl t x.obj := by
  subst hr
  have hmine := he.gives p x ph hp rfl hgives
  have htakes : x.takes = false := by cases x <;> simp_all [Op.gives, Op.takes]
  refine Excl.clear (fun k => ?_) fun q y ph' hq hy => ?_
  · rw [hhist, held_reply]
    split_ifs with hk
    · simp [htakes, hgives]
    · by_contra hheld
      exact hk ⟨rfl, he.unique _ _ hmine (by simpa using hheld), rfl⟩
  · rw [hop] at hq
    by_cases hqp : q = p
    · subst hqp; simp [Reply.op] at hq
    · rw [update_of_ne hqp] at hq
      by_contra hgive
      have hq' := he.gives q y ph' hq hy (by simpa using hgive)
      exact hqp (h.births.inj q p (h.staged.live (by simp [hq])) (h.staged.live (by simp [hp]))
        (he.unique _ _ hq' hmine))

omit [DecidableEq C] hX hg hsame h hat in
theorem Excl.reset (hinit : x.isInit = true) (hr : r = .ret 0) : Excl t x.obj := by
  subst hr
  have hfree := he.inits p x ph hp rfl hinit
  have htakes : x.takes = false := by cases x <;> simp_all [Op.isInit, Op.takes]
  refine Excl.clear (fun k => ?_) fun q y ph' hq hy => ?_
  · rw [hhist, held_reply, hfree]
    simp [htakes]
  · rw [hop] at hq
    by_cases hqp : q = p
    · subst hqp; simp [Reply.op] at hq
    · rw [update_of_ne hqp] at hq
      by_contra hgive
      have := he.gives q y ph' hq hy (by simpa using hgive)
      simp [hfree] at this

end

omit [DecidableEq C] in
theorem Excl.did (he : Excl s o) (h : Sound X s) (hX : X o) (hg : Grown s t) (hq : s.quiet X l)
    (hd : Did s l t) : Excl t o := by
  cases hd with
  | idle hop hhist hsame =>
    refine he.frame h.staged hg (fun k => ?_) hsame.ready (fun q x _ _ => by rw [hop])
      fun q x ph _ hq => .inl ⟨ph, hop ▸ hq⟩
    rcases hhist with hh | ⟨k', call, hh⟩
    · rw [hh]
    · rw [hh, held_append]
  | begin p x ph hcalls hnone hph hop hhist hsame =>
    refine he.frame h.staged hg (fun k => by rw [hhist, held_append]) hsame.ready
      (fun q y _ _ => ?_) fun q y ph' hy hq' => ?_
    · rw [hop, update_apply]
      split_ifs with hqp
      · subst hqp; simp [hnone, hph]
      · rfl
    · rw [hop, update_apply] at hq'
      split_ifs at hq' with hqp
      · subst hqp
        cases hq'
        obtain ⟨hcond, howned⟩ := hq _ hcalls (hy ▸ hX)
        refine .inr ⟨fun hgive => ?_, fun hinit k => ?_⟩
        · rw [hg.born q (calls_live h.staged hcalls)]
          exact hy ▸ howned hgive
        · simp only [hinit, if_true] at hcond
          by_contra hk
          have hb := he.bound k (by simpa using hk)
          simp [hy ▸ hcond.2 k hb] at hk
      · exact .inl ⟨_, hq'⟩
  | phase p x ph ph' hp hph hph' hop hhist hsame =>
    refine he.frame h.staged hg (fun k => by rw [hhist]) hsame.ready
      (fun q y _ _ => ?_) fun q y ph'' hy hq' => ?_
    · rw [hop, update_apply]
      split_ifs with hqp
      · subst hqp; simp [hp, hph, hph']
      · rfl
    · rw [hop, update_apply] at hq'
      split_ifs at hq' with hqp
      · subst hqp
        cases hq'
        exact .inl ⟨_, hp⟩
      · exact .inl ⟨_, hq'⟩
  | body p x ph s1 r hp hat hrun hop hhist hsame =>
    by_cases hsem : ∃ id, o = .sem id
    · obtain ⟨id, rfl⟩ := hsem
      exact Excl.sem t id
    have hframe : ∀ (hready : t.ready o ↔ s.ready o)
        (_ : ∀ k, held t.hist k o = held s.hist k o)
        (_ : x.obj = o → x.gives = true → ph ≠ .woken ∧ r ≠ .wakeup), Excl t o := by
      intro hready hheld hwake
      refine he.frame h.staged hg hheld hready (fun q y hy hgive => ?_) fun q y ph' hy hq' => ?_
      · rw [hop, update_apply]
        split_ifs with hqp
        · subst hqp
          rw [hp]
          constructor
          · intro hr
            cases r <;> simp only [Reply.op, Option.some.injEq, Prod.mk.injEq, reduceCtorEq,
              and_false] at hr
            obtain ⟨rfl, -⟩ := hr
            exact absurd rfl (hwake hy hgive).2
          · intro hr
            cases hr
            exact absurd rfl (hwake hy hgive).1
        · rfl
      · rw [hop, update_apply] at hq'
        split_ifs at hq' with hqp
        · subst hqp
          cases r <;> cases hq' <;> exact .inl ⟨_, hp⟩
        · exact .inl ⟨_, hq'⟩
    by_cases ho : o = x.obj
    · subst ho
      rcases run_cases hrun (fun id he => hsem ⟨id, he⟩) with ⟨h1, h2, h3, h4, h5⟩ |
        ⟨h1, h2, h3, h4⟩ | ⟨h1, h2, h3, h4⟩ | ⟨h1, h2⟩ | ⟨h1, rfl, h3, h4⟩
      · exact he.taken h hX hg hp hat hsame hop hhist h1 h2 h3 h4 h5
      · exact he.unlocked h hg hp hat hsame hop hhist h1 h3 h4
      · exact he.returned h hp hat hop hhist h1 h3
      · exact he.reset hp hop hhist h1 h2
      · refine hframe hsame.ready (fun k => ?_) fun _ _ => ⟨h1, h3⟩
        rw [hhist, held_reply]
        split_ifs with hr
        · simp [h4 hr.1]
        · rfl
    · refine hframe (hsame.ready.trans (run_other hrun ho)) (fun k => ?_)
        fun he => absurd he.symm ho
      rw [hhist, held_reply, if_neg fun hk => ho hk.2.2.symm]

omit [DecidableEq C] in
theorem excl_boot (o : Obj) : Excl (boot : State C) o :=
  Excl.clear (fun _ => rfl) fun q x ph hq => by cases hq

/-- Every step of the run meets the conditions on the objects in `X`. -/
theorem sound_step (h : Sound X s ∧ ∀ o, X o → Excl s o) (ho : s.orderly l) (hq : s.quiet X l)
    (hstep : step s l = some t) : Sound X t ∧ ∀ o, X o → Excl t o := by
  have hm := step_moved hstep
  have hg := hm.grown h.1.staged.inv (h.1.first.lockFree l.cpu)
  have hd := hm.did h.1.staged h.1.first
  exact ⟨h.1.moved ho hq hm, fun o hX => (h.2 o hX).did h.1 hX hg hq hd⟩

end

end Xv6.Sync
