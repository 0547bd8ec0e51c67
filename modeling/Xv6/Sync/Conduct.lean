import Xv6.Sync.Birth
import Xv6.Sync.Wakeup

/-!
# How the calls are used

The init calls clear a spinlock and reset a condition without looking at who uses
the object. What the callers have to keep is a condition on the calls they start.
An object that is not initialised has a free spinlock; if its first initialisations
do not overlap, `initlock` never clears a spinlock in use. On the objects `X` an init
call in progress excludes every other call, so it meets no sleeper.
-/

namespace Xv6.Sync

open LockCode Sched Function

variable {C : Type} [DecidableEq C]

/-! ## Conditions on the callers -/

/-- The calls that take an object for the caller. -/
def Op.takes : Op → Bool
  | .mutexAcquire _ | .acquiresleep _ => true
  | _ => false

/-- The calls that give an object back. -/
def Op.gives : Op → Bool
  | .mutexRelease _ | .releasesleep _ => true
  | _ => false

/-- Process `k` is between a call that took the object and the one that gives it back. -/
def held (hist : List Event) (k : ℕ) (o : Obj) : Bool :=
  hist.foldl (fun b e => match e with
    | .ret k' x 0 => if k' = k ∧ x.obj = o then x.takes || b && !x.gives else b
    | _ => b) false

/-- No call on the object is in progress. -/
def State.idle (s : State C) (o : Obj) : Prop := ∀ q < nproc, ∀ y ∈ s.op q, y.1.obj ≠ o

/-- No init call on the object is in progress. -/
def State.settled (s : State C) (o : Obj) : Prop :=
  ∀ q < nproc, ∀ y ∈ s.op q, y.1.obj = o → y.1.isInit = false

/-- No process holds the object. -/
def State.unheld (s : State C) (o : Obj) : Prop := ∀ k < s.pids.length, held s.hist k o = false

/-- The process and the call that start with this label. -/
def State.calls (s : State C) (l : Label C) : Option (ℕ × Op) :=
  match l.choice, next s.sched l.cpu with
  | .call call, some (.act (.user p)) => (call.check s).map fun o => (p, o)
  | _, _ => none

/-- First initialisations of one object do not overlap. -/
def State.orderly (s : State C) (l : Label C) : Prop :=
  ∀ y ∈ s.calls l, s.fresh y.2 = true → s.idle y.2.obj

/-- A call that gives an object back is made by the process that holds it. -/
def State.owned (s : State C) (y : ℕ × Op) : Prop :=
  y.2.gives = true → held s.hist (s.born y.1) y.2.obj = true

/-- The objects in `X` are initialised when nobody uses them, and used when nobody
initialises them. -/
def State.quiet (s : State C) (X : Obj → Prop) (l : Label C) : Prop :=
  ∀ y ∈ s.calls l, X y.2.obj →
    (if y.2.isInit then s.idle y.2.obj ∧ s.unheld y.2.obj else s.settled y.2.obj) ∧ s.owned y

instance (s : State C) (o : Obj) : Decidable (s.idle o) :=
  inferInstanceAs (Decidable (∀ q < nproc, ∀ y ∈ s.op q, y.1.obj ≠ o))

instance (s : State C) (o : Obj) : Decidable (s.settled o) :=
  inferInstanceAs (Decidable (∀ q < nproc, ∀ y ∈ s.op q, y.1.obj = o → y.1.isInit = false))

instance (s : State C) (o : Obj) : Decidable (s.unheld o) :=
  inferInstanceAs (Decidable (∀ k < s.pids.length, held s.hist k o = false))

instance (s : State C) (y : ℕ × Op) : Decidable (s.owned y) :=
  inferInstanceAs (Decidable (y.2.gives = true → _))

instance (s : State C) (l : Label C) : Decidable (s.orderly l) :=
  inferInstanceAs (Decidable (∀ y ∈ s.calls l, s.fresh y.2 = true → s.idle y.2.obj))

instance (s : State C) (X : Obj → Prop) [DecidablePred X] (l : Label C) :
    Decidable (s.quiet X l) :=
  inferInstanceAs (Decidable (∀ y ∈ s.calls l, X y.2.obj →
    (if y.2.isInit then s.idle y.2.obj ∧ s.unheld y.2.obj else s.settled y.2.obj) ∧ s.owned y))

theorem held_append (hist : List Event) (e : Event) (k : ℕ) (o : Obj) :
    held (hist ++ [e]) k o = match e with
      | .ret k' x 0 => if k' = k ∧ x.obj = o then x.takes || held hist k o && !x.gives
        else held hist k o
      | _ => held hist k o := by
  rw [held, List.foldl_append]
  rfl

theorem held_sem (hist : List Event) (k : ℕ) (id : Fin nksem) : held hist k (.sem id) = false := by
  induction hist using List.reverseRecOn with
  | nil => rfl
  | append_singleton hist e ih =>
    rw [held_append]
    split
    · rename_i k' x
      split_ifs with h
      · cases x <;> simp_all [Op.obj, Op.takes]
      · exact ih
    · exact ih

/-! ## The calls that start -/

section

variable {s s1 t : State C} {c : C} {ch : Sched.Choice} {l : Label C} {p q : ℕ} {x y : Op} {o : Obj}
  {ph ph' : Phase} {call : Call} {r : Reply} {X : Obj → Prop}

omit [DecidableEq C] in
theorem calls_of_call (hl : l.choice = .call call)
    (hnext : next s.sched l.cpu = some (.act (.user p))) (hcheck : call.check s = some x) :
    s.calls l = some (p, x) := by
  simp [State.calls, hl, hnext, hcheck]

/-- The `used` flag. -/
def State.used (s : State C) : Obj → Bool
  | .mutex id => (s.kmutexes id).used
  | .sem id => (s.ksems id).used
  | .sleeplock _ => true

omit [DecidableEq C] in
theorem fresh_iff : s.fresh x = true ↔ x.isInit = true ∧ s.used x.obj = false := by
  cases x <;> simp [State.fresh, Op.isInit, State.used, Op.obj]

omit [DecidableEq C] in
/-- A call that goes on to its critical section has found its object initialised. -/
theorem check_used (hcheck : call.check s = some x) (hf : s.fresh x = false) :
    s.used x.obj = true := by
  cases call <;> simp only [Call.check, Option.map_eq_some_iff, Option.bind_eq_some_iff,
    Option.some.injEq] at hcheck
  case acquiresleep | releasesleep | holdingsleep => subst hcheck; rfl
  all_goals
    obtain ⟨id, -, hx⟩ := hcheck
    (try split_ifs at hx)
    cases hx
    simp_all [State.fresh, State.used, Op.obj]

omit [DecidableEq C] in
theorem run_used (h : s.run p x ph = some (s1, r)) : s1.used o = s.used o := by
  have hm : ∀ id f, (∀ m : KMutex, (f m).used = m.used) → (s.setMutex id f).used o = s.used o := by
    intro id f hf
    cases o with
    | mutex id' => by_cases he : id' = id <;> simp_all [State.used, State.setMutex]
    | _ => rfl
  have hsem : ∀ id f, (∀ m : KSem, (f m).used = m.used) → (s.setSem id f).used o = s.used o := by
    intro id f hf
    cases o with
    | sem id' => by_cases he : id' = id <;> simp_all [State.used, State.setSem]
    | _ => rfl
  cases x <;> cases ph <;> simp only [State.run, reduceCtorEq] at h <;>
    (try split_ifs at h) <;> cases h <;>
    first | rfl | exact hm _ _ fun _ => rfl | exact hsem _ _ fun _ => rfl

theorem Lifted.used (h : Lifted s c ch t) : t.used o = s.used o := by
  cases o <;> simp [State.used, h.kmutexes, h.ksems]

omit [DecidableEq C] in
theorem initlock_used (hx : x.isInit = true) :
    (s.initlock x).used o = (s.used o || decide (o = x.obj)) := by
  cases x <;> simp only [Op.isInit, reduceCtorEq] at hx <;> cases o <;>
    simp only [State.initlock, State.used, State.setMutex, State.setSem, Op.obj, Obj.mutex.injEq,
      Obj.sem.injEq, reduceCtorEq, decide_false, Bool.or_false]
  case mutexInit.mutex id id' => by_cases he : id' = id <;> simp [he]
  case semInit.sem id _ id' => by_cases he : id' = id <;> simp [he]

/-! ## Free spinlocks -/

theorem step_holder {s s' : Sched.State C} {lk : Lock}
    (hstep : Sched.step s ⟨c, ch⟩ = some s') (h : s'.holder lk ≠ none) :
    s.holder lk ≠ none ∨ ∃ k, s.codeAt (s.cur c) = .acquire lk :: k := by
  cases (step_inv hstep : Stepped s c ch s') with
  | timer q he hq hn => rw [setCode_holder] at h; exact .inl h
  | device m chan he hn => rw [setCode_holder] at h; exact .inl h
  | acquire lk' k hk _ =>
    by_cases he : lk = lk'
    · subst he; exact .inr ⟨k, hk⟩
    · rw [setCode_holder] at h
      simp only [State.acquire, State.setCpu, update_of_ne he] at h
      exact .inl h
  | release lk' k hk _ =>
    rw [setCode_holder] at h
    by_cases he : lk = lk'
    · subst he; simp [State.release, State.setCpu] at h
    · simp only [State.release, State.setCpu, update_of_ne he] at h
      exact .inl h
  | act a k s1 push _ hk hact =>
    rw [setCode_holder] at h
    left
    by_cases hloc : a.local = true
    · rwa [(act_local hloc hact).2.2] at h
    · cases a <;> simp only [Act.local, not_true_eq_false] at hloc
      case swtch q =>
        simp only [State.act] at hact
        split_ifs at hact
        cases hact
        exact h
      case schedSwtch | schedBack =>
        cases hact
        exact h
      case allocprocFound q kind i =>
        cases ch <;> simp only [State.act, reduceCtorEq] at hact <;>
          cases hact <;> exact h

omit [DecidableEq C] in
theorem acquire_op (hs : Staged s) {k : Code}
    (hk : s.sched.codeAt (s.sched.cur c) = .acquire (.cond o.num) :: k) :
    ∃ p x, s.op p = some (x, .loop) ∧ x.obj = o := by
  have hnot : ∀ {pre rest : Code} {z : Cmd Lock Act}, pre.all handler = true →
      pre ++ z :: rest = .acquire (.cond o.num) :: k → z = .acquire (.cond o.num) := by
    intro pre rest z hpre he
    cases pre with
    | nil => exact (List.cons.inj he).1
    | cons w pre =>
      obtain rfl := (List.cons.inj he).1
      simp [handler, tameLock, foreign_num] at hpre
  cases ht : s.sched.thread c with
  | none =>
    have hpl := hs.plain c
    rw [State.cur, ht, tid, State.codeAt] at hk
    rw [hk] at hpl
    simp [tame, tameLock, foreign_num] at hpl
  | some p =>
    rw [cur_of_thread ht, State.codeAt] at hk
    have hshape := hs.shape p (hs.inv.live_cur c p (cur_of_thread ht))
    rw [hk] at hshape
    generalize hk' : Cmd.acquire (Lock.cond o.num) :: k = k' at hshape
    generalize hop : s.op p = op at hshape
    cases hshape with
    | plain hpl =>
      subst hk'
      simp [tame, tameLock, foreign_num] at hpl
    | leave o' => simp at hk'
    | initlock hpre => simpa using hnot hpre hk'.symm
    | @enter x pre hpre =>
      have he := hnot hpre hk'.symm
      simp only [Cmd.acquire.injEq, Lock.cond.injEq] at he
      exact ⟨p, x, hop, num_injective he⟩
    | stage st hfit => cases st <;> simp [Stage.code, body, sleep] at hk'

/-- Calls on objects that are not initialised, and their spinlocks. -/
structure First (s : State C) : Prop where
  used : ∀ p x ph, s.op p = some (x, ph) → ph ≠ .initlock → s.used x.obj = true
  fresh : ∀ p x, s.op p = some (x, .initlock) → x.isInit = true ∧ s.used x.obj = false
  single : ∀ p q x y, s.op p = some (x, .initlock) → s.op q = some (y, .initlock) →
    x.obj = y.obj → p = q
  lock : ∀ o, s.used o = false → s.sched.holder (.cond o.num) = none

omit [DecidableEq C] in
theorem First.lockFree (hf : First s) (c : C) : s.LockFree c := by
  intro p x _ hop
  exact hf.lock x.obj (hf.fresh p x hop).2

theorem First.lock_lifted (hf : First s) (hs : Staged s) (h : Lifted s c ch t)
    (hu : s.used o = false) : t.sched.holder (.cond o.num) = none := by
  by_contra hne
  rcases step_holder h.step hne with hold | ⟨k, hk⟩
  · exact hold (hf.lock o hu)
  · obtain ⟨p, x, hop, rfl⟩ := acquire_op hs hk
    simpa [hu] using hf.used p x _ hop (by simp)

omit [DecidableEq C] in
theorem First.setOp (hf : First s) {u : State C} (hused : ∀ o, u.used o = s.used o)
    (hlock : ∀ o, s.used o = false → u.sched.holder (.cond o.num) = none)
    (hop : ∀ q, q ≠ p → u.op q = s.op q)
    (hp : ∀ x ph, u.op p = some (x, ph) → ph ≠ .initlock ∧ s.used x.obj = true) : First u := by
  have hne : ∀ {q x}, u.op q = some (x, .initlock) → s.op q = some (x, .initlock) := by
    intro q x hq
    have : q ≠ p := by
      rintro rfl
      exact (hp x _ hq).1 rfl
    rwa [hop q this] at hq
  constructor
  · intro q x ph hq hph
    rw [hused]
    by_cases he : q = p
    · subst he; exact (hp x ph hq).2
    · exact hf.used q x ph (hop q he ▸ hq) hph
  · intro q x hq
    rw [hused]
    exact hf.fresh q x (hne hq)
  · intro q q' x y hq hq' he
    exact hf.single q q' x y (hne hq) (hne hq') he
  · intro o ho
    exact hlock o (hused o ▸ ho)

theorem First.moved (hf : First s) (hs : Staged s) (ho : s.orderly l) (h : Moved s l t) :
    First t := by
  cases h with
  | sched ch t hl hfree hlift =>
    constructor
    · intro q x ph hq
      rw [hlift.op] at hq
      rw [hlift.used]
      exact hf.used q x ph hq
    · intro q x hq
      rw [hlift.op] at hq
      rw [hlift.used]
      exact hf.fresh q x hq
    · rw [hlift.op]
      exact hf.single
    · intro o hu
      exact hf.lock_lifted hs hlift (hlift.used ▸ hu)
  | reject p call hl hnext hop hcheck => exact ⟨hf.used, hf.fresh, hf.single, hf.lock⟩
  | fresh p call x hl hnext hop hcheck hfr =>
    have hcalls := calls_of_call hl hnext hcheck
    have hidle := ho _ hcalls hfr
    have hother : ∀ q y, s.op q = some (y, .initlock) → y.obj ≠ x.obj := by
      intro q y hq
      exact hidle q (hs.family.bound q (hs.live (by simp [hq]))) _ hq
    obtain ⟨hx, hu⟩ := fresh_iff.mp hfr
    constructor
    · intro q y ph hq hph
      by_cases he : q = p
      · subst he
        simp only [State.setOp, update_self, Option.some.injEq, Prod.mk.injEq] at hq
        exact absurd hq.2.symm hph
      · simp only [State.setOp, update_of_ne he] at hq
        exact hf.used q y ph hq hph
    · intro q y hq
      by_cases he : q = p
      · subst he
        simp only [State.setOp, update_self, Option.some.injEq, Prod.mk.injEq] at hq
        obtain ⟨rfl, -⟩ := hq
        exact ⟨hx, hu⟩
      · simp only [State.setOp, update_of_ne he] at hq
        exact hf.fresh q y hq
    · intro q q' y y' hq hq' he
      simp only [State.setOp, State.log, update_apply] at hq hq'
      split_ifs at hq hq' with h1 h2 h2
      · exact h1.trans h2.symm
      · cases hq
        exact absurd he.symm (hother q' y' hq')
      · cases hq'
        exact absurd he (hother q y hq)
      · exact hf.single q q' y y' hq hq' he
    · exact hf.lock
  | enter p call x t hl hnext hop hcheck hfr hlift =>
    have hs1 := hs.of_eq (u := s.log (.begin (s.born p) x)) rfl rfl
    have hf1 : First (s.log (.begin (s.born p) x)) := ⟨hf.used, hf.fresh, hf.single, hf.lock⟩
    refine hf.setOp (p := p) (fun o => hlift.used) (fun o hu => (hf1.lock_lifted hs1 hlift hu :))
      (fun q hq => ?_) fun y ph hy => ?_
    · simp [State.setOp, hq, hlift.op, State.log]
    · simp only [State.setOp, update_self, Option.some.injEq, Prod.mk.injEq] at hy
      obtain ⟨rfl, rfl⟩ := hy
      exact ⟨by simp, check_used hcheck hfr⟩
  | initlock p x t hl hnext hop hlift =>
    obtain ⟨hx, hu⟩ := hf.fresh p x hop
    obtain ⟨h1, h2⟩ := initlock_sched (hf.lock x.obj hu)
    have hs1 := hs.of_eq h1 h2
    have hcode : ∀ lk k, s.sched.codeAt (s.sched.cur l.cpu) ≠ .acquire lk :: k := by
      obtain ⟨ht, hcode⟩ := next_user hs.inv hnext
      intro lk k
      rw [cur_of_thread ht, State.codeAt, hcode]
      simp
    have hne : ∀ {q y}, (t.setOp p (some (x, .loop))).op q = some (y, .initlock) →
        q ≠ p ∧ s.op q = some (y, .initlock) := by
      intro q y hq
      have hqp : q ≠ p := by
        rintro rfl
        simp [State.setOp] at hq
      simp only [State.setOp, update_of_ne hqp, hlift.op, h2] at hq
      exact ⟨hqp, hq⟩
    have hused : ∀ o, (t.setOp p (some (x, .loop))).used o = (s.used o || decide (o = x.obj)) :=
      fun o => hlift.used.trans (initlock_used hx)
    constructor
    · intro q y ph hq hph
      rw [hused]
      by_cases he : q = p
      · subst he
        simp only [State.setOp, update_self, Option.some.injEq, Prod.mk.injEq] at hq
        simp [hq.1]
      · simp only [State.setOp, update_of_ne he, hlift.op, h2] at hq
        simp [hf.used q y ph hq hph]
    · intro q y hq
      obtain ⟨hqp, hq⟩ := hne hq
      obtain ⟨hy, huy⟩ := hf.fresh q y hq
      rw [hused, huy]
      refine ⟨hy, ?_⟩
      simpa using fun he => hqp (hf.single q p y x hq hop he)
    · intro q q' y y' hq hq' he
      exact hf.single q q' y y' (hne hq).2 (hne hq').2 he
    · intro o ho'
      rw [hused, Bool.or_eq_false_iff] at ho'
      by_contra hne'
      rcases step_holder hlift.step hne' with hold | ⟨k, hk⟩
      · rw [h1] at hold
        exact hold (hf.lock o ho'.1)
      · rw [h1] at hk
        exact hcode _ k hk
  | body p n x ph s1 r t hl hnext hop hrun hlift =>
    have hran := run_ran hrun
    have hph := run_phase hrun
    have hs1 := hs.of_eq hran.sched hran.op
    have hu1 : ∀ o, s1.used o = s.used o := fun o => run_used hrun
    have hf1 : First s1 := by
      constructor
      · rw [hran.op]; simpa only [hu1] using hf.used
      · rw [hran.op]; simpa only [hu1] using hf.fresh
      · rw [hran.op]; exact hf.single
      · rw [hran.sched]; simpa only [hu1] using hf.lock
    refine hf1.setOp (p := p) (fun o => hlift.used) (fun o hu => (hf1.lock_lifted hs1 hlift hu :))
      (fun q hq => ?_) fun y ph' hy => ?_
    · simp [State.setOp, hq, hlift.op]
    · simp only [State.setOp, update_self] at hy
      have hused := hu1 x.obj ▸ hf.used p x ph hop hph
      cases r <;> simp only [Reply.op, Option.some.injEq, Prod.mk.injEq, reduceCtorEq] at hy <;>
        obtain ⟨rfl, rfl⟩ := hy <;> exact ⟨by simp, hused⟩
  | killed p n x t hl hnext hop hlift =>
    refine hf.setOp (p := p) (fun o => hlift.used) (fun o hu => (hf.lock_lifted hs hlift hu :))
      (fun q hq => ?_) fun y ph' hy => ?_
    · simp [State.setOp, hq, hlift.op]
    · simp only [State.setOp, update_self, Option.some.injEq, Prod.mk.injEq] at hy
      obtain ⟨rfl, rfl⟩ := hy
      exact ⟨by simp, hf.used p x _ hop (by simp)⟩

/-! ## What a step does to the calls, the objects and the history -/

/-- The conditions of the objects are the same. -/
structure Same (s t : State C) : Prop where
  locked : ∀ id, (t.kmutexes id).locked = (s.kmutexes id).locked
  count : ∀ id, (t.ksems id).count = (s.ksems id).count
  sleeplocks : t.sleeplocks = s.sleeplocks

omit [DecidableEq C] in
theorem Same.ready (h : Same s t) : t.ready o ↔ s.ready o := by
  cases o <;> simp [State.ready, h.locked, h.count, h.sleeplocks]

theorem Lifted.same (h : Lifted s c ch t) : Same s t :=
  ⟨fun id => by rw [h.kmutexes], fun id => by rw [h.ksems], h.sleeplocks⟩

omit [DecidableEq C] in
theorem initlock_same : Same s (s.initlock x) := by
  cases x with
  | mutexInit id =>
    refine ⟨fun id' => ?_, fun _ => rfl, rfl⟩
    by_cases he : id' = id <;> simp [State.initlock, State.setMutex, he]
  | semInit id value =>
    refine ⟨fun _ => rfl, fun id' => ?_, rfl⟩
    by_cases he : id' = id <;> simp [State.initlock, State.setSem, he]
  | _ => exact ⟨fun _ => rfl, fun _ => rfl, rfl⟩

/-- A step does nothing to the calls, starts one, moves one on, or decides in the body
of one. -/
inductive Did (s : State C) (l : Label C) (t : State C) : Prop
  | idle : t.op = s.op → (t.hist = s.hist ∨ ∃ k call, t.hist = s.hist ++ [.reject k call]) →
      Same s t → Did s l t
  | begin (p : ℕ) (x : Op) (ph : Phase) : s.calls l = some (p, x) → s.op p = none →
      ph ≠ .woken → t.op = update s.op p (some (x, ph)) →
      t.hist = s.hist ++ [.begin (s.born p) x] → Same s t → Did s l t
  | phase (p : ℕ) (x : Op) (ph ph' : Phase) : s.op p = some (x, ph) → ph ≠ .woken →
      ph' ≠ .woken → t.op = update s.op p (some (x, ph')) → t.hist = s.hist →
      Same s t → Did s l t
  | body (p : ℕ) (x : Op) (ph : Phase) (s1 : State C) (r : Reply) : s.op p = some (x, ph) →
      s.At p x.obj ph .body → s.run p x ph = some (s1, r) →
      t.op = update s.op p (r.op x) →
      t.hist = s.hist ++ r.events (s.born p) x → Same s1 t → Did s l t

theorem Moved.did (hs : Staged s) (hf : First s) (h : Moved s l t) : Did s l t := by
  have hg := h.grown hs.inv (hf.lockFree l.cpu)
  cases h with
  | sched ch t hl hfree hlift => exact .idle hlift.op (.inl hlift.hist) hlift.same
  | reject p call hl hnext hop hcheck =>
    exact .idle rfl (.inr ⟨_, _, rfl⟩) ⟨fun _ => rfl, fun _ => rfl, rfl⟩
  | fresh p call x hl hnext hop hcheck hfr =>
    exact .begin p x .initlock (calls_of_call hl hnext hcheck) hop (by simp) rfl rfl
      ⟨fun _ => rfl, fun _ => rfl, rfl⟩
  | enter p call x t hl hnext hop hcheck hfr hlift =>
    obtain ⟨h1, h2, h3⟩ := hlift.same
    refine .begin p x .loop (calls_of_call hl hnext hcheck) hop (by simp) ?_ hlift.hist
      ⟨h1, h2, h3⟩
    exact congrArg (fun f => update f p _) hlift.op
  | initlock p x t hl hnext hop hlift =>
    obtain ⟨-, h2⟩ := initlock_sched (hf.lockFree l.cpu p x hnext hop)
    obtain ⟨h3, h4, h5⟩ := hlift.same
    obtain ⟨h6, h7, h8⟩ := initlock_same (s := s) (x := x)
    refine .phase p x .initlock .loop hop (by simp) (by simp) ?_ ?_
      ⟨fun id => (h3 id).trans (h6 id), fun id => (h4 id).trans (h7 id), h5.trans h8⟩
    · exact congrArg (fun f => update f p _) (hlift.op.trans h2)
    · exact hlift.hist.trans (by cases x <;> rfl)
  | body p n x ph s1 r t hl hnext hop hrun hlift =>
    have hran := run_ran hrun
    obtain ⟨h1, h2, h3⟩ := hlift.same
    refine .body p x ph s1 r hop (at_body hs hnext hop (run_phase hrun)) hrun ?_ ?_ ⟨h1, h2, h3⟩
    · exact congrArg (fun f => update f p _) (hlift.op.trans hran.op)
    · have hborn := hg.born p (hs.live (by simp [hop]))
      change t.born p = s.born p at hborn
      change t.hist ++ r.events (t.born p) x = _
      rw [hlift.hist, hran.hist, hborn]
  | killed p n x t hl hnext hop hlift =>
    obtain ⟨h1, h2, h3⟩ := hlift.same
    refine .phase p x .loop (.checked (s.sched.proc p).killed) hop (by simp) (by simp) ?_
      hlift.hist ⟨h1, h2, h3⟩
    exact congrArg (fun f => update f p _) hlift.op

omit [DecidableEq C] in
/-- A call after the step was there before, or is the one that starts. -/
theorem Did.op_cases (h : Did s l t) (ht : t.op q = some (y, ph')) :
    (∃ ph, s.op q = some (y, ph)) ∨ s.calls l = some (q, y) ∧ s.op q = none := by
  cases h with
  | idle hop => rw [hop] at ht; exact .inl ⟨_, ht⟩
  | begin p x ph hcalls hnone _ hop =>
    rw [hop, update_apply] at ht
    split_ifs at ht with he
    · subst he
      cases ht
      exact .inr ⟨hcalls, hnone⟩
    · exact .inl ⟨_, ht⟩
  | phase p x ph ph' hp _ _ hop =>
    rw [hop, update_apply] at ht
    split_ifs at ht with he
    · subst he
      cases ht
      exact .inl ⟨_, hp⟩
    · exact .inl ⟨_, ht⟩
  | body p x ph s1 r hp hat hrun hop =>
    rw [hop, update_apply] at ht
    split_ifs at ht with he
    · subst he
      cases r <;> cases ht <;> exact .inl ⟨_, hp⟩
    · exact .inl ⟨_, ht⟩

/-! ## Init calls on the objects in `X` -/

/-- An init call in progress on an object excludes every other call on it. -/
def Apart (X : Obj → Prop) (s : State C) : Prop :=
  ∀ p q x y ph ph', s.op p = some (x, ph) → s.op q = some (y, ph') → x.obj = y.obj → X x.obj →
    x.isInit = true → p = q

omit [DecidableEq C] in
theorem Apart.did (ha : Apart X s) (hs : Staged s) (hq : s.quiet X l) (h : Did s l t) :
    Apart X t := by
  intro p q x y ph ph' hp hq' he hX hx
  have hbound : ∀ {r z ph}, s.op r = some (z, ph) → r < nproc :=
    fun hr => hs.family.bound _ (hs.live (by simp [hr]))
  rcases h.op_cases hp with ⟨ph1, hp1⟩ | ⟨hcalls, -⟩ <;>
    rcases h.op_cases hq' with ⟨ph2, hq2⟩ | ⟨hcalls', -⟩
  · exact ha p q x y ph1 ph2 hp1 hq2 he hX hx
  · obtain ⟨hcond, -⟩ := hq _ hcalls' (he ▸ hX)
    split_ifs at hcond
    · exact absurd he (hcond.1 p (hbound hp1) _ hp1)
    · simp [hcond p (hbound hp1) _ hp1 he] at hx
  · obtain ⟨hcond, -⟩ := hq _ hcalls hX
    simp only [hx, if_true] at hcond
    exact absurd he.symm (hcond.1 q (hbound hq2) _ hq2)
  · rw [hcalls] at hcalls'
    cases hcalls'
    rfl

omit [DecidableEq C] in
theorem Apart.no_dozing (ha : Apart X s) (hs : Staged s) (hal : Alert X s) {n : ℕ}
    (hnext : next s.sched c = some (.act (.critical p n))) (hop : s.op p = some (x, ph))
    (hX : X x.obj) (hx : x.isInit = true) : ¬ Dozing s q x.obj := by
  intro hd
  obtain ⟨st, hat, hin⟩ := dozing_at hal hd
  obtain ⟨⟨y, hy, he⟩, hcode, -⟩ := hat
  obtain rfl := ha p q x y ph .loop hop hy he.symm hX hx
  obtain ⟨-, hbody⟩ := next_critical hs.inv hnext
  have hk := hbody.symm.trans hcode
  cases st <;> simp [Stage.code, body, sleep, Stage.inside] at hk hin

/-! ## Runs -/

/-- The invariant of runs in which the callers keep to the conditions. -/
structure Sound (X : Obj → Prop) (s : State C) : Prop where
  staged : Staged s
  births : Births s
  first : First s
  apart : Apart X s
  alert : Alert X s

theorem Sound.moved (h : Sound X s) (ho : s.orderly l) (hq : s.quiet X l) (hm : Moved s l t) :
    Sound X t := by
  have hlock := h.first.lockFree l.cpu
  refine ⟨h.staged.moved hlock hm, h.births.moved h.staged.inv hlock hm,
    h.first.moved h.staged ho hm, h.apart.did h.staged hq (hm.did h.staged h.first),
    h.alert.moved h.staged hlock ?_ hm⟩
  intro p n x ph hnext hop hX hx q
  exact h.apart.no_dozing h.staged h.alert hnext hop hX hx

omit [DecidableEq C] in
theorem sound_boot : Sound X (boot : State C) := by
  have hcode : ∀ p, ((boot : State C).sched.proc p).state ≠ .unused → p = initproc := by
    intro p hp
    by_contra hne
    simp [boot, Sched.boot, hne, unusedProc, freeproc] at hp
  have hno : ∀ p o ph st, ¬ (boot : State C).At p o ph st :=
    fun p o ph st hat => hat.op_ne rfl
  refine ⟨⟨inv_boot, family_boot, fun _ _ => rfl, fun p hp => ?_, fun c => rfl⟩, ⟨?_, ?_⟩,
    ⟨?_, ?_, ?_, fun _ _ => rfl⟩, ?_, ⟨?_, ?_, ?_, ?_⟩⟩
  · obtain rfl := hcode p hp
    exact .plain rfl
  · intro p hp
    obtain rfl := hcode p hp
    rfl
  · intro p q hp hq _
    rw [hcode p hp, hcode q hq]
  · intro p x ph h
    cases h
  · intro p x h
    cases h
  · intro p q x y h
    cases h
  · intro p q x y ph ph' h
    cases h
  · intro p o h
    by_cases hp : p = initproc <;> simp [boot, Sched.boot, hp, unusedProc, freeproc] at h
  · intro p o h
    rcases h with h | h <;> exact absurd h (hno _ _ _ _)
  · intro p o ph st h
    exact absurd h (hno _ _ _ _)
  · intro p o _ _ hd
    rcases hd with (h | h) | ⟨h, -⟩
    · exact absurd h (hno _ _ _ _)
    · exact absurd h (hno _ _ _ _)
    · by_cases hp : p = initproc <;> simp [boot, Sched.boot, hp, unusedProc, freeproc] at h

omit [DecidableEq C] in
theorem Sound.not_asleep (h : Sound X s) (hX : X o)
    (hfree : s.sched.holder (.cond o.num) = none) (hready : s.ready o) : ¬ Asleep s p o := by
  intro hsleep
  obtain ⟨q, i, -, hwake⟩ := h.alert.covered p o hX hready (.inr hsleep)
  obtain ⟨st, hat, hin⟩ := hwake.inside
  obtain ⟨c, -, hown⟩ := h.staged.holder hat hin
  simp [hfree] at hown

end

end Xv6.Sync
