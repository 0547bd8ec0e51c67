import Xv6.Sched.Model

/-!
# The locking discipline of `proc.c`

For every action the exact set of locks held where it runs, and the order in
which locks are taken: condition locks, then `wait_lock`, then process locks by
slot, then `pid_lock` or the lock of a shared-memory key. Every function body is typed by this discipline, and an
action replaces itself by code that is typed under the same locks.
-/

namespace Xv6.Sched

open LockCode

/-- The lock order. -/
def Lock.Before : Lock → Lock → Prop
  | .cond _, .cond _ => False
  | .cond _, _ => True
  | .wait, .proc _ => True
  | .wait, .pid => True
  | .wait, .shm _ => True
  | .wait, _ => False
  | .proc i, .proc j => i < j
  | .proc _, .pid => True
  | .proc _, .shm _ => True
  | .proc _, _ => False
  | .pid, _ => False
  | .shm _, _ => False

theorem Lock.Before.irrefl (l : Lock) : ¬ l.Before l := by
  cases l <;> simp [Lock.Before]

/-- The code is about to switch to the scheduler: the state of the process has
changed and only releases stand before `swtch`. -/
def leaving : Code → Bool
  | .release _ :: k => leaving k
  | .act (.swtch _) :: _ => true
  | _ => false

@[simp] theorem leaving_nil : leaving [] = false := rfl

@[simp] theorem leaving_acquire (l : Lock) (k : Code) : leaving (.acquire l :: k) = false := rfl

@[simp] theorem leaving_release (l : Lock) (k : Code) :
    leaving (.release l :: k) = leaving k := rfl

@[simp] theorem leaving_swtch (p : ℕ) (k : Code) : leaving (.act (.swtch p) :: k) = true := rfl

theorem leaving_act {a : Act} (h : ∀ p, a ≠ .swtch p) (k : Code) :
    leaving (.act a :: k) = false := by
  cases a <;> simp_all [leaving]

/-- The actions after which the process leaves its CPU. -/
def Act.marks : Act → Bool
  | .setState _ _ | .setZombie _ _ => true
  | _ => false

def bestLock : Option ℕ → Finset Lock
  | none => ∅
  | some b => {.proc b}

@[simp] theorem bestLock_none : bestLock none = ∅ := rfl

@[simp] theorem bestLock_some (b : ℕ) : bestLock (some b) = {.proc b} := rfl

/-- Locks that an action, or the code it puts in front, gives back. -/
def Act.frees : Act → Finset Lock
  | .wakeupLook _ i | .kkillLook _ i | .setpriorityLook _ _ i => {.proc i}
  | .allocprocLook _ _ i | .allocprocFound _ _ i => {.proc i}
  | .zombieExit p => {.proc p}
  | .critical _ n => {.cond n}
  | .killed p n => {.cond n, .proc p}
  | .scan _ _ _ _ => {.wait}
  | .look _ _ i => {.wait, .proc i}
  | .readKilled p _ => {.wait, .proc p}
  | .schedScan _ best => bestLock best
  | .schedLook i best => insert (.proc i) (bestLock best)
  | .schedSwtch b => {.proc b}
  | _ => ∅

/-- The locks under which `wakeup` may be called. -/
def NoProc (R : Finset Lock) : Prop := ∀ l ∈ R, ∀ i, l.Before (.proc i)

/-- The channels that the wait calls sleep on. -/
def wakesProc : Option Chan → Bool
  | some (.proc _) => true
  | _ => false

/-- The locks held where an action runs, and the thread that runs it: a
process, or `none` for a scheduler. -/
def Act.Side (who : Option ℕ) : Act → Finset Lock → Prop
  | .user p, R | .ret p _ _ _, R => who = some p ∧ R = ∅
  | .wakeup chan _, R => NoProc R ∧ (wakesProc chan = true → .wait ∈ R)
  | .wakeupLook chan i, R =>
    .proc i ∈ R ∧ NoProc (R.erase (.proc i)) ∧ (wakesProc chan = true → .wait ∈ R)
  | .kkill _ _, R | .setpriority _ _ _, R => R = ∅
  | .kkillLook _ i, R | .setpriorityLook _ _ i, R => R = {.proc i}
  | .setState p st, R => who = some p ∧ R = {.proc p} ∧ (st = .runnable ∨ st = .sleeping)
  | .setZombie p _, R => who = some p ∧ R = {.wait, .proc p}
  | .swtch p, R | .setChan p _, R | .zombieExit p, R => who = some p ∧ R = {.proc p}
  | .critical p n, R => who = some p ∧ R = {.cond n}
  | .killed p n, R => who = some p ∧ R = {.cond n, .proc p}
  | .reparent p _, R | .wakeupParent p, R => who = some p ∧ R = {.wait}
  | .allocproc p _ _, R => who = some p ∧ R = ∅
  | .allocprocLook p _ i, R | .allocprocFound p _ i, R =>
    who = some p ∧ R = {.proc i} ∧ i < nproc
  | .allocpid i, R => R = {.pid, .proc i}
  | .setParent p _, R => who = some p ∧ R = {.wait}
  | .setRunnable i, R => who ≠ none ∧ R = {.proc i}
  | .scan p _ _ _, R => who = some p ∧ R = {.wait}
  | .look p _ i, R => who = some p ∧ R = {.wait, .proc i}
  | .readKilled p _, R => who = some p ∧ R = {.wait, .proc p}
  | .schedScan i best, R => who = none ∧ R = bestLock best ∧ ∀ b ∈ best, b < i
  | .schedLook i best, R =>
    who = none ∧ R = insert (.proc i) (bestLock best) ∧ ∀ b ∈ best, b < i
  | .schedSwtch b, R | .schedBack b, R => who = none ∧ R = {.proc b}

/-- What a pending action relies on: the state of a slot that no other thread
changes before the action has run. -/
def Act.promise : Act → Option (ℕ × ProcState)
  | .allocprocFound _ _ i => some (i, .unused)
  | .setRunnable i => some (i, .used)
  | .schedScan _ best | .schedLook _ best => best.map fun b => (b, .runnable)
  | .schedSwtch b => some (b, .runnable)
  | _ => none

def promises (k : Code) : List (ℕ × ProcState) :=
  k.filterMap fun x => match x with
    | .act a => a.promise
    | _ => none

@[simp] theorem promises_nil : promises [] = [] := rfl

@[simp] theorem promises_acquire (l : Lock) (k : Code) :
    promises (.acquire l :: k) = promises k := rfl

@[simp] theorem promises_release (l : Lock) (k : Code) :
    promises (.release l :: k) = promises k := rfl

@[simp] theorem promises_act (a : Act) (k : Code) :
    promises (.act a :: k) = a.promise.toList ++ promises k := by
  cases h : a.promise <;> simp [promises, h]

theorem promises_append (k k' : Code) : promises (k ++ k') = promises k ++ promises k' := by
  simp [promises, List.filterMap_append]

/-- The code is within a wait call of process `p`. -/
def Scans (p : ℕ) (k : Code) : Prop := ∃ w i havekids, .act (.scan p w i havekids) ∈ k

/-- A wait call that is going to put process `i` to sleep has still to give
`wait_lock` back. -/
def SleepOk (i : ℕ) (k : Code) : Prop :=
  .act (.setState i .sleeping) ∈ k → Scans i k → .release .wait ∈ k

/-- The end of `kexit`, after the wakeup of the parent. -/
def exitTail (p : ℕ) (status : ℤ) : Code :=
  [.acquire (.proc p), .act (.setZombie p status), .release .wait, .act (.swtch p),
    .act (.zombieExit p)]

/-- What follows an action in the code of its process. -/
def Act.After : Act → Code → Prop
  | .user _, k => k = []
  | .ret p _ _ _, k | .scan p _ _ _, k | .look p _ _, k | .readKilled p _, k => k = [.act (.user p)]
  | .allocproc p _ _, k | .allocprocLook p _ _, k | .allocprocFound p _ _, k | .critical p _, k
  | .killed p _, k => k = [.act (.user p)]
  | .allocpid i, k => ∃ p kind, .act (.allocprocFound p kind i) ∈ k
  | .setParent p i, k => k = [.release .wait, .acquire (.proc i), .act (.setRunnable i),
      .release (.proc i), .act (.user p)]
  | .reparent p _, k => ∃ status, k = .act (.wakeupParent p) :: exitTail p status
  | .wakeupParent p, k => ∃ status, k = exitTail p status
  | .setZombie p _, k => k = [.release .wait, .act (.swtch p), .act (.zombieExit p)]
  | .swtch p, k => SleepOk p k
  | .setState p .sleeping, k => ∀ chan, .act (.setChan p (some chan)) ∉ k
  | .setChan p none, k => .act (.setState p .sleeping) ∉ k
  | _, _ => True

/-- Actions that run between taking `wait_lock` and giving it back. -/
def Act.midWait : Act → Bool
  | .scan _ _ i _ => i != 0
  | .look _ _ _ | .readKilled _ _ => true
  | .wakeup chan _ | .wakeupLook chan _ => wakesProc chan
  | _ => false

/-- Code that is not in the middle of a section under `wait_lock`. -/
@[mk_iff]
structure Outside (k : Code) : Prop where
  mid : ∀ a, .act a ∈ k → a.midWait = false
  exit : ∀ p status, .act (.setZombie p status) ∈ k → .act (.wakeupParent p) ∈ k
  scan : ∀ p w i havekids, .act (.scan p w i havekids) ∈ k → .release .wait ∉ k

/-- The discipline for the code of one thread. -/
def disc (who : Option ℕ) : Discipline Lock Act where
  frees := Act.frees
  side x R k := match x with
    | .acquire l => (∀ l' ∈ R, l'.Before l) ∧ leaving k = false ∧
        (∀ i, l = .proc i → (∀ st, (i, st) ∈ promises k → st = .used) ∧ SleepOk i k) ∧
        (l = .wait → Outside k)
    | .release _ => True
    | .act a => a.Side who R ∧ leaving k = a.marks ∧ a.After k

variable {who : Option ℕ} {R : Finset Lock} {k : Code}

@[simp] theorem typed_disc_acquire {l : Lock} : Typed (disc who) R (.acquire l :: k) ↔
    ((∀ l' ∈ R, l'.Before l) ∧ leaving k = false ∧
      (∀ i, l = .proc i → (∀ st, (i, st) ∈ promises k → st = .used) ∧ SleepOk i k) ∧
      (l = .wait → Outside k)) ∧ Typed (disc who) (insert l R) k := Iff.rfl

@[simp] theorem typed_disc_release {l : Lock} : Typed (disc who) R (.release l :: k) ↔
    l ∈ R ∧ Typed (disc who) (R.erase l) k :=
  ⟨fun h => h.2, fun h => ⟨trivial, h⟩⟩

@[simp] theorem typed_disc_act {a : Act} : Typed (disc who) R (.act a :: k) ↔
    (a.Side who R ∧ leaving k = a.marks ∧ a.After k) ∧ Typed (disc who) (R \ a.frees) k := Iff.rfl

theorem leaving_of_typed_empty (h : Typed (disc who) ∅ k) : leaving k = false := by
  cases k with
  | nil => rfl
  | cons x k =>
    cases x with
    | acquire l => rfl
    | release l => simp at h
    | act a =>
      cases a <;> simp_all [leaving, Act.Side]

theorem mem_of_leaving {p : ℕ} (h : Typed (disc (some p)) R k) (hl : leaving k = true) :
    .proc p ∈ R := by
  induction k generalizing R with
  | nil => simp at hl
  | cons x k ih =>
    cases x with
    | acquire l => simp at hl
    | release l => exact Finset.mem_of_mem_erase (ih h.2.2 hl)
    | act a =>
      cases a <;> simp_all [leaving, Act.Side]

theorem side_of_mem {a : Act} (h : Typed (disc who) R k) (ha : .act a ∈ k) :
    ∃ R', a.Side who R' := by
  induction k generalizing R with
  | nil => simp at ha
  | cons x k ih =>
    rcases List.mem_cons.mp ha with rfl | hk
    · exact ⟨R, h.1.1⟩
    · cases x with
      | acquire l => exact ih h.2 hk
      | release l => exact ih h.2.2 hk
      | act b => exact ih h.2 hk

theorem mem_promises {i : ℕ} {st : ProcState} (h : (i, st) ∈ promises k) :
    ∃ a : Act, .act a ∈ k ∧ a.promise = some (i, st) := by
  obtain ⟨x, hx, he⟩ := List.mem_filterMap.mp h
  cases x with
  | act a => exact ⟨a, hx, he⟩
  | acquire l => simp at he
  | release l => simp at he

/-- Processes rely on slots they allocate, schedulers on runnable ones. -/
theorem promise_of_proc {p i : ℕ} {st : ProcState} (h : Typed (disc (some p)) R k)
    (hm : (i, st) ∈ promises k) : st = .unused ∨ st = .used := by
  obtain ⟨a, ha, hp⟩ := mem_promises hm
  obtain ⟨R', hs⟩ := side_of_mem h ha
  cases a <;> simp_all [Act.promise, Act.Side]

theorem promise_of_sched {i : ℕ} {st : ProcState} (h : Typed (disc none) R k)
    (hm : (i, st) ∈ promises k) : st = .runnable := by
  obtain ⟨a, ha, hp⟩ := mem_promises hm
  obtain ⟨R', hs⟩ := side_of_mem h ha
  cases a <;> simp_all [Act.promise, Act.Side]

/-- What a thread relies on is under a lock it holds, unless the slot is being
set up. -/
theorem mem_of_promise {i : ℕ} {st : ProcState} (h : Typed (disc who) R k)
    (hm : (i, st) ∈ promises k) (hst : st ≠ .used) : .proc i ∈ R := by
  induction k generalizing R with
  | nil => simp at hm
  | cons x k ih =>
    cases x with
    | acquire l =>
      rcases Finset.mem_insert.mp (ih h.2 hm) with hl | hR
      · exact absurd ((h.1.2.2.1 i hl.symm).1 st hm) hst
      · exact hR
    | release l => exact Finset.mem_of_mem_erase (ih h.2.2 hm)
    | act a =>
      rw [promises_act, List.mem_append] at hm
      rcases hm with ha | hk
      · have hs := h.1.1
        cases a <;> simp_all [Act.promise, Act.Side]
      · exact (Finset.mem_sdiff.mp (ih h.2 hk)).1

/-- A lock above all held ones guards nothing the rest of the code relies on. -/
theorem used_of_above {R' : Finset Lock} {i : ℕ} {st : ProcState} (h : Typed (disc who) R k)
    (hR : R ⊆ R') (hord : ∀ l ∈ R', l.Before (.proc i)) (hm : (i, st) ∈ promises k) :
    st = .used := by
  by_contra hst
  exact Lock.Before.irrefl _ (hord _ (hR (mem_of_promise h hm hst)))

theorem Scans.of_cons {p : ℕ} {x : Cmd Lock Act} (h : Scans p (x :: k))
    (hx : ∀ w i havekids, x ≠ .act (.scan p w i havekids)) : Scans p k := by
  obtain ⟨w, i, havekids, hm⟩ := h
  rcases List.mem_cons.mp hm with he | hk
  · exact absurd he.symm (hx w i havekids)
  · exact ⟨w, i, havekids, hk⟩

theorem SleepOk.cons {i : ℕ} {x : Cmd Lock Act} (h : SleepOk i k)
    (hx : x ≠ .act (.setState i .sleeping))
    (hscan : ∀ w j havekids, x ≠ .act (.scan i w j havekids)) : SleepOk i (x :: k) := by
  intro hst hs
  rcases List.mem_cons.mp hst with he | hk
  · exact absurd he.symm hx
  · exact List.mem_cons_of_mem _ (h hk (hs.of_cons hscan))

theorem sleepOk_of_typed {i : ℕ} (h : Typed (disc who) R k) (hi : .proc i ∉ R) : SleepOk i k := by
  induction k generalizing R with
  | nil => simp [SleepOk]
  | cons x k ih =>
    cases x with
    | acquire l =>
      by_cases hl : l = .proc i
      · exact (h.1.2.2.1 i hl).2.cons (by simp) (by simp)
      · exact (ih h.2 (by simp [hi, Ne.symm hl])).cons (by simp) (by simp)
    | release l =>
      exact (ih h.2.2 fun hm => hi (Finset.mem_of_mem_erase hm)).cons (by simp) (by simp)
    | act a =>
      have hk := ih h.2 fun hm => hi (Finset.mem_sdiff.mp hm).1
      have hside := h.1.1
      have hafter : a.After k := h.1.2.2
      cases a with
      | setState p st => exact hk.cons (by rintro ⟨⟩; simp_all [Act.Side]) (by simp)
      | scan p w j havekids =>
        obtain rfl : k = [.act (.user p)] := hafter
        simp [SleepOk]
      | _ => exact hk.cons (by simp) (by simp)

/-! ## The function bodies are typed -/

variable {p i : ℕ}

theorem used_of_typed_empty {st : ProcState} (h : Typed (disc who) ∅ k)
    (hm : (i, st) ∈ promises k) : st = .used :=
  used_of_above h (Finset.Subset.refl _) (by simp) hm

theorem yield_typed (h : Typed (disc (some p)) ∅ k) :
    Typed (disc (some p)) ∅ (yield p ++ k) := by
  have hused : ∀ st, (p, st) ∈ promises k → st = .used := fun _ => used_of_typed_empty h
  have hleave := leaving_of_typed_empty h
  have hsleep := (sleepOk_of_typed (i := p) h (by simp)).cons (x := .release (.proc p)) (by simp)
    (by simp)
  have hsleep' := (hsleep.cons (x := .act (.swtch p)) (by simp) (by simp)).cons
    (x := .act (.setState p .runnable)) (by simp) (by simp)
  simp_all [yield, Act.Side, Act.frees, Act.marks, Act.promise, Act.After, leaving_act]
  exact hused

theorem interrupt_typed {n chan : ℕ} (h : Typed (disc who) ∅ k) :
    Typed (disc who) ∅ (interrupt n chan ++ k) := by
  have hleave := leaving_of_typed_empty h
  simp_all [interrupt, Act.Side, Act.frees, Act.marks, Act.After, leaving_act, NoProc,
    Lock.Before, wakesProc]

/-- The lock of a shared-memory key may be taken under every other lock. -/
theorem shmSection_typed {key : ℕ} (hord : ∀ l ∈ R, l.Before (.shm key))
    (hleave : leaving k = false) (h : Typed (disc who) R k) :
    Typed (disc who) R (shmSection key ++ k) ∧ leaving (shmSection key ++ k) = false := by
  have hnot : Lock.shm key ∉ R := fun hm => Lock.Before.irrefl _ (hord _ hm)
  refine ⟨⟨⟨hord, hleave, by simp, by simp⟩, trivial, by simp, ?_⟩, rfl⟩
  rwa [Finset.erase_insert hnot]

theorem sleep_typed (chan : Chan) (lk : Lock) (hlk : ∀ i, lk.Before (.proc i))
    (hleave : leaving k = false) (hout : lk = .wait → Outside k)
    (hscan : Scans p k → lk = .wait)
    (hchan : ∀ chan, .act (.setChan p (some chan)) ∉ k)
    (hstate : .act (.setState p .sleeping) ∉ k) (h : Typed (disc (some p)) {lk} k) :
    Typed (disc (some p)) {lk} (sleep p chan lk ++ k) := by
  have hused : ∀ i st, (i, st) ∈ promises k → st = .used := fun i st hm =>
    used_of_above h (Finset.Subset.refl _) (by simpa using hlk i) hm
  have hne : ∀ i, lk ≠ .proc i := fun i he => Lock.Before.irrefl _ (he ▸ hlk i)
  have herase : ({.proc p, lk} : Finset Lock).erase lk = {.proc p} := by
    ext l; simp only [Finset.mem_erase, Finset.mem_insert, Finset.mem_singleton]
    constructor
    · rintro ⟨h1, h2 | h2⟩
      · exact h2
      · exact absurd h2 h1
    · rintro rfl
      exact ⟨(hne p).symm, Or.inl rfl⟩
  have hsleep : ∀ k' : Code, (Scans p k' → Scans p k) → .release lk ∈ k' → SleepOk p k' := by
    intro k' hk' hrel _ hs
    exact hscan (hk' hs) ▸ hrel
  simp_all [sleep, Act.Side, Act.frees, Act.marks, Act.promise, Act.After, leaving_act]
  exact ⟨⟨hused p, hsleep _ (by simp [Scans]) (by simp)⟩, fun hm => by simp [hstate] at hm⟩

theorem kexit_typed {status : ℤ} : Typed (disc (some p)) ∅ (kexit p status) := by
  have herase : ({.proc p, .wait} : Finset Lock).erase .wait = {.proc p} := by
    ext l; cases l <;> simp
  simp [kexit, Act.Side, Act.frees, Act.marks, Act.promise, Act.After, leaving_act, Lock.Before,
    outside_iff, Act.midWait, SleepOk, exitTail, herase, Finset.pair_comm]

theorem forkret_typed : Typed (disc (some p)) {.proc p} (forkret p) := by
  simp [forkret, Act.Side, Act.frees, Act.marks, Act.After]

theorem forkret_sleepOk : SleepOk p (forkret p) := by simp [SleepOk, forkret]

theorem user_typed_empty : Typed (disc (some p)) ∅ [.act (.user p)] := by
  simp [Act.Side, Act.frees, Act.marks, Act.After]

theorem publish_typed : Typed (disc (some p)) {.proc i} (publish p i ++ [.act (.user p)]) := by
  simp [publish, Act.Side, Act.frees, Act.marks, Act.promise, Act.After, leaving_act, outside_iff,
    Act.midWait, SleepOk]

theorem waitCall_typed {w : WaitCall} :
    Typed (disc (some p)) ∅ (waitCall p w ++ [.act (.user p)]) := by
  have hdiff : ({.wait} : Finset Lock) \ {.wait} = ∅ := by simp
  simp [waitCall, Act.Side, Act.frees, Act.marks, Act.After, leaving_act, outside_iff,
    Act.midWait]

theorem scheduler_typed : Typed (disc none) ∅ scheduler := by
  simp [scheduler, Act.Side, Act.frees, Act.marks, Act.After]

theorem schedBack_typed (h : Typed (disc none) ∅ k) : Typed (disc none) {.proc i}
    (.act (.schedBack i) :: .release (.proc i) :: (scheduler ++ k)) := by
  have hleave := leaving_of_typed_empty h
  simp_all [scheduler, Act.Side, Act.frees, Act.marks, Act.After, leaving_act]

/-! ## Actions keep their code typed -/

/-- Taking the lock of slot `i` for an action that looks at the slot and gives
the lock back. -/
theorem acquire_typed {a : Act} (hord : ∀ l ∈ R, l.Before (.proc i))
    (ha : ∀ st, a.promise ≠ some (i, st)) (hns : ∀ p, a ≠ .swtch p) (hm : a.marks = false)
    (hside : a.Side who (insert (.proc i) R)) (hleave : leaving k = false) (hafter : a.After k)
    {R' : Finset Lock} (hR' : R' ⊆ R) (hfrees : insert (.proc i) R \ a.frees = R')
    (hk : Typed (disc who) R' k) :
    Typed (disc who) R (.acquire (.proc i) :: .act a :: k) := by
  refine ⟨⟨hord, leaving_act hns k, ?_, by simp⟩, ⟨hside, hm ▸ hleave, hafter⟩, hfrees ▸ hk⟩
  intro j hj
  obtain rfl : i = j := by simpa using hj
  have hni : Lock.proc i ∉ R' := fun hmem => Lock.Before.irrefl _ (hord _ (hR' hmem))
  constructor
  · intro st hmem
    rw [promises_act, List.mem_append] at hmem
    rcases hmem with h | h
    · exact absurd (by simpa using h) (ha st)
    · exact used_of_above hk hR' hord h
  · cases a with
    | setState p st => simp [Act.marks] at hm
    | scan p w j havekids =>
      obtain rfl : k = [.act (.user p)] := hafter
      simp [SleepOk]
    | _ => exact (sleepOk_of_typed hk hni).cons (by simp) (by simp)

variable {C : Type} [DecidableEq C] {s s' : State C} {c : C} {ch : Choice} {push : Code}

theorem user_typed (h : Typed (disc who) R (.act (.user p) :: k))
    (hact : s.act c ch (.user p) = some (s', push)) :
    Typed (disc who) R (push ++ k) ∧ leaving (push ++ k) = false := by
  obtain ⟨⟨⟨rfl, rfl⟩, -, rfl⟩, -⟩ := typed_disc_act.mp h
  cases ch <;> simp only [State.act, Option.map_eq_some_iff, reduceCtorEq] at hact
  rename_i call
  obtain ⟨code, hcode, he⟩ := hact
  obtain rfl : push = code := by cases call <;> simp_all
  have hty : Typed (disc (some p)) ∅ (push ++ []) := by
    rw [List.append_nil]
    cases call with
    | yield =>
      obtain rfl : _ = push := Option.some.inj hcode
      exact yield_typed h
    | kkill pid =>
      obtain rfl : _ = push := Option.some.inj hcode
      exact ⟨⟨rfl, rfl, trivial⟩, h⟩
    | setpriority pid priority =>
      simp only [Call.code] at hcode
      split_ifs at hcode <;> obtain rfl : _ = push := Option.some.inj hcode
      · exact h
      · exact ⟨⟨rfl, rfl, trivial⟩, h⟩
    | spawn kind =>
      obtain rfl : _ = push := Option.some.inj hcode
      exact ⟨⟨⟨rfl, rfl⟩, rfl, rfl⟩, h⟩
    | kexit status | kthreadExit status =>
      simp only [Call.code] at hcode
      split_ifs at hcode
      obtain rfl : _ = push := Option.some.inj hcode
      exact kexit_typed
    | wait w =>
      obtain rfl : _ = push := Option.some.inj hcode
      exact waitCall_typed
    | critical n =>
      obtain rfl : _ = push := Option.some.inj hcode
      simp [critical, Act.Side, Act.frees, Act.marks, Act.After, leaving_act]
    | killed =>
      obtain rfl : _ = push := Option.some.inj hcode
      simp [Act.Side, Act.frees, Act.marks, Act.After, leaving_act, Act.promise, SleepOk]
    | kshm key =>
      obtain rfl : _ = push := Option.some.inj hcode
      exact (shmSection_typed (by simp) (leaving_of_typed_empty h) h).1
  exact ⟨hty, leaving_of_typed_empty hty⟩

theorem wakeup_typed {chan : Option Chan} (h : Typed (disc who) R (.act (.wakeup chan i) :: k))
    (hact : s.act c ch (.wakeup chan i) = some (s', push)) :
    Typed (disc who) R (push ++ k) ∧ leaving (push ++ k) = false := by
  obtain ⟨⟨⟨hside, hwait⟩, hleave, -⟩, hk⟩ := typed_disc_act.mp h
  replace hk : Typed (disc who) R k := by simpa [Act.frees] using hk
  have hni : Lock.proc i ∉ R := fun hm => Lock.Before.irrefl _ (hside _ hm i)
  simp only [State.act] at hact
  split_ifs at hact <;> simp only [Option.some.injEq, Prod.mk.injEq] at hact <;>
    obtain ⟨rfl, rfl⟩ := hact
  · exact ⟨⟨⟨⟨hside, hwait⟩, hleave, trivial⟩, by simpa [disc, Act.frees] using hk⟩, rfl⟩
  · refine ⟨acquire_typed (fun l hl => hside l hl i) (by simp [Act.promise]) (by simp) rfl ?_
      hleave trivial (Finset.Subset.refl _) ?_ hk, rfl⟩
    · simpa [Act.Side, Finset.erase_insert hni] using ⟨hside, hwait⟩
    · simp [Act.frees, Finset.sdiff_singleton_eq_erase, hni]
  · exact ⟨hk, hleave⟩

theorem wakeupLook_typed {chan : Option Chan}
    (h : Typed (disc who) R (.act (.wakeupLook chan i) :: k))
    (hact : s.act c ch (.wakeupLook chan i) = some (s', push)) :
    Typed (disc who) R (push ++ k) ∧ leaving (push ++ k) = false := by
  obtain ⟨⟨⟨hi, hside, hwait⟩, hleave, -⟩, hk⟩ := typed_disc_act.mp h
  simp only [State.act, Option.some.injEq, Prod.mk.injEq] at hact
  obtain ⟨-, rfl⟩ := hact
  refine ⟨⟨trivial, hi, ⟨⟨hside, fun hw => ?_⟩, hleave, trivial⟩, ?_⟩, rfl⟩
  · simpa using hwait hw
  · simpa [disc, Act.frees, Finset.sdiff_singleton_eq_erase] using hk

theorem scan_typed {w : WaitCall} {havekids : Bool}
    (h : Typed (disc who) R (.act (.scan p w i havekids) :: k))
    (hact : s.act c ch (.scan p w i havekids) = some (s', push)) :
    Typed (disc who) R (push ++ k) ∧ leaving (push ++ k) = false := by
  obtain ⟨⟨⟨rfl, rfl⟩, -, rfl⟩, -⟩ := typed_disc_act.mp h
  have hlook : ∀ {a : Act} {j : ℕ}, a.Side (some p) {.wait, .proc j} →
      a.frees = {.wait, .proc j} → a.After [.act (.user p)] → a.marks = false →
      (∀ q, a ≠ .swtch q) → a.promise = none →
      Typed (disc (some p)) {.wait} (.acquire (.proc j) :: .act a :: [.act (.user p)]) :=
    fun hs hf ha hm hns hp => acquire_typed (by simp [Lock.Before]) (by simp [hp]) hns hm
      (by rwa [Finset.pair_comm]) rfl ha (by simp)
      (by simp [hf, Finset.pair_comm]) user_typed_empty
  simp only [State.act] at hact
  split_ifs at hact <;> cases hact
  · exact ⟨hlook ⟨rfl, rfl⟩ rfl rfl rfl (by simp) rfl, rfl⟩
  · exact ⟨h, rfl⟩
  · exact ⟨hlook ⟨rfl, rfl⟩ rfl rfl rfl (by simp) rfl, rfl⟩
  · simp [Act.Side, Act.frees, Act.marks, Act.After, leaving_act]

theorem erase_pair_wait : ({.wait, .proc i} : Finset Lock).erase (.proc i) = {.wait} := by
  ext l; cases l <;> simp

theorem look_typed {w : WaitCall} (h : Typed (disc who) R (.act (.look p w i) :: k))
    (hact : s.act c ch (.look p w i) = some (s', push)) :
    Typed (disc who) R (push ++ k) ∧ leaving (push ++ k) = false := by
  obtain ⟨⟨⟨rfl, rfl⟩, -, rfl⟩, -⟩ := typed_disc_act.mp h
  simp only [State.act] at hact
  split_ifs at hact <;> cases hact
  rotate_left
  · exact shmSection_typed (by simp [Lock.Before]) rfl h
  all_goals simp [Act.Side, Act.frees, Act.marks, Act.After, leaving_act, erase_pair_wait]

theorem readKilled_typed {w : WaitCall} (h : Typed (disc who) R (.act (.readKilled p w) :: k))
    (hact : s.act c ch (.readKilled p w) = some (s', push)) :
    Typed (disc who) R (push ++ k) ∧ leaving (push ++ k) = false := by
  obtain ⟨⟨⟨rfl, rfl⟩, -, rfl⟩, -⟩ := typed_disc_act.mp h
  simp only [State.act] at hact
  split_ifs at hact <;> cases hact
  · simp [Act.Side, Act.frees, Act.marks, Act.After, leaving_act, erase_pair_wait]
  · have hscan : Typed (disc (some p)) {.wait}
        (.act (.scan p w 0 false) :: [.act (.user p)]) :=
      ⟨⟨⟨rfl, rfl⟩, rfl, rfl⟩, by simpa [disc, Act.frees] using user_typed_empty⟩
    have hsleep := sleep_typed (.proc p) .wait (by simp [Lock.Before]) rfl
      (fun _ => by simp [outside_iff, Act.midWait]) (fun _ => rfl) (by simp) (by simp) hscan
    refine ⟨?_, rfl⟩
    rw [List.cons_append, List.cons_append, typed_disc_release, erase_pair_wait]
    exact ⟨by simp, by simpa using hsleep⟩

theorem schedScan_typed {best : Option ℕ} (h : Typed (disc who) R (.act (.schedScan i best) :: k))
    (hact : s.act c ch (.schedScan i best) = some (s', push)) :
    Typed (disc who) R (push ++ k) ∧ leaving (push ++ k) = false := by
  obtain ⟨⟨⟨rfl, rfl, hbest⟩, hleave, -⟩, hk⟩ := typed_disc_act.mp h
  replace hk : Typed (disc none) ∅ k := by simpa [Act.frees] using hk
  simp only [State.act] at hact
  split_ifs at hact
  · cases hact
    refine ⟨acquire_typed ?_ ?_ (by simp) rfl ⟨rfl, rfl, hbest⟩ hleave trivial (Finset.empty_subset _)
      (by simp [Act.frees]) hk, rfl⟩
    · cases best <;> simp_all [Lock.Before]
    · cases best <;> simp_all [Act.promise]
      omega
  · cases best <;> cases hact
    all_goals simp_all [scheduler, Act.Side, Act.frees, Act.marks, Act.After, leaving_act]

theorem schedLook_typed {best : Option ℕ} (h : Typed (disc who) R (.act (.schedLook i best) :: k))
    (hact : s.act c ch (.schedLook i best) = some (s', push)) :
    Typed (disc who) R (push ++ k) ∧ leaving (push ++ k) = false := by
  obtain ⟨⟨⟨rfl, rfl, hbest⟩, hleave, -⟩, hk⟩ := typed_disc_act.mp h
  replace hk : Typed (disc none) ∅ k := by simpa [Act.frees] using hk
  have hnot : Lock.proc i ∉ bestLock best := by
    cases best with
    | none => simp
    | some b => simp; have := hbest b rfl; omega
  have hlt : ∀ b ∈ best, b < i + 1 := fun b hb => Nat.lt_succ_of_lt (hbest b hb)
  simp only [State.act] at hact
  split_ifs at hact
  · cases best with
    | none =>
      cases hact
      simp_all [Act.Side, Act.frees, Act.marks, Act.After, leaving_act]
    | some b =>
      simp only at hact
      have hb := hbest b rfl
      have herase : ({.proc i, .proc b} : Finset Lock).erase (.proc b) = {.proc i} := by
        rw [Finset.pair_comm, Finset.erase_insert (by simp; omega)]
      split_ifs at hact <;> cases hact
      all_goals simp_all [Act.Side, Act.frees, Act.marks, Act.After, leaving_act]
  · cases hact
    refine ⟨⟨trivial, by simp, ⟨⟨rfl, Finset.erase_insert hnot, hlt⟩, hleave, trivial⟩, ?_⟩, rfl⟩
    simpa [disc, Act.frees, Finset.erase_insert hnot] using hk

/-- The expansion of every action but the two context switches runs under the
locks of the action. -/
theorem act_typed {a : Act} (h : Typed (disc who) R (.act a :: k))
    (hact : s.act c ch a = some (s', push))
    (hs : ∀ p, a ≠ .swtch p) (hs' : ∀ b, a ≠ .schedSwtch b) :
    Typed (disc who) R (push ++ k) ∧ leaving (push ++ k) = a.marks := by
  obtain ⟨⟨hside, hleave, hafter⟩, hk⟩ := typed_disc_act.mp h
  cases a with
  | user p => exact user_typed h hact
  | wakeup chan i => exact wakeup_typed h hact
  | wakeupLook chan i => exact wakeupLook_typed h hact
  | scan p w i havekids => exact scan_typed h hact
  | look p w i => exact look_typed h hact
  | readKilled p w => exact readKilled_typed h hact
  | schedScan i best => exact schedScan_typed h hact
  | schedLook i best => exact schedLook_typed h hact
  | ret | setState | setZombie | setChan | allocpid | setParent | setRunnable | schedBack =>
    simp only [State.act, Option.some.injEq, Prod.mk.injEq] at hact
    obtain ⟨-, rfl⟩ := hact
    exact ⟨by simpa [Act.frees] using hk, hleave⟩
  | zombieExit p => simp [State.act] at hact
  | swtch p => exact absurd rfl (hs p)
  | schedSwtch b => exact absurd rfl (hs' b)
  | kkill pid i | setpriority pid priority i =>
    obtain rfl : R = ∅ := hside
    simp only [State.act] at hact
    split_ifs at hact <;> cases hact
    · exact ⟨acquire_typed (by simp) (by simp [Act.promise]) (by simp) rfl rfl hleave trivial
        (Finset.Subset.refl _) (by simp [Act.frees]) hk, rfl⟩
    · exact ⟨hk, hleave⟩
  | allocproc p kind i =>
    obtain ⟨rfl, rfl⟩ := hside
    simp only [State.act] at hact
    split_ifs at hact with hi <;> cases hact
    · exact ⟨acquire_typed (by simp) (by simp [Act.promise]) (by simp) rfl ⟨rfl, rfl, hi⟩ hleave
        hafter (Finset.Subset.refl _) (by simp [Act.frees]) hk, rfl⟩
    · exact ⟨hk, hleave⟩
  | kkillLook pid i | setpriorityLook pid priority i =>
    obtain rfl : R = {.proc i} := hside
    simp only [State.act] at hact
    split_ifs at hact <;> cases hact
    all_goals simp_all [Act.Side, Act.frees, Act.marks, Act.After, leaving_act]
  | allocprocLook p kind i =>
    obtain ⟨rfl, rfl, hi⟩ := hside
    obtain rfl : k = [.act (.user p)] := hafter
    simp only [State.act] at hact
    split_ifs at hact <;> cases hact
    all_goals simp [Act.Side, Act.frees, Act.marks, Act.After, leaving_act, Lock.Before, hi]
  | allocprocFound p kind i =>
    obtain ⟨rfl, rfl, hi⟩ := hside
    obtain rfl : k = [.act (.user p)] := hafter
    cases ch <;> simp only [State.act, reduceCtorEq] at hact <;>
      cases hact
    · exact ⟨publish_typed, rfl⟩
    · simp [Act.Side, Act.frees, Act.marks, Act.After, leaving_act]
    · exact shmSection_typed (by simp [Lock.Before]) rfl h
  | killed p n =>
    obtain ⟨rfl, rfl⟩ := hside
    obtain rfl : k = [.act (.user p)] := hafter
    cases hact
    have herase : ({.cond n, .proc p} : Finset Lock).erase (.proc p) = {.cond n} := by
      ext l; cases l <;> simp
    simp [Act.Side, Act.frees, Act.marks, Act.After, leaving_act, herase]
  | critical p n =>
    obtain ⟨rfl, rfl⟩ := hside
    obtain rfl : k = [.act (.user p)] := hafter
    cases ch <;> simp only [State.act, reduceCtorEq] at hact <;>
      cases hact
    · simp_all [Act.frees, Act.marks]
    · rename_i chan
      have hsleep := sleep_typed (.addr chan) (.cond n) (fun _ => trivial) rfl (by simp)
        (by simp [Scans]) (by simp) (by simp) h
      exact ⟨by simpa using hsleep, rfl⟩
    · exact ⟨⟨⟨by simp [Act.Side, NoProc, Lock.Before, wakesProc], rfl, trivial⟩, h⟩, rfl⟩
    · exact ⟨acquire_typed (by simp [Lock.Before]) (by simp [Act.promise]) (by simp) rfl
        ⟨rfl, Finset.pair_comm _ _⟩ hleave rfl (by simp) (by simp [Act.frees, Finset.pair_comm])
        user_typed_empty, rfl⟩
  | reparent p i =>
    obtain ⟨rfl, rfl⟩ := hside
    simp only [State.act] at hact
    split_ifs at hact <;> cases hact
    all_goals simp_all [wakeup, NoProc, Act.Side, Act.frees, Act.marks, Act.After, leaving_act,
      Lock.Before]
  | wakeupParent p =>
    obtain ⟨rfl, rfl⟩ := hside
    cases hact
    simp_all [wakeup, NoProc, Act.Side, Act.frees, Act.marks, Act.After, leaving_act, Lock.Before]

/-- Without `wait_lock`, a thread is not in the middle of a section under it. -/
theorem outside_of_typed (h : Typed (disc who) R k) (hw : .wait ∉ R) : Outside k := by
  induction k generalizing R with
  | nil => simp [outside_iff]
  | cons x k ih =>
    cases x with
    | acquire l =>
      have hk : Outside k := by
        by_cases hl : l = .wait
        · exact h.1.2.2.2 hl
        · exact ih h.2 (by simp [hw, Ne.symm hl])
      simpa [outside_iff] using hk
    | release l =>
      have hl : l ≠ .wait := fun he => hw (he ▸ h.2.1)
      have hk := ih h.2.2 (fun hm => hw (Finset.mem_of_mem_erase hm))
      simpa [outside_iff, hl.symm] using hk
    | act a =>
      have hk := ih h.2 (fun hm => hw (Finset.mem_sdiff.mp hm).1)
      obtain ⟨hm, he, hs⟩ := hk
      have hside := h.1.1
      refine ⟨?_, ?_, ?_⟩
      · rintro b hb
        rcases List.mem_cons.mp hb with hab | hb
        · obtain rfl := Cmd.act.inj hab
          cases b <;> simp_all [Act.Side, Act.midWait]
        · exact hm b hb
      · intro p st hmem
        rcases List.mem_cons.mp hmem with hab | hb
        · obtain rfl := Cmd.act.inj hab
          simp_all [Act.Side]
        · exact List.mem_cons_of_mem _ (he p st hb)
      · intro p w i havekids hmem
        rcases List.mem_cons.mp hmem with hab | hb
        · obtain rfl := Cmd.act.inj hab
          simp_all [Act.Side]
        · simpa using hs p w i havekids hb

end Xv6.Sched
