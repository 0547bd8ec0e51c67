import Xv6.Sched.Model

/-!
# Kernel mutexes, semaphores and sleep-locks (`sysproc.c`, `sleeplock.c`)

The calls run on top of the scheduler model. Each object has a spinlock and a
sleep channel, both under its number. A call checks its arguments in user context,
takes the spinlock, and then its body decides at every return to the critical
section what comes next: `killed`, `sleep`, `wakeup`, or the return to the caller.
Everything else (scheduling, interrupts, other system calls, other condition locks)
is a step of the scheduler model.

Two parts of the state are ghosts: the history of calls, and for every slot the
number of the process in it, which counts the processes ever created.
-/

namespace Xv6.Sync

open LockCode Sched Function

def nkmutex : ℕ := 16

def nksem : ℕ := 16

structure KMutex where
  used : Bool
  locked : Bool
  deriving DecidableEq

structure KSem where
  used : Bool
  count : ℤ
  deriving DecidableEq

structure SleepLock where
  locked : Bool
  pid : ℤ
  deriving DecidableEq

/-- A call with its arguments as the caller passes them. -/
inductive Call where
  | mutexInit (id : ℤ)
  | mutexAcquire (id : ℤ)
  | mutexRelease (id : ℤ)
  | semInit (id value : ℤ)
  | semWait (id : ℤ)
  | semPost (id : ℤ)
  | acquiresleep (lk : ℕ)
  | releasesleep (lk : ℕ)
  | holdingsleep (lk : ℕ)
  deriving DecidableEq

/-- A call whose arguments have been checked. -/
inductive Op where
  | mutexInit (id : Fin nkmutex)
  | mutexAcquire (id : Fin nkmutex)
  | mutexRelease (id : Fin nkmutex)
  | semInit (id : Fin nksem) (value : ℤ)
  | semWait (id : Fin nksem)
  | semPost (id : Fin nksem)
  | acquiresleep (lk : ℕ)
  | releasesleep (lk : ℕ)
  | holdingsleep (lk : ℕ)
  deriving DecidableEq

inductive Obj where
  | mutex (id : Fin nkmutex)
  | sem (id : Fin nksem)
  | sleeplock (lk : ℕ)
  deriving DecidableEq

/-- The number of the object's spinlock and of its channel. -/
def Obj.num : Obj → ℕ
  | .mutex id => 4 * id
  | .sem id => 4 * id + 1
  | .sleeplock lk => 4 * lk + 2

/-- The numbers of all other condition locks and channels. -/
def foreign (n : ℕ) : Bool := n % 4 == 3

def Op.obj : Op → Obj
  | .mutexInit id | .mutexAcquire id | .mutexRelease id => .mutex id
  | .semInit id _ | .semWait id | .semPost id => .sem id
  | .acquiresleep lk | .releasesleep lk | .holdingsleep lk => .sleeplock lk

/-- Where a call is: before `initlock`, at the head of its loop, after `killed`
with its result, after `wakeup`. -/
inductive Phase where
  | initlock
  | loop
  | checked (killed : Bool)
  | woken
  deriving DecidableEq

/-- What the body of a call does next. -/
inductive Reply where
  | killed
  | sleep
  | wakeup
  | ret (value : ℤ)
  deriving DecidableEq

/-- Ghost history of the calls of the processes. -/
inductive Event where
  | begin (k : ℕ) (o : Op)
  | ret (k : ℕ) (o : Op) (value : ℤ)
  | reject (k : ℕ) (call : Call)
  deriving DecidableEq

structure State (C : Type) where
  sched : Sched.State C
  kmutexes : Fin nkmutex → KMutex
  ksems : Fin nksem → KSem
  sleeplocks : ℕ → SleepLock
  op : ℕ → Option (Op × Phase)
  born : ℕ → ℕ
  pids : List ℤ
  hist : List Event

variable {C : Type} [DecidableEq C]

def State.setMutex (s : State C) (id : Fin nkmutex) (f : KMutex → KMutex) : State C :=
  { s with kmutexes := update s.kmutexes id (f (s.kmutexes id)) }

def State.setSem (s : State C) (id : Fin nksem) (f : KSem → KSem) : State C :=
  { s with ksems := update s.ksems id (f (s.ksems id)) }

def State.setSleepLock (s : State C) (lk : ℕ) (v : SleepLock) : State C :=
  { s with sleeplocks := update s.sleeplocks lk v }

def State.setOp (s : State C) (p : ℕ) (o : Option (Op × Phase)) : State C :=
  { s with op := update s.op p o }

def State.log (s : State C) (e : Event) : State C := { s with hist := s.hist ++ [e] }

/-! ## The calls -/

/-- An index into a table of `bound` entries, as `argint` reads it. -/
def index (bound : ℕ) (id : ℤ) : Option (Fin bound) :=
  if h : 0 ≤ int32 id ∧ int32 id < bound then some ⟨(int32 id).toNat, by omega⟩ else none

/-- The checks before the spinlock is taken; `none` where the call returns -1. -/
def Call.check (s : State C) : Call → Option Op
  | .mutexInit id => (index nkmutex id).map .mutexInit
  | .mutexAcquire id => (index nkmutex id).bind fun id =>
      if (s.kmutexes id).used then some (.mutexAcquire id) else none
  | .mutexRelease id => (index nkmutex id).bind fun id =>
      if (s.kmutexes id).used then some (.mutexRelease id) else none
  | .semInit id value => (index nksem id).bind fun id =>
      if int32 value < 0 then none else some (.semInit id (int32 value))
  | .semWait id => (index nksem id).bind fun id =>
      if (s.ksems id).used then some (.semWait id) else none
  | .semPost id => (index nksem id).bind fun id =>
      if (s.ksems id).used then some (.semPost id) else none
  | .acquiresleep lk => some (.acquiresleep lk)
  | .releasesleep lk => some (.releasesleep lk)
  | .holdingsleep lk => some (.holdingsleep lk)

/-- `used == 0` in the init calls. -/
def State.fresh (s : State C) : Op → Bool
  | .mutexInit id => !(s.kmutexes id).used
  | .semInit id _ => !(s.ksems id).used
  | _ => false

/-- `initlock` clears the spinlock, whoever holds it. -/
def State.initlock (s : State C) (o : Op) : State C :=
  let s := { s with sched := { s.sched with
    holder := update s.sched.holder (.cond o.obj.num) none } }
  match o with
  | .mutexInit id => s.setMutex id fun m => { m with used := true }
  | .semInit id _ => s.setSem id fun m => { m with used := true }
  | _ => s

/-- The body of a call of the process in slot `p`, with the spinlock held. -/
def State.run (s : State C) (p : ℕ) : Op → Phase → Option (State C × Reply)
  | .mutexInit id, .loop => some (s.setMutex id fun m => { m with locked := false }, .ret 0)
  | .mutexAcquire id, .loop =>
    if (s.kmutexes id).locked then some (s, .killed)
    else some (s.setMutex id fun m => { m with locked := true }, .ret 0)
  | .mutexAcquire _, .checked killed => some (s, if killed then .ret (-1) else .sleep)
  | .mutexRelease id, .loop =>
    if (s.kmutexes id).locked then
      some (s.setMutex id fun m => { m with locked := false }, .wakeup)
    else some (s, .ret (-1))
  | .mutexRelease _, .woken => some (s, .ret 0)
  | .semInit id value, .loop => some (s.setSem id fun m => { m with count := value }, .ret 0)
  | .semWait id, .loop =>
    if (s.ksems id).count = 0 then some (s, .killed)
    else some (s.setSem id fun m => { m with count := int32 (m.count - 1) }, .ret 0)
  | .semWait _, .checked killed => some (s, if killed then .ret (-1) else .sleep)
  | .semPost id, .loop =>
    some (s.setSem id fun m => { m with count := int32 (m.count + 1) }, .wakeup)
  | .semPost _, .woken => some (s, .ret 0)
  | .acquiresleep lk, .loop =>
    if (s.sleeplocks lk).locked then some (s, .sleep)
    else some (s.setSleepLock lk ⟨true, (s.sched.proc p).pid⟩, .ret 0)
  | .releasesleep lk, .loop => some (s.setSleepLock lk ⟨false, 0⟩, .wakeup)
  | .releasesleep _, .woken => some (s, .ret 0)
  | .holdingsleep lk, .loop =>
    some (s, .ret (if (s.sleeplocks lk).locked ∧ (s.sleeplocks lk).pid = (s.sched.proc p).pid
      then 1 else 0))
  | _, _ => none

/-! ## Steps -/

/-- The next command of CPU `c`. -/
def next (s : Sched.State C) (c : C) : Option (Cmd Lock Act) := (s.codeOf c (s.thread c)).head?

/-- A new process gets the next number when its slot is taken. -/
def State.birth (s : State C) (c : C) (ch : Sched.Choice) : State C :=
  match next s.sched c, ch with
  | some (.act (.allocprocFound _ _ i)), .go =>
    { s with
      born := update s.born i s.pids.length
      pids := s.pids ++ [(s.sched.proc i).pid] }
  | _, _ => s

/-- A step of the scheduler model. -/
def State.lift (s : State C) (c : C) (ch : Sched.Choice) : Option (State C) :=
  (Sched.step s.sched ⟨c, ch⟩).map fun t => { s.birth c ch with sched := t }

/-- The call goes on to `acquire` and its loop. -/
def State.enter (s : State C) (c : C) (p : ℕ) (o : Op) : Option (State C) :=
  (s.lift c (.call (.critical o.obj.num))).map fun s => s.setOp p (some (o, .loop))

/-- The body's decision is carried out. -/
def State.reply (s : State C) (c : C) (p : ℕ) (o : Op) : Reply → Option (State C)
  | .killed => (s.lift c .killed).map fun s => s.setOp p (some (o, .loop))
  | .sleep => (s.lift c (.sleep o.obj.num)).map fun s => s.setOp p (some (o, .loop))
  | .wakeup => (s.lift c (.wakeup o.obj.num)).map fun s => s.setOp p (some (o, .woken))
  | .ret value =>
    (s.lift c .go).map fun s => (s.setOp p none).log (.ret (s.born p) o value)

/-- Scheduler steps that are not decided by a call, and do not touch the condition
locks and channels of the calls. -/
def State.free (s : State C) (c : C) : Sched.Choice → Bool
  | .timer => true
  | .device n chan => foreign n && foreign chan
  | ch =>
    match next s.sched c with
    | some (.act (.user p)) => (s.op p).isNone && match ch with
      | .call (.critical n) => foreign n
      | _ => true
    | some (.act (.critical p _)) => (s.op p).isNone && match ch with
      | .sleep chan | .wakeup chan => foreign chan
      | _ => true
    | some (.act (.killed p _)) => (s.op p).isNone
    | _ => true

/-- What a CPU does next: the process starts a call, a call goes on, or the
scheduler model makes a step. -/
inductive Choice where
  | call (call : Call)
  | op
  | sched (ch : Sched.Choice)
  deriving DecidableEq

structure Label (C : Type) where
  cpu : C
  choice : Choice

def State.start (s : State C) (c : C) (p : ℕ) (call : Call) : Option (State C) :=
  match call.check s with
  | none => some (s.log (.reject (s.born p) call))
  | some o =>
    let s := s.log (.begin (s.born p) o)
    if s.fresh o then some (s.setOp p (some (o, .initlock))) else s.enter c p o

def step (s : State C) (l : Label C) : Option (State C) :=
  match l.choice with
  | .call call =>
    match next s.sched l.cpu with
    | some (.act (.user p)) => if s.op p = none then s.start l.cpu p call else none
    | _ => none
  | .op =>
    match next s.sched l.cpu with
    | some (.act (.user p)) =>
      match s.op p with
      | some (o, .initlock) => (s.initlock o).enter l.cpu p o
      | _ => none
    | some (.act (.critical p _)) =>
      match s.op p with
      | some (o, ph) => (s.run p o ph).bind fun r => r.1.reply l.cpu p o r.2
      | none => none
    | some (.act (.killed p _)) =>
      match s.op p with
      | some (o, .loop) => (s.lift l.cpu .go).map fun t =>
          t.setOp p (some (o, .checked (s.sched.proc p).killed))
      | _ => none
    | _ => none
  | .sched ch => if s.free l.cpu ch then s.lift l.cpu ch else none

/-- After `main`: the tables are zero and the sleep-locks initialised. -/
def boot : State C where
  sched := Sched.boot
  kmutexes := fun _ => ⟨false, false⟩
  ksems := fun _ => ⟨false, 0⟩
  sleeplocks := fun _ => ⟨false, 0⟩
  op := fun _ => none
  born := fun _ => 0
  pids := [1]
  hist := []

end Xv6.Sync
