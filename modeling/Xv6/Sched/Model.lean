import Mathlib
import Xv6.Lib.Runs
import Xv6.Lib.LockCode

/-!
# Processes, scheduler and wait calls (`proc.c`)

Every CPU runs either its scheduler loop or the kernel thread of one process.
A thread is the list of commands it has still to execute: `acquire`, `release`
and atomic actions, cut at the lock operations of the source. An action that is
a loop iteration or a branch puts the commands it goes on with in front of the
rest, so each function below reads as its C body. A step is one command of one
CPU; a CPU whose next command takes a lock that is held has no step.

What the code leaves open is a choice of the step: which system call a process
makes, whether an allocation or a `copyout` fails, when interrupts arrive.
The address space, files and current directory of a process play no part here;
of the shared-memory keys only their locks do.
-/

namespace Xv6.Sched

open LockCode Function

/-- Maximum number of processes. -/
def nproc : ℕ := 64

/-- `userinit` takes the first slot of the table. -/
def initproc : ℕ := 0

inductive ProcState where
  | unused | used | sleeping | runnable | running | zombie
  deriving DecidableEq, Repr

/-- A sleep channel: the address of a process slot, or some other address. -/
inductive Chan where
  | proc (i : ℕ)
  | addr (a : ℕ)
  deriving DecidableEq, Repr

structure Proc where
  state : ProcState
  chan : Option Chan
  killed : Bool
  xstate : ℤ
  pid : ℤ
  priority : ℤ
  isThread : Bool
  parent : Option ℕ

/-- The spinlocks: `p->lock`, `wait_lock`, `pid_lock`, the locks of the
shared-memory keys, and the condition locks that other subsystems pass to `sleep`. -/
inductive Lock where
  | proc (i : ℕ)
  | wait
  | pid
  | shm (key : ℕ)
  | cond (n : ℕ)
  deriving DecidableEq, Repr

/-- The three calls that reap children. `addr` tells whether the status is
copied out. -/
inductive WaitCall where
  | kwait (addr : Bool)
  | kwaitpid (pid : ℤ) (addr : Bool)
  | kthreadJoin (tid : ℤ)
  deriving DecidableEq, Repr

/-- How a wait call ends. -/
inductive Outcome where
  | reaped (child : ℕ)
  | noChild
  | killed
  | copyout
  deriving DecidableEq, Repr

/-- `kfork` and `kthread_create` share `allocproc` and the last steps. -/
inductive Spawn where
  | kfork
  | kthreadCreate
  deriving DecidableEq, Repr

inductive Act where
  | user (p : ℕ)
  | ret (p : ℕ) (w : WaitCall) (value : ℤ) (why : Outcome)
  | wakeup (chan : Option Chan) (i : ℕ)
  | wakeupLook (chan : Option Chan) (i : ℕ)
  | kkill (pid : ℤ) (i : ℕ)
  | kkillLook (pid : ℤ) (i : ℕ)
  | setpriority (pid priority : ℤ) (i : ℕ)
  | setpriorityLook (pid priority : ℤ) (i : ℕ)
  | setState (p : ℕ) (st : ProcState)
  | setZombie (p : ℕ) (status : ℤ)
  | swtch (p : ℕ)
  | setChan (p : ℕ) (chan : Option Chan)
  | zombieExit (p : ℕ)
  | critical (p n : ℕ)
  | killed (p n : ℕ)
  | reparent (p i : ℕ)
  | wakeupParent (p : ℕ)
  | allocproc (p : ℕ) (kind : Spawn) (i : ℕ)
  | allocprocLook (p : ℕ) (kind : Spawn) (i : ℕ)
  | allocpid (i : ℕ)
  | allocprocFound (p : ℕ) (kind : Spawn) (i : ℕ)
  | setParent (p i : ℕ)
  | setRunnable (i : ℕ)
  | scan (p : ℕ) (w : WaitCall) (i : ℕ) (havekids : Bool)
  | look (p : ℕ) (w : WaitCall) (i : ℕ)
  | readKilled (p : ℕ) (w : WaitCall)
  | schedScan (i : ℕ) (best : Option ℕ)
  | schedLook (i : ℕ) (best : Option ℕ)
  | schedSwtch (best : ℕ)
  | schedBack (best : ℕ)
  deriving DecidableEq

abbrev Code := List (Cmd Lock Act)

inductive Call where
  | yield
  | kkill (pid : ℤ)
  | setpriority (pid priority : ℤ)
  | spawn (kind : Spawn)
  | kexit (status : ℤ)
  | kthreadExit (status : ℤ)
  | wait (w : WaitCall)
  | critical (n : ℕ)
  | killed
  | kshm (key : ℕ)
  deriving DecidableEq, Repr

/-- What resolves the choices of one step. -/
inductive Choice where
  | go
  | fail
  | call (c : Call)
  | sleep (chan : ℕ)
  | wakeup (chan : ℕ)
  | killed
  | shm (key : ℕ)
  | timer
  | device (n chan : ℕ)
  deriving DecidableEq, Repr

/-- The key whose lock a loop over the shared-memory keys takes next. Which keys a
process is attached to plays no part here. -/
def Choice.shmKey : Choice → Option ℕ
  | .shm key => some key
  | _ => none

/-- Ghost history: what processes have observed of exits and wait calls. -/
inductive Event where
  | exit (p : ℕ) (status : ℤ)
  | begin (p : ℕ) (w : WaitCall)
  | reap (p child : ℕ) (w : WaitCall) (pid status : ℤ)
  | ret (p : ℕ) (w : WaitCall) (value : ℤ) (why : Outcome)
  deriving DecidableEq

/-- `struct cpu`, with the scheduler's own thread. `onProc` tells whether the
CPU has switched to the thread of `proc`. -/
structure Cpu where
  proc : Option ℕ
  noff : ℕ
  sched : Code
  onProc : Bool

structure State (C : Type) where
  proc : ℕ → Proc
  code : ℕ → Code
  cpu : C → Cpu
  holder : Lock → Option C
  nextpid : ℤ
  hist : List Event

/-! ## Function bodies -/

def wakeup (chan : Option Chan) : Code := [.act (.wakeup chan 0)]

/-- `sched()` after the state change that its callers make under `p->lock`. -/
def yield (p : ℕ) : Code :=
  [.acquire (.proc p), .act (.setState p .runnable), .act (.swtch p), .release (.proc p)]

/-- Once `p->lock` is held no wakeup can be missed, so `lk` may be released. -/
def sleep (p : ℕ) (chan : Chan) (lk : Lock) : Code :=
  [.acquire (.proc p), .release lk, .act (.setChan p (some chan)), .act (.setState p .sleeping),
    .act (.swtch p), .act (.setChan p none), .release (.proc p), .acquire lk]

/-- `kexit` after the process has closed its files. -/
def kexit (p : ℕ) (status : ℤ) : Code :=
  [.acquire .wait, .act (.reparent p 0), .act (.wakeupParent p), .acquire (.proc p),
    .act (.setZombie p status), .release .wait, .act (.swtch p), .act (.zombieExit p)]

/-- `kthread_exit`: a thread runs the same steps itself, any other process
calls `kexit`. -/
def kthreadExit (p : ℕ) (status : ℤ) : Code := kexit p status

/-- `kwait`, `kwaitpid` and `kthread_join` differ in which children they accept
and in what they return. -/
def waitCall (p : ℕ) (w : WaitCall) : Code := [.acquire .wait, .act (.scan p w 0 false)]

/-- The first thing a new process runs. -/
def forkret (p : ℕ) : Code := [.release (.proc p), .act (.user p)]

/-- The end of `kfork` and `kthread_create`, with `np->lock` held. -/
def publish (p i : ℕ) : Code :=
  [.release (.proc i), .acquire .wait, .act (.setParent p i), .release .wait,
    .acquire (.proc i), .act (.setRunnable i), .release (.proc i)]

def critical (p n : ℕ) : Code := [.acquire (.cond n), .act (.critical p n)]

/-- The lock operations of one iteration of the loops over shared-memory keys in
`shmcleanup` and `kthread_create`, and of `kshmget` and `kshmdt`. -/
def shmSection (key : ℕ) : Code := [.acquire (.shm key), .release (.shm key)]

def scheduler : Code := [.act (.schedScan 0 none)]

/-- A device or timer interrupt that wakes sleepers up. -/
def interrupt (n chan : ℕ) : Code :=
  [.acquire (.cond n), .act (.wakeup (some (.addr chan)) 0), .release (.cond n)]

/-- The code of a system call; `none` where the kernel panics. -/
def Call.code (p : ℕ) : Call → Option Code
  | .yield => some (Sched.yield p ++ [.act (.user p)])
  | .kkill pid => some [.act (.kkill pid 0), .act (.user p)]
  | .setpriority pid priority =>
    if priority < 0 then some [.act (.user p)]
    else some [.act (.setpriority pid priority 0), .act (.user p)]
  | .spawn kind => some [.act (.allocproc p kind 0), .act (.user p)]
  | .kexit status => if p = initproc then none else some (Sched.kexit p status)
  | .kthreadExit status => if p = initproc then none else some (Sched.kthreadExit p status)
  | .wait w => some (waitCall p w ++ [.act (.user p)])
  | .critical n => some (Sched.critical p n ++ [.act (.user p)])
  | .killed => some [.acquire (.proc p), .release (.proc p), .act (.user p)]
  | .kshm key => some (shmSection key ++ [.act (.user p)])

/-! ## Atomic actions -/

/-- The children that a wait call looks at. -/
def WaitCall.accepts (w : WaitCall) (p : ℕ) (pp : Proc) : Bool :=
  decide (pp.parent = some p) &&
    match w with
    | .kwait _ => true
    | .kwaitpid pid _ => decide (pp.pid = pid)
    | .kthreadJoin tid => decide (pp.pid = tid) && pp.isThread

/-- Whether the call copies the status out, which may fail. -/
def WaitCall.copiesOut : WaitCall → Bool
  | .kwait addr | .kwaitpid _ addr => addr
  | .kthreadJoin _ => false

/-- What the call returns for the child it reaps. -/
def WaitCall.result (w : WaitCall) (pid status : ℤ) : ℤ :=
  match w with
  | .kwait _ | .kwaitpid _ _ => pid
  | .kthreadJoin _ => status

/-- `freeproc`. -/
def freeproc (_ : Proc) : Proc where
  state := .unused
  chan := none
  killed := false
  xstate := 0
  pid := 0
  priority := 0
  isThread := false
  parent := none

/-- Signed 32-bit wrap-around, as the compiled `nextpid + 1` does. -/
def int32 (n : ℤ) : ℤ := (n + 2 ^ 31) % 2 ^ 32 - 2 ^ 31

variable {C : Type} [DecidableEq C]

def State.setProc (s : State C) (i : ℕ) (f : Proc → Proc) : State C :=
  { s with proc := update s.proc i (f (s.proc i)) }

def State.setCpu (s : State C) (c : C) (f : Cpu → Cpu) : State C :=
  { s with cpu := update s.cpu c (f (s.cpu c)) }

/-- `acquire` on a free lock, with its `push_off`. -/
def State.acquire (s : State C) (c : C) (lk : Lock) : State C :=
  { s with holder := update s.holder lk (some c) }.setCpu c fun u =>
    { u with noff := u.noff + 1 }

/-- `release`, with its `pop_off`. -/
def State.release (s : State C) (c : C) (lk : Lock) : State C :=
  { s with holder := update s.holder lk none }.setCpu c fun u =>
    { u with noff := u.noff - 1 }

def State.log (s : State C) (e : Event) : State C := { s with hist := s.hist ++ [e] }

/-- One atomic action of CPU `c`: the new state and the commands it continues
with. `none` when the choice does not fit or the kernel panics. -/
def State.act (s : State C) (c : C) (ch : Choice) : Act → Option (State C × Code)
  | .user p =>
    match ch with
    | .call call =>
      (call.code p).map fun code =>
        match call with
        | .wait w => (s.log (.begin p w), code)
        | _ => (s, code)
    | _ => none
  | .ret p w value why => some (s.log (.ret p w value why), [])
  | .wakeup chan i =>
    if i < nproc then
      if (s.cpu c).proc = some i then some (s, [.act (.wakeup chan (i + 1))])
      else some (s, [.acquire (.proc i), .act (.wakeupLook chan i)])
    else some (s, [])
  | .wakeupLook chan i =>
    let s := if (s.proc i).state = .sleeping ∧ (s.proc i).chan = chan then
      s.setProc i fun p => { p with state := .runnable } else s
    some (s, [.release (.proc i), .act (.wakeup chan (i + 1))])
  | .kkill pid i =>
    if i < nproc then some (s, [.acquire (.proc i), .act (.kkillLook pid i)]) else some (s, [])
  | .kkillLook pid i =>
    if (s.proc i).pid = pid then
      let s := s.setProc i fun p =>
        { p with
          killed := true
          state := if p.state = .sleeping then .runnable else p.state }
      some (s, [.release (.proc i)])
    else some (s, [.release (.proc i), .act (.kkill pid (i + 1))])
  | .setpriority pid priority i =>
    if i < nproc then
      some (s, [.acquire (.proc i), .act (.setpriorityLook pid priority i)])
    else some (s, [])
  | .setpriorityLook pid priority i =>
    if (s.proc i).pid = pid ∧ (s.proc i).state ≠ .unused then
      some (s.setProc i fun p => { p with priority := priority }, [.release (.proc i)])
    else some (s, [.release (.proc i), .act (.setpriority pid priority (i + 1))])
  | .setState p st => some (s.setProc p fun q => { q with state := st }, [])
  | .setZombie p status =>
    some ((s.setProc p fun q => { q with state := .zombie, xstate := status }).log
      (.exit p status), [])
  | .swtch p =>
    -- the panics of `sched`
    if s.holder (.proc p) = some c ∧ (s.cpu c).noff = 1 ∧ (s.proc p).state ≠ .running then
      some (s.setCpu c fun u => { u with onProc := false }, [])
    else none
  | .setChan p chan => some (s.setProc p fun q => { q with chan := chan }, [])
  | .zombieExit _ => none
  | .critical p n =>
    match ch with
    | .sleep chan => some (s, sleep p (.addr chan) (.cond n) ++ [.act (.critical p n)])
    | .wakeup chan => some (s, wakeup (some (.addr chan)) ++ [.act (.critical p n)])
    | .killed => some (s, [.acquire (.proc p), .act (.killed p n)])
    | .go => some (s, [.release (.cond n)])
    | _ => none
  | .killed p n => some (s, [.release (.proc p), .act (.critical p n)])
  | .reparent p i =>
    if i < nproc then
      if (s.proc i).parent = some p then
        some (s.setProc i fun pp => { pp with parent := some initproc },
          wakeup (some (.proc initproc)) ++ [.act (.reparent p (i + 1))])
      else some (s, [.act (.reparent p (i + 1))])
    else some (s, [])
  | .wakeupParent p => some (s, wakeup ((s.proc p).parent.map Chan.proc))
  | .allocproc p kind i =>
    if i < nproc then some (s, [.acquire (.proc i), .act (.allocprocLook p kind i)])
    else some (s, [])
  | .allocprocLook p kind i =>
    if (s.proc i).state = .unused then
      some (s, [.acquire .pid, .act (.allocpid i), .release .pid, .act (.allocprocFound p kind i)])
    else some (s, [.release (.proc i), .act (.allocproc p kind (i + 1))])
  | .allocpid i =>
    some ({ s.setProc i fun q => { q with pid := s.nextpid } with
      nextpid := int32 (s.nextpid + 1) }, [])
  | .allocprocFound p kind i =>
    match ch with
    | .go =>
      let s := s.setProc i fun q =>
        { q with
          state := .used
          priority := match kind with
            | .kfork => 10
            | .kthreadCreate => (s.proc p).priority
          isThread := match kind with
            | .kfork => false
            | .kthreadCreate => true }
      some ({ s with code := update s.code i (forkret i) }, publish p i)
    | .fail => some (s.setProc i freeproc, [.release (.proc i)])
    | .shm key => some (s, shmSection key ++ [.act (.allocprocFound p kind i)])
    | _ => none
  | .setParent p i => some (s.setProc i fun q => { q with parent := some p }, [])
  | .setRunnable i => some (s.setProc i fun q => { q with state := .runnable }, [])
  | .scan p w i havekids =>
    if i < nproc then
      if w.accepts p (s.proc i) then some (s, [.acquire (.proc i), .act (.look p w i)])
      else some (s, [.act (.scan p w (i + 1) havekids)])
    else if havekids then some (s, [.acquire (.proc p), .act (.readKilled p w)])
    else some (s, [.release .wait, .act (.ret p w (-1) .noChild)])
  | .look p w i =>
    if (s.proc i).state = .zombie then
      if ch = .fail ∧ w.copiesOut then
        some (s, [.release (.proc i), .release .wait, .act (.ret p w (-1) .copyout)])
      else if ch.shmKey ≠ none then
        some (s, shmSection (ch.shmKey.getD 0) ++ [.act (.look p w i)])
      else
        let pid := (s.proc i).pid
        let status := (s.proc i).xstate
        some ((s.setProc i freeproc).log (.reap p i w pid status),
          [.release (.proc i), .release .wait, .act (.ret p w (w.result pid status) (.reaped i))])
    else some (s, [.release (.proc i), .act (.scan p w (i + 1) true)])
  | .readKilled p w =>
    if (s.proc p).killed then
      some (s, [.release (.proc p), .release .wait, .act (.ret p w (-1) .killed)])
    else
      some (s, .release (.proc p) :: sleep p (.proc p) .wait ++ [.act (.scan p w 0 false)])
  | .schedScan i best =>
    if i < nproc then some (s, [.acquire (.proc i), .act (.schedLook i best)])
    else match best with
      | none => some (s, scheduler)
      | some b => some (s, [.act (.schedSwtch b)])
  | .schedLook i best =>
    if (s.proc i).state = .runnable then
      match best with
      | none => some (s, [.act (.schedScan (i + 1) (some i))])
      | some b =>
        if (s.proc b).priority < (s.proc i).priority then
          some (s, [.release (.proc b), .act (.schedScan (i + 1) (some i))])
        else some (s, [.release (.proc i), .act (.schedScan (i + 1) (some b))])
    else some (s, [.release (.proc i), .act (.schedScan (i + 1) best)])
  | .schedSwtch b =>
    some ((s.setProc b fun q => { q with state := .running }).setCpu c fun u =>
      { u with proc := some b, onProc := true },
      [.act (.schedBack b), .release (.proc b)] ++ scheduler)
  | .schedBack _ => some (s.setCpu c fun u => { u with proc := none }, [])

/-! ## Steps -/

/-- The thread that CPU `c` executes: a process, or `none` for its scheduler. -/
def State.thread (s : State C) (c : C) : Option ℕ :=
  if (s.cpu c).onProc then (s.cpu c).proc else none

/-- The remaining code of a thread. -/
def State.codeOf (s : State C) (c : C) : Option ℕ → Code
  | some p => s.code p
  | none => (s.cpu c).sched

def State.setCode (s : State C) (c : C) (k : Code) : Option ℕ → State C
  | some p => { s with code := update s.code p k }
  | none => s.setCpu c fun u => { u with sched := k }

structure Label (C : Type) where
  cpu : C
  choice : Choice

/-- CPU `c` executes the next command of its thread. -/
def State.command (s : State C) (c : C) (ch : Choice) : Option (State C) :=
  match s.codeOf c (s.thread c) with
  | [] => none
  | .acquire lk :: k =>
    if s.holder lk = none then some ((s.acquire c lk).setCode c k (s.thread c)) else none
  | .release lk :: k =>
    if s.holder lk = some c then some ((s.release c lk).setCode c k (s.thread c)) else none
  | .act a :: k => (s.act c ch a).map fun r => r.1.setCode c (r.2 ++ k) (s.thread c)

/-- One step of one CPU. Interrupts are taken only with all spinlocks released;
a timer interrupt makes the running process yield. -/
def step (s : State C) (l : Label C) : Option (State C) :=
  let c := l.cpu
  let t := s.thread c
  match l.choice with
  | .timer =>
    match t with
    | some p => if (s.cpu c).noff = 0 then some (s.setCode c (yield p ++ s.code p) t) else none
    | none => none
  | .device n chan =>
    if (s.cpu c).noff = 0 then some (s.setCode c (interrupt n chan ++ s.codeOf c t) t) else none
  | ch => s.command c ch

/-- An empty slot of the process table. -/
def unusedProc : Proc := freeproc ⟨.unused, none, false, 0, 0, 0, false, none⟩

/-- After `main`: the first process is runnable and every CPU enters its
scheduler. -/
def boot : State C where
  proc := update (fun _ => unusedProc) initproc
    { unusedProc with state := .runnable, pid := 1, priority := 10 }
  code := update (fun _ => []) initproc (forkret initproc)
  cpu := fun _ => ⟨none, 0, scheduler, false⟩
  holder := fun _ => none
  nextpid := 2
  hist := []

end Xv6.Sched
