import Mathlib.Data.Finset.Basic
import Xv6.Lib.Runs

/-!
# Pipes (`pipe.c`, with `sleep`, `wakeup` and `kkill` of `proc.c`)

One pipe and the processes that use it. A process runs by steps; between two steps
other processes may run. The critical sections of `p->lock` in `killed`, `wakeup` and
`kkill` read and write one process only and are one step each, which needs `p->lock` to
be free. In `sleep` the process holds its own `p->lock` over several steps, and the
scheduler gives it back.

`accepted` and `delivered` are ghosts: the bytes that writers have put in and readers
have got. The `base` of a writer is a ghost too: the value of `i` when the writer took
the pipe's lock.
-/

namespace Xv6.Pipes

open Runs

def pipesize : ℕ := 512

def nproc : ℕ := 64

/-- The channels `&pi->nread` and `&pi->nwrite`. -/
inductive Chan where
  | nread
  | nwrite
  deriving DecidableEq

inductive ProcState where
  | sleeping
  | runnable
  | running
  deriving DecidableEq

inductive Call where
  | write (n : ℤ)
  | read (n : ℤ)
  | close (writable : Bool)
  deriving DecidableEq

/-- Where a call goes on when it has taken the lock, for the first time or after
`sleep`. -/
inductive Entry where
  | write (i : ℕ) (n : ℤ)
  | read (n : ℤ)
  | close (writable : Bool)
  deriving DecidableEq

/-- What follows a `wakeup`. -/
inductive After where
  | sleep (i : ℕ) (n : ℤ)
  | ret (call : Call) (r : ℤ)
  | close
  deriving DecidableEq

inductive Pc where
  | user
  | acquire (e : Entry)
  | writeLoop (base i : ℕ) (n : ℤ)
  | writeKilled (base i : ℕ) (n : ℤ)
  | writeCopy (base i : ℕ) (n : ℤ)
  | readWait (n : ℤ)
  | readKilled (n : ℤ)
  | readCopy (i : ℕ) (n : ℤ)
  | closeFlag (writable : Bool)
  | closeCheck
  | kfree
  | wakeup (chan : Chan) (q : ℕ) (k : After)
  | sleepAcquire (chan : Chan) (e : Entry)
  | sleepRelease (chan : Chan) (e : Entry)
  | sleepMark (chan : Chan) (e : Entry)
  | sched (chan : Chan) (e : Entry)
  | asleep (chan : Chan) (e : Entry)
  | resumed (e : Entry)
  | release (call : Call) (r : ℤ)
  deriving DecidableEq

structure Proc where
  pc : Pc
  /-- `p->lock` is held, by the process or by the scheduler on its behalf. -/
  locked : Bool
  state : ProcState
  chan : Option Chan
  killed : Bool

structure Pipe where
  lock : Option ℕ
  data : ℕ → UInt8
  nread : UInt32
  nwrite : UInt32
  readopen : Bool
  writeopen : Bool
  freed : Bool

structure State where
  pipe : Pipe
  proc : ℕ → Proc
  accepted : List UInt8
  delivered : List UInt8

def Pipe.empty (pi : Pipe) : Bool := pi.nread == pi.nwrite

def Pipe.full (pi : Pipe) : Bool := pi.nwrite == pi.nread + UInt32.ofNat pipesize

def State.setPipe (s : State) (f : Pipe → Pipe) : State := { s with pipe := f s.pipe }

def State.setProc (s : State) (p : ℕ) (f : Proc → Proc) : State :=
  { s with proc := Function.update s.proc p (f (s.proc p)) }

def State.goto (s : State) (p : ℕ) (pc : Pc) : State := s.setProc p fun x => { x with pc := pc }

def Call.entry : Call → Entry
  | .write n => .write 0 n
  | .read n => .read n
  | .close writable => .close writable

def Entry.start : Entry → Pc
  | .write i n => .writeLoop i i n
  | .read n => .readWait n
  | .close writable => .closeFlag writable

def After.pc : After → Pc
  | .sleep i n => .sleepAcquire .nwrite (.write i n)
  | .ret call r => .release call r
  | .close => .closeCheck

/-- A sleeper becomes runnable. -/
def Proc.wake (x : Proc) : Proc :=
  if x.state = .sleeping then { x with state := .runnable } else x

/-- One round of the loop of `wakeup`. -/
def Proc.wakeOn (c : Chan) (x : Proc) : Proc := if x.chan = some c then x.wake else x

/-- `p->killed = 1`, and the process is woken. -/
def Proc.kill (x : Proc) : Proc := { x.wake with killed := true }

/-! ## Steps -/

def State.acquire (s : State) (p : ℕ) (e : Entry) : Option State :=
  if s.pipe.lock = none then
    some ((s.setPipe fun pi => { pi with lock := some p }).goto p e.start)
  else none

def State.release (s : State) (p : ℕ) (pc : Pc) : State :=
  (s.setPipe fun pi => { pi with lock := none }).goto p pc

/-- `while(i < n)`, and the test of `readopen`. -/
def State.writeLoop (s : State) (p base i : ℕ) (n : ℤ) : State :=
  if i < n then
    if s.pipe.readopen then s.goto p (.writeKilled base i n)
    else s.goto p (.release (.write n) (-1))
  else s.goto p (.wakeup .nread 0 (.ret (.write n) i))

/-- `killed(pr)`, and the test whether the pipe is full. -/
def State.writeKilled (s : State) (p base i : ℕ) (n : ℤ) : Option State :=
  if (s.proc p).locked then none
  else if (s.proc p).killed then some (s.goto p (.release (.write n) (-1)))
  else if s.pipe.full then some (s.goto p (.wakeup .nread 0 (.sleep i n)))
  else some (s.goto p (.writeCopy base i n))

/-- `copyin`, which gets a byte or fails. -/
def State.writeCopy (s : State) (p base i : ℕ) (n : ℤ) : Option UInt8 → State
  | some ch =>
    { (s.setPipe fun pi => { pi with
          data := Function.update pi.data (pi.nwrite.toNat % pipesize) ch
          nwrite := pi.nwrite + 1 }).goto p (.writeLoop base (i + 1) n) with
      accepted := s.accepted ++ [ch] }
  | none => s.goto p (.wakeup .nread 0 (.ret (.write n) i))

/-- `while(pi->nread == pi->nwrite && pi->writeopen)` -/
def State.readWait (s : State) (p : ℕ) (n : ℤ) : State :=
  if s.pipe.empty ∧ s.pipe.writeopen then s.goto p (.readKilled n) else s.goto p (.readCopy 0 n)

def State.readKilled (s : State) (p : ℕ) (n : ℤ) : Option State :=
  if (s.proc p).locked then none
  else if (s.proc p).killed then some (s.goto p (.release (.read n) (-1)))
  else some (s.goto p (.sleepAcquire .nread (.read n)))

/-- The end of the loop of `piperead`, with the value of `i`. -/
def State.readEnd (s : State) (p : ℕ) (n i : ℤ) : State :=
  s.goto p (.wakeup .nwrite 0 (.ret (.read n) i))

/-- There is a byte to copy. -/
def State.copying (s : State) (i : ℕ) (n : ℤ) : Bool := i < n ∧ ¬ s.pipe.empty

/-- `copyout`, which delivers the byte or fails. -/
def State.readCopy (s : State) (p i : ℕ) (n : ℤ) (ok : Bool) : State :=
  if ok then
    { (s.setPipe fun pi => { pi with nread := pi.nread + 1 }).goto p (.readCopy (i + 1) n) with
      delivered := s.delivered ++ [s.pipe.data (s.pipe.nread.toNat % pipesize)] }
  else s.readEnd p n (if i = 0 then -1 else i)

def State.closeFlag (s : State) (p : ℕ) (writable : Bool) : State :=
  if writable then
    (s.setPipe fun pi => { pi with writeopen := false }).goto p (.wakeup .nread 0 .close)
  else (s.setPipe fun pi => { pi with readopen := false }).goto p (.wakeup .nwrite 0 .close)

/-- The end of `pipeclose`: the lock is given back in both branches. -/
def State.closeCheck (s : State) (p : ℕ) : State :=
  s.release p (if s.pipe.readopen = false ∧ s.pipe.writeopen = false then .kfree else .user)

/-- One round of the loop of `wakeup`, or its end. -/
def State.wakeup (s : State) (p : ℕ) (c : Chan) (q : ℕ) (k : After) : Option State :=
  if q < nproc then
    if q = p then some (s.goto p (.wakeup c (q + 1) k))
    else if (s.proc q).locked then none
    else some ((s.setProc q (Proc.wakeOn c)).goto p (.wakeup c (q + 1) k))
  else some (s.goto p k.pc)

/-- The steps of a process that leave no choice. -/
def State.run (s : State) (p : ℕ) : Option State :=
  match (s.proc p).pc with
  | .user => none
  | .acquire e => s.acquire p e
  | .writeLoop base i n => some (s.writeLoop p base i n)
  | .writeKilled base i n => s.writeKilled p base i n
  | .writeCopy _ _ _ => none
  | .readWait n => some (s.readWait p n)
  | .readKilled n => s.readKilled p n
  | .readCopy i n => if s.copying i n then none else some (s.readEnd p n i)
  | .closeFlag writable => some (s.closeFlag p writable)
  | .closeCheck => some (s.closeCheck p)
  | .kfree => some ((s.setPipe fun pi => { pi with freed := true }).goto p .user)
  | .wakeup c q k => s.wakeup p c q k
  | .sleepAcquire c e =>
    if (s.proc p).locked then none
    else some (s.setProc p fun x => { x with locked := true, pc := .sleepRelease c e })
  | .sleepRelease c e => some (s.release p (.sleepMark c e))
  | .sleepMark c e =>
    some (s.setProc p fun x => { x with chan := some c, state := .sleeping, pc := .sched c e })
  | .sched c e => some (s.setProc p fun x => { x with locked := false, pc := .asleep c e })
  | .asleep _ e =>
    if (s.proc p).state = .runnable ∧ (s.proc p).locked = false then
      some (s.setProc p fun x => { x with state := .running, locked := true, pc := .resumed e })
    else none
  | .resumed e =>
    some (s.setProc p fun x => { x with chan := none, locked := false, pc := .acquire e })
  | .release _ _ => some (s.release p .user)

/-- Who moves: a process starts a call, runs, copies a byte, or is killed. -/
inductive Label where
  | call (p : ℕ) (call : Call)
  | run (p : ℕ)
  | copyin (p : ℕ) (ch : Option UInt8)
  | copyout (p : ℕ) (ok : Bool)
  | kkill (q : ℕ)
  deriving DecidableEq

def step (s : State) : Label → Option State
  | .call p call =>
    if p < nproc ∧ (s.proc p).pc = .user then some (s.goto p (.acquire call.entry)) else none
  | .run p => s.run p
  | .copyin p ch =>
    match (s.proc p).pc with
    | .writeCopy base i n => some (s.writeCopy p base i n ch)
    | _ => none
  | .copyout p ok =>
    match (s.proc p).pc with
    | .readCopy i n => if s.copying i n then some (s.readCopy p i n ok) else none
    | _ => none
  | .kkill q => if (s.proc q).locked then none else some (s.setProc q Proc.kill)

/-- After `pipealloc`, on a page with any contents. -/
def init (data : ℕ → UInt8) : State where
  pipe := ⟨none, data, 0, 0, true, true, false⟩
  proc := fun _ => ⟨.user, false, .running, none, false⟩
  accepted := []
  delivered := []

/-- The bytes between the counters. -/
def Pipe.buffered (pi : Pipe) : List UInt8 :=
  (List.range (pi.nwrite - pi.nread).toNat).map fun j =>
    pi.data ((pi.nread + UInt32.ofNat j).toNat % pipesize)

end Xv6.Pipes
