import Xv6.Vm.Model

/-!
# Processes and their memory (`proc.c`, `sysproc.c`, `syscall.c`, `trap.c`)

The process table with the fields that decide which pages a process owns and maps, and
the functions that work on them. A system call is a program on this state; a process
is named by its slot. User loads and stores are here as well: `access` is what the
paging hardware and `usertrap` do for them.
-/

namespace Xv6.Vm

open Eff

def nproc : ℕ := 64

/-- The states of a slot; a process that can run is `runnable` here, also while it
runs or sleeps. -/
inductive ProcState where
  | unused | used | runnable | zombie
  deriving DecidableEq

structure Proc where
  state : ProcState
  pid : ℕ
  parent : Option ℕ
  killed : Bool
  /-- The four bytes of `xstate`, as `kwait` copies them out. -/
  xstate : List ℕ
  isThread : Bool
  pagetable : Option ℕ
  sz : ℕ
  trapframe : Option ℕ
  shmMask : ℕ → Bool

/-- A slot before its first use; `freeproc` leaves it so but for `shm_mask`. -/
def Proc.clear : Proc :=
  ⟨.unused, 0, none, false, [0, 0, 0, 0], false, none, 0, none, fun _ => false⟩

structure Shmseg where
  pa : Option ℕ
  refcnt : ℤ

structure Kernel where
  mem : Mem
  proc : ℕ → Proc
  shmtable : ℕ → Shmseg
  nextpid : ℕ
  initproc : ℕ

abbrev KM := StateT Kernel (Except String)

def Kernel.setProc (k : Kernel) (i : ℕ) (p : Proc) : Kernel :=
  { k with proc := Function.update k.proc i p }

/-- A function of `kalloc.c` or `vm.c` in a program on processes. -/
def onMem {α : Type} (f : M α) : KM α := fun k =>
  match f k.mem with
  | .ok (a, m) => .ok (a, { k with mem := m })
  | .error e => .error e

def Kernel.setShm (k : Kernel) (key : ℕ) (s : Shmseg) : Kernel :=
  { k with shmtable := Function.update k.shmtable key s }

def modifyProc (i : ℕ) (u : Proc → Proc) : KM Unit :=
  modify fun k => k.setProc i (u (k.proc i))

/-- The address of a pointer that is used; a null pointer traps. -/
def deref (p : Option ℕ) : KM ℕ :=
  match p with
  | some a => pure a
  | none => throw "kerneltrap"

/-! ## `proc.c` -/

/-- `proc_pagetable` for a process with the given trapframe page. -/
def procPagetable (tf : ℕ) : M (Option ℕ) := do
  match ← uvmcreate with
  | none => pure none
  | some pagetable =>
    if ← mappages pagetable trampoline pgsize trampolineText (pteR ||| pteX) then
      if ← mappages pagetable trapframe pgsize tf (pteR ||| pteW) then pure (some pagetable)
      else do
        uvmunmap pagetable trampoline 1 false
        uvmfree pagetable 0
        pure none
    else do
      uvmfree pagetable 0
      pure none

def procFreepagetable (pagetable sz : ℕ) : M Unit := do
  uvmunmap pagetable trampoline 1 false
  uvmunmap pagetable trapframe 1 false
  uvmfree pagetable sz

/-- The end of an attachment: one reference less, and the page freed with the last. -/
def shmrelease (key : ℕ) : KM Unit := do
  modify fun k => k.setShm key { k.shmtable key with refcnt := (k.shmtable key).refcnt - 1 }
  let s := (← get).shmtable key
  if s.refcnt = 0 then do
    onMem (kfree (s.pa.getD 0))
    modify fun k => k.setShm key { k.shmtable key with pa := none }

def shmcleanup (i : ℕ) : KM Unit := do
  forUpto (fun key => do
    let p := (← get).proc i
    if p.shmMask key then do
      match p.pagetable with
      | none => pure ()
      | some pagetable => onMem (uvmunmap pagetable (shmbase + key * pgsize) 1 false)
      shmrelease key) shmPages
  modifyProc i fun p => { p with shmMask := fun _ => false }

def freeproc (i : ℕ) : KM Unit := do
  match ((← get).proc i).trapframe with
  | none => pure ()
  | some tf => onMem (kfree tf)
  modifyProc i fun p => { p with trapframe := none }
  match ((← get).proc i).pagetable with
  | none => pure ()
  | some pagetable => do
    shmcleanup i
    let p := (← get).proc i
    if p.isThread then onMem (threadFreepagetable pagetable p.sz)
    else onMem (procFreepagetable pagetable p.sz)
  modifyProc i fun p => { Proc.clear with shmMask := p.shmMask }

def allocproc : KM (Option ℕ) := do
  let k ← get
  match (List.range nproc).find? fun i => (k.proc i).state = .unused with
  | none => pure none
  | some i => do
    modify fun k => { k with nextpid := k.nextpid + 1 }
    modifyProc i fun p => { p with
      pid := k.nextpid, state := .used, shmMask := fun _ => false, isThread := false }
    match ← onMem kalloc with
    | none => do
      freeproc i
      pure none
    | some tf => do
      modifyProc i fun p => { p with trapframe := some tf }
      match ← onMem (procPagetable tf) with
      | none => do
        freeproc i
        pure none
      | some pagetable => do
        modifyProc i fun p => { p with pagetable := some pagetable }
        pure (some i)

/-- The sum of a size and an `int`, in 64 bits. -/
def addInt (sz : ℕ) (n : ℤ) : ℕ := ((sz + n) % 2 ^ 64).toNat

def growproc (i : ℕ) (n : ℤ) : KM Bool := do
  let p := (← get).proc i
  let pagetable ← deref p.pagetable
  if 0 < n then
    if trapframe < addInt p.sz n then pure false
    else do
      let sz ← onMem (uvmalloc pagetable p.sz (addInt p.sz n) pteW)
      if sz = 0 then pure false
      else do
        modifyProc i fun p => { p with sz := sz }
        pure true
  else if n < 0 then do
    let sz ← onMem (uvmdealloc pagetable p.sz (addInt p.sz n))
    modifyProc i fun p => { p with sz := sz }
    pure true
  else pure true

/-- A 64-bit word of a trapframe, lowest byte first. -/
def setWord (tf off w : ℕ) : M Unit :=
  forUpto (fun j => modify fun m => m.setByte tf (off + j) (w / 256 ^ j % 256)) 8

/-- Register `a0` is at byte 112 of the trapframe. The slot of the child is returned,
`none` for -1. -/
def kfork (i : ℕ) : KM (Option ℕ) := do
  match ← allocproc with
  | none => pure none
  | some np => do
    let p := (← get).proc i
    let old ← deref p.pagetable
    let new ← deref ((← get).proc np).pagetable
    if ← onMem (uvmcopy old new p.sz) then do
      modifyProc np fun c => { c with sz := p.sz }
      let dst ← deref ((← get).proc np).trapframe
      let src ← deref p.trapframe
      onMem (memmove dst src)
      onMem (setWord dst 112 0)
      modifyProc np fun c => { c with parent := some i }
      modifyProc np fun c => { c with state := .runnable }
      pure (some np)
    else do
      freeproc np
      pure none

/-! ## `sysproc.c` -/

inductive SbrkType where
  | eager | lazy
  deriving DecidableEq

/-- Returns the old size, `none` for -1. -/
def sysSbrk (i : ℕ) (n : BitVec 32) (t : SbrkType) : KM (Option ℕ) := do
  let addr := ((← get).proc i).sz
  if t = .eager ∨ n.toInt < 0 then
    if ← growproc i n.toInt then pure (some addr) else pure none
  else if addInt addr n.toInt < addr then pure none
  else if trapframe < addInt addr n.toInt then pure none
  else do
    modifyProc i fun p => { p with sz := addInt p.sz n.toInt }
    pure (some addr)

/-! ## `syscall.c` -/

/-- The bytes at a user address, or `none` for -1. -/
def fetchaddr (i addr : ℕ) : KM (Option (List ℕ)) := do
  let p := (← get).proc i
  if p.sz ≤ addr ∨ p.sz < (addr + 8) % 2 ^ 64 then pure none
  else do
    let pagetable ← deref p.pagetable
    onMem (copyin p.sz pagetable pagetable addr 8)

/-- The string at a user address, of which the source returns the length. -/
def fetchstr (i addr max : ℕ) : KM (Option (List ℕ)) := do
  let pagetable ← deref ((← get).proc i).pagetable
  onMem (copyinstr pagetable addr max)

/-! ## User loads and stores -/

inductive Access where
  | load | store
  deriving DecidableEq

def Perm.allows (perm : Perm) : Access → Bool
  | .load => perm.u && perm.r
  | .store => perm.u && perm.w

/-- What the paging hardware finds for a user address. -/
def translate (pagetable va : ℕ) (acc : Access) : M (Option ℕ) :=
  if maxva ≤ va then pure none else do
    match ← pteOf pagetable va with
    | none => pure none
    | some pte => if pte.perm.allows acc then pure (some pte.pa) else pure none

/-- A user access and, if it faults, what `usertrap` does: the access is tried again
after `vmfault` has mapped a page, and else the process is killed. -/
def access (i va : ℕ) (acc : Access) : KM (Option ℕ) := do
  let p := (← get).proc i
  let pagetable ← deref p.pagetable
  match ← onMem (translate pagetable va acc) with
  | some pa => pure (some pa)
  | none =>
    match ← onMem (vmfault p.sz pagetable pagetable va) with
    | some _ => onMem (translate pagetable va acc)
    | none => do
      modifyProc i fun p => { p with killed := true }
      pure none

def load (i va : ℕ) : KM (Option ℕ) := do
  match ← access i va .load with
  | none => pure none
  | some pa => return some ((← get).mem.data pa (va % pgsize))

def store (i va b : ℕ) : KM Bool := do
  match ← access i va .store with
  | none => pure false
  | some pa => do
    onMem (modify fun m => m.setByte pa (va % pgsize) b)
    pure true

/-! ## What a process does -/

/-- An operation on the memory of a process: an access of its own, a copy that a
system call makes for it, or a system call that changes the memory. -/
inductive Op where
  | load (va : ℕ)
  | store (va b : ℕ)
  | copyin (srcva len : ℕ)
  | copyout (dstva : ℕ) (src : List ℕ)
  | copyinstr (srcva max : ℕ)
  | fetchaddr (addr : ℕ)
  | fetchstr (addr max : ℕ)
  | sbrk (n : BitVec 32) (t : SbrkType)
  | fork

/-- What a process learns from an operation. -/
inductive Result where
  | idle
  | byte (b : Option ℕ)
  | done (ok : Bool)
  | bytes (bs : Option (List ℕ))
  | addr (a : Option ℕ)
  | child (np : Option ℕ)
  deriving DecidableEq

/-- An operation of the process in a slot. A killed process exits before it runs again. -/
def step (i : ℕ) (op : Op) : KM Result := do
  let p := (← get).proc i
  if p.state = .runnable ∧ p.killed = false then
    match op with
    | .load va => return .byte (← load i va)
    | .store va b => return .done (← store i va b)
    | .copyin srcva len => do
      let pagetable ← deref p.pagetable
      return .bytes (← onMem (copyin p.sz pagetable pagetable srcva len))
    | .copyout dstva src => do
      let pagetable ← deref p.pagetable
      return .done (← onMem (copyout p.sz pagetable pagetable dstva src))
    | .copyinstr srcva max => do
      let pagetable ← deref p.pagetable
      return .bytes (← onMem (copyinstr pagetable srcva max))
    | .fetchaddr addr => return .bytes (← fetchaddr i addr)
    | .fetchstr addr max => return .bytes (← fetchstr i addr max)
    | .sbrk n t => return .addr (← sysSbrk i n t)
    | .fork => return .child (← kfork i)
  else pure .idle

def run : List (ℕ × Op) → KM (List Result)
  | [] => pure []
  | (i, op) :: ops => do
    let r ← step i op
    let rs ← run ops
    return r :: rs

end Xv6.Vm
