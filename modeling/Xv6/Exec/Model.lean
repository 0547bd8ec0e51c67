import Xv6.Vm.Copy

/-!
# Loading a program (`exec.c`)

`kexec` builds a new address space from an ELF file, puts the arguments on its stack and
exchanges it for the old one. The bytes of the file are arbitrary: every field of its
headers is read from them. The state has the processes and their memory, and of the file
system what `kexec` must leave as it was: the lock of the inode, the references to it and
the number of open transactions.
-/

namespace Xv6.Exec

open Eff Vm

def maxarg : ℕ := 32

def userstack : ℕ := 1

/-- A string in the 128 megabytes of memory, without its terminating zero. -/
structure Str where
  bytes : List UInt8
  noNul : (0 : UInt8) ∉ bytes
  short : bytes.length < 128 * 1024 * 1024

def strlen (s : Str) : ℕ := s.bytes.length

structure State where
  kernel : Kernel
  /-- The field `name` of the processes. -/
  name : ℕ → List UInt8
  ref : ℤ
  locked : Bool
  outstanding : ℤ

abbrev EM := StateT State (Except String)

def onKernel {α : Type} (f : KM α) : EM α := fun s =>
  match f s.kernel with
  | .ok (a, k) => .ok (a, { s with kernel := k })
  | .error e => .error e

/-! ## The file -/

def beginOp : EM Unit := modify fun s => { s with outstanding := s.outstanding + 1 }

def endOp : EM Unit := modify fun s => { s with outstanding := s.outstanding - 1 }

/-- `namei` for a path that names a file. -/
def namei : EM Unit := modify fun s => { s with ref := s.ref + 1 }

def ilock : EM Unit := do
  if (← get).ref < 1 then throw "ilock" else modify fun s => { s with locked := true }

def iunlockput : EM Unit := do
  let s ← get
  if s.locked = false ∨ s.ref < 1 then throw "iunlock"
  else modify fun s => { s with locked := false, ref := s.ref - 1 }

/-- The bytes that `readi` copies to kernel memory from a file with the bytes `data`. The
offset and the length are 32 bits wide. -/
def readi (data : List UInt8) (off n : ℕ) : List UInt8 :=
  if data.length < off ∨ (off + n) % 2 ^ 32 < off then []
  else (data.drop off).take (if data.length < off + n then data.length - off else n)

/-! ## ELF headers -/

/-- A number with its lowest byte first. -/
def le : List UInt8 → ℕ
  | [] => 0
  | b :: bs => b.toNat + 256 * le bs

def field (bs : List UInt8) (off n : ℕ) : ℕ := le ((bs.drop off).take n)

def elfMagic : ℕ := 0x464C457F

structure Elfhdr where
  magic : ℕ
  entry : ℕ
  phoff : ℕ
  phnum : ℕ

def Elfhdr.size : ℕ := 64

def Elfhdr.ofBytes (bs : List UInt8) : Elfhdr where
  magic := field bs 0 4
  entry := field bs 24 8
  phoff := field bs 32 8
  phnum := field bs 56 2

structure Proghdr where
  type : ℕ
  flags : ℕ
  off : ℕ
  vaddr : ℕ
  filesz : ℕ
  memsz : ℕ
  deriving DecidableEq

def Proghdr.size : ℕ := 56

def elfProgLoad : ℕ := 1

def Proghdr.ofBytes (bs : List UInt8) : Proghdr where
  type := field bs 0 4
  flags := field bs 4 4
  off := field bs 8 8
  vaddr := field bs 16 8
  filesz := field bs 32 8
  memsz := field bs 40 8

def flags2perm (flags : ℕ) : Perm :=
  ⟨false, flags.testBit 1, flags.testBit 0, false⟩

/-! ## Segments -/

/-- The loop of `loadseg` over the remaining pages, from offset `i` in the segment on. -/
def loadsegLoop (data : List UInt8) (pagetable va offset sz : ℕ) : ℕ → ℕ → M Bool
  | 0, _ => pure true
  | rounds + 1, i => do
    match ← walkaddr pagetable ((va + i) % 2 ^ 64) with
    | none => throw "loadseg: address should exist"
    | some pa => do
      let n := if sz - i < pgsize then sz - i else pgsize
      let bs := readi data ((offset + i) % 2 ^ 32) n
      modify fun m => m.setBytes pa 0 (bs.map UInt8.toNat)
      if bs.length ≠ n then pure false
      else loadsegLoop data pagetable va offset sz rounds (i + pgsize)

/-- The parameters `offset` and `sz` are 32 bits wide. -/
def loadseg (data : List UInt8) (pagetable va offset sz : ℕ) : M Bool :=
  loadsegLoop data pagetable va offset sz (pgroundup sz / pgsize) 0

/-- The loop of `kexec` over the remaining program headers, from `off` on. The result says
whether all went well, and how far `sz` has come. -/
def loadLoop (data : List UInt8) (pagetable : ℕ) : ℕ → ℕ → ℕ → M (Bool × ℕ)
  | 0, _, sz => pure (true, sz)
  | n + 1, off, sz =>
    let bs := readi data (off % 2 ^ 32) Proghdr.size
    let ph := Proghdr.ofBytes bs
    if bs.length ≠ Proghdr.size then pure (false, sz)
    else if ph.type ≠ elfProgLoad then loadLoop data pagetable n (off + Proghdr.size) sz
    else if ph.memsz < ph.filesz then pure (false, sz)
    else if (ph.vaddr + ph.memsz) % 2 ^ 64 < ph.vaddr then pure (false, sz)
    else if ph.vaddr % pgsize ≠ 0 then pure (false, sz)
    else do
      let sz1 ← uvmalloc pagetable sz ((ph.vaddr + ph.memsz) % 2 ^ 64) (flags2perm ph.flags)
      if sz1 = 0 then pure (false, sz)
      else do
        if ← loadseg data pagetable ph.vaddr (ph.off % 2 ^ 32) (ph.filesz % 2 ^ 32) then
          loadLoop data pagetable n (off + Proghdr.size) sz1
        else pure (false, sz1)

/-! ## Arguments -/

/-- A difference of 64-bit numbers. -/
def sub64 (a b : ℕ) : ℕ := (a + (2 ^ 64 - b % 2 ^ 64)) % 2 ^ 64

/-- The stack pointer `len` bytes further down, at a multiple of 16. -/
def push (sp len : ℕ) : ℕ := sub64 sp len - sub64 sp len % 16

/-- The loop of `kexec` over the remaining arguments. It returns the stack pointer and the
addresses in `ustack`. `vmfault` still works for the process with its old page table. -/
def copyArgs (oldsz old pagetable stackbase : ℕ) : List Str → ℕ → List ℕ → M (Option (ℕ × List ℕ))
  | [], sp, ustack => pure (some (sp, ustack))
  | s :: argv, sp, ustack =>
    let sp := push sp (strlen s + 1)
    if maxarg ≤ ustack.length then pure none
    else if sp < stackbase then pure none
    else do
      if ← copyout oldsz old pagetable sp (s.bytes.map UInt8.toNat ++ [0]) then
        copyArgs oldsz old pagetable stackbase argv sp (ustack ++ [sp])
      else pure none

/-- The eight bytes of a 64-bit word. -/
def word (w : ℕ) : List ℕ := (List.range 8).map fun j => w / 256 ^ j % 256

/-- The stack of the new program: the strings and the array of their addresses. The array
`ustack` has `MAXARG` elements; to write one more is an error of its own here. -/
def copyStack (oldsz old pagetable sz stackbase : ℕ) (argv : List Str) : M (Option (ℕ × ℕ)) := do
  match ← copyArgs oldsz old pagetable stackbase argv sz [] with
  | none => pure none
  | some (sp, ustack) => do
    let argc := ustack.length
    if maxarg ≤ argc then throw "ustack[MAXARG]"
    else
      let sp := push sp ((argc + 1) * 8)
      if sp < stackbase then pure none
      else do
        if ← copyout oldsz old pagetable sp ((ustack ++ [0]).flatMap word) then
          pure (some (argc, sp))
        else pure none

/-! ## `kexec` -/

/-- The label `bad`: `pagetable` may be null, and `ip` is null once the file is closed. -/
def bad {α : Type} (pagetable : Option ℕ) (sz : ℕ) (ip : Bool) : EM (Option α) := do
  match pagetable with
  | none => pure ()
  | some pagetable => onKernel (onMem (procFreepagetable pagetable sz))
  if ip then do
    iunlockput
    endOp
  pure none

/-- The last component of a path, as it is kept in the 16 bytes of `name`. -/
def lastName (path : List UInt8) : List UInt8 :=
  ((path.reverse.takeWhile (· ≠ 47)).reverse).take 15

/-- The user image is committed to. Registers are at bytes 24 (`epc`), 48 (`sp`) and
120 (`a1`) of the trapframe. -/
def commit (i : ℕ) (path : List UInt8) (entry pagetable sz sp : ℕ) : EM Unit := do
  let p := (← get).kernel.proc i
  let tf ← onKernel (deref p.trapframe)
  onKernel (onMem (setWord tf 120 sp))
  modify fun s => { s with name := Function.update s.name i (lastName path) }
  let oldpagetable ← onKernel (deref p.pagetable)
  onKernel (modifyProc i fun p => { p with pagetable := some pagetable, sz := sz })
  onKernel (onMem (setWord tf 24 entry))
  onKernel (onMem (setWord tf 48 sp))
  onKernel (onMem (procFreepagetable oldpagetable p.sz))

/-- `kexec` up to the point where the file is closed: the entry point, the new page table
and its size, or `none` after a jump to `bad`. -/
def openImage (i : ℕ) (file : Option (List UInt8)) : EM (Option (ℕ × ℕ × ℕ)) := do
  beginOp
  match file with
  | none => do
    endOp
    pure none
  | some data => do
    namei
    ilock
    let bs := readi data 0 Elfhdr.size
    let elf := Elfhdr.ofBytes bs
    if bs.length ≠ Elfhdr.size then bad none 0 true
    else if elf.magic ≠ elfMagic then bad none 0 true
    else do
      let tf ← onKernel (deref ((← get).kernel.proc i).trapframe)
      match ← onKernel (onMem (procPagetable tf)) with
      | none => bad none 0 true
      | some pagetable => do
        let (ok, sz) ← onKernel (onMem (loadLoop data pagetable elf.phnum elf.phoff 0))
        if ok then do
          iunlockput
          endOp
          pure (some (elf.entry, pagetable, sz))
        else bad (some pagetable) sz true

/-- The pages of the stack, of which the first is a guard. -/
def mapStack (pagetable sz : ℕ) : EM (Option ℕ) := do
  let sz1 ← onKernel (onMem
    (uvmalloc pagetable (pgroundup sz) (pgroundup sz + (userstack + 1) * pgsize) pteW))
  if sz1 = 0 then bad (some pagetable) (pgroundup sz) false
  else do
    onKernel (onMem (uvmclear pagetable (sz1 - (userstack + 1) * pgsize)))
    pure (some sz1)

/-- The arguments are copied and the images exchanged. -/
def enter (i : ℕ) (path : List UInt8) (argv : List Str) (entry pagetable sz : ℕ) :
    EM (Option ℕ) := do
  let p := (← get).kernel.proc i
  let old ← onKernel (deref p.pagetable)
  match ← onKernel (onMem (copyStack p.sz old pagetable sz (sz - userstack * pgsize) argv)) with
  | none => bad (some pagetable) sz false
  | some (argc, sp) => do
    commit i path entry pagetable sz sp
    pure (some argc)

/-- `kexec` of process `i`, where `path` names a file with the given bytes, or none. The
result is `argc`, or `none` for -1. -/
def kexec (i : ℕ) (path : List UInt8) (file : Option (List UInt8)) (argv : List Str) :
    EM (Option ℕ) := do
  match ← openImage i file with
  | none => pure none
  | some (entry, pagetable, sz) =>
    match ← mapStack pagetable sz with
    | none => pure none
    | some sz1 => enter i path argv entry pagetable sz1

end Xv6.Exec
