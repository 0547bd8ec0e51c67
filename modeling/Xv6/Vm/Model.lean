import Mathlib
import Xv6.Lib.Eff

/-!
# Physical pages and page tables (`kalloc.c`, `vm.c`)

A page is named by its physical address. The free list and the bytes of pages are
kept as they are in the source; the entries of page tables are kept apart from the
bytes, as a tree for each root page. The entry that a virtual address uses at some
level is found by the part of the address that leads to it, so the tree of one root
is a function of level and address part. A panic is an error with the text of the
source.
-/

namespace Xv6.Vm

open Eff Function

/-! ## Layout -/

def pgsize : ℕ := 4096

/-- The symbol `end`: the first address after the kernel. -/
def kernelEnd : ℕ := 0x800255e8

def phystop : ℕ := 0x80000000 + 128 * 1024 * 1024

def maxva : ℕ := 2 ^ 38

/-- The symbol `trampoline`: the page of `trampoline.S` in the kernel text. -/
def trampolineText : ℕ := 0x80007000

def trampoline : ℕ := maxva - pgsize

def trapframe : ℕ := trampoline - pgsize

def shmPages : ℕ := 8

def shmbase : ℕ := trapframe - shmPages * pgsize

def pgroundup (a : ℕ) : ℕ := (a + pgsize - 1) / pgsize * pgsize

def pgrounddown (a : ℕ) : ℕ := a / pgsize * pgsize

/-! ## State -/

/-- The permission bits of an entry. -/
structure Perm where
  r : Bool
  w : Bool
  x : Bool
  u : Bool
  deriving DecidableEq

instance : OrOp Perm := ⟨fun a b => ⟨a.r || b.r, a.w || b.w, a.x || b.x, a.u || b.u⟩⟩

def pteR : Perm := ⟨true, false, false, false⟩

def pteW : Perm := ⟨false, true, false, false⟩

def pteX : Perm := ⟨false, false, true, false⟩

def pteU : Perm := ⟨false, false, false, true⟩

/-- A valid leaf entry. -/
structure Pte where
  pa : ℕ
  perm : Perm
  deriving DecidableEq

/-- The valid entries of the tree under one root: `next level i` is the table page
that the entry at level 2 or 1 points to, `leaf v` the entry of virtual page `v`. -/
structure PageTable where
  next : ℕ → ℕ → Option ℕ
  leaf : ℕ → Option Pte

def PageTable.empty : PageTable := ⟨fun _ _ => none, fun _ => none⟩

structure Mem where
  freelist : List ℕ
  /-- Ghost: some page was passed to `kfree` while it was free. -/
  twice : Bool
  data : ℕ → ℕ → ℕ
  table : ℕ → PageTable

abbrev M := StateT Mem (Except String)

def Mem.setTable (m : Mem) (pagetable : ℕ) (t : PageTable) : Mem :=
  { m with table := update m.table pagetable t }

def Mem.setNext (m : Mem) (pagetable level i : ℕ) (pa : Option ℕ) : Mem :=
  let t := m.table pagetable
  m.setTable pagetable
    { t with next := update t.next level (update (t.next level) i pa) }

def Mem.setLeaf (m : Mem) (pagetable v : ℕ) (pte : Option Pte) : Mem :=
  let t := m.table pagetable
  m.setTable pagetable { t with leaf := update t.leaf v pte }

def Mem.setByte (m : Mem) (pa i b : ℕ) : Mem :=
  { m with data := update m.data pa (update (m.data pa) i b) }

/-! ## `kalloc.c` -/

def memset (pa c : ℕ) : M Unit :=
  modify fun m => { m with data := update m.data pa fun _ => c }

def memmove (dst src : ℕ) : M Unit :=
  modify fun m => { m with data := update m.data dst (m.data src) }

def kfree (pa : ℕ) : M Unit :=
  if pa % pgsize ≠ 0 ∨ pa < kernelEnd ∨ phystop ≤ pa then throw "kfree" else do
    memset pa 1
    modify fun m => { m with freelist := pa :: m.freelist, twice := m.twice || pa ∈ m.freelist }

def kalloc : M (Option ℕ) := do
  match (← get).freelist with
  | [] => pure none
  | r :: rest => do
    modify fun m => { m with freelist := rest }
    memset r 5
    pure (some r)

/-! ## `vm.c` -/

/-- The loop of `walk` from a level down. It returns whether there is an entry for
the address. -/
def walkFrom (pagetable va : ℕ) (alloc : Bool) : ℕ → M Bool
  | 0 => pure true
  | level + 1 => do
    match ((← get).table pagetable).next (level + 1) (va / 2 ^ (12 + 9 * (level + 1))) with
    | some _ => walkFrom pagetable va alloc level
    | none =>
      if alloc then
        match ← kalloc with
        | none => pure false
        | some pa => do
          memset pa 0
          modify fun m => m.setNext pagetable (level + 1) (va / 2 ^ (12 + 9 * (level + 1))) (some pa)
          walkFrom pagetable va alloc level
      else pure false

def walk (pagetable va : ℕ) (alloc : Bool) : M Bool :=
  if maxva ≤ va then throw "walk" else walkFrom pagetable va alloc 2

/-- The valid entry that `walk` without allocation finds. -/
def pteOf (pagetable va : ℕ) : M (Option Pte) := do
  if ← walk pagetable va false then
    return ((← get).table pagetable).leaf (va / pgsize)
  else return none

def walkaddr (pagetable va : ℕ) : M (Option ℕ) :=
  if maxva ≤ va then pure none else do
    match ← pteOf pagetable va with
    | none => pure none
    | some pte => if pte.perm.u then pure (some pte.pa) else pure none

/-- The loop of `mappages` over the remaining pages. -/
def mapLoop (pagetable : ℕ) (perm : Perm) : ℕ → ℕ → ℕ → M Bool
  | 0, _, _ => pure true
  | n + 1, a, pa => do
    if ← walk pagetable a true then
      match ((← get).table pagetable).leaf (a / pgsize) with
      | some _ => throw "mappages: remap"
      | none => do
        modify fun m => m.setLeaf pagetable (a / pgsize) (some ⟨pa, perm⟩)
        mapLoop pagetable perm n (a + pgsize) (pa + pgsize)
    else pure false

def mappages (pagetable va size pa : ℕ) (perm : Perm) : M Bool :=
  if va % pgsize ≠ 0 then throw "mappages: va not aligned"
  else if size % pgsize ≠ 0 then throw "mappages: size not aligned"
  else if size = 0 then throw "mappages: size"
  else mapLoop pagetable perm (size / pgsize) va pa

def uvmcreate : M (Option ℕ) := do
  match ← kalloc with
  | none => pure none
  | some pagetable => do
    memset pagetable 0
    modify fun m => m.setTable pagetable .empty
    pure (some pagetable)

/-- One page of the loop of `uvmunmap`. -/
def unmapPage (pagetable : ℕ) (doFree : Bool) (a : ℕ) : M Unit := do
  match ← pteOf pagetable a with
  | none => pure ()
  | some pte => do
    if doFree then kfree pte.pa
    modify fun m => m.setLeaf pagetable (a / pgsize) none

def uvmunmap (pagetable va npages : ℕ) (doFree : Bool) : M Unit :=
  if va % pgsize ≠ 0 then throw "uvmunmap: not aligned"
  else forUpto (fun j => unmapPage pagetable doFree (va + j * pgsize)) npages

def uvmdealloc (pagetable oldsz newsz : ℕ) : M ℕ :=
  if oldsz ≤ newsz then pure oldsz else do
    if pgroundup newsz < pgroundup oldsz then
      uvmunmap pagetable (pgroundup newsz) ((pgroundup oldsz - pgroundup newsz) / pgsize) true
    pure newsz

/-- The loop of `uvmalloc` over the remaining pages; `oldsz` is rounded up. -/
def uvmallocLoop (pagetable oldsz newsz : ℕ) (xperm : Perm) : ℕ → ℕ → M ℕ
  | 0, _ => pure newsz
  | n + 1, a => do
    match ← kalloc with
    | none => do
      let _ ← uvmdealloc pagetable a oldsz
      pure 0
    | some mem => do
      memset mem 0
      if ← mappages pagetable a pgsize mem (pteR ||| pteU ||| xperm) then
        uvmallocLoop pagetable oldsz newsz xperm n (a + pgsize)
      else do
        kfree mem
        let _ ← uvmdealloc pagetable a oldsz
        pure 0

/-- Returns the new size, or 0 on error. -/
def uvmalloc (pagetable oldsz newsz : ℕ) (xperm : Perm) : M ℕ :=
  if newsz < oldsz then pure oldsz
  else uvmallocLoop pagetable (pgroundup oldsz) newsz xperm
    ((pgroundup newsz - pgroundup oldsz) / pgsize) (pgroundup oldsz)

/-- `freewalk` of the table at some level, which the address part `idx` leads to. -/
def freewalkFrom (pagetable : ℕ) : ℕ → ℕ → ℕ → M Unit
  | 0, idx, page => do
    forUpto (fun i => do
      match ((← get).table pagetable).leaf (idx * 512 + i) with
      | none => pure ()
      | some _ => throw "freewalk: leaf") 512
    kfree page
  | level + 1, idx, page => do
    forUpto (fun i => do
      match ((← get).table pagetable).next (level + 1) (idx * 512 + i) with
      | none => pure ()
      | some child => do
        freewalkFrom pagetable level (idx * 512 + i) child
        modify fun m => m.setNext pagetable (level + 1) (idx * 512 + i) none) 512
    kfree page

def freewalk (pagetable : ℕ) : M Unit := freewalkFrom pagetable 2 0 pagetable

def uvmfree (pagetable sz : ℕ) : M Unit := do
  if 0 < sz then uvmunmap pagetable 0 (pgroundup sz / pgsize) true
  freewalk pagetable

/-- The loop of `uvmcopy` from address `i` on. -/
def uvmcopyLoop (old new : ℕ) : ℕ → ℕ → M Bool
  | 0, _ => pure true
  | n + 1, i => do
    match ← pteOf old i with
    | none => uvmcopyLoop old new n (i + pgsize)
    | some pte => do
      match ← kalloc with
      | none => do
        uvmunmap new 0 (i / pgsize) true
        pure false
      | some mem => do
        memmove mem pte.pa
        if ← mappages new i pgsize mem pte.perm then uvmcopyLoop old new n (i + pgsize)
        else do
          kfree mem
          uvmunmap new 0 (i / pgsize) true
          pure false

def uvmcopy (old new sz : ℕ) : M Bool := uvmcopyLoop old new (pgroundup sz / pgsize) 0

def uvmclear (pagetable va : ℕ) : M Unit := do
  if ← walk pagetable va false then
    modify fun m => m.setLeaf pagetable (va / pgsize)
      (((m.table pagetable).leaf (va / pgsize)).map fun pte =>
        { pte with perm := { pte.perm with u := false } })
  else throw "uvmclear"

def ismapped (pagetable va : ℕ) : M Bool := do
  return (← pteOf pagetable va).isSome

/-- `vmfault` for the process of size `sz` with the page table `own`. -/
def vmfault (sz own pagetable va : ℕ) : M (Option ℕ) :=
  if sz ≤ va then pure none else do
    if ← ismapped pagetable (pgrounddown va) then pure none
    else match ← kalloc with
      | none => pure none
      | some mem => do
        memset mem 0
        if ← mappages own (pgrounddown va) pgsize mem (pteW ||| pteU ||| pteR) then pure (some mem)
        else do
          kfree mem
          pure none

/-- The page that a copy to or from user memory finds for an address. -/
def userPage (sz own pagetable va0 : ℕ) : M (Option ℕ) := do
  match ← walkaddr pagetable va0 with
  | some pa => pure (some pa)
  | none => vmfault sz own pagetable va0

/-- The test `*pte & PTE_W`, which traps if there is no entry. -/
def writable (pagetable va0 : ℕ) : M Bool := do
  if ← walk pagetable va0 false then
    return ((← get).table pagetable).leaf (va0 / pgsize) |>.any fun pte => pte.perm.w
  else throw "kerneltrap"

/-- `copyout`, byte by byte where the source moves the bytes of one page at once. -/
def copyout (sz own pagetable : ℕ) : ℕ → List ℕ → M Bool
  | _, [] => pure true
  | dstva, b :: src =>
    if maxva ≤ pgrounddown dstva then pure false else do
      match ← userPage sz own pagetable (pgrounddown dstva) with
      | none => pure false
      | some pa => do
        if ← writable pagetable (pgrounddown dstva) then do
          modify fun m => m.setByte pa (dstva % pgsize) b
          copyout sz own pagetable (dstva + 1) src
        else pure false

/-- `copyin`, byte by byte. -/
def copyin (sz own pagetable : ℕ) : ℕ → ℕ → M (Option (List ℕ))
  | _, 0 => pure (some [])
  | srcva, len + 1 => do
    match ← userPage sz own pagetable (pgrounddown srcva) with
    | none => pure none
    | some pa => do
      let b := (← get).data pa (srcva % pgsize)
      return (← copyin sz own pagetable (srcva + 1) len).map (b :: ·)

/-- `copyinstr`, byte by byte. -/
def copyinstr (pagetable : ℕ) : ℕ → ℕ → M (Option (List ℕ))
  | _, 0 => pure none
  | srcva, max + 1 => do
    match ← walkaddr pagetable (pgrounddown srcva) with
    | none => pure none
    | some pa => do
      let b := (← get).data pa (srcva % pgsize)
      if b = 0 then pure (some [])
      else return (← copyinstr pagetable (srcva + 1) max).map (b :: ·)

def threadFreepagetable (pagetable sz : ℕ) : M Unit := do
  uvmunmap pagetable trampoline 1 false
  uvmunmap pagetable trapframe 1 false
  if 0 < sz then uvmunmap pagetable 0 (pgroundup sz / pgsize) false
  freewalk pagetable

end Xv6.Vm
