import Mathlib
import Xv6.Lib.Eff

/-!
# The file system (`fs.c`, `file.c`, `sysfile.c`)

System calls run one after another, each inside its transactions, so blocks are read
and written in place and sleep-locks never wait. The blocks of the inode table and
of the bitmap are kept decoded; data blocks are bytes, also those that hold the
numbers of an indirect block or the entries of a directory. There is one device.
A panic is an error with the text of the source.
-/

namespace Xv6.Fs

open Eff Function

def bsize : ℕ := 1024

def ndirect : ℕ := 12

def nindirect : ℕ := bsize / 4

def maxfile : ℕ := ndirect + nindirect

def dirsiz : ℕ := 14

def rootino : ℕ := 1

def ninode : ℕ := 50

def nfile : ℕ := 100

def nofile : ℕ := 16

def nproc : ℕ := 64

def ndev : ℤ := 10

/-- The blocks that a transaction may log. -/
def maxopblocks : ℕ := 10

/-- The superblock. `dataStart` is the first block after the bitmap. Block numbers are
32 bits wide, and inode numbers in directory entries 16. -/
structure Superblock where
  size : ℕ
  ninodes : ℕ
  inodestart : ℕ
  bmapstart : ℕ
  dataStart : ℕ
  pos : 0 < dataStart
  size_le : size ≤ 2 ^ 32
  ninodes_le : ninodes ≤ 2 ^ 16
  root_lt : rootino < ninodes

/-- `none` is the type of a free inode. -/
inductive FileType where
  | none
  | dir
  | file
  | device
  deriving DecidableEq

structure Dinode where
  type : FileType
  major : ℤ
  minor : ℤ
  nlink : ℤ
  size : ℕ
  addrs : ℕ → ℕ

def Dinode.zero : Dinode := ⟨.none, 0, 0, 0, 0, fun _ => 0⟩

/-- An entry of the inode table, with its copy of the disk inode. -/
structure Inode where
  inum : ℕ
  ref : ℤ
  valid : Bool
  copy : Dinode

inductive FdType where
  | none
  | inode
  | device
  deriving DecidableEq

structure File where
  type : FdType
  ref : ℤ
  readable : Bool
  writable : Bool
  ip : ℕ
  off : ℕ
  major : ℤ

structure Proc where
  cwd : ℕ
  ofile : ℕ → Option ℕ

abbrev Block := ℕ → UInt8

structure Disk where
  dinode : ℕ → Dinode
  bitmap : ℕ → Bool
  block : ℕ → Block

/-- The blocks passed to `log_write`: in the transaction that is open, and in those that
have ended. -/
structure Log where
  outstanding : Bool
  blocks : List ℕ
  ended : List (List ℕ)

structure State where
  disk : Disk
  itable : ℕ → Inode
  ftable : ℕ → File
  proc : ℕ → Option Proc
  log : Log

abbrev M := StateT State (Except String)

/-- The copy of the inode in a table entry. -/
abbrev State.copy (s : State) (ip : ℕ) : Dinode := (s.itable ip).copy

@[simps -fullyApplied]
def State.setDinode (s : State) (inum : ℕ) (d : Dinode) : State :=
  { s with disk.dinode := update s.disk.dinode inum d }

@[simps -fullyApplied]
def State.setBit (s : State) (b : ℕ) (v : Bool) : State :=
  { s with disk.bitmap := update s.disk.bitmap b v }

@[simps -fullyApplied]
def State.setBlock (s : State) (b : ℕ) (v : Block) : State :=
  { s with disk.block := update s.disk.block b v }

@[simps -fullyApplied]
def State.setInode (s : State) (ip : ℕ) (f : Inode → Inode) : State :=
  { s with itable := update s.itable ip (f (s.itable ip)) }

@[simps! -fullyApplied]
def State.setCopy (s : State) (ip : ℕ) (f : Dinode → Dinode) : State :=
  s.setInode ip fun e => { e with copy := f e.copy }

@[simps! -fullyApplied]
def State.setAddr (s : State) (ip bn addr : ℕ) : State :=
  s.setCopy ip fun d => { d with addrs := update d.addrs bn addr }

@[simps -fullyApplied]
def State.setFile (s : State) (f : ℕ) (g : File → File) : State :=
  { s with ftable := update s.ftable f (g (s.ftable f)) }

@[simps -fullyApplied]
def State.setProc (s : State) (p : ℕ) (v : Option Proc) : State :=
  { s with proc := update s.proc p v }

@[simps outstanding]
def Log.write (l : Log) (b : ℕ) : Log := { l with blocks := b :: l.blocks }

def Log.beginOp (l : Log) : Log := { l with outstanding := true, blocks := [] }

def Log.endOp (l : Log) : Log :=
  { l with outstanding := false, blocks := [], ended := l.blocks :: l.ended }

@[simps -fullyApplied]
def State.logWrite (s : State) (b : ℕ) : State := { s with log := s.log.write b }

/-! ## Bytes -/

/-- The number in place `j` of a block of `uint`s. -/
def entry (b : Block) (j : ℕ) : ℕ :=
  (b (4 * j)).toNat + 2 ^ 8 * (b (4 * j + 1)).toNat + 2 ^ 16 * (b (4 * j + 2)).toNat +
    2 ^ 24 * (b (4 * j + 3)).toNat

def setEntry (b : Block) (j v : ℕ) : Block :=
  fun x => if x / 4 = j then UInt8.ofNat (v / 2 ^ (8 * (x % 4))) else b x

def getBytes (b : Block) (o n : ℕ) : List UInt8 := (List.range n).map fun i => b (o + i)

def putBytes (b : Block) (o : ℕ) (l : List UInt8) : Block :=
  fun x => if o ≤ x ∧ x < o + l.length then l.getD (x - o) 0 else b x

/-- A name without its terminating zero, at most `DIRSIZ` bytes long. -/
abbrev Name := List UInt8

structure Dirent where
  inum : ℕ
  name : Name
  deriving DecidableEq

/-- `sizeof(struct dirent)`. -/
def direntSize : ℕ := 16

/-- The entry as `strncpy` and the assignment to `inum` lay it out. -/
def Dirent.bytes (de : Dirent) : List UInt8 :=
  UInt8.ofNat de.inum :: UInt8.ofNat (de.inum / 2 ^ 8) ::
    (List.range dirsiz).map fun i => de.name.getD i 0

def Dirent.ofBytes (l : List UInt8) : Dirent where
  inum := (l.getD 0 0).toNat + 2 ^ 8 * (l.getD 1 0).toNat
  name := ((l.drop 2).take dirsiz).takeWhile (· ≠ 0)

/-- `short` arithmetic. -/
def int16 (n : ℤ) : ℤ := (n + 2 ^ 15) % 2 ^ 16 - 2 ^ 15

/-! ## Blocks -/

def logWrite (b : ℕ) : M Unit := do
  let s ← get
  if s.log.outstanding then modify fun s => s.logWrite b
  else throw "log_write outside of trans"

def beginOp : M Unit := modify fun s => { s with log := s.log.beginOp }

def endOp : M Unit := modify fun s => { s with log := s.log.endOp }

/-- The code between a `begin_op` and the `end_op` on every way out. -/
def transaction {α : Type} (f : M α) : M α := do
  beginOp
  let r ← f
  endOp
  pure r

/-- Bits in a block of the bitmap. -/
def bpb : ℕ := bsize * 8

/-- Inodes in a block. -/
def ipb : ℕ := bsize / 64

def bzero (b : ℕ) : M Unit := do
  modify fun s => s.setBlock b fun _ => 0
  logWrite b

section

variable (sb : Superblock)

/-- The block with the bit of block `b`. -/
def bblock (b : ℕ) : ℕ := b / bpb + sb.bmapstart

/-- The block with inode `inum`. -/
def iblock (inum : ℕ) : ℕ := inum / ipb + sb.inodestart

/-- The scan of the bitmap takes the first clear bit; 0 when there is none. -/
def balloc : M ℕ := do
  let s ← get
  match (List.range sb.size).find? fun b => !s.disk.bitmap b with
  | some b => do
    modify fun s => s.setBit b true
    logWrite (bblock sb b)
    bzero b
    pure b
  | none => pure 0

def bfree (b : ℕ) : M Unit := do
  let s ← get
  if s.disk.bitmap b then do
    modify fun s => s.setBit b false
    logWrite (bblock sb b)
  else throw "freeing free block"

/-! ## Inodes -/

/-- The inode's copy goes to disk. -/
def iupdate (ip : ℕ) : M Unit := do
  let s ← get
  modify fun t => t.setDinode (s.itable ip).inum (s.copy ip)
  logWrite (iblock sb (s.itable ip).inum)

/-- A change of the fields of a locked inode, followed by `iupdate`. -/
def change (ip : ℕ) (f : Dinode → Dinode) : M Unit := do
  modify fun s => s.setCopy ip f
  iupdate sb ip

def iget (inum : ℕ) : M ℕ := do
  let s ← get
  match (List.range ninode).find? fun k => 0 < (s.itable k).ref && (s.itable k).inum == inum with
  | some k => do
    modify fun s => s.setInode k fun e => { e with ref := e.ref + 1 }
    pure k
  | none =>
    match (List.range ninode).find? fun k => (s.itable k).ref == 0 with
    | some k => do
      modify fun s => s.setInode k fun e => { e with inum := inum, ref := 1, valid := false }
      pure k
    | none => throw "iget: no inodes"

def idup (ip : ℕ) : M ℕ := do
  modify fun s => s.setInode ip fun e => { e with ref := e.ref + 1 }
  pure ip

def ialloc (type : FileType) : M (Option ℕ) := do
  let s ← get
  match (List.range sb.ninodes).find? fun i => i ≠ 0 && (s.disk.dinode i).type = .none with
  | some inum => do
    modify fun s => s.setDinode inum { Dinode.zero with type := type }
    logWrite (iblock sb inum)
    let ip ← iget inum
    pure (some ip)
  | none => pure none

def ilock (ip : ℕ) : M Unit := do
  let s ← get
  if (s.itable ip).ref < 1 then throw "ilock"
  else if (s.itable ip).valid then pure ()
  else do
    modify fun t => t.setInode ip fun e =>
      { e with copy := s.disk.dinode (s.itable ip).inum, valid := true }
    if (s.disk.dinode (s.itable ip).inum).type = .none then throw "ilock: no type" else pure ()

/-- Use the block number `cur`; if it is 0, allocate a block and store its number. -/
def allocIfZero (cur : ℕ) (store : ℕ → M Unit) : M ℕ :=
  if cur ≠ 0 then pure cur else do
    let addr ← balloc sb
    if addr = 0 then pure 0 else do
      store addr
      pure addr

def bmap (ip bn : ℕ) : M ℕ := do
  let s ← get
  if bn < ndirect then
    allocIfZero sb ((s.copy ip).addrs bn) fun addr => modify fun s => s.setAddr ip bn addr
  else if bn - ndirect < nindirect then do
    let ind ← allocIfZero sb ((s.copy ip).addrs ndirect) fun addr =>
      modify fun s => s.setAddr ip ndirect addr
    if ind = 0 then pure 0 else do
      let s ← get
      allocIfZero sb (entry (s.disk.block ind) (bn - ndirect)) fun addr => do
        modify fun s => s.setBlock ind (setEntry (s.disk.block ind) (bn - ndirect) addr)
        logWrite ind
  else throw "bmap: out of range"

def freeDirect (ip i : ℕ) : M Unit := do
  let s ← get
  if (s.copy ip).addrs i ≠ 0 then do
    bfree sb ((s.copy ip).addrs i)
    modify fun s => s.setAddr ip i 0
  else pure ()

def freeEntry (addr j : ℕ) : M Unit := do
  let s ← get
  if entry (s.disk.block addr) j ≠ 0 then bfree sb (entry (s.disk.block addr) j) else pure ()

def freeIndirect (ip : ℕ) : M Unit := do
  let s ← get
  if (s.copy ip).addrs ndirect ≠ 0 then do
    forUpto (freeEntry sb ((s.copy ip).addrs ndirect)) nindirect
    bfree sb ((s.copy ip).addrs ndirect)
    modify fun s => s.setAddr ip ndirect 0
  else pure ()

def itrunc (ip : ℕ) : M Unit := do
  forUpto (freeDirect sb ip) ndirect
  freeIndirect sb ip
  change sb ip fun d => { d with size := 0 }

/-- The branch of `iput` that frees the inode on disk. -/
def ifree (ip : ℕ) : M Unit := do
  itrunc sb ip
  change sb ip fun d => { d with type := .none }
  modify fun s => s.setInode ip fun e => { e with valid := false }

def iput (ip : ℕ) : M Unit := do
  let s ← get
  (if (s.itable ip).ref = 1 ∧ (s.itable ip).valid = true ∧ (s.copy ip).nlink = 0
    then ifree sb ip else pure ())
  modify fun s => s.setInode ip fun e => { e with ref := e.ref - 1 }

/-! ## Contents -/

/-- The loop of `readi`; `dst` tells which bytes of the destination can be written. -/
def readLoop (ip : ℕ) (dst : ℕ → Bool) : ℕ → ℕ → ℕ → ℕ → List UInt8 → M (ℤ × List UInt8)
  | 0, tot, _, _, acc => pure (tot, acc)
  | fuel + 1, tot, off, n, acc =>
    if tot < n then do
      let addr ← bmap sb ip (off / bsize)
      if addr = 0 then pure (tot, acc) else do
        let m := min (n - tot) (bsize - off % bsize)
        let s ← get
        if (List.range m).all fun i => dst (tot + i) then
          readLoop ip dst fuel (tot + m) (off + m) n
            (acc ++ getBytes (s.disk.block addr) (off % bsize) m)
        else pure (-1, acc)
    else pure (tot, acc)

/-- The result and the bytes read. Offsets and lengths are 32 bits wide. -/
def readi (ip : ℕ) (dst : ℕ → Bool) (off n : ℕ) : M (ℤ × List UInt8) := do
  let s ← get
  if (s.copy ip).size < off ∨ (off + n) % 2 ^ 32 < off then pure (0, [])
  else
    let n := if (s.copy ip).size < off + n then (s.copy ip).size - off else n
    readLoop sb ip dst n 0 off n []

/-- The bytes that `copyin` gets before the first one that is not mapped. -/
def copied (src : ℕ → Option UInt8) (tot m : ℕ) : List UInt8 :=
  (((List.range m).map fun i => src (tot + i)).takeWhile Option.isSome).filterMap id

/-- The loop of `writei`, with the final values of `tot` and `off`. -/
def writeLoop (ip : ℕ) (src : ℕ → Option UInt8) : ℕ → ℕ → ℕ → ℕ → M (ℕ × ℕ)
  | 0, tot, off, _ => pure (tot, off)
  | fuel + 1, tot, off, n =>
    if tot < n then do
      let addr ← bmap sb ip (off / bsize)
      if addr = 0 then pure (tot, off) else do
        let m := min (n - tot) (bsize - off % bsize)
        modify fun s => s.setBlock addr
          (putBytes (s.disk.block addr) (off % bsize) (copied src tot m))
        if (copied src tot m).length < m then pure (tot, off) else do
          logWrite addr
          writeLoop ip src fuel (tot + m) (off + m) n
    else pure (tot, off)

def writei (ip : ℕ) (src : ℕ → Option UInt8) (off n : ℕ) : M ℤ := do
  let s ← get
  if (s.copy ip).size < off ∨ (off + n) % 2 ^ 32 < off then pure (-1)
  else if maxfile * bsize < (off + n) % 2 ^ 32 then pure (-1)
  else do
    let r ← writeLoop sb ip src n 0 off n
    change sb ip fun d => if d.size < r.2 then { d with size := r.2 } else d
    pure r.1

/-- A kernel buffer. -/
def ofList (l : List UInt8) (i : ℕ) : Option UInt8 := l[i]?

/-! ## Directories -/

def dot : Name := [46]

def dotdot : Name := [46, 46]

/-- The loops over the entries of a directory: stop at the first entry with the
property, or at the end. -/
def scan (dp : ℕ) (msg : String) (found : Dirent → Bool) : ℕ → ℕ → M (ℕ × Option Dirent)
  | 0, off => pure (off, none)
  | fuel + 1, off => do
    let s ← get
    if off < (s.copy dp).size then do
      let r ← readi sb dp (fun _ => true) off direntSize
      if r.1 ≠ direntSize then throw msg
      else if found (Dirent.ofBytes r.2) then pure (off, some (Dirent.ofBytes r.2))
      else scan dp msg found fuel (off + direntSize)
    else pure (off, none)

/-- One more than the number of entries. -/
def State.fuel (s : State) (dp : ℕ) : ℕ := (s.copy dp).size / direntSize + 1

/-- The table entry for the name and the offset of the directory entry. -/
def dirlookup (dp : ℕ) (name : Name) : M (Option (ℕ × ℕ)) := do
  let s ← get
  if (s.copy dp).type ≠ .dir then throw "dirlookup not DIR" else do
    let r ← scan sb dp "dirlookup read" (fun de => de.inum ≠ 0 && de.name = name) (s.fuel dp) 0
    match r.2 with
    | some de => do
      let ip ← iget de.inum
      pure (some (ip, r.1))
    | none => pure none

def dirlink (dp : ℕ) (name : Name) (inum : ℕ) : M ℤ := do
  match ← dirlookup sb dp name with
  | some (ip, _) => do
    iput sb ip
    pure (-1)
  | none => do
    let s ← get
    let r ← scan sb dp "dirlink read" (fun de => de.inum = 0) (s.fuel dp) 0
    let w ← writei sb dp (ofList (Dirent.bytes ⟨inum, name⟩)) r.1 direntSize
    if w ≠ direntSize then pure (-1) else pure 0

/-- No entry but the first two is in use. -/
def isdirempty (dp : ℕ) : M Bool := do
  let s ← get
  let r ← scan sb dp "isdirempty: readi" (fun de => de.inum ≠ 0) (s.fuel dp) (2 * direntSize)
  pure r.2.isNone

/-! ## Paths -/

abbrev Path := List UInt8

def slash : UInt8 := 47

/-- The next name of the path, and the path after it and its slashes. -/
def skipelem (path : Path) : Option (Name × Path) :=
  let path := path.dropWhile (· = slash)
  if path = [] then none
  else some ((path.takeWhile (· ≠ slash)).take dirsiz,
    (path.dropWhile (· ≠ slash)).dropWhile (· = slash))

/-- The names that `skipelem` returns one after the other. -/
def elementsFrom : ℕ → Path → List Name
  | 0, _ => []
  | fuel + 1, path =>
    match skipelem path with
    | none => []
    | some (name, path) => name :: elementsFrom fuel path

/-- The elements of a path, which ends at its first zero. -/
def elements (path : Path) : List Name := elementsFrom path.length (path.takeWhile (· ≠ 0))

def namexLoop (parent : Bool) : List Name → ℕ → M (Option (ℕ × Name))
  | [], ip => if parent then do
      iput sb ip
      pure none
    else pure (some (ip, []))
  | name :: rest, ip => do
    ilock ip
    let s ← get
    if (s.copy ip).type ≠ .dir then do
      iput sb ip
      pure none
    else if parent ∧ rest = [] then pure (some (ip, name))
    else do
      let r ← dirlookup sb ip name
      iput sb ip
      match r with
      | some (next, _) => namexLoop parent rest next
      | none => pure none

/-- A path that starts at the root directory. -/
def absolute (path : Path) : Bool := path.head? == some slash

/-- `myproc()->cwd`. -/
def State.cwd (s : State) (p : ℕ) : ℕ := ((s.proc p).map Proc.cwd).getD 0

def namex (p : ℕ) (path : Path) (parent : Bool) : M (Option (ℕ × Name)) := do
  let s ← get
  let ip ← (if absolute path then iget rootino else idup (s.cwd p))
  namexLoop sb parent (elements path) ip

def namei (p : ℕ) (path : Path) : M (Option ℕ) := do
  let r ← namex sb p path false
  pure (r.map Prod.fst)

def nameiparent (p : ℕ) (path : Path) : M (Option (ℕ × Name)) := namex sb p path true

/-! ## Open files -/

def filealloc : M (Option ℕ) := do
  let s ← get
  match (List.range nfile).find? fun f => (s.ftable f).ref == 0 with
  | some f => do
    modify fun s => s.setFile f fun e => { e with ref := 1 }
    pure (some f)
  | none => pure none

def filedup (f : ℕ) : M Unit := do
  let s ← get
  if (s.ftable f).ref < 1 then throw "filedup"
  else modify fun s => s.setFile f fun e => { e with ref := e.ref + 1 }

def fileclose (f : ℕ) : M Unit := do
  let s ← get
  if (s.ftable f).ref < 1 then throw "fileclose"
  else if 1 < (s.ftable f).ref then
    modify fun s => s.setFile f fun e => { e with ref := e.ref - 1 }
  else do
    modify fun s => s.setFile f fun e => { e with ref := 0, type := .none }
    if (s.ftable f).type ≠ .none then transaction (iput sb (s.ftable f).ip) else pure ()

def fileread (f : ℕ) (dst : ℕ → Bool) (n : ℤ) : M ℤ := do
  let s ← get
  if (s.ftable f).readable = false then pure (-1)
  else match (s.ftable f).type with
    | .device => pure (-1)
    | .inode => do
      ilock (s.ftable f).ip
      let r ← readi sb (s.ftable f).ip dst (s.ftable f).off (n % 2 ^ 32).toNat
      (if 0 < r.1 then
        modify fun s => s.setFile f fun e => { e with off := (e.off + r.1.toNat) % 2 ^ 32 }
        else pure ())
      pure r.1
    | .none => throw "fileread"

/-- Bytes per transaction of `filewrite`. -/
def maxwrite : ℕ := 3 * bsize

/-- One iteration of `filewrite` between `begin_op` and `end_op`. -/
def writeOp (f : ℕ) (src : ℕ → Option UInt8) (n1 : ℕ) : M ℤ := do
  let s ← get
  ilock (s.ftable f).ip
  let r ← writei sb (s.ftable f).ip src (s.ftable f).off n1
  (if 0 < r then
    modify fun s => s.setFile f fun e => { e with off := (e.off + r.toNat) % 2 ^ 32 }
    else pure ())
  pure r

/-- The loop of `filewrite`: whether all `n` bytes were written. -/
def filewriteLoop (f : ℕ) (src : ℕ → Option UInt8) : ℕ → ℕ → ℕ → M Bool
  | 0, i, n => pure (i == n)
  | fuel + 1, i, n =>
    if i < n then do
      let n1 := min (n - i) maxwrite
      let r ← transaction (writeOp sb f (fun j => src (i + j)) n1)
      if r ≠ n1 then pure false else filewriteLoop f src fuel (i + n1) n
    else pure (i == n)

def filewrite (f : ℕ) (src : ℕ → Option UInt8) (n : ℤ) : M ℤ := do
  let s ← get
  if (s.ftable f).writable = false then pure (-1)
  else match (s.ftable f).type with
    | .device => pure (-1)
    | .inode => do
      if n < 0 then pure (-1) else do
        let all ← filewriteLoop sb f src n.toNat 0 n.toNat
        pure (if all then n else -1)
    | .none => throw "filewrite"

/-! ## System calls -/

/-- `argfd`: the open file of a descriptor. -/
def State.fd (s : State) (p : ℕ) (fd : ℤ) : Option ℕ :=
  if 0 ≤ fd ∧ fd < nofile then (s.proc p).bind fun q => q.ofile fd.toNat else none

def setFd (p fd : ℕ) (f : Option ℕ) : M Unit := modify fun s =>
  s.setProc p ((s.proc p).map fun q => { q with ofile := update q.ofile fd f })

def fdalloc (p f : ℕ) : M (Option ℕ) := do
  let s ← get
  match (List.range nofile).find? fun (fd : ℕ) => (s.fd p fd).isNone with
  | some fd => do
    setFd p fd (some f)
    pure (some fd)
  | none => pure none

def sysDup (p : ℕ) (fd : ℤ) : M ℤ := do
  let s ← get
  match s.fd p fd with
  | none => pure (-1)
  | some f => do
    match ← fdalloc p f with
    | none => pure (-1)
    | some fd => do
      filedup f
      pure fd

def sysRead (p : ℕ) (fd : ℤ) (dst : ℕ → Bool) (n : ℤ) : M ℤ := do
  let s ← get
  match s.fd p fd with
  | none => pure (-1)
  | some f => fileread sb f dst n

def sysWrite (p : ℕ) (fd : ℤ) (src : ℕ → Option UInt8) (n : ℤ) : M ℤ := do
  let s ← get
  match s.fd p fd with
  | none => pure (-1)
  | some f => filewrite sb f src n

def sysClose (p : ℕ) (fd : ℤ) : M ℤ := do
  let s ← get
  match s.fd p fd with
  | none => pure (-1)
  | some f => do
    setFd p fd.toNat none
    fileclose sb f
    pure 0

/-- The part of `sys_link` that enters the new name. -/
def linkNew (p inum : ℕ) (new : Path) : M Bool := do
  match ← nameiparent sb p new with
  | none => pure false
  | some (dp, name) => do
    ilock dp
    let r ← dirlink sb dp name inum
    iput sb dp
    pure (0 ≤ r)

/-- The part of `sys_link` after the inode has been found. -/
def linkCounted (p ip : ℕ) (new : Path) : M ℤ := do
  change sb ip fun d => { d with nlink := int16 (d.nlink + 1) }
  let s ← get
  let linked ← linkNew sb p (s.itable ip).inum new
  if linked then do
    iput sb ip
    pure 0
  else do
    ilock ip
    change sb ip fun d => { d with nlink := int16 (d.nlink - 1) }
    iput sb ip
    pure (-1)

/-- `sys_link` between `begin_op` and `end_op`. -/
def linkOp (p : ℕ) (old new : Path) : M ℤ := do
  match ← namei sb p old with
  | none => pure (-1)
  | some ip => do
    ilock ip
    let s ← get
    if (s.copy ip).type = .dir then do
      iput sb ip
      pure (-1)
    else linkCounted sb p ip new

def sysLink (p : ℕ) (old new : Path) : M ℤ := transaction (linkOp sb p old new)

/-- The removal of the entry at `off` of `dp`, which names `ip`. -/
def unlinkEntry (dp ip off : ℕ) : M ℤ := do
  let s ← get
  let w ← writei sb dp (ofList (List.replicate direntSize 0)) off direntSize
  if w ≠ direntSize then throw "unlink: writei" else do
    (if (s.copy ip).type = .dir
      then change sb dp fun d => { d with nlink := int16 (d.nlink - 1) } else pure ())
    iput sb dp
    change sb ip fun d => { d with nlink := int16 (d.nlink - 1) }
    iput sb ip
    pure 0

/-- `sys_unlink` between `begin_op` and `end_op`. -/
def unlinkOp (p : ℕ) (path : Path) : M ℤ := do
  match ← nameiparent sb p path with
  | none => pure (-1)
  | some (dp, name) => do
    ilock dp
    if name = dot ∨ name = dotdot then do
      iput sb dp
      pure (-1)
    else do
      match ← dirlookup sb dp name with
      | none => do
        iput sb dp
        pure (-1)
      | some (ip, off) => do
        ilock ip
        let s ← get
        if (s.copy ip).nlink < 1 then throw "unlink: nlink < 1" else do
          let empty ← (if (s.copy ip).type = .dir then isdirempty sb ip else pure true)
          if empty then unlinkEntry sb dp ip off
          else do
            iput sb ip
            iput sb dp
            pure (-1)

def sysUnlink (p : ℕ) (path : Path) : M ℤ := transaction (unlinkOp sb p path)

/-- The entries `.` and `..` of a new directory. -/
def linkDots (ip inum parent : ℕ) : M Bool := do
  let r ← dirlink sb ip dot inum
  if r < 0 then pure false else do
    let r ← dirlink sb ip dotdot parent
    pure (0 ≤ r)

/-- The names of a new inode: `.` and `..` of a directory, and its own. -/
def linkNamed (dp ip : ℕ) (name : Name) (type : FileType) : M ℤ := do
  let s ← get
  let entries ← (if type = .dir then linkDots sb ip (s.itable ip).inum (s.itable dp).inum
    else pure true)
  if entries then dirlink sb dp name (s.itable ip).inum else pure (-1)

/-- The part of `create` after the new inode `ip` has been allocated. -/
def createNew (dp ip : ℕ) (name : Name) (type : FileType) (major minor : ℤ) : M (Option ℕ) := do
  ilock ip
  change sb ip fun d => { d with major := int16 major, minor := int16 minor, nlink := 1 }
  let linked ← linkNamed sb dp ip name type
  if 0 ≤ linked then do
    (if type = .dir then change sb dp fun d => { d with nlink := int16 (d.nlink + 1) } else pure ())
    iput sb dp
    pure (some ip)
  else do
    change sb ip fun d => { d with nlink := 0 }
    iput sb ip
    iput sb dp
    pure none

def create (p : ℕ) (path : Path) (type : FileType) (major minor : ℤ) : M (Option ℕ) := do
  match ← nameiparent sb p path with
  | none => pure none
  | some (dp, name) => do
    ilock dp
    match ← dirlookup sb dp name with
    | some (ip, _) => do
      iput sb dp
      ilock ip
      let s ← get
      if type = .file ∧ ((s.copy ip).type = .file ∨ (s.copy ip).type = .device)
      then pure (some ip)
      else do
        iput sb ip
        pure none
    | none => do
      match ← ialloc sb type with
      | none => do
        iput sb dp
        pure none
      | some ip => createNew sb dp ip name type major minor

/-- The mode bits of `open`. -/
structure Omode where
  wronly : Bool
  rdwr : Bool
  create : Bool
  trunc : Bool
  other : Bool
  deriving DecidableEq

def Omode.rdonly : Omode := ⟨false, false, false, false, false⟩

/-- The part of `sys_open` after the inode has been found and locked. -/
def openInode (p ip : ℕ) (omode : Omode) : M ℤ := do
  let s ← get
  if (s.copy ip).type = .device ∧
      ((s.copy ip).major < 0 ∨ ndev ≤ (s.copy ip).major) then do
    iput sb ip
    pure (-1)
  else do
    match ← filealloc with
    | none => do
      iput sb ip
      pure (-1)
    | some f => do
      match ← fdalloc p f with
      | none => do
        fileclose sb f
        iput sb ip
        pure (-1)
      | some fd => do
        modify fun t => t.setFile f fun e => { e with
          type := if (s.copy ip).type = .device then .device else .inode
          off := if (s.copy ip).type = .device then e.off else 0
          major := if (s.copy ip).type = .device then (s.copy ip).major else e.major
          ip := ip
          readable := !omode.wronly
          writable := omode.wronly || omode.rdwr }
        (if omode.trunc ∧ (s.copy ip).type = .file then itrunc sb ip else pure ())
        pure fd

/-- `sys_open` between `begin_op` and `end_op`. -/
def openOp (p : ℕ) (path : Path) (omode : Omode) : M ℤ := do
  if omode.create then do
    match ← create sb p path .file 0 0 with
    | none => pure (-1)
    | some ip => openInode sb p ip omode
  else do
    match ← namei sb p path with
    | none => pure (-1)
    | some ip => do
      ilock ip
      let s ← get
      if (s.copy ip).type = .dir ∧ omode ≠ Omode.rdonly then do
        iput sb ip
        pure (-1)
      else openInode sb p ip omode

def sysOpen (p : ℕ) (path : Path) (omode : Omode) : M ℤ := transaction (openOp sb p path omode)

/-- `sys_mkdir` and `sys_mknod` between `begin_op` and `end_op`. -/
def makeOp (p : ℕ) (path : Path) (type : FileType) (major minor : ℤ) : M ℤ := do
  match ← create sb p path type major minor with
  | none => pure (-1)
  | some ip => do
    iput sb ip
    pure 0

def sysMkdir (p : ℕ) (path : Path) : M ℤ := transaction (makeOp sb p path .dir 0 0)

def sysMknod (p : ℕ) (path : Path) (major minor : ℤ) : M ℤ :=
  transaction (makeOp sb p path .device major minor)

/-- `sys_chdir` between `begin_op` and `end_op`: the new directory, in exchange for the
old one. -/
def chdirOp (p : ℕ) (path : Path) : M (Option ℕ) := do
  match ← namei sb p path with
  | none => pure none
  | some ip => do
    ilock ip
    let s ← get
    if (s.copy ip).type ≠ .dir then do
      iput sb ip
      pure none
    else do
      iput sb (s.cwd p)
      pure (some ip)

def sysChdir (p : ℕ) (path : Path) : M ℤ := do
  match ← transaction (chdirOp sb p path) with
  | none => pure (-1)
  | some ip => do
    modify fun s => s.setProc p ((s.proc p).map fun q => { q with cwd := ip })
    pure 0

/-- The file side of `kexec` between `begin_op` and `end_op`. The offsets and lengths of
the reads of headers and segments come from the file. -/
def execOp (p : ℕ) (path : Path) (reads : List (ℕ × ℕ)) : M ℤ := do
  match ← namei sb p path with
  | none => pure (-1)
  | some ip => do
    ilock ip
    let _ ← reads.mapM fun r => readi sb ip (fun _ => true) (r.1 % 2 ^ 32) (r.2 % 2 ^ 32)
    iput sb ip
    pure 0

def kexec (p : ℕ) (path : Path) (reads : List (ℕ × ℕ)) : M ℤ :=
  transaction (execOp sb p path reads)

def dupFile : Option ℕ → M Unit
  | none => pure ()
  | some f => filedup f

/-- The file side of `kfork` and `kthread_create`. -/
def kfork (p child : ℕ) : M ℤ := do
  let s ← get
  if child < nproc ∧ (s.proc child).isNone then do
    forUpto (fun fd => dupFile (s.fd p fd)) nofile
    let cwd ← idup (s.cwd p)
    modify fun t => t.setProc child (some ⟨cwd, fun fd => s.fd p fd⟩)
    pure child
  else pure (-1)

def closeFd (p fd : ℕ) : M Unit := do
  let s ← get
  match s.fd p fd with
  | none => pure ()
  | some f => do
    setFd p fd none
    fileclose sb f

/-- The file side of `kexit` and `kthread_exit`. -/
def kexit (p : ℕ) : M ℤ := do
  forUpto (closeFd sb p) nofile
  let s ← get
  transaction (iput sb (s.cwd p))
  modify fun s => s.setProc p none
  pure 0

/-- `ireclaim` between `begin_op` and `end_op`. -/
def reclaimOp (ip : ℕ) : M Unit := do
  ilock ip
  iput sb ip

/-- One round of `ireclaim`, which `fsinit` runs over all inodes. -/
def reclaim (inum : ℕ) : M Unit := do
  let s ← get
  if (s.disk.dinode inum).type ≠ .none ∧ (s.disk.dinode inum).nlink = 0 then do
    let ip ← iget inum
    transaction (reclaimOp sb ip)
  else pure ()

def ireclaim : M Unit := forUpto (fun i => reclaim sb (i + 1)) (sb.ninodes - 1)

inductive Call where
  | dup (fd : ℤ)
  | read (fd : ℤ) (dst : ℕ → Bool) (n : ℤ)
  | write (fd : ℤ) (src : ℕ → Option UInt8) (n : ℤ)
  | close (fd : ℤ)
  | link (old new : Path)
  | unlink (path : Path)
  | open (path : Path) (omode : Omode)
  | mkdir (path : Path)
  | mknod (path : Path) (major minor : ℤ)
  | chdir (path : Path)
  | exec (path : Path) (reads : List (ℕ × ℕ))
  | fork (child : ℕ)
  | exit

def syscall (p : ℕ) : Call → M ℤ
  | .dup fd => sysDup p fd
  | .read fd dst n => sysRead sb p fd dst n
  | .write fd src n => sysWrite sb p fd src n
  | .close fd => sysClose sb p fd
  | .link old new => sysLink sb p old new
  | .unlink path => sysUnlink sb p path
  | .open path omode => sysOpen sb p path omode
  | .mkdir path => sysMkdir sb p path
  | .mknod path major minor => sysMknod sb p path major minor
  | .chdir path => sysChdir sb p path
  | .exec path reads => kexec sb p path reads
  | .fork child => kfork p child
  | .exit => kexit sb p

/-- A process and the call it makes. -/
structure Label where
  proc : ℕ
  call : Call

def step (s : State) (l : Label) : Option State :=
  if (s.proc l.proc).isSome then
    match syscall sb l.proc l.call s with
    | .ok (_, t) => some t
    | .error _ => none
  else none

end

end Xv6.Fs
