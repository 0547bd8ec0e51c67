import Xv6.Fs.Image

/-!
# `mkfs`

The program writes sectors of an image file: a superblock, the inodes packed in their
blocks, one block of bitmap, and data blocks handed out one after another. Reading
past the end of the image and a failed assertion end the program. `Disk.ofImage` is
how the kernel reads the blocks of an image.
-/

namespace Xv6.Mkfs

open Eff Fs Function

def fssize : ℕ := 2000

def ninodes : ℕ := 200

def logblocks : ℕ := 30

def nbitmap : ℕ := fssize / bpb + 1

def ninodeblocks : ℕ := ninodes / ipb + 1

/-- The log has a header block. -/
def nlog : ℕ := logblocks + 1

def nmeta : ℕ := 2 + nlog + ninodeblocks + nbitmap

def inodestart : ℕ := 2 + nlog

def bmapstart : ℕ := 2 + nlog + ninodeblocks

/-! ## Bytes -/

/-- `xshort` -/
def xshort (n : ℕ) : List UInt8 := [UInt8.ofNat n, UInt8.ofNat (n / 2 ^ 8)]

/-- `xint` -/
def xint (n : ℕ) : List UInt8 :=
  [UInt8.ofNat n, UInt8.ofNat (n / 2 ^ 8), UInt8.ofNat (n / 2 ^ 16), UInt8.ofNat (n / 2 ^ 24)]

/-- The `uint` of four bytes. -/
def uint (a b c d : UInt8) : ℕ :=
  a.toNat + 2 ^ 8 * b.toNat + 2 ^ 16 * c.toNat + 2 ^ 24 * d.toNat

/-- The `short` of two bytes. -/
def short (a b : UInt8) : ℤ := int16 (a.toNat + 2 ^ 8 * b.toNat : ℕ)

/-- `T_DIR`, `T_FILE` and `T_DEVICE`. -/
def typeCode : FileType → ℕ
  | .none => 0
  | .dir => 1
  | .file => 2
  | .device => 3

def ofTypeCode : ℤ → FileType
  | 0 => .none
  | 1 => .dir
  | 2 => .file
  | _ => .device

/-- `sizeof(struct dinode)`. -/
def dinodeSize : ℕ := 64

/-- A `struct dinode` in memory. -/
def dinodeBytes (d : Dinode) : List UInt8 :=
  xshort (typeCode d.type) ++ xshort (d.major % 2 ^ 16).toNat ++ xshort (d.minor % 2 ^ 16).toNat ++
    xshort (d.nlink % 2 ^ 16).toNat ++ xint d.size ++
    (List.range (ndirect + 1)).flatMap fun i => xint (d.addrs i)

/-- The `struct dinode` at offset `o`. -/
def dinodeAt (b : Block) (o : ℕ) : Dinode where
  type := ofTypeCode (short (b o) (b (o + 1)))
  major := short (b (o + 2)) (b (o + 3))
  minor := short (b (o + 4)) (b (o + 5))
  nlink := short (b (o + 6)) (b (o + 7))
  size := uint (b (o + 8)) (b (o + 9)) (b (o + 10)) (b (o + 11))
  addrs := fun i =>
    if i ≤ ndirect then
      uint (b (o + 12 + 4 * i)) (b (o + 12 + 4 * i + 1)) (b (o + 12 + 4 * i + 2))
        (b (o + 12 + 4 * i + 3))
    else 0

/-! ## The program -/

/-- The image file, `len` sectors long, and the two counters. -/
structure Image where
  sect : ℕ → Block
  len : ℕ
  freeinode : ℕ
  freeblock : ℕ

abbrev M := StateT Image (Except String)

def wsect (sec : ℕ) (buf : Block) : M Unit :=
  modify fun m => { m with sect := update m.sect sec buf, len := max m.len (sec + 1) }

def rsect (sec : ℕ) : M Block := do
  let m ← get
  if sec < m.len then pure (m.sect sec) else throw "read"

/-- `IBLOCK` -/
def iblock (inum : ℕ) : ℕ := inum / ipb + inodestart

def winode (inum : ℕ) (d : Dinode) : M Unit := do
  let buf ← rsect (iblock inum)
  wsect (iblock inum) (putBytes buf (inum % ipb * dinodeSize) (dinodeBytes d))

def rinode (inum : ℕ) : M Dinode := do
  let buf ← rsect (iblock inum)
  pure (dinodeAt buf (inum % ipb * dinodeSize))

def ialloc (type : FileType) : M ℕ := do
  let m ← get
  modify fun m => { m with freeinode := m.freeinode + 1 }
  winode m.freeinode { Dinode.zero with type := type, nlink := 1 }
  pure m.freeinode

/-- The first `used` bits are set. -/
def bitmapBlock : ℕ → Block
  | 0 => fun _ => 0
  | i + 1 => update (bitmapBlock i) (i / 8)
      (bitmapBlock i (i / 8) ||| (1 <<< UInt8.ofNat (i % 8)))

def balloc (used : ℕ) : M Unit :=
  if used < bpb then wsect bmapstart (bitmapBlock used) else throw "used < BPB"

/-- `freeblock++` -/
def takeBlock : M ℕ := do
  let m ← get
  modify fun m => { m with freeblock := m.freeblock + 1 }
  pure m.freeblock

/-- The address at hand, or a new one in its place. -/
def addrOrTake (addr : ℕ) : M ℕ := if addr = 0 then takeBlock else pure addr

/-- The block of the file with number `fbn`, and the inode with its address in it. -/
def blockFor (d : Dinode) (fbn : ℕ) : M (Dinode × ℕ) :=
  if fbn < ndirect then do
    let x ← addrOrTake (d.addrs fbn)
    pure ({ d with addrs := update d.addrs fbn x }, x)
  else do
    let ind ← addrOrTake (d.addrs ndirect)
    let indirect ← rsect ind
    if entry indirect (fbn - ndirect) = 0 then do
      let x ← takeBlock
      wsect ind (setEntry indirect (fbn - ndirect) x)
      pure ({ d with addrs := update d.addrs ndirect ind }, x)
    else pure ({ d with addrs := update d.addrs ndirect ind },
      entry indirect (fbn - ndirect))

/-- The bytes `c`, which lie in one block, go to offset `off`. -/
def appendRound (d : Dinode) (off : ℕ) (c : List UInt8) : M Dinode := do
  let r ← blockFor d (off / bsize)
  let buf ← rsect r.2
  wsect r.2 (putBytes buf (off - off / bsize * bsize) c)
  pure r.1

/-- The loop of `iappend`; every round takes some of the bytes. -/
def appendLoop : ℕ → Dinode → ℕ → List UInt8 → M (Dinode × ℕ)
  | 0, d, off, _ => pure (d, off)
  | fuel + 1, d, off, p =>
    if p = [] then pure (d, off)
    else if off / bsize < maxfile then do
      let n := min p.length ((off / bsize + 1) * bsize - off)
      let d' ← appendRound d off (p.take n)
      appendLoop fuel d' (off + n) (p.drop n)
    else throw "fbn < MAXFILE"

def iappend (inum : ℕ) (p : List UInt8) : M Unit := do
  let d ← rinode inum
  let r ← appendLoop p.length d d.size p
  winode inum { r.1 with size := r.2 }

/-- An input file: its argument on the command line, and the pieces in which `read`
returns its bytes. -/
structure HostFile where
  argv : List UInt8
  chunks : List (List UInt8)
  argv_ne : 0 ∉ argv
  chunks_len : ∀ c ∈ chunks, 0 < c.length ∧ c.length ≤ bsize

def HostFile.content (f : HostFile) : List UInt8 := f.chunks.flatten

/-- `user/` -/
def userDir : List UInt8 := [117, 115, 101, 114, 47]

/-- The argument without `user/`. -/
def HostFile.stripped (f : HostFile) : List UInt8 :=
  if f.argv.take 5 = userDir then f.argv.drop 5 else f.argv

/-- The name without a leading underscore. -/
def HostFile.shortname (f : HostFile) : Name :=
  match f.stripped with
  | 95 :: rest => rest
  | name => name

def appendAll (inum : ℕ) : List (List UInt8) → M Unit
  | [] => pure ()
  | c :: cs => do
    iappend inum c
    appendAll inum cs

def addFile (f : HostFile) : M Unit :=
  if 47 ∈ f.stripped then throw "index(shortname, '/') == 0"
  else if dirsiz < f.shortname.length then throw "strlen(shortname) <= DIRSIZ"
  else do
    let inum ← ialloc .file
    iappend rootino (Dirent.bytes ⟨inum, f.shortname⟩)
    appendAll inum f.chunks

def addFiles : List HostFile → M Unit
  | [] => pure ()
  | f :: fs => do
    addFile f
    addFiles fs

/-- The size of the root directory becomes a multiple of the block size. -/
def fixRoot : M Unit := do
  let d ← rinode rootino
  winode rootino { d with size := (d.size / bsize + 1) * bsize }

def fsmagic : ℕ := 0x10203040

/-- The block with the superblock. -/
def superBlock : Block :=
  putBytes (fun _ => 0) 0 (xint fsmagic ++ xint fssize ++ xint (fssize - nmeta) ++ xint ninodes ++
    xint nlog ++ xint 2 ++ xint inodestart ++ xint bmapstart)

/-- All sectors have been zeroed and the superblock written. -/
def blank : Image where
  sect := update (fun _ _ => 0) 1 superBlock
  len := fssize
  freeinode := 1
  freeblock := nmeta

def main (files : List HostFile) : M Unit := do
  let root ← ialloc .dir
  if root = rootino then do
    iappend root (Dirent.bytes ⟨root, dot⟩)
    iappend root (Dirent.bytes ⟨root, dotdot⟩)
    addFiles files
    fixRoot
    let m ← get
    balloc m.freeblock
  else throw "rootino == ROOTINO"

def mkfs (files : List HostFile) : Except String Image :=
  match main files blank with
  | .ok (_, m) => .ok m
  | .error e => .error e

end Xv6.Mkfs

namespace Xv6.Fs

/-- The disk that the kernel finds in the blocks of an image. -/
def Disk.ofImage (sb : Superblock) (sect : ℕ → Block) : Disk where
  dinode := fun i => Mkfs.dinodeAt (sect (iblock sb i)) (i % ipb * Mkfs.dinodeSize)
  bitmap := fun b => sect (bblock sb b) (b % bpb / 8) &&& (1 <<< UInt8.ofNat (b % bpb % 8)) ≠ 0
  block := sect

end Xv6.Fs
