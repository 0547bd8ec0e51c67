import Mathlib.Data.List.Basic
import Mathlib.Logic.Function.Basic
import Xv6.Lib.Runs
import Xv6.Lib.Redo

/-!
# The file-system log (`log.c`)

The model keeps the disk, the buffer cache as far as the log depends on it, and
`struct log`. Every single-block disk write of `commit` and of
`recover_from_log` is a step of its own, so a crash can fall between any two of
them. Locks do not appear: each section under `log.lock` is one step.

Ghost fields record what the run has logged. `pending` lists the `log_write`
calls since the last commit, `groups` the lists that `commit` has taken over,
and `durable` counts the groups whose header write has reached the disk. No
step reads them except to extend them.
-/

namespace Xv6.Log

open Redo Function

/-- Maximum number of blocks any file-system operation writes. -/
def maxOpBlocks : ℕ := 10

/-- Maximum number of data blocks in the on-disk log. -/
def logBlocks : ℕ := maxOpBlocks * 3

/-- A disk block as its sequence of 32-bit words. -/
abbrev Block := ℕ → ℕ

/-- `struct logheader`: the same layout in memory and in the header block. -/
structure LogHeader where
  n : ℕ
  block : ℕ → ℕ

/-- Word 0 of the header block is `n`, the block numbers follow. -/
def LogHeader.ofBlock (b : Block) : LogHeader where
  n := b 0
  block := fun i => b (i + 1)

/-- What `write_head` leaves in the buffer of the header block: entries past
`n` keep the words of earlier transactions. -/
def LogHeader.toBlock (lh : LogHeader) (hb : Block) : Block := fun w =>
  if w = 0 then lh.n else if w ≤ lh.n then lh.block (w - 1) else hb w

/-- The block numbers that the header lists. -/
def LogHeader.Lists (lh : LogHeader) (b : ℕ) : Prop := ∃ i < lh.n, lh.block i = b

instance (lh : LogHeader) (b : ℕ) : Decidable (lh.Lists b) :=
  inferInstanceAs (Decidable (∃ i < lh.n, lh.block i = b))

/-- One `log_write`: the operation that calls it, the block and its new contents. -/
structure Event where
  op : ℕ
  blockno : ℕ
  data : Block

def Event.write (e : Event) : ℕ × Block := (e.blockno, e.data)

/-- Where the process that commits, or the recovery at boot, stands between
two disk writes. -/
inductive Phase where
  | running
  | writeLog (tail : ℕ)
  | writeHead
  | installTrans (tail : ℕ)
  | eraseHead
  | committed
  | readHead
  | recoverTrans (tail : ℕ)
  | recoverHead
  | panicked
  deriving DecidableEq

structure State where
  disk : ℕ → Block
  cache : ℕ → Option Block
  refcnt : ℕ → ℕ
  outstanding : ℕ
  committing : Bool
  lh : LogHeader
  phase : Phase
  active : List ℕ
  used : List ℕ
  pending : List Event
  groups : List (List Event)
  durable : ℕ

inductive Action where
  | beginOp (op : ℕ)
  | logWrite (e : Event)
  | endOp (op : ℕ)
  | diskWrite
  | readHead
  | endCommit
  | bread (b : ℕ)
  | recycle (b : ℕ)
  | crash

/-- `bread`: the cached contents when the block is cached, else the disk's. -/
def State.bread (s : State) (b : ℕ) : Block := (s.cache b).getD (s.disk b)

/-- `bwrite` of a buffer holding `data`. -/
def State.bwrite (s : State) (b : ℕ) (data : Block) : State :=
  { s with
    cache := update s.cache b (some data)
    disk := update s.disk b data }

/-- Boot resets everything but the disk. -/
def State.reboot (s : State) : State :=
  { s with
    cache := fun _ => none
    refcnt := fun _ => 0
    outstanding := 0
    committing := false
    lh := ⟨0, fun _ => 0⟩
    phase := .readHead
    active := []
    pending := [] }

/-- The index at which `log_write` stops: the entry that already holds the
block (log absorption) or `n`. -/
def LogHeader.find (lh : LogHeader) (b : ℕ) : ℕ → ℕ
  | 0 => lh.n
  | k + 1 => if lh.block (lh.n - (k + 1)) = b then lh.n - (k + 1) else lh.find b k

/-- `begin_op`; it sleeps, and the step is not enabled, while a commit runs or
the reservation does not fit. -/
def beginOp (s : State) (op : ℕ) : Option State :=
  if s.committing then none
  else if logBlocks < s.lh.n + (s.outstanding + 1) * maxOpBlocks then none
  else some { s with
    outstanding := s.outstanding + 1
    active := op :: s.active
    used := op :: s.used }

/-- `log_write(b)` after the caller has stored `e.data` in the buffer. -/
def logWrite (s : State) (e : Event) : State :=
  if logBlocks ≤ s.lh.n then { s with phase := .panicked }
  else if s.outstanding < 1 then { s with phase := .panicked }
  else
    let i := s.lh.find e.blockno s.lh.n
    { s with
      cache := update s.cache e.blockno (some e.data)
      lh := { n := if i = s.lh.n then s.lh.n + 1 else s.lh.n
              block := update s.lh.block i e.blockno }
      refcnt := if i = s.lh.n then update s.refcnt e.blockno (s.refcnt e.blockno + 1)
        else s.refcnt
      pending := s.pending ++ [e] }

/-- The part of `end_op` under `log.lock`, up to the call of `commit`. -/
def endOp (s : State) (op : ℕ) : State :=
  let outstanding := s.outstanding - 1
  let s := { s with outstanding := outstanding, active := s.active.erase op }
  if s.committing then { s with phase := .panicked }
  else if outstanding = 0 then
    if 0 < s.lh.n then
      { s with
        committing := true
        phase := .writeLog 0
        groups := s.groups ++ [s.pending]
        pending := [] }
    else { s with committing := true, phase := .committed }
  else s

variable (start : ℕ)

/-- One iteration of `write_log`. -/
def writeLog (s : State) (tail : ℕ) : State :=
  { s.bwrite (start + tail + 1) (s.bread (s.lh.block tail)) with
    phase := if tail + 1 < s.lh.n then .writeLog (tail + 1) else .writeHead }

/-- `write_head`. -/
def writeHead (s : State) (next : Phase) : State :=
  { s.bwrite start (s.lh.toBlock (s.bread start)) with phase := next }

/-- One iteration of `install_trans`; outside recovery it also unpins the
home block. -/
def installTrans (s : State) (recovering : Bool) (tail : ℕ) : State :=
  let b := s.lh.block tail
  let s := s.bwrite b (s.bread (start + tail + 1))
  if recovering then s
  else { s with refcnt := update s.refcnt b (s.refcnt b - 1) }

/-- `log.lh.n = 0` after the last installed block. -/
def State.clearHead (s : State) (next : Phase) : State :=
  { s with lh := { s.lh with n := 0 }, phase := next }

/-- The next disk write of the running `commit` or `recover_from_log`. -/
def diskWrite (s : State) : Option State :=
  match s.phase with
  | .writeLog tail => some (writeLog start s tail)
  | .writeHead =>
    -- the header write is the commit point
    let s := writeHead start s (.installTrans 0)
    some { s with durable := s.groups.length }
  | .installTrans tail =>
    let s' := installTrans start s false tail
    some (if tail + 1 < s.lh.n then { s' with phase := .installTrans (tail + 1) }
      else s'.clearHead .eraseHead)
  | .eraseHead => some (writeHead start s .committed)
  | .recoverTrans tail =>
    let s' := installTrans start s true tail
    some (if tail + 1 < s.lh.n then { s' with phase := .recoverTrans (tail + 1) }
      else s'.clearHead .recoverHead)
  | .recoverHead =>
    let s := writeHead start s .running
    some { s with groups := s.groups.take s.durable }
  | _ => none

/-- `read_head` at the start of `recover_from_log`. -/
def readHead (s : State) : State :=
  let lh := LogHeader.ofBlock (s.bread start)
  { s with
    lh := lh
    phase := if 0 < lh.n then .recoverTrans 0 else .recoverHead }

/-- A block that file-system operations may log: outside header and log area. -/
def Home (b : ℕ) : Prop := b < start ∨ start + logBlocks < b

instance (b : ℕ) : Decidable (Home start b) :=
  inferInstanceAs (Decidable (b < start ∨ start + logBlocks < b))

/-- File-system calls run once recovery is over. -/
def Phase.booted : Phase → Bool
  | .readHead | .recoverTrans _ | .recoverHead | .panicked => false
  | _ => true

def step (s : State) : Action → Option State
  | .beginOp op => if s.phase.booted ∧ op ∉ s.used then beginOp s op else none
  | .logWrite e =>
    if s.phase.booted ∧ e.op ∈ s.active ∧ Home start e.blockno then some (logWrite s e) else none
  | .endOp op => if s.phase.booted ∧ op ∈ s.active then some (endOp s op) else none
  | .diskWrite => diskWrite start s
  | .readHead => if s.phase = .readHead then some (readHead start s) else none
  | .endCommit =>
    if s.phase = .committed then some { s with committing := false, phase := .running } else none
  | .bread b =>
    if s.phase = .panicked then none
    else some { s with cache := update s.cache b (some (s.bread b)) }
  | .recycle b =>
    -- `bget` reuses only buffers that nothing refers to
    if s.refcnt b = 0 then some { s with cache := update s.cache b none } else none
  | .crash => some s.reboot

/-- Boot on a disk whose log `mkfs` left empty. -/
def boot (disk : ℕ → Block) : State where
  disk := disk
  cache := fun _ => none
  refcnt := fun _ => 0
  outstanding := 0
  committing := false
  lh := ⟨0, fun _ => 0⟩
  phase := .readHead
  active := []
  used := []
  pending := []
  groups := []
  durable := 0

end Xv6.Log
