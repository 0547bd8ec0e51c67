import Mathlib.Logic.Function.Basic
import Xv6.Lib.Chain
import Xv6.Lib.Runs

/-!
# The buffer cache (`bio.c`)

A step is what one process does under `bcache.lock`, under the spinlock of one
sleep-lock, or in one disk transfer. `bread` is `get`, `lock` and, if the buffer is not
valid, `fill`; `brelse` is `unlock` and `put`. Buffers are numbered from 0, and `nbuf` is
the number of the list head. The bytes of a block are of an arbitrary type.
-/

namespace Xv6.Bio

open Chain Function

def nbuf : ℕ := 30

structure Buf (D : Type) where
  dev : ℕ
  blockno : ℕ
  refcnt : ℕ
  valid : Bool
  data : D

/-- Where a process is in `bread` or `brelse`: in `acquiresleep`, past it with a buffer
that is not valid, or past `releasesleep`. -/
inductive Pc where
  | idle
  | waiting (b : ℕ)
  | locked (b : ℕ)
  | releasing (b : ℕ)
  deriving DecidableEq

structure State (D : Type) where
  buf : ℕ → Buf D
  next : ℕ → ℕ
  prev : ℕ → ℕ
  /-- The holder of the sleep-lock of a buffer. -/
  owner : ℕ → Option ℕ
  disk : ℕ → ℕ → D
  pc : ℕ → Pc
  /-- Calls of `bpin` that no `bunpin` has undone yet. -/
  pins : ℕ → ℕ
  /-- Ghost: `bget` has returned the buffer at some time. -/
  used : ℕ → Bool
  panicked : Bool

inductive Event (D : Type) where
  | get (p dev blockno : ℕ)
  | lock (p : ℕ)
  | fill (p : ℕ)
  | modify (p b : ℕ) (d : D)
  | bwrite (p b : ℕ)
  | unlock (p b : ℕ)
  | put (p : ℕ)
  | bpin (p b : ℕ)
  | bunpin (b : ℕ)

variable {D : Type}

namespace State

def setBuf (s : State D) (b : ℕ) (u : Buf D) : State D :=
  { s with buf := update s.buf b u }

def setPc (s : State D) (p : ℕ) (pc : Pc) : State D :=
  { s with pc := update s.pc p pc }

def setOwner (s : State D) (b : ℕ) (o : Option ℕ) : State D :=
  { s with owner := update s.owner b o }

def setDisk (s : State D) (dev blockno : ℕ) (d : D) : State D :=
  { s with disk := update s.disk dev (update (s.disk dev) blockno d) }

/-- The buffer as `virtio_disk_rw` fills it, marked valid. -/
def filled (s : State D) (b : ℕ) : Buf D :=
  { s.buf b with data := s.disk (s.buf b).dev (s.buf b).blockno, valid := true }

def setRefcnt (s : State D) (b n : ℕ) : State D := s.setBuf b { s.buf b with refcnt := n }

/-- The first loop of `bget`. -/
def cached (s : State D) (dev blockno : ℕ) : Option ℕ :=
  scan s.next nbuf (fun b => (s.buf b).dev = dev ∧ (s.buf b).blockno = blockno) (nbuf + 1)
    (s.next nbuf)

/-- The second loop of `bget`. -/
def unused (s : State D) : Option ℕ :=
  scan s.prev nbuf (fun b => (s.buf b).refcnt = 0) (nbuf + 1) (s.prev nbuf)

/-- `bget` up to `acquiresleep`. -/
def bget (s : State D) (p dev blockno : ℕ) : State D :=
  match s.cached dev blockno with
  | some b =>
    { (s.setRefcnt b ((s.buf b).refcnt + 1)).setPc p (.waiting b) with
      used := update s.used b true }
  | none =>
    match s.unused with
    | some b =>
      { (s.setBuf b ⟨dev, blockno, 1, false, (s.buf b).data⟩).setPc p (.waiting b) with
        used := update s.used b true }
    | none => { s with panicked := true }

/-- `brelse` after `releasesleep`. -/
def release (s : State D) (b : ℕ) : State D :=
  let t := s.setRefcnt b ((s.buf b).refcnt - 1)
  if (s.buf b).refcnt - 1 = 0 then
    let u := unlink t.next t.prev b
    let v := push u.1 u.2 nbuf b
    { t with next := v.1, prev := v.2 }
  else t

/-- The process may use the buffer: `bread` has returned it and `brelse` was not called. -/
def Holds (s : State D) (p b : ℕ) : Prop := s.owner b = some p ∧ s.pc p = .idle

instance (s : State D) (p b : ℕ) : Decidable (s.Holds p b) := inferInstanceAs (Decidable (_ ∧ _))

end State

/-- One step, for processes numbered below `n`. -/
def step (n : ℕ) (s : State D) (e : Event D) : Option (State D) :=
  if s.panicked then none
  else match e with
  | .get p dev blockno => if p < n ∧ s.pc p = .idle then some (s.bget p dev blockno) else none
  | .lock p =>
    match s.pc p with
    | .waiting b =>
      if s.owner b = none then
        some ((s.setOwner b (some p)).setPc p (if (s.buf b).valid then .idle else .locked b))
      else none
    | _ => none
  | .fill p =>
    match s.pc p with
    | .locked b => some ((s.setBuf b (s.filled b)).setPc p .idle)
    | _ => none
  | .modify p b d => if s.Holds p b then some (s.setBuf b { s.buf b with data := d }) else none
  | .bwrite p b =>
    if s.Holds p b then some (s.setDisk (s.buf b).dev (s.buf b).blockno (s.buf b).data) else none
  | .unlock p b =>
    if s.Holds p b then some ((s.setOwner b none).setPc p (.releasing b)) else none
  | .put p =>
    match s.pc p with
    | .releasing b => some ((s.release b).setPc p .idle)
    | _ => none
  | .bpin p b =>
    if s.Holds p b then
      some { s.setRefcnt b ((s.buf b).refcnt + 1) with
        pins := update s.pins b (s.pins b + 1) }
    else none
  | .bunpin b =>
    if 0 < s.pins b then
      some { s.setRefcnt b ((s.buf b).refcnt - 1) with
        pins := update s.pins b (s.pins b - 1) }
    else none

/-- The loop of `binit`: every buffer is put behind the head. -/
def binit : ℕ → (ℕ → ℕ) × (ℕ → ℕ)
  | 0 => (fun _ => nbuf, fun _ => nbuf)
  | i + 1 => push (binit i).1 (binit i).2 nbuf i

/-- The cache after `binit`, with some disk. -/
def init (zero : D) (disk : ℕ → ℕ → D) : State D where
  buf _ := ⟨0, 0, 0, false, zero⟩
  next := (binit nbuf).1
  prev := (binit nbuf).2
  owner _ := none
  disk := disk
  pc _ := .idle
  pins _ := 0
  used _ := false
  panicked := false

end Xv6.Bio
