import Mathlib
import Xv6.Lib.Runs

/-!
# The disk driver (`virtio_disk.c`)

Processes in `virtio_disk_rw`, the interrupt handler and the device take steps in any
order; processes and the handler work under `vdisk_lock`. `sleep` gives the lock back, and
the sleeper goes on at any later time: it may be woken by `wakeup` or by `kkill`, and in
both cases the loop around the `sleep` decides. So `wakeup` has no effect of its own here.

The device takes heads of chains from the available ring and completes them in any order:
it follows the chain to find the request, the buffer and the status byte. A caller holds
the lock of its buffer, so that no two calls use the same one.

Requests are numbered in the order in which they enter the available ring. The numbers
are ghosts, and so are the requests `pending` in the available ring, those `finished` in
the used ring, the `requests` made, with their callers, and what the device `completed`.
-/

namespace Xv6.Virtio

open Function

/-- `NUM` -/
def num : ℕ := 8

def bsize : ℕ := 1024

/-- What a call asks for. -/
structure Op where
  buf : ℕ
  blockno : ℕ
  write : Bool
  deriving DecidableEq

/-- The product is a `uint`. -/
def Op.sector (o : Op) : ℕ := o.blockno * (bsize / 512) % 2 ^ 32

/-- Where a descriptor points to. -/
inductive Addr where
  | zero
  | header (i : ℕ)
  | data (b : ℕ)
  | status (i : ℕ)
  deriving DecidableEq

/-- A descriptor, with the bits of `flags`. -/
structure Desc where
  addr : Addr
  len : ℕ
  hasNext : Bool
  device : Bool
  next : ℕ
  deriving DecidableEq

/-- `struct virtio_blk_req`; `out` is `VIRTIO_BLK_T_OUT`. -/
structure Req where
  out : Bool
  sector : ℕ
  deriving DecidableEq

def Op.req (o : Op) : Req := ⟨o.write, o.sector⟩

structure Info where
  b : Option ℕ
  status : ℕ
  deriving DecidableEq

inductive Owner where
  | proc (p : ℕ)
  | intr
  deriving DecidableEq

structure Driver where
  desc : ℕ → Desc
  avail : ℕ → ℕ
  availIdx : UInt16
  used : ℕ → ℕ
  usedIdx : UInt16
  free : ℕ → Bool
  /-- `used_idx`: how far the driver has looked. -/
  seen : UInt16
  info : ℕ → Info
  ops : ℕ → Req
  lock : Option Owner

/-- The local array `idx`. -/
structure Chain where
  head : ℕ
  mid : ℕ
  last : ℕ
  deriving DecidableEq

/-- Where a call goes on when it has taken the lock. -/
inductive Entry where
  | alloc (o : Op)
  | wait (o : Op) (c : Chain) (n : ℕ)
  deriving DecidableEq

inductive Pc where
  | user
  | acquire (e : Entry)
  | asleep (e : Entry)
  | alloc (o : Op) (got : List ℕ)
  | rollback (o : Op) (todo : List ℕ)
  | format (o : Op) (c : Chain)
  | publish (o : Op) (c : Chain)
  | notify (o : Op) (c : Chain)
  | wait (o : Op) (c : Chain) (n : ℕ)
  /-- At descriptor `i`; the rest of the chain is a ghost. -/
  | freeChain (o : Op) (n i : ℕ) (rest : List ℕ)
  | release (o : Op) (n : ℕ)
  deriving DecidableEq

inductive Intr where
  | idle
  | loop
  | entry (id : ℕ)
  deriving DecidableEq

structure State where
  driver : Driver
  /-- `b->disk` -/
  busy : ℕ → Bool
  /-- Who holds `b->lock`. -/
  holder : ℕ → Option ℕ
  proc : ℕ → Pc
  intr : Intr
  /-- How far the device has looked in the available ring. -/
  taken : UInt16
  /-- The requests the device is working on. -/
  working : List (ℕ × ℕ)
  panic : Option String
  pending : List (ℕ × ℕ)
  finished : List (ℕ × ℕ)
  requests : List (ℕ × Op)
  completed : List (ℕ × ℕ × Req)

def State.setDriver (s : State) (f : Driver → Driver) : State := { s with driver := f s.driver }

def State.goto (s : State) (p : ℕ) (pc : Pc) : State :=
  { s with proc := update s.proc p pc }

def State.setLock (s : State) (o : Option Owner) : State :=
  s.setDriver fun d => { d with lock := o }

/-! ## Descriptors -/

/-- The first free descriptor. -/
def Driver.firstFree (d : Driver) : Option ℕ := (List.range num).find? d.free

def Driver.setFree (d : Driver) (i : ℕ) (v : Bool) : Driver :=
  { d with free := update d.free i v }

def Driver.setDesc (d : Driver) (i : ℕ) (v : Desc) : Driver :=
  { d with desc := update d.desc i v }

def Driver.setInfo (d : Driver) (i : ℕ) (v : Info) : Driver :=
  { d with info := update d.info i v }

def Desc.zero : Desc := ⟨.zero, 0, false, false, 0⟩

def freeDesc (d : Driver) (i : ℕ) : Except String Driver :=
  if num ≤ i then .error "free_desc 1"
  else if d.free i then .error "free_desc 2"
  else .ok ((d.setDesc i Desc.zero).setFree i true)

/-- Go on after `free_desc`, or panic. -/
def State.freeThen (s : State) (p i : ℕ) (pc : Pc) : State :=
  match freeDesc s.driver i with
  | .ok d => { s.goto p pc with driver := d }
  | .error e => { s with panic := some e }

/-- The three descriptors, the request and `info` of a call. -/
def Driver.format (d : Driver) (o : Op) (c : Chain) : Driver :=
  let d := { d with ops := update d.ops c.head o.req }
  let d := d.setDesc c.head ⟨.header c.head, 16, true, false, c.mid⟩
  let d := d.setDesc c.mid ⟨.data o.buf, bsize, true, !o.write, c.last⟩
  let d := d.setDesc c.last ⟨.status c.head, 1, false, true, 0⟩
  d.setInfo c.head ⟨some o.buf, 0xff⟩

/-! ## Processes -/

def Entry.start : Entry → Pc
  | .alloc o => .alloc o []
  | .wait o c n => .wait o c n

/-- One `alloc_desc` of `alloc3_desc`. -/
def State.alloc (s : State) (p : ℕ) (o : Op) (got : List ℕ) : State :=
  match s.driver.firstFree with
  | some i =>
    (s.setDriver fun d => d.setFree i false).goto p (match got with
      | [i₀, i₁] => .format o ⟨i₀, i₁, i⟩
      | _ => .alloc o (got ++ [i]))
  | none => s.goto p (.rollback o got)

/-- Give the allocated descriptors back, then sleep on `free[0]`. -/
def State.rollback (s : State) (p : ℕ) (o : Op) : List ℕ → State
  | i :: todo => s.freeThen p i (.rollback o todo)
  | [] => (s.setLock none).goto p (.asleep (.alloc o))

def State.format (s : State) (p : ℕ) (o : Op) (c : Chain) : State :=
  { (s.setDriver fun d => d.format o c).goto p (.publish o c) with
    busy := update s.busy o.buf true }

/-- The head enters the available ring. -/
def State.publish (s : State) (p : ℕ) (o : Op) (c : Chain) : State :=
  (s.setDriver fun d => { d with
    avail := update d.avail (d.availIdx.toNat % num) c.head }).goto p (.notify o c)

/-- `avail->idx` shows it to the device. -/
def State.notify (s : State) (p : ℕ) (o : Op) (c : Chain) : State :=
  { (s.setDriver fun d => { d with availIdx := d.availIdx + 1 }).goto p
      (.wait o c s.requests.length) with
    pending := s.pending ++ [(c.head, s.requests.length)]
    requests := s.requests ++ [(p, o)] }

/-- `while(b->disk == 1)` -/
def State.wait (s : State) (p : ℕ) (o : Op) (c : Chain) (n : ℕ) : State :=
  if s.busy o.buf then (s.setLock none).goto p (.asleep (.wait o c n))
  else (s.setDriver fun d => d.setInfo c.head { d.info c.head with b := none }).goto p
    (.freeChain o n c.head [c.mid, c.last])

/-- One round of `free_chain`. -/
def State.freeChain (s : State) (p : ℕ) (o : Op) (n i : ℕ) (rest : List ℕ) : State :=
  s.freeThen p i
    (if (s.driver.desc i).hasNext then .freeChain o n (s.driver.desc i).next rest.tail
      else .release o n)

def State.run (s : State) (p : ℕ) : Option State :=
  match s.proc p with
  | .user => none
  | .acquire e =>
    if s.driver.lock = none then some ((s.setLock (some (.proc p))).goto p e.start) else none
  | .asleep e => some (s.goto p (.acquire e))
  | .alloc o got => some (s.alloc p o got)
  | .rollback o todo => some (s.rollback p o todo)
  | .format o c => some (s.format p o c)
  | .publish o c => some (s.publish p o c)
  | .notify o c => some (s.notify p o c)
  | .wait o c n => some (s.wait p o c n)
  | .freeChain o n i rest => some (s.freeChain p o n i rest)
  | .release o _ => some { (s.setLock none).goto p .user with
      holder := update s.holder o.buf none }

/-! ## The interrupt handler -/

def State.handle (s : State) : Option State :=
  match s.intr with
  | .idle =>
    if s.driver.lock = none then some { s.setLock (some .intr) with intr := .loop } else none
  | .loop =>
    if s.driver.seen ≠ s.driver.usedIdx then
      some { s with intr := .entry (s.driver.used (s.driver.seen.toNat % num)) }
    else some { s.setLock none with intr := .idle }
  | .entry id =>
    if (s.driver.info id).status ≠ 0 then some { s with panic := some "virtio_disk_intr status" }
    else match (s.driver.info id).b with
      | some b => some { s.setDriver fun d => { d with seen := d.seen + 1 } with
          intr := .loop
          busy := update s.busy b false
          finished := s.finished.tail }
      | none => some { s with panic := some "kerneltrap" }

/-! ## The device -/

/-- The device takes the next head. -/
def State.take (s : State) : Option State :=
  if s.taken ≠ s.driver.availIdx then
    some { s with
      taken := s.taken + 1
      working := s.working ++
        [(s.driver.avail (s.taken.toNat % num), ((s.pending.head?).map Prod.snd).getD 0)]
      pending := s.pending.tail }
  else none

/-- What the device reads from a chain: the request, the buffer, and where the status
goes. -/
def Driver.follow (d : Driver) (head : ℕ) : Option (Req × ℕ × ℕ) :=
  match d.desc head with
  | ⟨.header i, _, true, _, mid⟩ =>
    match d.desc mid with
    | ⟨.data b, _, true, _, last⟩ =>
      match d.desc last with
      | ⟨.status j, _, false, _, _⟩ => some (d.ops i, b, j)
      | _ => none
    | _ => none
  | _ => none

/-- The device carries out one of its requests and puts it in the used ring. -/
def State.complete (s : State) (head n : ℕ) : Option State :=
  if (head, n) ∈ s.working then
    (s.driver.follow head).map fun (r, b, j) =>
      { s.setDriver fun d => { d.setInfo j { d.info j with status := 0 } with
          used := update d.used (d.usedIdx.toNat % num) head
          usedIdx := d.usedIdx + 1 } with
        working := s.working.erase (head, n)
        finished := s.finished ++ [(head, n)]
        completed := s.completed ++ [(n, b, r)] }
  else none

/-! ## Steps -/

inductive Label where
  | call (p : ℕ) (o : Op)
  | run (p : ℕ)
  | intr
  | take
  | complete (head n : ℕ)
  deriving DecidableEq

def step (s : State) (l : Label) : Option State :=
  if s.panic ≠ none then none
  else match l with
  | .call p o =>
    if s.proc p = .user ∧ s.holder o.buf = none then
      some { s.goto p (.acquire (.alloc o)) with
        holder := update s.holder o.buf (some p) }
    else none
  | .run p => s.run p
  | .intr => s.handle
  | .take => s.take
  | .complete head n => s.complete head n

/-- After `virtio_disk_init`. -/
def init : State where
  driver := ⟨fun _ => Desc.zero, fun _ => 0, 0, fun _ => 0, 0, fun i => i < num, 0,
    fun _ => ⟨none, 0⟩, fun _ => ⟨false, 0⟩, none⟩
  busy := fun _ => false
  holder := fun _ => none
  proc := fun _ => .user
  intr := .idle
  taken := 0
  working := []
  panic := none
  pending := []
  finished := []
  requests := []
  completed := []

end Xv6.Virtio
