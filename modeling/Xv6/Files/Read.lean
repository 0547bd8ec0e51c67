import Xv6.Fs.Bytes
import Xv6.Pipes.Model

/-!
# Reading into user memory (`fileread`, `readi`, `piperead`, `consoleread`, `copyout`)

The three readers that `fileread` chooses from, with the memory of the process that reads.
The loop of `piperead` runs under the lock of the pipe and that of `consoleread` under the
lock of the console; while a reader sleeps, the other side may do anything to the buffer,
which is given as the list of what the reader finds each time it wakes up. The length is an
`int`; `readi` takes it as an unsigned number.
-/

namespace Xv6.Files

open Eff Runs Fs

open Pipes (Pipe pipesize)

def pgsize : ℕ := 4096

def maxva : ℕ := 2 ^ 38

/-- The memory of a process. `ok` tells, for the address of a page, whether `copyout` can
write it: it is mapped for the user or can be allocated by `vmfault`, and is writable. -/
structure Space where
  mem : ℕ → UInt8
  ok : ℕ → Bool

/-- The loop of `copyout`, page by page; false stands for -1. -/
def copyoutLoop : ℕ → Space → ℕ → List UInt8 → Bool × Space
  | 0, u, _, _ => (true, u)
  | fuel + 1, u, dstva, src =>
    if src = [] then (true, u)
    else
      let va0 := dstva / pgsize * pgsize
      if maxva ≤ va0 ∨ u.ok va0 = false then (false, u)
      else
        let n := min (pgsize - (dstva - va0)) src.length
        copyoutLoop fuel { u with mem := putBytes u.mem dstva (src.take n) } (va0 + pgsize)
          (src.drop n)

def copyout (u : Space) (dstva : ℕ) (src : List UInt8) : Bool × Space :=
  copyoutLoop src.length u dstva src

/-! ## Inodes -/

/-- The loop of `readi`, with the destination `dst`. -/
def readUserLoop (sb : Superblock) (ip dst : ℕ) : ℕ → ℕ → ℕ → ℕ → Space → M (ℤ × Space)
  | 0, tot, _, _, u => pure (tot, u)
  | fuel + 1, tot, off, n, u =>
    if tot < n then do
      let addr ← bmap sb ip (off / bsize)
      if addr = 0 then pure (tot, u) else do
        let m := min (n - tot) (bsize - off % bsize)
        let s ← get
        let r := copyout u (dst + tot) (getBytes (s.disk.block addr) (off % bsize) m)
        if r.1 then readUserLoop sb ip dst fuel (tot + m) (off + m) n r.2
        else pure (-1, r.2)
    else pure (tot, u)

def readUser (sb : Superblock) (ip dst off n : ℕ) (u : Space) : M (ℤ × Space) := do
  let s ← get
  if (s.copy ip).size < off ∨ (off + n) % 2 ^ 32 < off then pure (0, u)
  else
    let n := if (s.copy ip).size < off + n then (s.copy ip).size - off else n
    readUserLoop sb ip dst n 0 off n u

/-! ## Pipes -/

/-- The loop in which `piperead` waits: whether the process has been killed, and the pipe.
Each element of the list is the answer of `killed` and what `sleep` returns to. -/
def pipeWait (pi : Pipe) : List (Bool × Pipe) → Option (Bool × Pipe)
  | [] => if pi.empty && pi.writeopen then none else some (false, pi)
  | (killed, next) :: wakes =>
    if pi.empty && pi.writeopen then
      if killed then some (true, pi) else pipeWait next wakes
    else some (false, pi)

/-- The loop of `piperead` from byte `i` on, with `m` bytes to go. -/
def pipeLoop (addr : ℕ) : ℕ → ℕ → Pipe → Space → ℤ × Pipe × Space
  | 0, i, pi, u => (i, pi, u)
  | m + 1, i, pi, u =>
    if pi.empty then (i, pi, u)
    else
      let r := copyout u (addr + i) [pi.data (pi.nread.toNat % pipesize)]
      if r.1 then pipeLoop addr m (i + 1) { pi with nread := pi.nread + 1 } r.2
      else (if i = 0 then -1 else i, pi, r.2)

def piperead (addr : ℕ) (n : ℤ) (wakes : List (Bool × Pipe)) (pi : Pipe) (u : Space) :
    Option (ℤ × Pipe × Space) :=
  match pipeWait pi wakes with
  | none => none
  | some (true, pi) => some (-1, pi, u)
  | some (false, pi) => some (pipeLoop addr n.toNat 0 pi u)

/-! ## The console -/

def inputBufSize : ℕ := 128

/-- `C('D')` -/
def ctrlD : UInt8 := 4

def newline : UInt8 := 10

structure Cons where
  buf : ℕ → UInt8
  r : UInt32
  w : UInt32

/-- The loop in which `consoleread` waits for input: whether the process has been killed,
the console, and what is to come. -/
def consoleWait (c : Cons) : List (Bool × Cons) → Option (Bool × Cons × List (Bool × Cons))
  | [] => if c.r == c.w then none else some (false, c, [])
  | (killed, next) :: wakes =>
    if c.r == c.w then
      if killed then some (true, c, wakes) else consoleWait next wakes
    else some (false, c, (killed, next) :: wakes)

/-- The loop of `consoleread` with `n` bytes to go of `target`. -/
def consoleLoop (target : ℕ) : ℕ → ℕ → List (Bool × Cons) → Cons → Space →
    Option (ℤ × Cons × Space)
  | 0, _, _, c, u => some (target, c, u)
  | n + 1, dst, wakes, c, u =>
    match consoleWait c wakes with
    | none => none
    | some (true, c, _) => some (-1, c, u)
    | some (false, c, wakes) =>
      let ch := c.buf (c.r.toNat % inputBufSize)
      if ch = ctrlD then
        -- the end of the file is kept for the next call, if this one has some bytes
        some ((target - (n + 1) : ℕ), if n + 1 < target then c else { c with r := c.r + 1 }, u)
      else
        let r := copyout u dst [ch]
        if r.1 = false then some ((target - (n + 1) : ℕ), { c with r := c.r + 1 }, r.2)
        else if ch = newline then some ((target - n : ℕ), { c with r := c.r + 1 }, r.2)
        else consoleLoop target n (dst + 1) wakes { c with r := c.r + 1 } r.2

/-- `target - n` is 0 when `n` is negative. -/
def consoleread (dst : ℕ) (n : ℤ) (wakes : List (Bool × Cons)) (c : Cons) (u : Space) :
    Option (ℤ × Cons × Space) := consoleLoop n.toNat n.toNat dst wakes c u

/-! ## `fileread` -/

/-- `FD_NONE`, `FD_PIPE`, `FD_INODE` and `FD_DEVICE`. -/
inductive Kind where
  | none
  | pipe
  | inode
  | device
  deriving DecidableEq

structure File where
  kind : Kind
  readable : Bool
  ip : ℕ
  off : ℕ
  major : ℤ

/-- The file, what it reads from, and the memory of the process. -/
structure World where
  file : File
  fs : State
  pipe : Pipe
  cons : Cons
  user : Space

inductive Outcome where
  | panic (msg : String)
  | asleep
  | ret (r : ℤ) (w : World)

/-- The device number of the console, the only one with a `read` function. -/
def console : ℤ := 1

def lockedRead (sb : Superblock) (ip dst off n : ℕ) (u : Space) : M (ℤ × Space) := do
  ilock ip
  readUser sb ip dst off n u

/-- The branch for inodes. -/
def readInode (sb : Superblock) (addr : ℕ) (n : ℤ) (w : World) : Outcome :=
  match lockedRead sb w.file.ip addr w.file.off (n % 2 ^ 32).toNat w.user w.fs with
  | .error msg => .panic msg
  | .ok ((r, u), s) => .ret r { w with
      fs := s
      user := u
      file.off := if 0 < r then (w.file.off + r.toNat) % 2 ^ 32 else w.file.off }

def fileread (sb : Superblock) (addr : ℕ) (n : ℤ) (pipeWakes : List (Bool × Pipe))
    (consWakes : List (Bool × Cons)) (w : World) : Outcome :=
  if w.file.readable = false then .ret (-1) w
  else match w.file.kind with
    | .pipe =>
      match piperead addr n pipeWakes w.pipe w.user with
      | none => .asleep
      | some (r, pi, u) => .ret r { w with pipe := pi, user := u }
    | .device =>
      if w.file.major < 0 ∨ ndev ≤ w.file.major ∨ w.file.major ≠ console then .ret (-1) w
      else match consoleread addr n consWakes w.cons w.user with
        | none => .asleep
        | some (r, c, u) => .ret r { w with cons := c, user := u }
    | .inode => readInode sb addr n w
    | .none => .panic "fileread"

/-! ## What a reader writes -/

/-- The memory outside of `[a, b)` is as it was. -/
def Space.Frame (u v : Space) (a b : ℕ) : Prop := ∀ x, x < a ∨ b ≤ x → v.mem x = u.mem x

section

variable {u v w : Space} {a b c d : ℕ}

theorem Space.Frame.refl : u.Frame u a b := fun _ _ => rfl

theorem Space.Frame.trans (h : u.Frame v a b) (h' : v.Frame w a b) : u.Frame w a b :=
  fun x hx => (h' x hx).trans (h x hx)

theorem Space.Frame.mono (h : u.Frame v a b) (hc : c ≤ a) (hd : b ≤ d) : u.Frame v c d :=
  fun x hx => h x (by omega)

end

theorem getBytes_length (b : Block) (o n : ℕ) : (getBytes b o n).length = n := by
  simp [getBytes]

/-- Whether the byte at an address can be written. -/
def Space.can (u : Space) (a : ℕ) : Bool :=
  decide (a / pgsize * pgsize < maxva) && u.ok (a / pgsize * pgsize)

theorem copyoutLoop_ok : ∀ fuel (u : Space) dstva src, src.length ≤ fuel →
    ((copyoutLoop fuel u dstva src).1 = true ↔ ∀ i < src.length, u.can (dstva + i) = true) ∧
    (copyoutLoop fuel u dstva src).2.ok = u.ok := by
  intro fuel
  induction fuel with
  | zero =>
    intro u dstva src hlen
    obtain rfl := List.eq_nil_of_length_eq_zero (Nat.le_zero.mp hlen)
    simp [copyoutLoop]
  | succ fuel ih =>
    intro u dstva src hlen
    unfold copyoutLoop
    split
    · rename_i hnil
      simp [hnil]
    · rename_i hne
      have hpos : 0 < src.length := List.length_pos_iff.mpr hne
      dsimp only
      split
      · rename_i hbad
        refine ⟨⟨(fun h => by cases h), fun h => ?_⟩, rfl⟩
        have hfirst := h 0 hpos
        simp only [Space.can, Nat.add_zero, Bool.and_eq_true, decide_eq_true_eq] at hfirst
        rcases hbad with hbad | hbad
        · omega
        · rw [hfirst.2] at hbad
          cases hbad
      · rename_i hgood
        push Not at hgood
        generalize hn : min (pgsize - (dstva - dstva / pgsize * pgsize)) src.length = n
        obtain ⟨hiff, hok⟩ := ih { u with mem := putBytes u.mem dstva (src.take n) }
          (dstva / pgsize * pgsize + pgsize) (src.drop n)
          (by rw [List.length_drop]; unfold pgsize at *; omega)
        refine ⟨?_, hok⟩
        rw [hiff, List.length_drop]
        -- the bytes of the first page
        have hpage : ∀ i < n, u.can (dstva + i) = true := by
          intro i hi
          have hsame : (dstva + i) / pgsize = dstva / pgsize := by
            unfold pgsize at *
            omega
          simp only [Space.can, hsame, Bool.and_eq_true, decide_eq_true_eq]
          exact ⟨hgood.1, by simpa using hgood.2⟩
        have hnext : n < src.length → dstva / pgsize * pgsize + pgsize = dstva + n := by
          unfold pgsize at *
          omega
        constructor
        · intro h i hi
          by_cases hin : i < n
          · exact hpage i hin
          · have := h (i - n) (by omega)
            rwa [hnext (by omega), show dstva + n + (i - n) = dstva + i by omega] at this
        · intro h i hi
          rw [hnext (by omega), Nat.add_assoc]
          exact h (n + i) (by omega)

theorem copyout_ok (u : Space) (dstva : ℕ) (src : List UInt8) :
    ((copyout u dstva src).1 = true ↔ ∀ i < src.length, u.can (dstva + i) = true) ∧
    (copyout u dstva src).2.ok = u.ok := copyoutLoop_ok _ u dstva src le_rfl

theorem readUserLoop_readLoop (sb : Superblock) (ip dst : ℕ) (can : ℕ → Bool) :
    ∀ fuel tot off n u acc s, (∀ i, u.can (dst + i) = can i) →
    (readUserLoop sb ip dst fuel tot off n u s).map (fun x => (x.1.1, x.2)) =
      (readLoop sb ip can fuel tot off n acc s).map fun x => (x.1.1, x.2) := by
  intro fuel
  induction fuel with
  | zero => exact fun tot off n u acc s _ => rfl
  | succ fuel ih =>
    intro tot off n u acc s hcan
    unfold readUserLoop readLoop
    by_cases hlt : tot < n
    · rw [if_pos hlt, if_pos hlt]
      change Except.map _ (bmap sb ip (off / bsize) s >>= _) =
        Except.map _ (bmap sb ip (off / bsize) s >>= _)
      cases bmap sb ip (off / bsize) s with
      | error msg => rfl
      | ok x =>
        obtain ⟨addr, t⟩ := x
        change Except.map _ ((if addr = 0 then pure (tot, u) else _ : M (ℤ × Space)) t) =
          Except.map _ ((if addr = 0 then pure (tot, acc) else _ : M (ℤ × List UInt8)) t)
        by_cases hz : addr = 0
        · rw [if_pos hz, if_pos hz]
          rfl
        · rw [if_neg hz, if_neg hz]
          obtain ⟨hiff, hok⟩ := copyout_ok u (dst + tot) (getBytes (t.disk.block addr)
            (off % bsize) (min (n - tot) (bsize - off % bsize)))
          rw [getBytes_length] at hiff
          have hall : ((List.range (min (n - tot) (bsize - off % bsize))).all
              fun i => can (tot + i)) = (copyout u (dst + tot) (getBytes (t.disk.block addr)
                (off % bsize) (min (n - tot) (bsize - off % bsize)))).1 := by
            rw [Bool.eq_iff_iff, hiff, List.all_eq_true]
            simp only [List.mem_range]
            refine forall₂_congr fun i _ => ?_
            rw [Nat.add_assoc, hcan]
          change Except.map _ ((if _ then _ else _ : M (ℤ × Space)) t) =
            Except.map _ ((if _ then _ else _ : M (ℤ × List UInt8)) t)
          rw [hall]
          split
          · refine ih _ _ _ _ _ _ fun i => ?_
            rw [← hcan i]
            simp only [Space.can, hok]
          · rfl
    · rw [if_neg hlt, if_neg hlt]
      rfl

/-- The result and the state of the file system are those of `readi`. -/
theorem readUser_readi (sb : Superblock) (ip dst off n : ℕ) (u : Space) (s : State) :
    (readUser sb ip dst off n u s).map (fun x => (x.1.1, x.2)) =
      (readi sb ip (fun i => u.can (dst + i)) off n s).map fun x => (x.1.1, x.2) := by
  unfold readUser readi
  change Except.map _ ((if _ then _ else _ : M (ℤ × Space)) s) =
    Except.map _ ((if _ then _ else _ : M (ℤ × List UInt8)) s)
  split
  · rfl
  · exact readUserLoop_readLoop sb ip dst _ _ _ _ _ u [] s fun _ => rfl

/-! ## The results -/

/-- A line has been typed: `a`, `b` and the end of the line. -/
def typed : World where
  file := ⟨.device, true, 0, 0, console⟩
  fs := mount (rootImage bsize)
  pipe := ⟨none, fun _ => 0, 0, 0, true, true, false⟩
  cons := ⟨fun i => if i = 0 then 97 else if i = 1 then 98 else newline, 0, 3⟩
  user := ⟨fun _ => 0, fun _ => true⟩

end Xv6.Files
