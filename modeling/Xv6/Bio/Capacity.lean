import Mathlib.Tactic
import Xv6.Bio.Invariant

/-!
# Is the cache large enough?

`bget` finds a buffer as long as some buffer is neither waited for, held, about to be
given back nor pinned. Nothing in the kernel sees to that: there are `NPROC` processes
and only `NBUF` buffers, and a process in `readi` keeps its buffer while it waits for the
disk.
-/

namespace Xv6.Bio

open Bag

variable {D : Type}

def nproc : ℕ := 64

/-- Nobody has to do with the buffer. -/
def State.Idle (n : ℕ) (s : State D) (b : ℕ) : Prop :=
  (∀ p < n, s.pc p ≠ .waiting b ∧ s.pc p ≠ .releasing b) ∧ s.owner b = none ∧ s.pins b = 0

/-- `bget` is called when the block is cached or some buffer is idle. -/
def Room (n : ℕ) (s : State D) : Event D → Prop
  | .get _ dev blockno => s.cached dev blockno ≠ none ∨ ∃ b < nbuf, s.Idle n b
  | _ => True

theorem State.Idle.refs {n : ℕ} {s : State D} {b : ℕ} (h : s.Idle n b) : s.refs n b = 0 := by
  obtain ⟨hpc, hown, hpins⟩ := h
  have hzero : total n (fun p => (s.pc p).wants b) = 0 :=
    total_zero fun p hp => by simp [Pc.wants, hpc p hp]
  rw [State.refs, hzero, hown, hpins]
  rfl

theorem Inv.unused {n : ℕ} {s : State D} {l : List ℕ} (h : Inv n s l) {b : ℕ} (hb : b < nbuf)
    (hidle : s.Idle n b) : s.unused ≠ none := by
  rw [h.unused_eq]
  intro hnone
  have hb' : b ∈ l.reverse := List.mem_reverse.mpr (h.mem_iff.mpr hb)
  have := List.find?_eq_none.mp hnone b hb'
  simp [h.refs b, hidle.refs] at this

/-- What a process does in `readi` for a file of one block, which it gets in buffer `b`. -/
def readi (p blockno b : ℕ) : List (Event ℕ) :=
  [.get p 1 blockno, .lock p, .fill p, .unlock p b, .put p]

/-- The first `k` processes are in `readi`, process `p` with buffer `p` locked for block
`100 + p`. -/
structure Crowded (k : ℕ) (s : State ℕ) : Prop where
  inv : Inv nproc s (List.range nbuf).reverse
  running : s.panicked = false
  idle : ∀ p, k ≤ p → s.pc p = .idle
  free : ∀ b, k ≤ b → s.owner b = none
  taken : ∀ b < k, (s.buf b).refcnt ≠ 0
  spare : ∀ b, k ≤ b → (s.buf b).refcnt = 0
  absent : ∀ b p, k ≤ p → (s.buf b).blockno ≠ 100 + p

theorem Crowded.cached {k : ℕ} {s : State ℕ} (h : Crowded k s) : s.cached 1 (100 + k) = none := by
  rw [h.inv.cached_eq, List.find?_eq_none]
  intro b _ hb
  exact h.absent b k le_rfl (by simpa using (of_decide_eq_true hb).2)

theorem Crowded.unused {k : ℕ} {s : State ℕ} (h : Crowded k s) (hk : k < nbuf) :
    s.unused = some k := by
  rw [h.inv.unused_eq, List.reverse_reverse, List.find?_range_eq_some]
  refine ⟨by simp [h.spare k le_rfl], List.mem_range.mpr hk, fun j hj => ?_⟩
  simp [h.taken j hj]

theorem Crowded.succ {k : ℕ} {s : State ℕ} (h : Crowded k s) (hk : k < nbuf) : ∃ t,
    Runs.exec (step nproc) s ((readi k (100 + k) k).take 2) = some t ∧ Crowded (k + 1) t := by
  have hget : step nproc s (.get k 1 (100 + k)) = some (s.bget k 1 (100 + k)) := by
    have hlt : k < nproc := hk.trans (by decide)
    simp [step, h.running, h.idle k le_rfl, hlt]
  obtain ⟨u, hu, hbuf, hpc, howner, hrun⟩ : ∃ u, s.bget k 1 (100 + k) = u ∧
      u.buf = Function.update s.buf k ⟨1, 100 + k, 1, false, (s.buf k).data⟩ ∧
      u.pc = Function.update s.pc k (.waiting k) ∧ u.owner = s.owner ∧ u.panicked = false := by
    refine ⟨_, rfl, ?_⟩
    simp only [State.bget, h.cached, h.unused hk]
    exact ⟨rfl, rfl, rfl, h.running⟩
  have hlock : step nproc u (.lock k) =
      some ((u.setOwner k (some k)).setPc k (if (u.buf k).valid then .idle else .locked k)) := by
    simp [step, hrun, hpc, howner, h.free k le_rfl]
  rw [hu] at hget
  refine ⟨_, ?_, (h.inv.step hget).step hlock, hrun, fun p hp => ?_, fun b hb => ?_, fun b hb => ?_,
    fun b hb => ?_, fun b p hp => ?_⟩
  · simp only [readi, List.take, Runs.exec, hget, Option.bind_some, hlock]
  · have hne : p ≠ k := by omega
    simpa [State.setPc, State.setOwner, hpc, hne] using h.idle p (by omega)
  · have hne : b ≠ k := by omega
    simpa [State.setPc, State.setOwner, howner, hne] using h.free b (by omega)
  · by_cases hne : b = k
    · simp [State.setPc, State.setOwner, hbuf, hne]
    · simpa [State.setPc, State.setOwner, hbuf, hne] using h.taken b (by omega)
  · have hne : b ≠ k := by omega
    simpa [State.setPc, State.setOwner, hbuf, hne] using h.spare b (by omega)
  · by_cases hne : b = k
    · simp [State.setPc, State.setOwner, hbuf, hne]
      omega
    · simpa [State.setPc, State.setOwner, hbuf, hne] using h.absent b p (by omega)

end Xv6.Bio
