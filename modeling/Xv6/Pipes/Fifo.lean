import Xv6.Lib.Ring
import Xv6.Pipes.Steps

/-!
# Pipes are queues

The bytes accepted from writers are the bytes delivered to readers followed by those in
the buffer. The counters are the numbers of bytes delivered and accepted, modulo `2^32`,
and never differ by more than the size of the buffer, so that comparing the counters
tells an empty and a full pipe apart also after they have wrapped around.
-/

namespace Xv6.Pipes

open Runs

/-- The pipe holds `buf`. -/
structure Queue (s : State) (buf : List UInt8) : Prop where
  accepted : s.accepted = s.delivered ++ buf
  ring : Ring.Queue pipesize (2 ^ 32) s.pipe.data s.pipe.nread.toNat s.pipe.nwrite.toNat buf

section

variable {s t : State} {l : Label} {buf : List UInt8}

theorem Queue.empty_iff (h : Queue s buf) : s.pipe.empty = true ↔ buf = [] := by
  rw [← h.ring.empty_iff (by decide), UInt32.toNat_inj]
  exact beq_iff_eq

theorem Queue.full_iff (h : Queue s buf) : s.pipe.full = true ↔ buf.length = pipesize := by
  rw [← h.ring.full_iff (by decide)]
  unfold Pipe.full
  rw [beq_iff_eq, ← UInt32.toNat_inj, UInt32.toNat_add]
  rfl

theorem Queue.push (h : Queue s buf) (hfull : s.pipe.full = false) (ch : UInt8) (f : ℕ → Proc) :
    Queue { s with pipe := s.pipe.push ch, proc := f, accepted := s.accepted ++ [ch] }
      (buf ++ [ch]) := by
  have hlt : buf.length < pipesize := by
    refine lt_of_le_of_ne h.ring.room fun hlen => ?_
    rw [h.full_iff.mpr hlen] at hfull
    cases hfull
  refine ⟨?_, ?_⟩
  · dsimp only
    rw [h.accepted, List.append_assoc]
  · dsimp only [Pipe.push]
    rw [UInt32.toNat_add]
    exact h.ring.push (by decide) hlt ch

theorem Queue.pop (h : Queue s buf) (hempty : s.pipe.empty = false) (f : ℕ → Proc) :
    ∃ rest, buf = s.pipe.front :: rest ∧ Queue { s with
      pipe := s.pipe.pop, proc := f, delivered := s.delivered ++ [s.pipe.front] } rest := by
  cases buf with
  | nil =>
    rw [h.empty_iff.mpr rfl] at hempty
    cases hempty
  | cons ch rest =>
    have hfront : s.pipe.front = ch := h.ring.front (by decide)
    refine ⟨rest, by rw [hfront], ?_, ?_⟩
    · dsimp only
      rw [h.accepted, hfront, List.append_assoc]
      rfl
    · dsimp only [Pipe.pop]
      rw [UInt32.toNat_add]
      exact h.ring.pop

theorem Local.contents {p : ℕ} {pi pi' : Pipe} {x x' : Proc} (h : Local p pi x pi' x') :
    pi'.data = pi.data ∧ pi'.nread = pi.nread ∧ pi'.nwrite = pi.nwrite := by
  cases h <;> exact ⟨rfl, rfl, rfl⟩

theorem Moved.queue (h : Moved s l t) (hs : Sane s) (hq : Queue s buf) : ∃ buf', Queue t buf' := by
  cases h with
  | stay p pi x hl hlocal =>
    obtain ⟨hdata, hnread, hnwrite⟩ := hlocal.contents
    refine ⟨buf, hq.accepted, ?_⟩
    dsimp only
    rw [hdata, hnread, hnwrite]
    exact hq.ring
  | push p base i n ch hpc =>
    have hfacts := (hs p).facts (by rw [hpc]; rfl)
    rw [hpc] at hfacts
    exact ⟨_, hq.push hfacts.2.2 ch _⟩
  | pop p i n hpc hempty =>
    obtain ⟨rest, -, hrest⟩ := hq.pop hempty (s.goto p (.readCopy (i + 1) n)).proc
    exact ⟨rest, hrest⟩
  | wake p c q k hpc hne hlocked => exact ⟨buf, hq.accepted, hq.ring⟩
  | kill q hlocked => exact ⟨buf, hq.accepted, hq.ring⟩

theorem run_queue {data : ℕ → UInt8} {ls : List Label} (h : exec step (init data) ls = some s) :
    ∃ buf, Queue s buf := by
  have hboth : Sane s ∧ ∃ buf, Queue s buf := by
    refine exec_invariant (I := fun s => Sane s ∧ ∃ buf, Queue s buf) (fun u a v hu hstep => ?_)
      ⟨init_sane data, [], rfl, .nil _ _ _⟩ h
    obtain ⟨hsane, buf, hbuf⟩ := hu
    exact ⟨(step_moved hstep).sane hsane, (step_moved hstep).queue hsane hbuf⟩
  exact hboth.2

theorem Queue.length (h : Queue s buf) : (s.pipe.nwrite - s.pipe.nread).toNat = buf.length := by
  rw [UInt32.toNat_sub, Nat.add_comm]
  exact h.ring.length (by decide)

theorem Queue.buffered (h : Queue s buf) : s.pipe.buffered = buf := by
  unfold Pipe.buffered
  rw [h.length]
  apply List.ext_getElem
  · rw [List.length_map, List.length_range]
  · intro j hj hj'
    have hlt : j < 2 ^ 32 := lt_trans (lt_of_lt_of_le hj' h.ring.room) (by decide)
    rw [List.getElem_map, List.getElem_range, UInt32.toNat_add, UInt32.toNat_ofNat_of_lt' hlt]
    exact h.ring.get (by decide) (List.getElem?_eq_getElem hj')

theorem copyout_fails {p : ℕ} (h : step s (.copyout p false) = some t) :
    t.pipe = s.pipe ∧ t.accepted = s.accepted ∧ t.delivered = s.delivered := by
  simp only [step] at h
  split at h
  · split at h
    · cases h
      exact ⟨rfl, rfl, rfl⟩
    · cases h
  · cases h

/-- In every state of every run the accepted bytes are the delivered ones followed by
the buffered ones, which fit in the buffer. A failing `copyout` loses nothing, and a read
that returns 0 has found the pipe empty and its write end closed. -/
theorem pipe_fifo (data : ℕ → UInt8) (ls : List Label) (s : State)
    (h : exec step (init data) ls = some s) :
    s.accepted = s.delivered ++ s.pipe.buffered ∧
      s.pipe.buffered.length = (s.pipe.nwrite - s.pipe.nread).toNat ∧
      (s.pipe.nwrite - s.pipe.nread).toNat ≤ pipesize ∧
      (∀ p t, step s (.copyout p false) = some t →
        t.pipe = s.pipe ∧ t.accepted = s.accepted ∧ t.delivered = s.delivered) ∧
      ∀ p n, (s.proc p).pc = .release (.read n) 0 →
        n ≤ 0 ∨ s.pipe.nread = s.pipe.nwrite ∧ s.pipe.writeopen = false := by
  obtain ⟨buf, hq⟩ := run_queue h
  have hs := run_sane h
  refine ⟨?_, ?_, ?_, fun p t => copyout_fails, fun p n hpc => ?_⟩
  · rw [hq.buffered]
    exact hq.accepted
  · rw [hq.buffered, hq.length]
  · rw [hq.length]
    exact hq.ring.room
  · have hfacts := (hs p).facts (by rw [hpc]; rfl)
    rw [hpc] at hfacts
    by_cases hn : n ≤ 0
    · exact .inl hn
    · obtain ⟨hempty, hclosed⟩ := hfacts rfl (by omega)
      exact .inr ⟨by simpa [Pipe.empty] using hempty, hclosed⟩

/-- A writer puts two bytes in and a reader takes one out. -/
def sampleRun : List Label :=
  [.call 0 (.write 2), .run 0, .run 0, .run 0, .copyin 0 (some 7), .run 0, .run 0,
    .copyin 0 (some 8), .run 0] ++ List.replicate (nproc + 2) (.run 0) ++
  [.call 1 (.read 1), .run 1, .run 1, .copyout 1 true, .run 1]

theorem pipe_fifo_sample : ∃ s, exec step (init fun _ => 0) sampleRun = some s ∧
    s.delivered = [7] ∧ s.accepted = [7] ++ s.pipe.buffered := by
  have hrun : (exec step (init fun _ => 0) sampleRun).map State.delivered = some [7] := by
    decide +kernel
  obtain ⟨s, hs, hdelivered⟩ := Option.map_eq_some_iff.mp hrun
  refine ⟨s, hs, hdelivered, ?_⟩
  rw [← hdelivered]
  exact (pipe_fifo _ _ s hs).1

end

end Xv6.Pipes
