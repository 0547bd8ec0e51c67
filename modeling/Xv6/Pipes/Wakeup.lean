import Xv6.Pipes.Steps

/-!
# Sleepers on a pipe

While what a sleeper waits for has happened, the holder of the pipe's lock is still
ahead of a `wakeup` that reaches the sleeper. A process that has decided to sleep holds
the pipe's lock or its own `p->lock`, so that no `wakeup` passes it before it sleeps.
The exception is a writer that finds itself killed between two bytes: it gives the lock
back without a `wakeup`, and the readers sleep on with bytes in the pipe.
-/

namespace Xv6.Pipes

open Runs Function

/-- The process sleeps on the channel, or has decided to. -/
def Proc.dozing (x : Proc) (c : Chan) : Prop :=
  match x.pc with
  | .sleepAcquire c' _ | .sleepRelease c' _ | .sleepMark c' _ => c' = c
  | .sched c' _ | .asleep c' _ => c' = c ∧ x.state = .sleeping
  | _ => False

/-- The holder of the lock is ahead of a round of `wakeup` for process `q`. -/
def Owes (c : Chan) (q : ℕ) : Pc → Prop
  | .writeLoop base i _ | .writeKilled base i _ | .writeCopy base i _ => c = .nread ∧ base < i
  | .readCopy _ _ => c = .nwrite
  | .wakeup c' q' _ => c' = c ∧ q' ≤ q
  | _ => False

def Alert (s : State) : Prop :=
  ∀ q c, (s.proc q).dozing c →
    s.pipe.quiet c ∨ ∃ p, s.pipe.lock = some p ∧ Owes c q (s.proc p).pc

/-- The process is not a writer that finds itself killed after it has put in a byte for
which it has not called `wakeup`. -/
def Proc.prompt (x : Proc) : Bool :=
  match x.pc with
  | .writeKilled base i _ => !x.killed || i == base
  | _ => true

/-- The process that moves is prompt. -/
def Prompt (s : State) (l : Label) : Prop := ∀ p ∈ l.mover, (s.proc p).prompt = true

instance (s : State) (l : Label) : Decidable (Prompt s l) :=
  inferInstanceAs (Decidable (∀ p ∈ l.mover, (s.proc p).prompt = true))

section

variable {s t : State} {l : Label} {p q : ℕ} {pi pi' : Pipe} {x x' : Proc} {c : Chan}

/-- A process that dozes after its step has found nothing to wait for any more, or dozed
before. -/
theorem Local.dozing (h : Local p pi x pi' x') (hs : Sound pi p x) (hd : x'.dozing c) :
    pi'.quiet c ∨ x.dozing c ∧ pi' = pi ∧ x.pc.critical = false := by
  have hs' := h.sound hs
  cases h with
  | readSleep n hpc =>
    obtain rfl : Chan.nread = c := hd
    exact .inl (hs'.facts rfl)
  | wakeDone c' q k hpc hq =>
    cases k with
    | sleep i n =>
      obtain rfl : Chan.nwrite = c := hd
      exact .inl (hs'.facts rfl)
    | ret call r => exact hd.elim
    | close => exact hd.elim
  | sleepAcquire c' e hpc =>
    obtain rfl : c' = c := hd
    exact .inl (hs'.facts rfl)
  | sleepRelease c' e hpc =>
    obtain rfl : c' = c := hd
    have hfacts := hs.facts (by rw [hpc]; rfl)
    rw [hpc] at hfacts
    exact .inl hfacts
  | sleepMark c' e hpc =>
    obtain rfl : c' = c := hd.1
    refine .inr ⟨?_, rfl, by rw [hpc]; rfl⟩
    unfold Proc.dozing
    rw [hpc]
  | sched c' e hpc =>
    refine .inr ⟨?_, rfl, by rw [hpc]; rfl⟩
    unfold Proc.dozing
    rw [hpc]
    exact hd
  | acquire e hpc hlock => cases e <;> exact hd.elim
  | closeCheck pc hpc hk => rcases hk with rfl | rfl <;> exact hd.elim
  | _ => exact hd.elim

theorem Local.quiet (h : Local p pi x pi' x') (hs : Sound pi p x) (hq : pi.quiet c) :
    pi'.quiet c ∨ pi'.lock = some p ∧ ∀ q, Owes c q x'.pc := by
  have hown : x.pc.critical = true → pi.lock = some p := hs.holder.mp
  cases h with
  | closeWrite hpc =>
    cases c with
    | nread => exact .inr ⟨hown (by rw [hpc]; rfl), fun q => ⟨rfl, Nat.zero_le q⟩⟩
    | nwrite => exact .inl hq
  | closeRead hpc =>
    cases c with
    | nread => exact .inl hq
    | nwrite => exact .inr ⟨hown (by rw [hpc]; rfl), fun q => ⟨rfl, Nat.zero_le q⟩⟩
  | _ =>
    left
    cases c <;> exact hq

theorem Local.owes (h : Local p pi x pi' x') (hs : Sound pi p x)
    (hprompt : x.prompt = true) (hne : q ≠ p) (hq : q < nproc)
    (ho : Owes c q x.pc) : pi'.lock = pi.lock ∧ Owes c q x'.pc := by
  have hknow := hs.facts
  cases h with
  | writeNext base i n hpc hi hopen =>
    rw [hpc] at ho
    exact ⟨rfl, ho⟩
  | writeClosed base i n hpc hopen =>
    rw [hpc] at ho hknow
    rw [(hknow rfl).2 ho.2] at hopen
    cases hopen
  | writeDone base i n hpc =>
    rw [hpc] at ho
    exact ⟨rfl, ho.1.symm, Nat.zero_le q⟩
  | writeKilled base i n hpc hk =>
    rw [hpc] at ho
    unfold Proc.prompt at hprompt
    rw [hpc] at hprompt
    have hi : i = base := by simpa [hk] using hprompt
    exact absurd hi (Nat.ne_of_gt ho.2)
  | writeFull base i n hpc hfull =>
    rw [hpc] at ho
    exact ⟨rfl, ho.1.symm, Nat.zero_le q⟩
  | writeRoom base i n hpc hfull =>
    rw [hpc] at ho
    exact ⟨rfl, ho⟩
  | writeFail base i n hpc =>
    rw [hpc] at ho
    exact ⟨rfl, ho.1.symm, Nat.zero_le q⟩
  | readEnd i n r hpc hend =>
    rw [hpc] at ho
    exact ⟨rfl, Eq.symm ho, Nat.zero_le q⟩
  | wakeSelf c' k hpc =>
    rw [hpc] at ho
    exact ⟨rfl, ho.1, lt_of_le_of_ne ho.2 (Ne.symm hne)⟩
  | wakeDone c' q' k hpc hq' =>
    rw [hpc] at ho
    exact absurd (lt_of_lt_of_le hq hq') (Nat.not_lt.mpr ho.2)
  | _ => simp_all [Owes]

theorem dozing_bound (h : Sound pi q x) (hd : x.dozing c) : q < nproc := by
  refine h.bound fun hpc => ?_
  unfold Proc.dozing at hd
  rw [hpc] at hd
  exact hd

theorem Alert.stay (ha : Alert s) (hs : Sane s) (hlocal : Local p s.pipe (s.proc p) pi x)
    (hprompt : (s.proc p).prompt = true) : Alert { s with pipe := pi, proc := update s.proc p x } := by
  -- a lock held by another process is not affected by the step
  have hkeep : ∀ q c, (∃ h, h ≠ p ∧ s.pipe.lock = some h ∧ Owes c q (s.proc h).pc) →
      ∃ h, pi.lock = some h ∧ Owes c q (update s.proc p x h).pc := by
    rintro q c ⟨h, hne, hlock, howes⟩
    refine ⟨h, ?_, by rw [update_of_ne hne]; exact howes⟩
    rcases hlocal.pipe_eq (hs p) with rfl | rfl | ⟨hold, -⟩
    · exact hlock
    · exact hlock
    · rw [hlock] at hold
      rcases hold with hold | hold
      · cases hold
      · exact absurd (Option.some.inj hold) hne
  intro q c hd
  dsimp only at hd ⊢
  by_cases hq : q = p
  · subst hq
    rw [update_self] at hd
    rcases hlocal.dozing (hs q) hd with hquiet | ⟨hold, rfl, hout⟩
    · exact .inl hquiet
    · rcases ha q c hold with hquiet | ⟨h, hlock, howes⟩
      · exact .inl hquiet
      · refine .inr (hkeep q c ⟨h, fun heq => ?_, hlock, howes⟩)
        rw [heq] at hlock
        rw [(hs q).holder.mpr hlock] at hout
        cases hout
  · rw [update_of_ne hq] at hd
    have hbound := dozing_bound (hs q) hd
    rcases ha q c hd with hquiet | ⟨h, hlock, howes⟩
    · rcases hlocal.quiet (hs p) hquiet with hquiet | ⟨hlock, howes⟩
      · exact .inl hquiet
      · exact .inr ⟨p, hlock, by rw [update_self]; exact howes q⟩
    · by_cases hh : h = p
      · subst hh
        obtain ⟨hlock', howes'⟩ := hlocal.owes (hs h) hprompt hq hbound howes
        exact .inr ⟨h, hlock'.trans hlock, by rw [update_self]; exact howes'⟩
      · exact .inr (hkeep q c ⟨h, hh, hlock, howes⟩)

/-- The holder of the lock has changed the pipe and now owes a `wakeup` to all who were
owed one or waited quietly. -/
theorem Alert.held (ha : Alert s) (hs : Sane s) {old : Pc} (pc : Pc)
    (hpc : (s.proc p).pc = old) (hold : old.critical = true) {u : State} (hproc : u.proc = (s.goto p pc).proc)
    (hlock : u.pipe.lock = s.pipe.lock)
    (hnot : ∀ c, ¬ ({ s.proc p with pc := pc } : Proc).dozing c)
    (howes : ∀ q c, q ≠ p → s.pipe.quiet c ∨ Owes c q old → Owes c q pc) : Alert u := by
  intro q c hd
  rw [hproc] at hd ⊢
  have hown := (hs p).holder.mp (by rw [hpc]; exact hold)
  by_cases hq : q = p
  · subst hq
    rw [goto_self] at hd
    exact absurd hd (hnot c)
  · rw [goto_ne _ _ hq] at hd
    refine .inr ⟨p, hlock.trans hown, ?_⟩
    rw [goto_self]
    refine howes q c hq ?_
    rcases ha q c hd with hquiet | ⟨h, hlock', ho⟩
    · exact .inl hquiet
    · rw [hown] at hlock'
      cases hlock'
      rw [hpc] at ho
      exact .inr ho

/-- A process that is woken on its channel and not in between does not doze any more. -/
theorem dozing_wakeOn {c' : Chan} (hs : Sound pi q x) (hlocked : x.locked = false)
    (hcrit : x.pc.critical = false) (hd : (x.wakeOn c').dozing c) : c ≠ c' ∧ x.dozing c := by
  have hlocks : x.pc.locks = false := hs.locked.symm.trans hlocked
  unfold Proc.wakeOn at hd
  split at hd
  · -- woken: the state is not `SLEEPING`, and the other places hold one of the locks
    obtain ⟨hpc, -, -, hstate⟩ := wake_pc x
    unfold Proc.dozing at hd
    rw [hpc] at hd
    cases hx : x.pc <;> simp_all [Pc.locks, Pc.critical]
  · rename_i hchan
    refine ⟨?_, hd⟩
    rintro rfl
    unfold Proc.dozing at hd
    cases hx : x.pc with
    | asleep c' e =>
      rw [hx] at hd
      obtain ⟨rfl, hsleep⟩ := hd
      obtain ⟨c', hwait, hc⟩ := hs.slept hsleep
      rw [hx] at hwait
      cases hwait
      exact hchan hc
    | _ => simp_all [Pc.locks, Pc.critical]

theorem Alert.wake (ha : Alert s) (hs : Sane s) {k : After}
    (hpc : (s.proc p).pc = .wakeup c q k) (hne : q ≠ p) (hlocked : (s.proc q).locked = false) :
    Alert ((s.setProc q (Proc.wakeOn c)).goto p (.wakeup c (q + 1) k)) := by
  have hown := (hs p).holder.mp (by rw [hpc]; rfl)
  have hpcs : ∀ {d r}, (s.proc r).dozing d → s.pipe.quiet d ∨ Owes d r (.wakeup c q k) := by
    intro d r hd
    rcases ha r d hd with hquiet | ⟨h, hlock, ho⟩
    · exact .inl hquiet
    · rw [hown] at hlock
      cases hlock
      rw [hpc] at ho
      exact .inr ho
  intro r d hd
  by_cases hr : r = p
  · subst hr
    rw [goto_self] at hd
    exact hd.elim
  rw [goto_ne _ _ hr] at hd
  rw [show ((s.setProc q (Proc.wakeOn c)).goto p (.wakeup c (q + 1) k)).pipe = s.pipe from rfl]
  by_cases hrq : r = q
  · subst hrq
    rw [setProc_self] at hd
    have hcrit : (s.proc r).pc.critical = false := by
      by_contra hc
      exact hs.holder_ne (by rw [hpc]; rfl) hr ((hs r).holder.mp (by simpa using hc))
    obtain ⟨hdc, hd⟩ := dozing_wakeOn (hs r) hlocked hcrit hd
    rcases hpcs hd with hquiet | ho
    · exact .inl hquiet
    · exact absurd ho.1.symm hdc
  · rw [setProc_ne _ _ hrq] at hd
    rcases hpcs hd with hquiet | ho
    · exact .inl hquiet
    · refine .inr ⟨p, hown, ?_⟩
      rw [goto_self]
      exact ⟨ho.1, lt_of_le_of_ne ho.2 (Ne.symm hrq)⟩

theorem Alert.kill (ha : Alert s) : Alert (s.setProc q Proc.kill) := by
  have hpc : ∀ r, ((s.setProc q Proc.kill).proc r).pc = (s.proc r).pc := by
    intro r
    by_cases hr : r = q
    · subst hr
      rw [setProc_self]
      exact (wake_pc _).1
    · rw [setProc_ne _ _ hr]
  intro r d hd
  have hold : (s.proc r).dozing d := by
    by_cases hr : r = q
    · subst hr
      rw [setProc_self] at hd
      obtain ⟨hpc', -, -, hstate⟩ := wake_pc (s.proc r)
      unfold Proc.dozing Proc.kill at *
      rw [hpc'] at hd
      cases hx : (s.proc r).pc <;> simp_all
    · rw [setProc_ne _ _ hr] at hd
      exact hd
  rcases ha r d hold with hquiet | ⟨h, hlock, ho⟩
  · exact .inl hquiet
  · exact .inr ⟨h, hlock, by rw [hpc]; exact ho⟩

theorem Moved.alert (h : Moved s l t) (hs : Sane s) (ha : Alert s) (hl : Prompt s l) : Alert t := by
  cases h with
  | stay p pi x hmover hlocal => exact ha.stay hs hlocal (hl p hmover)
  | push p base i n ch hpc =>
    have hfacts := (hs p).facts (by rw [hpc]; rfl)
    rw [hpc] at hfacts
    refine ha.held hs (.writeLoop base (i + 1) n) hpc rfl rfl rfl (fun c hd => hd)
      fun q c _ hold => ?_
    have hc : c = .nread := by
      rcases hold with hquiet | ho
      · cases c with
        | nread => rfl
        | nwrite => exact absurd (hfacts.2.2.symm.trans hquiet.1) Bool.false_ne_true
      · exact ho.1
    exact ⟨hc, Nat.lt_succ_of_le hfacts.1⟩
  | pop p i n hpc hempty =>
    refine ha.held hs (.readCopy (i + 1) n) hpc rfl rfl rfl (fun c hd => hd)
      fun q c _ hold => ?_
    rcases hold with hquiet | ho
    · cases c with
      | nread => exact absurd (hempty.symm.trans hquiet.1) Bool.false_ne_true
      | nwrite => rfl
    · exact ho
  | wake p c q k hpc hne hlocked => exact ha.wake hs hpc hne hlocked
  | kill q hlocked => exact ha.kill

/-- In every run in which no writer finds itself killed with bytes it has not announced:
while the pipe's lock is free, no process sleeps on `nread` unless the pipe is empty with
its write end open, and none on `nwrite` unless it is full with its read end open. -/
theorem no_sleeper_stranded (data : ℕ → UInt8) (ls : List Label) (s : State)
    (h : exec step (init data) ls = some s) (hprompt : Along step Prompt (init data) ls)
    (hfree : s.pipe.lock = none) (p : ℕ) (hsleep : (s.proc p).state = .sleeping) :
    ((s.proc p).chan = some .nread → s.pipe.nread = s.pipe.nwrite ∧ s.pipe.writeopen = true) ∧
      ((s.proc p).chan = some .nwrite →
        s.pipe.nwrite = s.pipe.nread + UInt32.ofNat pipesize ∧ s.pipe.readopen = true) := by
  have hboth : Sane s ∧ Alert s := by
    refine exec_along (I := fun _ s => Sane s ∧ Alert s) ⟨init_sane data, fun q c hd => hd.elim⟩
      (fun _ u l v _ hu hl hstep => ?_) ls hprompt h
    exact ⟨(step_moved hstep).sane hu.1, (step_moved hstep).alert hu.1 hu.2 hl⟩
  have hquiet : ∀ c, (s.proc p).chan = some c → s.pipe.quiet c := by
    intro c hc
    obtain ⟨c', hwait, hchan⟩ := (hboth.1 p).slept hsleep
    obtain rfl : c' = c := Option.some.inj (hchan.symm.trans hc)
    have hd : (s.proc p).dozing c' := by
      unfold Proc.dozing
      cases hpc : (s.proc p).pc <;> simp_all [Pc.waitsOn]
    rcases hboth.2 p c' hd with hquiet | ⟨h, hlock, -⟩
    · exact hquiet
    · rw [hfree] at hlock
      cases hlock
  refine ⟨fun hc => ?_, fun hc => ?_⟩
  · obtain ⟨hempty, hopen⟩ := hquiet _ hc
    exact ⟨by simpa [Pipe.empty] using hempty, hopen⟩
  · obtain ⟨hfull, hopen⟩ := hquiet _ hc
    exact ⟨by simpa [Pipe.full] using hfull, hopen⟩

/-- Process 0 goes to sleep in `piperead`. -/
def readerSleeps : List Label := .call 0 (.read 1) :: List.replicate 7 (.run 0)

theorem no_sleeper_stranded_reader : ∃ s, exec step (init fun _ => 0) readerSleeps = some s ∧
    (s.proc 0).state = .sleeping ∧ s.pipe.nread = s.pipe.nwrite ∧ s.pipe.writeopen = true := by
  have hrun : (exec step (init fun _ => 0) readerSleeps).map (fun s =>
      (s.pipe.lock, (s.proc 0).state, (s.proc 0).chan)) =
        some (none, .sleeping, some .nread) := by
    decide +kernel
  obtain ⟨s, hs, hfacts⟩ := Option.map_eq_some_iff.mp hrun
  simp only [Prod.mk.injEq] at hfacts
  obtain ⟨hlock, hsleep, hchan⟩ := hfacts
  refine ⟨s, hs, hsleep, (no_sleeper_stranded _ _ s hs ?_ hlock 0 hsleep).1 hchan⟩
  decide +kernel

/-- Process 1 is killed after it has put the first of two bytes in, while process 0
waits for bytes. -/
def killedWriter : List Label :=
  readerSleeps ++ [.call 1 (.write 2), .run 1, .run 1, .run 1, .copyin 1 (some 7), .kkill 1,
    .run 1, .run 1, .run 1]

/-- The lock is free, there is a byte in the pipe, and the reader sleeps. -/
theorem reader_stranded : (exec step (init fun _ => 0) killedWriter).map (fun s =>
    (s.pipe.lock, (s.proc 0).state, (s.proc 0).chan, s.pipe.nread, s.pipe.nwrite)) =
      some (none, .sleeping, some .nread, 0, 1) := by
  decide +kernel

end

end Xv6.Pipes
