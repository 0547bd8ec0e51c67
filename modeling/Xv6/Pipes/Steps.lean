import Xv6.Pipes.Model

/-!
# Steps on a pipe

A step changes the pipe and the process that moves, puts a byte in, takes a byte out,
wakes one other process, or kills one. The invariant says for every process which of the
two locks it holds and what it knows about the pipe while it holds the pipe's lock.
-/

namespace Xv6.Pipes

open Runs Function

/-- What a sleeper on the channel waits for has not happened. -/
def Pipe.quiet (pi : Pipe) : Chan → Prop
  | .nread => pi.empty = true ∧ pi.writeopen = true
  | .nwrite => pi.full = true ∧ pi.readopen = true

/-- The process holds the pipe's lock. -/
def Pc.critical : Pc → Bool
  | .user | .acquire _ | .kfree | .sleepMark _ _ | .sched _ _ | .asleep _ _ | .resumed _ => false
  | _ => true

/-- The process holds its own `p->lock`. -/
def Pc.locks : Pc → Bool
  | .sleepRelease _ _ | .sleepMark _ _ | .sched _ _ | .resumed _ => true
  | _ => false

/-- The channel of a process that has given up the CPU in `sleep`. -/
def Pc.waitsOn : Pc → Option Chan
  | .sched c _ | .asleep c _ => some c
  | _ => none

/-- What the holder of the pipe's lock knows about the pipe. -/
def Facts (pi : Pipe) : Pc → Prop
  | .writeLoop base i _ => base ≤ i ∧ (base < i → pi.readopen = true)
  | .writeKilled base i _ => base ≤ i ∧ pi.readopen = true
  | .writeCopy base i _ => base ≤ i ∧ pi.readopen = true ∧ pi.full = false
  | .readKilled _ => pi.quiet .nread
  | .readCopy i _ => i = 0 → ¬ pi.quiet .nread
  | .wakeup _ _ (.sleep _ _) => pi.quiet .nwrite
  | .wakeup _ _ (.ret (.read n) r) | .release (.read n) r =>
    r = 0 → 0 < n → pi.empty = true ∧ pi.writeopen = false
  | .sleepAcquire c _ | .sleepRelease c _ => pi.quiet c
  | _ => True

/-- The invariant for one process. -/
structure Sound (pi : Pipe) (p : ℕ) (x : Proc) : Prop where
  holder : x.pc.critical = true ↔ pi.lock = some p
  locked : x.locked = x.pc.locks
  slept : x.state = .sleeping → ∃ c, x.pc.waitsOn = some c ∧ x.chan = some c
  bound : x.pc ≠ .user → p < nproc
  facts : x.pc.critical = true → Facts pi x.pc

/-- Steps that leave the contents of the pipe and the other processes alone. -/
inductive Local (p : ℕ) (pi : Pipe) (x : Proc) : Pipe → Proc → Prop
  | call (call : Call) : p < nproc → x.pc = .user →
      Local p pi x pi { x with pc := .acquire call.entry }
  | acquire (e : Entry) : x.pc = .acquire e → pi.lock = none →
      Local p pi x { pi with lock := some p } { x with pc := e.start }
  | release (call : Call) (r : ℤ) : x.pc = .release call r →
      Local p pi x { pi with lock := none } { x with pc := .user }
  | writeNext (base i : ℕ) (n : ℤ) : x.pc = .writeLoop base i n → i < n → pi.readopen = true →
      Local p pi x pi { x with pc := .writeKilled base i n }
  | writeClosed (base i : ℕ) (n : ℤ) : x.pc = .writeLoop base i n → pi.readopen = false →
      Local p pi x pi { x with pc := .release (.write n) (-1) }
  | writeDone (base i : ℕ) (n : ℤ) : x.pc = .writeLoop base i n →
      Local p pi x pi { x with pc := .wakeup .nread 0 (.ret (.write n) i) }
  | writeKilled (base i : ℕ) (n : ℤ) : x.pc = .writeKilled base i n → x.killed = true →
      Local p pi x pi { x with pc := .release (.write n) (-1) }
  | writeFull (base i : ℕ) (n : ℤ) : x.pc = .writeKilled base i n → pi.full = true →
      Local p pi x pi { x with pc := .wakeup .nread 0 (.sleep i n) }
  | writeRoom (base i : ℕ) (n : ℤ) : x.pc = .writeKilled base i n → pi.full = false →
      Local p pi x pi { x with pc := .writeCopy base i n }
  | writeFail (base i : ℕ) (n : ℤ) : x.pc = .writeCopy base i n →
      Local p pi x pi { x with pc := .wakeup .nread 0 (.ret (.write n) i) }
  | readEmpty (n : ℤ) : x.pc = .readWait n → pi.quiet .nread →
      Local p pi x pi { x with pc := .readKilled n }
  | readStart (n : ℤ) : x.pc = .readWait n → ¬ pi.quiet .nread →
      Local p pi x pi { x with pc := .readCopy 0 n }
  | readKilled (n : ℤ) : x.pc = .readKilled n → x.killed = true →
      Local p pi x pi { x with pc := .release (.read n) (-1) }
  | readSleep (n : ℤ) : x.pc = .readKilled n →
      Local p pi x pi { x with pc := .sleepAcquire .nread (.read n) }
  | readEnd (i : ℕ) (n r : ℤ) : x.pc = .readCopy i n → (r = 0 → i = 0 ∧ (0 < n → pi.empty = true)) →
      Local p pi x pi { x with pc := .wakeup .nwrite 0 (.ret (.read n) r) }
  | closeWrite : x.pc = .closeFlag true →
      Local p pi x { pi with writeopen := false } { x with pc := .wakeup .nread 0 .close }
  | closeRead : x.pc = .closeFlag false →
      Local p pi x { pi with readopen := false } { x with pc := .wakeup .nwrite 0 .close }
  | closeCheck (pc : Pc) : x.pc = .closeCheck → pc = .kfree ∨ pc = .user →
      Local p pi x { pi with lock := none } { x with pc := pc }
  | kfree : x.pc = .kfree → Local p pi x { pi with freed := true } { x with pc := .user }
  | wakeSelf (c : Chan) (k : After) : x.pc = .wakeup c p k →
      Local p pi x pi { x with pc := .wakeup c (p + 1) k }
  | wakeDone (c : Chan) (q : ℕ) (k : After) : x.pc = .wakeup c q k → nproc ≤ q →
      Local p pi x pi { x with pc := k.pc }
  | sleepAcquire (c : Chan) (e : Entry) : x.pc = .sleepAcquire c e →
      Local p pi x pi { x with locked := true, pc := .sleepRelease c e }
  | sleepRelease (c : Chan) (e : Entry) : x.pc = .sleepRelease c e →
      Local p pi x { pi with lock := none } { x with pc := .sleepMark c e }
  | sleepMark (c : Chan) (e : Entry) : x.pc = .sleepMark c e →
      Local p pi x pi { x with chan := some c, state := .sleeping, pc := .sched c e }
  | sched (c : Chan) (e : Entry) : x.pc = .sched c e →
      Local p pi x pi { x with locked := false, pc := .asleep c e }
  | resume (c : Chan) (e : Entry) : x.pc = .asleep c e → x.state = .runnable →
      Local p pi x pi { x with state := .running, locked := true, pc := .resumed e }
  | resumed (e : Entry) : x.pc = .resumed e →
      Local p pi x pi { x with chan := none, locked := false, pc := .acquire e }

/-- The pipe after a byte has been put in. -/
def Pipe.push (pi : Pipe) (ch : UInt8) : Pipe :=
  { pi with
    data := update pi.data (pi.nwrite.toNat % pipesize) ch
    nwrite := pi.nwrite + 1 }

/-- The pipe after a byte has been taken out. -/
def Pipe.pop (pi : Pipe) : Pipe := { pi with nread := pi.nread + 1 }

/-- The byte at the read position. -/
def Pipe.front (pi : Pipe) : UInt8 := pi.data (pi.nread.toNat % pipesize)

/-- The process whose code the step runs. -/
def Label.mover : Label → Option ℕ
  | .call p _ | .run p | .copyin p _ | .copyout p _ => some p
  | .kkill _ => none

/-- Everything that a step can be. -/
inductive Moved (s : State) (l : Label) : State → Prop
  | stay (p : ℕ) (pi : Pipe) (x : Proc) : l.mover = some p → Local p s.pipe (s.proc p) pi x →
      Moved s l { s with pipe := pi, proc := update s.proc p x }
  | push (p base i : ℕ) (n : ℤ) (ch : UInt8) : (s.proc p).pc = .writeCopy base i n →
      Moved s l { s.goto p (.writeLoop base (i + 1) n) with
        pipe := s.pipe.push ch, accepted := s.accepted ++ [ch] }
  | pop (p i : ℕ) (n : ℤ) : (s.proc p).pc = .readCopy i n → s.pipe.empty = false →
      Moved s l { s.goto p (.readCopy (i + 1) n) with
        pipe := s.pipe.pop, delivered := s.delivered ++ [s.pipe.front] }
  | wake (p : ℕ) (c : Chan) (q : ℕ) (k : After) : (s.proc p).pc = .wakeup c q k → q ≠ p →
      (s.proc q).locked = false →
      Moved s l ((s.setProc q (Proc.wakeOn c)).goto p (.wakeup c (q + 1) k))
  | kill (q : ℕ) : (s.proc q).locked = false → Moved s l (s.setProc q Proc.kill)

section

variable {s t : State} {l : Label} {p q : ℕ} {pi pi' : Pipe} {x x' : Proc}

@[simp] theorem setProc_self (s : State) (p : ℕ) (f : Proc → Proc) :
    (s.setProc p f).proc p = f (s.proc p) := update_self _ _ _

theorem setProc_ne (s : State) (f : Proc → Proc) (h : q ≠ p) :
    (s.setProc p f).proc q = s.proc q := update_of_ne h _ _

@[simp] theorem goto_self (s : State) (p : ℕ) (pc : Pc) :
    (s.goto p pc).proc p = { s.proc p with pc := pc } := setProc_self _ _ _

theorem goto_ne (s : State) (pc : Pc) (h : q ≠ p) : (s.goto p pc).proc q = s.proc q :=
  setProc_ne _ _ h

theorem run_moved (h : s.run p = some t) : Moved s (.run p) t := by
  unfold State.run at h
  split at h
  case h_1 => cases h
  case h_2 e hpc =>
    unfold State.acquire at h
    split at h
    · rename_i hlock
      cases h
      exact .stay p _ _ rfl (.acquire e hpc hlock)
    · cases h
  case h_3 base i n hpc =>
    cases h
    unfold State.writeLoop
    split
    · rename_i hi
      split
      · rename_i hopen
        exact .stay p _ _ rfl (.writeNext base i n hpc hi hopen)
      · rename_i hopen
        exact .stay p _ _ rfl (.writeClosed base i n hpc (by simpa using hopen))
    · exact .stay p _ _ rfl (.writeDone base i n hpc)
  case h_4 base i n hpc =>
    unfold State.writeKilled at h
    split_ifs at h with hlocked hkilled hfull
    · cases h
      exact .stay p _ _ rfl (.writeKilled base i n hpc hkilled)
    · cases h
      exact .stay p _ _ rfl (.writeFull base i n hpc hfull)
    · cases h
      exact .stay p _ _ rfl (.writeRoom base i n hpc (by simpa using hfull))
  case h_5 => cases h
  case h_6 n hpc =>
    cases h
    unfold State.readWait
    split
    · rename_i hquiet
      exact .stay p _ _ rfl (.readEmpty n hpc hquiet)
    · rename_i hquiet
      exact .stay p _ _ rfl (.readStart n hpc hquiet)
  case h_7 n hpc =>
    unfold State.readKilled at h
    split_ifs at h with hlocked hkilled
    · cases h
      exact .stay p _ _ rfl (.readKilled n hpc hkilled)
    · cases h
      exact .stay p _ _ rfl (.readSleep n hpc)
  case h_8 i n hpc =>
    split at h
    · cases h
    · rename_i hcopy
      cases h
      refine .stay p _ _ rfl (.readEnd i n i hpc fun hzero => ?_)
      obtain rfl : i = 0 := by exact_mod_cast hzero
      refine ⟨rfl, fun hn => ?_⟩
      simpa [State.copying, hn] using hcopy
  case h_9 writable hpc =>
    cases h
    unfold State.closeFlag
    cases writable with
    | true => exact .stay p _ _ rfl (.closeWrite hpc)
    | false => exact .stay p _ _ rfl (.closeRead hpc)
  case h_10 hpc =>
    cases h
    refine .stay p _ _ rfl (.closeCheck _ hpc ?_)
    split
    · exact .inl rfl
    · exact .inr rfl
  case h_11 hpc =>
    cases h
    exact .stay p _ _ rfl (.kfree hpc)
  case h_12 c q k hpc =>
    unfold State.wakeup at h
    split_ifs at h with hq hself hlocked
    · cases h
      subst hself
      exact .stay q _ _ rfl (.wakeSelf c k hpc)
    · cases h
      exact .wake p c q k hpc hself (by simpa using hlocked)
    · cases h
      exact .stay p _ _ rfl (.wakeDone c q k hpc (Nat.not_lt.mp hq))
  case h_13 c e hpc =>
    split at h
    · cases h
    · cases h
      exact .stay p _ _ rfl (.sleepAcquire c e hpc)
  case h_14 c e hpc =>
    cases h
    exact .stay p _ _ rfl (.sleepRelease c e hpc)
  case h_15 c e hpc =>
    cases h
    exact .stay p _ _ rfl (.sleepMark c e hpc)
  case h_16 c e hpc =>
    cases h
    exact .stay p _ _ rfl (.sched c e hpc)
  case h_17 c e hpc =>
    split at h
    · rename_i hrun
      cases h
      exact .stay p _ _ rfl (.resume c e hpc hrun.1)
    · cases h
  case h_18 e hpc =>
    cases h
    exact .stay p _ _ rfl (.resumed e hpc)
  case h_19 call r hpc =>
    cases h
    exact .stay p _ _ rfl (.release call r hpc)

theorem step_moved (h : step s l = some t) : Moved s l t := by
  cases l with
  | call p call =>
    simp only [step] at h
    split at h
    · rename_i hcall
      cases h
      exact .stay p _ _ rfl (.call call hcall.1 hcall.2)
    · cases h
  | run p => exact run_moved h
  | copyin p ch =>
    simp only [step] at h
    split at h
    · rename_i base i n hpc
      cases h
      cases ch with
      | some ch => exact .push p base i n ch hpc
      | none => exact .stay p _ _ rfl (.writeFail base i n hpc)
    · cases h
  | copyout p ok =>
    simp only [step] at h
    split at h
    · rename_i i n hpc
      split at h
      · rename_i hcopy
        cases h
        have hfull : s.pipe.empty = false := by
          simp only [State.copying, decide_eq_true_eq] at hcopy
          simpa using hcopy.2
        cases ok with
        | true => exact .pop p i n hpc hfull
        | false =>
          refine .stay p _ _ rfl (.readEnd i n _ hpc fun hzero => ?_)
          split at hzero
          · cases hzero
          · rename_i hi
            exact absurd (by exact_mod_cast hzero) hi
      · cases h
    · cases h
  | kkill q =>
    simp only [step] at h
    split at h
    · cases h
    · rename_i hlocked
      cases h
      exact .kill q (by simpa using hlocked)

/-! ## The invariant -/

/-- A process that does not hold the lock knows nothing about the pipe. -/
theorem Sound.other (h : Sound pi q x) (hlock : pi.lock ≠ some q) (hlock' : pi'.lock ≠ some q) :
    Sound pi' q x := by
  have hpc : ¬ x.pc.critical = true := fun hc => hlock (h.holder.mp hc)
  exact ⟨⟨fun hc => absurd hc hpc, fun hl => absurd hl hlock'⟩, h.locked, h.slept, h.bound,
    fun hc => absurd hc hpc⟩

theorem Sound.freed (h : Sound pi q x) : Sound { pi with freed := true } q x :=
  ⟨h.holder, h.locked, h.slept, h.bound, h.facts⟩

/-- The pipe changes only when the process that moves holds its lock or takes it. -/
theorem Local.pipe_eq (h : Local p pi x pi' x') (hs : Sound pi p x) :
    pi' = pi ∨ pi' = { pi with freed := true } ∨
      (pi.lock = none ∨ pi.lock = some p) ∧ (pi'.lock = none ∨ pi'.lock = some p) := by
  have hown : x.pc.critical = true → pi.lock = some p := hs.holder.mp
  cases h with
  | acquire e hpc hlock => exact .inr (.inr ⟨.inl hlock, .inr rfl⟩)
  | release call r hpc => exact .inr (.inr ⟨.inr (hown (by rw [hpc]; rfl)), .inl rfl⟩)
  | closeWrite hpc =>
    have hlock := hown (by rw [hpc]; rfl)
    exact .inr (.inr ⟨.inr hlock, .inr hlock⟩)
  | closeRead hpc =>
    have hlock := hown (by rw [hpc]; rfl)
    exact .inr (.inr ⟨.inr hlock, .inr hlock⟩)
  | closeCheck pc hpc hk => exact .inr (.inr ⟨.inr (hown (by rw [hpc]; rfl)), .inl rfl⟩)
  | sleepRelease c e hpc => exact .inr (.inr ⟨.inr (hown (by rw [hpc]; rfl)), .inl rfl⟩)
  | kfree hpc => exact .inr (.inl rfl)
  | _ => exact .inl rfl

theorem Local.other {y : Proc} (h : Local p pi x pi' x') (hs : Sound pi p x) (hq : Sound pi q y)
    (hne : q ≠ p) : Sound pi' q y := by
  have hnot : ∀ {o : Option ℕ}, o = none ∨ o = some p → o ≠ some q := by
    rintro o (rfl | rfl) ho
    · cases ho
    · exact hne (Option.some.inj ho).symm
  rcases h.pipe_eq hs with rfl | rfl | ⟨hlock, hlock'⟩
  · exact hq
  · exact hq.freed
  · exact hq.other (hnot hlock) (hnot hlock')

theorem Sound.goto (hs : Sound pi p x) {old pc : Pc} (hpc : x.pc = old)
    (hcrit : pc.critical = old.critical) (hlocks : pc.locks = old.locks)
    (hwait : old.waitsOn = none) (huser : old ≠ .user) (hfacts : Facts pi pc) :
    Sound pi p { x with pc := pc } := by
  subst hpc
  refine ⟨?_, hs.locked.trans hlocks.symm, fun hsleep => ?_, fun _ => hs.bound huser,
    fun _ => hfacts⟩
  · rw [hcrit]
    exact hs.holder
  · obtain ⟨c, hc, -⟩ := hs.slept hsleep
    rw [hwait] at hc
    cases hc

theorem Sound.drop (hs : Sound pi p x) {old pc : Pc} (hpc : x.pc = old)
    (hcrit : pc.critical = false) (hlocks : pc.locks = old.locks) (hwait : old.waitsOn = none)
    (huser : old ≠ .user) : Sound { pi with lock := none } p { x with pc := pc } := by
  subst hpc
  refine ⟨?_, hs.locked.trans hlocks.symm, fun hsleep => ?_, fun _ => hs.bound huser,
    fun hc => ?_⟩
  · rw [hcrit]
    exact ⟨fun h => absurd h Bool.false_ne_true, fun h => absurd h.symm (Option.some_ne_none p)⟩
  · obtain ⟨c, hc, -⟩ := hs.slept hsleep
    rw [hwait] at hc
    cases hc
  · rw [hcrit] at hc
    cases hc

theorem entry_facts (e : Entry) : e.start.critical = true ∧ e.start.locks = false ∧
    ∀ pi, Facts pi e.start := by
  cases e with
  | write i n => exact ⟨rfl, rfl, fun pi => ⟨le_rfl, fun h => absurd h (lt_irrefl i)⟩⟩
  | read n => exact ⟨rfl, rfl, fun pi => trivial⟩
  | close writable => exact ⟨rfl, rfl, fun pi => trivial⟩

theorem facts_wakeup {c c' : Chan} {q' : ℕ} {k : After} :
    Facts pi (.wakeup c q k) ↔ Facts pi (.wakeup c' q' k) := by
  cases k with
  | ret call r => cases call <;> exact Iff.rfl
  | _ => exact Iff.rfl

theorem Local.sound (h : Local p pi x pi' x') (hs : Sound pi p x) : Sound pi' p x' := by
  have hknow : x.pc.critical = true → Facts pi x.pc := hs.facts
  have hawake : x.pc.waitsOn = none → x.state ≠ .sleeping := fun hw hsleep => by
    obtain ⟨c, hc, -⟩ := hs.slept hsleep
    rw [hw] at hc
    cases hc
  cases h with
  | call call hp hpc =>
    refine ⟨?_, ?_, fun hsleep => absurd hsleep (hawake (by rw [hpc]; rfl)), fun _ => hp,
      fun hc => by cases hc⟩
    · have := hs.holder
      rw [hpc] at this
      exact this
    · have := hs.locked
      rw [hpc] at this
      exact this
  | acquire e hpc hlock =>
    obtain ⟨hcrit, hlocks, hfacts⟩ := entry_facts e
    refine ⟨⟨fun _ => rfl, fun _ => hcrit⟩, ?_,
      fun hsleep => absurd hsleep (hawake (by rw [hpc]; rfl)),
      fun _ => hs.bound (by rw [hpc]; exact Pc.noConfusion), fun _ => hfacts _⟩
    have := hs.locked
    rw [hpc] at this
    exact this.trans hlocks.symm
  | release call r hpc => exact hs.drop hpc rfl rfl rfl Pc.noConfusion
  | writeNext base i n hpc hi hopen =>
    rw [hpc] at hknow
    exact hs.goto hpc rfl rfl rfl Pc.noConfusion ⟨(hknow rfl).1, hopen⟩
  | writeClosed base i n hpc hopen => exact hs.goto hpc rfl rfl rfl Pc.noConfusion trivial
  | writeDone base i n hpc => exact hs.goto hpc rfl rfl rfl Pc.noConfusion trivial
  | writeKilled base i n hpc hk => exact hs.goto hpc rfl rfl rfl Pc.noConfusion trivial
  | writeFull base i n hpc hfull =>
    rw [hpc] at hknow
    exact hs.goto hpc rfl rfl rfl Pc.noConfusion ⟨hfull, (hknow rfl).2⟩
  | writeRoom base i n hpc hfull =>
    rw [hpc] at hknow
    exact hs.goto hpc rfl rfl rfl Pc.noConfusion ⟨(hknow rfl).1, (hknow rfl).2, hfull⟩
  | writeFail base i n hpc => exact hs.goto hpc rfl rfl rfl Pc.noConfusion trivial
  | readEmpty n hpc hquiet => exact hs.goto hpc rfl rfl rfl Pc.noConfusion hquiet
  | readStart n hpc hquiet =>
    exact hs.goto hpc rfl rfl rfl Pc.noConfusion fun _ => hquiet
  | readKilled n hpc hk =>
    refine hs.goto hpc rfl rfl rfl Pc.noConfusion ?_
    intro hr
    cases hr
  | readSleep n hpc =>
    rw [hpc] at hknow
    exact hs.goto hpc rfl rfl rfl Pc.noConfusion (hknow rfl)
  | readEnd i n r hpc hend =>
    rw [hpc] at hknow
    refine hs.goto hpc rfl rfl rfl Pc.noConfusion fun hr hn => ?_
    obtain ⟨hi, hempty⟩ := hend hr
    have hopen := hknow rfl hi
    refine ⟨hempty hn, ?_⟩
    by_contra hne
    exact hopen ⟨hempty hn, by simpa using hne⟩
  | closeWrite hpc =>
    have hs' : Sound { pi with writeopen := false } p x := ⟨hs.holder, hs.locked, hs.slept,
      hs.bound, fun _ => by rw [hpc]; trivial⟩
    exact hs'.goto hpc rfl rfl rfl Pc.noConfusion trivial
  | closeRead hpc =>
    have hs' : Sound { pi with readopen := false } p x := ⟨hs.holder, hs.locked, hs.slept,
      hs.bound, fun _ => by rw [hpc]; trivial⟩
    exact hs'.goto hpc rfl rfl rfl Pc.noConfusion trivial
  | closeCheck pc hpc hk =>
    rcases hk with rfl | rfl
    · exact hs.drop hpc rfl rfl rfl Pc.noConfusion
    · exact hs.drop hpc rfl rfl rfl Pc.noConfusion
  | kfree hpc => exact hs.freed.goto hpc rfl rfl rfl Pc.noConfusion trivial
  | wakeSelf c k hpc =>
    rw [hpc] at hknow
    exact hs.goto hpc rfl rfl rfl Pc.noConfusion (facts_wakeup.mp (hknow rfl))
  | wakeDone c q k hpc hq =>
    rw [hpc] at hknow
    have hfacts := hknow rfl
    cases k with
    | sleep i n => exact hs.goto hpc rfl rfl rfl Pc.noConfusion hfacts
    | ret call r =>
      refine hs.goto hpc rfl rfl rfl Pc.noConfusion ?_
      cases call with
      | read n => exact hfacts
      | write n => trivial
      | close writable => trivial
    | close => exact hs.goto hpc rfl rfl rfl Pc.noConfusion trivial
  | sleepAcquire c e hpc =>
    rw [hpc] at hknow
    refine ⟨?_, rfl, fun hsleep => absurd hsleep (hawake (by rw [hpc]; rfl)),
      fun _ => hs.bound (by rw [hpc]; exact Pc.noConfusion), fun _ => hknow rfl⟩
    have := hs.holder
    rw [hpc] at this
    exact this
  | sleepRelease c e hpc => exact hs.drop hpc rfl rfl rfl Pc.noConfusion
  | sleepMark c e hpc =>
    refine ⟨?_, ?_, fun _ => ⟨c, rfl, rfl⟩,
      fun _ => hs.bound (by rw [hpc]; exact Pc.noConfusion), fun hc => by cases hc⟩
    · have := hs.holder
      rw [hpc] at this
      exact this
    · have := hs.locked
      rw [hpc] at this
      exact this
  | sched c e hpc =>
    refine ⟨?_, rfl, fun hsleep => ?_, fun _ => hs.bound (by rw [hpc]; exact Pc.noConfusion),
      fun hc => by cases hc⟩
    · have := hs.holder
      rw [hpc] at this
      exact this
    · have := hs.slept hsleep
      rw [hpc] at this
      exact this
  | resume c e hpc hrun =>
    refine ⟨?_, rfl, fun hsleep => ProcState.noConfusion hsleep,
      fun _ => hs.bound (by rw [hpc]; exact Pc.noConfusion), fun hc => by cases hc⟩
    have := hs.holder
    rw [hpc] at this
    exact this
  | resumed e hpc =>
    refine ⟨?_, rfl, fun hsleep => absurd hsleep (hawake (by rw [hpc]; rfl)),
      fun _ => hs.bound (by rw [hpc]; exact Pc.noConfusion), fun hc => by cases hc⟩
    have := hs.holder
    rw [hpc] at this
    exact this

theorem wake_pc (x : Proc) : x.wake.pc = x.pc ∧ x.wake.locked = x.locked ∧
    x.wake.chan = x.chan ∧ x.wake.state ≠ .sleeping := by
  unfold Proc.wake
  split
  · exact ⟨rfl, rfl, rfl, ProcState.noConfusion⟩
  · rename_i hstate
    exact ⟨rfl, rfl, rfl, hstate⟩

theorem Sound.wake (h : Sound pi q x) : Sound pi q x.wake := by
  obtain ⟨hpc, hlocked, -, hstate⟩ := wake_pc x
  refine ⟨by rw [hpc]; exact h.holder, by rw [hpc, hlocked]; exact h.locked,
    fun hsleep => absurd hsleep hstate, by rw [hpc]; exact h.bound, by rw [hpc]; exact h.facts⟩

theorem Sound.wakeOn (h : Sound pi q x) (c : Chan) : Sound pi q (x.wakeOn c) := by
  unfold Proc.wakeOn
  split
  · exact h.wake
  · exact h

theorem Sound.kill (h : Sound pi q x) : Sound pi q x.kill :=
  ⟨h.wake.holder, h.wake.locked, h.wake.slept, h.wake.bound, h.wake.facts⟩

/-- The invariant of all processes. -/
def Sane (s : State) : Prop := ∀ p, Sound s.pipe p (s.proc p)

theorem Sane.holder_ne (h : Sane s) (hp : (s.proc p).pc.critical = true) (hne : q ≠ p) :
    s.pipe.lock ≠ some q := by
  rw [(h p).holder.mp hp]
  exact fun heq => hne (Option.some.inj heq).symm

theorem Sane.held (h : Sane s) {old pc : Pc} (hpc : (s.proc p).pc = old)
    (hold : old.critical = true) (hcrit : pc.critical = true) (hlocks : pc.locks = old.locks)
    (hwait : old.waitsOn = none) (huser : old ≠ .user) (hlock : pi.lock = s.pipe.lock)
    (hfacts : Facts pi pc) (q : ℕ) : Sound pi q ((s.goto p pc).proc q) := by
  have hown := hpc ▸ hold
  by_cases hq : q = p
  · subst hq
    have hs := h q
    rw [goto_self]
    refine ⟨⟨fun _ => hlock ▸ hs.holder.mp hown, fun _ => hcrit⟩, ?_, fun hsleep => ?_,
      fun _ => hs.bound (hpc ▸ huser), fun _ => hfacts⟩
    · exact hs.locked.trans (hpc ▸ hlocks.symm)
    · obtain ⟨c, hc, -⟩ := hs.slept hsleep
      rw [hpc, hwait] at hc
      cases hc
  · rw [goto_ne _ _ hq]
    exact (h q).other (h.holder_ne hown hq) (hlock ▸ h.holder_ne hown hq)

theorem Moved.sane (h : Moved s l t) (hs : Sane s) : Sane t := by
  cases h with
  | stay p pi x hl hlocal =>
    intro q
    by_cases hq : q = p
    · subst hq
      dsimp only
      rw [update_self]
      exact hlocal.sound (hs q)
    · dsimp only
      rw [update_of_ne hq]
      exact hlocal.other (hs p) (hs q) hq
  | push p base i n ch hpc =>
    have hfacts := (hs p).facts (by rw [hpc]; rfl)
    rw [hpc] at hfacts
    exact hs.held hpc rfl rfl rfl rfl Pc.noConfusion rfl
      ⟨Nat.le_succ_of_le hfacts.1, fun _ => hfacts.2.1⟩
  | pop p i n hpc hempty =>
    exact hs.held hpc rfl rfl rfl rfl Pc.noConfusion rfl
      fun hi => absurd hi (Nat.succ_ne_zero i)
  | wake p c q k hpc hne hlocked =>
    have hwoken : Sane (s.setProc q (Proc.wakeOn c)) := by
      intro r
      by_cases hr : r = q
      · subst hr
        rw [setProc_self]
        exact (hs r).wakeOn c
      · rw [setProc_ne _ _ hr]
        exact hs r
    have hpc' : ((s.setProc q (Proc.wakeOn c)).proc p).pc = .wakeup c q k := by
      rw [setProc_ne _ _ (Ne.symm hne)]
      exact hpc
    have hfacts := (hwoken p).facts (by rw [hpc']; rfl)
    rw [hpc'] at hfacts
    exact hwoken.held hpc' rfl rfl rfl rfl Pc.noConfusion rfl (facts_wakeup.mp hfacts)
  | kill q hlocked =>
    intro r
    by_cases hr : r = q
    · subst hr
      rw [setProc_self]
      exact (hs r).kill
    · rw [setProc_ne _ _ hr]
      exact hs r

theorem init_sane (data : ℕ → UInt8) : Sane (init data) := fun p =>
  ⟨⟨fun h => absurd h Bool.false_ne_true, fun h => absurd h.symm (Option.some_ne_none p)⟩, rfl,
    fun h => ProcState.noConfusion h, fun h => absurd rfl h,
    fun h => absurd h Bool.false_ne_true⟩

theorem run_sane {data : ℕ → UInt8} {ls : List Label} (h : exec step (init data) ls = some s) :
    Sane s :=
  exec_invariant (fun _ _ _ hs hstep => (step_moved hstep).sane hs) (init_sane data) h

end

end Xv6.Pipes
