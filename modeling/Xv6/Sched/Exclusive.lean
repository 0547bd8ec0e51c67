import Xv6.Sched.Steps

/-!
# Scheduling exclusivity and priority

A process runs on at most one CPU, a slot is freed only when no CPU uses its
kernel stack, and a scan of the table ends with the lock of the process it
selected and no other process lock. A scan that runs alone selects a runnable
process of maximum priority, the first one among equals.
-/

namespace Xv6.Sched

open LockCode Runs Function

variable {C : Type}

/-! ## A scan that runs alone -/

/-- `best` is what a scan of the slots below `i` should select. -/
def BestBelow (proc : ℕ → Proc) (i : ℕ) : Option ℕ → Prop
  | none => ∀ j < i, (proc j).state ≠ .runnable
  | some b => b < i ∧ (proc b).state = .runnable ∧ ∀ j < i, (proc j).state = .runnable →
      (proc j).priority ≤ (proc b).priority ∧
        ((proc j).priority = (proc b).priority → b ≤ j)

theorem bestBelow_skip {proc : ℕ → Proc} {i : ℕ} {best : Option ℕ} (h : BestBelow proc i best)
    (hi : (proc i).state ≠ .runnable) : BestBelow proc (i + 1) best := by
  cases best with
  | none =>
    intro j hj
    rcases Nat.lt_succ_iff_lt_or_eq.mp hj with hlt | rfl
    · exact h j hlt
    · exact hi
  | some b =>
    refine ⟨Nat.lt_succ_of_lt h.1, h.2.1, fun j hj hr => ?_⟩
    rcases Nat.lt_succ_iff_lt_or_eq.mp hj with hlt | rfl
    · exact h.2.2 j hlt hr
    · exact absurd hr hi

theorem bestBelow_first {proc : ℕ → Proc} {i : ℕ} (h : BestBelow proc i none)
    (hi : (proc i).state = .runnable) : BestBelow proc (i + 1) (some i) := by
  refine ⟨Nat.lt_succ_self i, hi, fun j hj hr => ?_⟩
  rcases Nat.lt_succ_iff_lt_or_eq.mp hj with hlt | rfl
  · exact absurd hr (h j hlt)
  · exact ⟨le_rfl, fun _ => le_rfl⟩

theorem bestBelow_better {proc : ℕ → Proc} {i b : ℕ} (h : BestBelow proc i (some b))
    (hi : (proc i).state = .runnable) (hlt : (proc b).priority < (proc i).priority) :
    BestBelow proc (i + 1) (some i) := by
  refine ⟨Nat.lt_succ_self i, hi, fun j hj hr => ?_⟩
  rcases Nat.lt_succ_iff_lt_or_eq.mp hj with hji | rfl
  · have hle := (h.2.2 j hji hr).1
    exact ⟨by omega, fun he => by omega⟩
  · exact ⟨le_rfl, fun _ => le_rfl⟩

theorem bestBelow_keep {proc : ℕ → Proc} {i b : ℕ} (h : BestBelow proc i (some b))
    (hge : (proc i).priority ≤ (proc b).priority) : BestBelow proc (i + 1) (some b) := by
  refine ⟨Nat.lt_succ_of_lt h.1, h.2.1, fun j hj hr => ?_⟩
  rcases Nat.lt_succ_iff_lt_or_eq.mp hj with hji | rfl
  · exact h.2.2 j hji hr
  · exact ⟨hge, fun _ => h.1.le⟩

variable [DecidableEq C]

/-- Only CPU `c` steps, and takes no interrupt. -/
def Alone (c : C) (l : Label C) : Prop :=
  l.cpu = c ∧ l.choice ≠ .timer ∧ ∀ n chan, l.choice ≠ .device n chan

theorem step_alone {s : State C} {c : C} {l : Label C} (h : Alone c l) :
    step s l = s.command c l.choice := by
  obtain ⟨rfl, ht, hd⟩ := h
  unfold step
  cases hch : l.choice <;> simp_all

/-- The scheduler of `c` runs the code `k` under the locks `hold`, on the
process table of `s0`. -/
structure Scanning (s0 : State C) (c : C) (k : Code) (hold : Lock → Option C) (s : State C) :
    Prop where
  proc : s.proc = s0.proc
  onProc : (s.cpu c).onProc = false
  sched : (s.cpu c).sched = k
  holder : s.holder = hold

section

variable {s0 s : State C} {c : C} {k : Code} {hold : Lock → Option C}

omit [DecidableEq C] in
theorem Scanning.codeOf (h : Scanning s0 c k hold s) : s.codeOf c none = k := h.sched

omit [DecidableEq C] in
theorem Scanning.thread (h : Scanning s0 c k hold s) : s.thread c = none := by
  simp [State.thread, h.onProc]

theorem Scanning.acquire {lk : Lock} (h : Scanning s0 c (.acquire lk :: k) hold s)
    (hfree : hold lk = none) : ∃ s', (∀ l, Alone c l → step s l = some s') ∧
      Scanning s0 c k (update hold lk (some c)) s' := by
  refine ⟨(s.acquire c lk).setCode c k none, fun l hl => ?_, ?_⟩
  · simp [step_alone hl, State.command, h.codeOf, h.thread, h.holder, hfree]
  · constructor <;> simp [State.acquire, State.setCode, State.setCpu, h.proc, h.onProc, h.holder]

theorem Scanning.release {lk : Lock} (h : Scanning s0 c (.release lk :: k) hold s)
    (hown : hold lk = some c) : ∃ s', (∀ l, Alone c l → step s l = some s') ∧
      Scanning s0 c k (update hold lk none) s' := by
  refine ⟨(s.release c lk).setCode c k none, fun l hl => ?_, ?_⟩
  · simp [step_alone hl, State.command, h.codeOf, h.thread, h.holder, hown]
  · constructor <;> simp [State.release, State.setCode, State.setCpu, h.proc, h.onProc, h.holder]

theorem Scanning.act {a : Act} (h : Scanning s0 c (.act a :: k) hold s) (push : Code)
    (hact : ∀ ch, s.act c ch a = some (s, push)) : ∃ s', (∀ l, Alone c l → step s l = some s') ∧
      Scanning s0 c (push ++ k) hold s' := by
  refine ⟨s.setCode c (push ++ k) none, fun l hl => ?_, ?_⟩
  · simp [step_alone hl, State.command, h.codeOf, h.thread, hact]
  · constructor <;> simp [State.setCode, State.setCpu, h.proc, h.onProc, h.holder]

end

/-- The locks during the scan that started in `s0`, between two slots. -/
def scanLocks (s0 : State C) (c : C) (best : Option ℕ) (l : Lock) : Option C :=
  if l ∈ bestLock best then some c else s0.holder l

theorem scan_next {s0 s : State C} {c : C} {k : Code} {i : ℕ} {best : Option ℕ}
    (hfree : ∀ j < nproc, s0.holder (.proc j) = none) (hi : i < nproc)
    (h : Scanning s0 c (.act (.schedScan i best) :: k) (scanLocks s0 c best) s)
    (hbest : BestBelow s0.proc i best) :
    ∃ n best' s', Forced step (Alone c) n s s' ∧ BestBelow s0.proc (i + 1) best' ∧
      Scanning s0 c (.act (.schedScan (i + 1) best') :: k) (scanLocks s0 c best') s' := by
  have hnot : Lock.proc i ∉ bestLock best := by
    cases best with
    | none => simp
    | some b => have := hbest.1; simp; omega
  obtain ⟨s1, hs1, h1⟩ := h.act [.acquire (.proc i), .act (.schedLook i best)]
    fun ch => by simp [State.act, hi]
  obtain ⟨s2, hs2, h2⟩ := Scanning.acquire h1 (by simp [scanLocks, hnot, hfree i hi])
  have hgo : Forced step (Alone c) 2 s s2 := (Forced.refl s2).cons hs2 |>.cons hs1
  -- giving the lock of slot `i` back restores the locks of the best so far
  have hback : update (update (scanLocks s0 c best) (.proc i) (some c))
      (.proc i) none = scanLocks s0 c best := by
    funext l
    by_cases hl : l = .proc i
    · subst hl; simp [scanLocks, hnot, hfree i hi]
    · simp [hl]
  by_cases hr : (s0.proc i).state = .runnable
  · cases best with
    | none =>
      obtain ⟨s3, hs3, h3⟩ := h2.act [.act (.schedScan (i + 1) (some i))]
        fun ch => by simp [State.act, h2.proc, hr]
      have hset : update (scanLocks s0 c none) (.proc i) (some c) =
          scanLocks s0 c (some i) := by
        funext l
        by_cases hl : l = .proc i <;> simp [scanLocks, hl]
      exact ⟨_, some i, s3, hgo.trans ((Forced.refl s3).cons hs3), bestBelow_first hbest hr,
        hset ▸ h3⟩
    | some b =>
      have hbi : b < i := hbest.1
      by_cases hlt : (s0.proc b).priority < (s0.proc i).priority
      · obtain ⟨s3, hs3, h3⟩ := h2.act
          [.release (.proc b), .act (.schedScan (i + 1) (some i))]
          fun ch => by simp [State.act, h2.proc, hr, hlt]
        obtain ⟨s4, hs4, h4⟩ := Scanning.release h3 (by simp [scanLocks, hbi.ne])
        have hset : update (update (scanLocks s0 c (some b)) (.proc i) (some c))
            (.proc b) none = scanLocks s0 c (some i) := by
          funext l
          by_cases hl : l = .proc b
          · subst hl; simp [scanLocks, hbi.ne, hfree b (by omega)]
          · rw [update_of_ne hl]
            by_cases hl' : l = .proc i <;> simp [scanLocks, hl, hl']
        exact ⟨_, some i, s4, hgo.trans ((Forced.refl s4).cons hs4 |>.cons hs3),
          bestBelow_better hbest hr hlt, hset ▸ h4⟩
      · obtain ⟨s3, hs3, h3⟩ := h2.act
          [.release (.proc i), .act (.schedScan (i + 1) (some b))]
          fun ch => by simp [State.act, h2.proc, hr, hlt]
        obtain ⟨s4, hs4, h4⟩ := Scanning.release h3 (by simp)
        exact ⟨_, some b, s4, hgo.trans ((Forced.refl s4).cons hs4 |>.cons hs3),
          bestBelow_keep hbest (by omega), hback ▸ h4⟩
  · obtain ⟨s3, hs3, h3⟩ := h2.act
      [.release (.proc i), .act (.schedScan (i + 1) best)]
      fun ch => by simp [State.act, h2.proc, hr]
    obtain ⟨s4, hs4, h4⟩ := Scanning.release h3 (by simp)
    exact ⟨_, best, s4, hgo.trans ((Forced.refl s4).cons hs4 |>.cons hs3),
      bestBelow_skip hbest hr, hback ▸ h4⟩

theorem scan_reaches {s : State C} {c : C} {k : Code}
    (hfree : ∀ j < nproc, s.holder (.proc j) = none) (hoff : (s.cpu c).onProc = false)
    (hsched : (s.cpu c).sched = scheduler ++ k) (i : ℕ) (hi : i ≤ nproc) :
    ∃ n best s', Forced step (Alone c) n s s' ∧ BestBelow s.proc i best ∧
      Scanning s c (.act (.schedScan i best) :: k) (scanLocks s c best) s' := by
  induction i with
  | zero =>
    refine ⟨0, none, s, Forced.refl s, fun j hj => absurd hj (by omega), rfl, hoff, hsched, ?_⟩
    funext l
    simp [scanLocks]
  | succ i ih =>
    obtain ⟨n, best, s1, hs1, hbest, h1⟩ := ih (by omega)
    obtain ⟨m, best', s2, hs2, hbest', h2⟩ := scan_next hfree (by omega) h1 hbest
    exact ⟨n + m, best', s2, hs1.trans hs2, hbest', h2⟩

/-! ## Slots that a CPU uses -/

theorem step_cpu_proc {s s' : State C} {l : Label C} (h : step s l = some s') :
    (∀ c, (s'.cpu c).proc = (s.cpu c).proc) ∨
      ∀ i, (s'.proc i).state = .unused → (s.proc i).state = .unused := by
  have hset : ∀ (s1 : State C) k, s1.cpu = s.cpu →
      ∀ c, ((s1.setCode l.cpu k (s.thread l.cpu)).cpu c).proc = (s.cpu c).proc := by
    intro s1 k hcpu c
    by_cases hc : c = l.cpu
    · rw [hc, setCode_cpu_proc, hcpu]
    · rw [setCode_cpu_of_ne _ _ _ _ hc, hcpu]
  cases step_inv h with
  | timer | device => exact .inl (hset s _ rfl)
  | acquire lk k hcode hfree => exact .inl ((Quiet.acquire hfree).setCode k).cpu_proc
  | release lk k hcode hown => exact .inl ((Quiet.release hown).setCode k).cpu_proc
  | act a k s1 push hch hcode hact =>
    cases a with
    | swtch p =>
      simp only [State.act] at hact
      split_ifs at hact
      cases hact
      exact .inr fun i hi => by simpa [State.setCpu] using hi
    | schedBack b =>
      cases hact
      exact .inr fun i hi => by simpa [State.setCpu] using hi
    | schedSwtch b =>
      cases hact
      refine .inr fun i hi => ?_
      by_cases hb : i = b
      · simp [State.setCpu, State.setProc, hb] at hi
      · simpa [State.setCpu, State.setProc, hb] using hi
    | allocprocFound p kind i =>
      cases ch : l.choice <;> simp only [ch, State.act, reduceCtorEq] at hact <;>
        cases hact <;> exact .inl (hset _ _ rfl)
    | _ => exact .inl (hset s1 _ (act_local rfl hact).1)

/-- A slot that is free after a step is used by no CPU, before or after. -/
theorem Inv.unused_noCpu {s s' : State C} {l : Label C} (h : Inv s) (hstep : Sched.step s l = some s')
    {i : ℕ} (hi : (s'.proc i).state = .unused) (c : C) :
    (s.cpu c).proc ≠ some i ∧ (s'.cpu c).proc ≠ some i := by
  have hafter := (h.step hstep).noCpu (.inl hi)
  rcases step_cpu_proc hstep with hsame | hu
  · exact ⟨hsame c ▸ hafter c, hafter c⟩
  · exact ⟨h.noCpu (.inl (hu i hi)) c, hafter c⟩

omit [DecidableEq C] in
/-- While its lock is free, a process is running exactly when some CPU has it. -/
theorem Inv.running_iff {s : State C} (h : Inv s) {p : ℕ} (hfree : s.holder (.proc p) = none) :
    (s.proc p).state = .running ↔ ∃! c, (s.cpu c).proc = some p := by
  constructor
  · intro hr
    obtain ⟨c, hc⟩ := h.running p hr
    exact ⟨c, hc, fun c' hc' => h.unique c' c p hc' hc⟩
  · rintro ⟨c, hc, -⟩
    by_contra hne
    simp [h.holder_of_off hc hne] at hfree

omit [DecidableEq C] in
theorem Inv.scan_end {s : State C} (h : Inv s) {c : C} {i : ℕ} {best : Option ℕ} {k : Code}
    (ht : s.thread c = none) (hsched : (s.cpu c).sched = .act (.schedScan i best) :: k) :
    (∀ j, s.holder (.proc j) = some c ↔ best = some j) ∧
      ∀ b, best = some b → (s.proc b).state = .runnable := by
  have hcode : s.codeAt (s.cur c) = .act (.schedScan i best) :: k := by
    rw [State.cur, ht]; exact hsched
  obtain ⟨R, hR, ⟨-, rfl, -⟩, -⟩ := h.side hcode
  constructor
  · intro j
    rw [hR]
    cases best <;> simp [eq_comm]
  · rintro b rfl
    exact h.kept _ b _ (h.live_cur c) (by rw [hcode]; simp [Act.promise])

/-- In every state that any number of CPUs reaches:
a process whose lock is free is running exactly when exactly one CPU has it, and no
process is on two CPUs; a step that leaves a slot free finds no CPU using it; and a
scan that has passed every slot holds the lock of the runnable process it selected
and no other process lock. For every process table, a scan that runs alone with the
process locks free passes every slot, changes no slot, and selects a runnable process
of maximum priority, in the lowest slot among equals, or none when none is runnable. -/
theorem scheduling_exclusive (ls : List (Label C)) (s : State C)
    (hrun : exec step boot ls = some s) :
    ((∀ p, s.holder (.proc p) = none →
        ((s.proc p).state = .running ↔ ∃! c, (s.cpu c).proc = some p)) ∧
      (∀ c c' p, (s.cpu c).proc = some p → (s.cpu c').proc = some p → c = c') ∧
      (∀ l s' i, step s l = some s' → (s'.proc i).state = .unused →
        ∀ c, (s.cpu c).proc ≠ some i ∧ (s'.cpu c).proc ≠ some i) ∧
      (∀ c best k, s.thread c = none → (s.cpu c).sched = .act (.schedScan nproc best) :: k →
        (∀ j, s.holder (.proc j) = some c ↔ best = some j) ∧
          ∀ b, best = some b → (s.proc b).state = .runnable)) ∧
    ∀ (t : State C) (c : C) (k : Code), (∀ j < nproc, t.holder (.proc j) = none) →
      (t.cpu c).onProc = false → (t.cpu c).sched = scheduler ++ k →
      ∃ n best t', Forced step (Alone c) n t t' ∧ t'.proc = t.proc ∧
        (t'.cpu c).sched = .act (.schedScan nproc best) :: k ∧
        (∀ l, t'.holder l = if l ∈ bestLock best then some c else t.holder l) ∧
        BestBelow t.proc nproc best ∧
        (best = none ↔ ∀ i < nproc, (t.proc i).state ≠ .runnable) := by
  have h := inv_run hrun
  refine ⟨⟨fun p => h.running_iff, h.unique, fun l s' i hstep hi => h.unused_noCpu hstep hi,
    fun c best k ht hsched => h.scan_end ht hsched⟩, ?_⟩
  intro t c k hfree hoff hsched
  obtain ⟨n, best, t', hforced, hbest, ht'⟩ := scan_reaches hfree hoff hsched nproc le_rfl
  refine ⟨n, best, t', hforced, ht'.proc, ht'.sched, fun l => congrFun ht'.holder l, hbest, ?_⟩
  cases best with
  | none => exact ⟨fun _ => hbest, fun _ => rfl⟩
  | some b => exact ⟨fun he => by simp at he, fun hn => absurd hbest.2.1 (hn b hbest.1)⟩

/-- Two CPUs scan at once: CPU 0 has selected the first process so far, and CPU 1
waits for its lock. -/
theorem scheduling_exclusive_twoCpus : ∃ s : State (Fin 2),
    exec step boot [⟨0, .go⟩, ⟨1, .go⟩, ⟨0, .go⟩, ⟨0, .go⟩] = some s ∧
      s.holder (.proc 0) = some 0 ∧ (s.cpu 0).sched = [.act (.schedScan 1 (some 0))] ∧
      ∀ p, s.holder (.proc p) = none →
        ((s.proc p).state = .running ↔ ∃! c, (s.cpu c).proc = some p) := by
  obtain ⟨s, hs, hown, hsched⟩ : ∃ s : State (Fin 2),
      exec step boot [⟨0, .go⟩, ⟨1, .go⟩, ⟨0, .go⟩, ⟨0, .go⟩] = some s ∧
        s.holder (.proc 0) = some 0 ∧ (s.cpu 0).sched = [.act (.schedScan 1 (some 0))] :=
    ⟨_, rfl, rfl, rfl⟩
  exact ⟨s, hs, hown, hsched, (scheduling_exclusive _ s hs).1.1⟩

end Xv6.Sched
