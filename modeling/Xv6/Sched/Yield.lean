import Xv6.Sched.Exclusive

/-!
# What `yield` gives up

On one CPU a process that yields competes at once with the other runnable
processes. A scan starts at slot 0 and replaces its choice only for a strictly
higher priority, so the process is passed over exactly when a runnable process is
ahead of it: of higher priority, or of the same priority in a lower slot.
-/

namespace Xv6.Sched

open LockCode Runs

/-- The process that the next step of the scheduler switches to. -/
def State.selecting (s : State Unit) : Option ℕ :=
  match s.thread (), (s.cpu ()).sched with
  | none, .act (.schedSwtch b) :: _ => some b
  | _, _ => none

/-- The processes that a run selects, in order. -/
def selections (s : State Unit) : List (Label Unit) → List ℕ
  | [] => []
  | l :: ls =>
    match step s l with
    | none => []
    | some t => (if l.choice.isInterrupt then [] else s.selecting.toList) ++ selections t ls

/-- A scan that meets both `q` and `p` prefers `q`. -/
def Preferred (proc : ℕ → Proc) (q p : ℕ) : Prop :=
  (proc p).priority < (proc q).priority ∨ (proc p).priority = (proc q).priority ∧ q < p

instance (proc : ℕ → Proc) (q p : ℕ) : Decidable (Preferred proc q p) :=
  inferInstanceAs (Decidable (_ ∨ _))

/-- Some runnable process is ahead of `p`. -/
def Behind (s : State Unit) (p : ℕ) : Prop :=
  ∃ q < nproc, (s.proc q).state = .runnable ∧ Preferred s.proc q p

instance (s : State Unit) (p : ℕ) : Decidable (Behind s p) :=
  inferInstanceAs (Decidable (∃ q < nproc, _ ∧ _))

/-- What the CPU runs while `p` does: its scheduler waits for `p` to switch back. -/
structure Running (s : State Unit) (p : ℕ) : Prop where
  thread : s.thread () = some p
  sched : ∃ k : Code, (∀ a, .act a ∉ k) ∧
    (s.cpu ()).sched = [.act (.schedBack p), .release (.proc p)] ++ scheduler ++ k

/-! ## The scan after a yield -/

/-- `best` is `q` or a process that a scan prefers to `q`. -/
def Good (proc : ℕ → Proc) (q : ℕ) : Option ℕ → Prop
  | none => False
  | some b => b = q ∨ Preferred proc b q

/-- Code of interrupt handlers. -/
def Act.wakes : Act → Prop
  | .wakeup _ _ | .wakeupLook _ _ => True
  | _ => False

/-- Once the scan has passed `q`, its choice is as good as `q`. -/
def Act.ScanOk (proc : ℕ → Proc) (q : ℕ) : Act → Prop
  | .wakeup _ _ | .wakeupLook _ _ | .schedBack _ => True
  | .schedScan i best | .schedLook i best => (∀ b ∈ best, b < i) ∧ (q < i → Good proc q best)
  | .schedSwtch b => Good proc q (some b)
  | _ => False

/-- The scheduler runs and `q` has not been selected since the table was `proc`. -/
structure ScanPast (proc : ℕ → Proc) (q : ℕ) (s : State Unit) : Prop where
  thread : s.thread () = none
  bound : q < nproc
  runnable : (s.proc q).state = .runnable
  priority : ∀ i, (s.proc i).priority = (proc i).priority
  code : ∀ a, .act a ∈ (s.cpu ()).sched → a.ScanOk proc q

variable {proc : ℕ → Proc} {p q : ℕ} {s t : State Unit} {l : Label Unit}

theorem ScanPast.setCode (h : ScanPast proc q s) (s1 : State Unit)
    (hthread : s1.thread () = none) (hrun : (s1.proc q).state = .runnable)
    (hpri : ∀ i, (s1.proc i).priority = (s.proc i).priority) {k : Code}
    (hk : ∀ a, .act a ∈ k → a.ScanOk proc q) : ScanPast proc q (s1.setCode () k none) where
  thread := by simpa [State.thread, State.setCode, State.setCpu] using hthread
  bound := h.bound
  runnable := by simpa using hrun
  priority i := by simpa using (hpri i).trans (h.priority i)
  code := by simpa [State.setCode, State.setCpu] using hk

theorem wakes_act {a : Act} {ch : Choice} {s1 : State Unit} {push : Code} (ha : a.wakes)
    (hact : s.act () ch a = some (s1, push)) :
    s1.cpu = s.cpu ∧ s1.code = s.code ∧ (∀ i, (s1.proc i).priority = (s.proc i).priority) ∧
      (∀ i, (s.proc i).state = .runnable → (s1.proc i).state = .runnable) ∧
      ∀ b, .act b ∈ push → b.wakes := by
  cases a with
  | wakeup chan i =>
    simp only [State.act] at hact
    split_ifs at hact <;> cases hact <;>
      simp [Act.wakes]
  | wakeupLook chan i =>
    cases hact
    refine ⟨by split_ifs <;> rfl, by split_ifs <;> rfl, fun j => ?_, fun j hj => ?_,
      by simp [Act.wakes]⟩
    · split_ifs
      · by_cases hij : j = i <;> simp [State.setProc, hij]
      · rfl
    · split_ifs
      · by_cases hij : j = i
        · simp [State.setProc, hij]
        · simpa [State.setProc, hij] using hj
      · exact hj
  | _ => exact ha.elim

theorem interrupt_wakes (n chan : ℕ) : ∀ a, .act a ∈ interrupt n chan → a.wakes := by
  intro a ha
  simp only [interrupt, List.mem_cons, reduceCtorEq, Cmd.act.injEq, List.not_mem_nil, or_false,
    false_or] at ha
  exact ha ▸ trivial

theorem Act.wakes.scanOk {a : Act} (h : a.wakes) : a.ScanOk proc q := by
  cases a <;> trivial

theorem ScanPast.act {a : Act} {ch : Choice} {k push : Code} {s1 : State Unit}
    (h : ScanPast proc q s) (hcode : (s.cpu ()).sched = .act a :: k) (hsel : s.selecting = none)
    (hact : s.act () ch a = some (s1, push)) :
    ScanPast proc q (s1.setCode () (push ++ k) none) := by
  have ha : a.ScanOk proc q := h.code a (by simp [hcode])
  have hk : ∀ b, .act b ∈ k → b.ScanOk proc q := fun b hb => h.code b (by simp [hcode, hb])
  have hpush : ∀ {pre : Code}, (∀ b, .act b ∈ pre → b.ScanOk proc q) →
      ∀ b, .act b ∈ pre ++ k → b.ScanOk proc q := fun hp b hb =>
    (List.mem_append.mp hb).elim (hp b) (hk b)
  -- a step of the scan itself changes nothing but its code
  have hstay : ∀ {pre : Code}, (∀ b, .act b ∈ pre → b.ScanOk proc q) →
      ScanPast proc q (s.setCode () (pre ++ k) none) := fun hp =>
    h.setCode s h.thread h.runnable (fun _ => rfl) (hpush hp)
  have hwakes : a.wakes → ScanPast proc q (s1.setCode () (push ++ k) none) := by
    intro hw
    obtain ⟨hcpu, -, hpri, hrun, hps⟩ := wakes_act hw hact
    refine h.setCode s1 ?_ (hrun q h.runnable) hpri (hpush fun b hb => Act.wakes.scanOk (hps b hb))
    rw [State.thread, hcpu]
    exact h.thread
  cases a with
  | wakeup chan i => exact hwakes trivial
  | wakeupLook chan i => exact hwakes trivial
  | schedScan i best =>
    obtain ⟨hbest, hgood⟩ := ha
    simp only [State.act] at hact
    split_ifs at hact with hi
    · cases hact
      exact hstay (by simpa [Act.ScanOk] using ⟨hbest, hgood⟩)
    · have hg := hgood (by have := h.bound; omega)
      cases best with
      | none => exact hg.elim
      | some b =>
        cases hact
        exact hstay (by simpa [Act.ScanOk] using hg)
  | schedLook i best =>
    obtain ⟨hbest, hgood⟩ := ha
    have hp := h.priority
    have hnext : ∀ (best' : Option ℕ) {pre : Code}, (∀ b ∈ best', b < i + 1) →
        (q < i + 1 → Good proc q best') →
        (∀ x, .act x ∈ pre → x = .schedScan (i + 1) best') →
        ScanPast proc q (s.setCode () (pre ++ k) none) := fun _ _ hb hg hpre =>
      hstay fun x hx => hpre x hx ▸ ⟨hb, hg⟩
    have hself : Good proc i (some i) := .inl rfl
    simp only [State.act] at hact
    split_ifs at hact with hi
    · cases best with
      | none =>
        cases hact
        refine hnext (some i) (by simp) (fun hq => ?_) (by simp)
        rcases Nat.lt_succ_iff_lt_or_eq.mp hq with hlt | rfl
        · exact (hgood hlt).elim
        · exact hself
      | some b =>
        have hbi : b < i := hbest b rfl
        simp only at hact
        split_ifs at hact with hpr <;> cases hact
        · refine hnext (some i) (by simp) (fun hq => ?_) (by simp)
          rw [hp b, hp i] at hpr
          rcases Nat.lt_succ_iff_lt_or_eq.mp hq with hlt | rfl
          · rcases hgood hlt with rfl | hg | ⟨hg, -⟩
            · exact .inr (.inl hpr)
            · exact .inr (.inl (hg.trans hpr))
            · exact .inr (.inl (hg ▸ hpr))
          · exact hself
        · refine hnext (some b) (by simpa using hbi.le) (fun hq => ?_) (by simp)
          rw [hp b, hp i, not_lt] at hpr
          rcases Nat.lt_succ_iff_lt_or_eq.mp hq with hlt | rfl
          · exact hgood hlt
          · rcases hpr.lt_or_eq with hpr | hpr
            · exact .inr (.inl hpr)
            · exact .inr (.inr ⟨hpr, hbi⟩)
    · cases hact
      refine hnext best (fun b hb => Nat.lt_succ_of_lt (hbest b hb)) (fun hq => ?_)
        (by simp)
      rcases Nat.lt_succ_iff_lt_or_eq.mp hq with hlt | rfl
      · exact hgood hlt
      · exact absurd h.runnable hi
  | schedSwtch b => simp [State.selecting, h.thread, hcode] at hsel
  | schedBack b =>
    cases hact
    refine h.setCode (s.setCpu () fun u => { u with proc := none }) ?_ h.runnable (fun _ => rfl) hk
    simp [State.thread, State.setCpu]
  | _ => exact ha.elim

theorem ScanPast.device (h : ScanPast proc q s) (n chan : ℕ) :
    ScanPast proc q (s.setCode () (interrupt n chan ++ (s.cpu ()).sched) none) := by
  refine h.setCode s h.thread h.runnable (fun _ => rfl) fun a ha => ?_
  exact (List.mem_append.mp ha).elim (fun hm => (interrupt_wakes n chan a hm).scanOk) (h.code a)

/-- The steps of a CPU that runs its scheduler. -/
inductive SchedStep (s : State Unit) (l : Label Unit) : State Unit → Prop
  | device (n chan : ℕ) :
      SchedStep s l (s.setCode () (interrupt n chan ++ (s.cpu ()).sched) none)
  | acquire (lk : Lock) (k : Code) : (s.cpu ()).sched = .acquire lk :: k →
      SchedStep s l ((s.acquire () lk).setCode () k none)
  | release (lk : Lock) (k : Code) : (s.cpu ()).sched = .release lk :: k →
      SchedStep s l ((s.release () lk).setCode () k none)
  | act (a : Act) (k : Code) (s1 : State Unit) (push : Code) : l.choice.isInterrupt = false →
      (s.cpu ()).sched = .act a :: k → s.act () l.choice a = some (s1, push) →
      SchedStep s l (s1.setCode () (push ++ k) none)

theorem schedStep_of_step (h : s.thread () = none) (hs : step s l = some t) : SchedStep s l t := by
  by_cases hi : l.choice.isInterrupt = true
  · unfold step at hs
    cases hch : l.choice <;> simp only [hch, Choice.isInterrupt, reduceCtorEq] at hi hs
    · simp [h] at hs
    · simp only [h, State.codeOf, Option.ite_none_right_eq_some, Option.some.injEq] at hs
      exact hs.2 ▸ .device _ _
  · rw [step_command (by simpa using hi), State.command, h] at hs
    simp only [State.codeOf] at hs
    split at hs
    · simp at hs
    · rename_i lk k hk
      split_ifs at hs
      exact Option.some.inj hs ▸ .acquire lk k hk
    · rename_i lk k hk
      split_ifs at hs
      exact Option.some.inj hs ▸ .release lk k hk
    · rename_i a k hk
      obtain ⟨⟨s1, push⟩, hact, rfl⟩ := Option.map_eq_some_iff.mp hs
      exact .act a k s1 push (by simpa using hi) hk hact

theorem thread_acquire (lk : Lock) : (s.acquire () lk).thread () = s.thread () := by
  simp [State.thread, State.acquire, State.setCpu]

theorem thread_release (lk : Lock) : (s.release () lk).thread () = s.thread () := by
  simp [State.thread, State.release, State.setCpu]

/-- Until the scheduler switches, interrupts and its own steps keep `q` ahead. -/
theorem ScanPast.step (h : ScanPast proc q s) (hs : step s l = some t)
    (hsel : l.choice.isInterrupt = true ∨ s.selecting = none) : ScanPast proc q t := by
  cases schedStep_of_step h.thread hs with
  | device n chan => exact h.device n chan
  | acquire lk k hcode =>
    refine h.setCode (s.acquire () lk) ((thread_acquire lk).trans h.thread) h.runnable
      (fun _ => rfl) fun a ha => h.code a ?_
    simpa [hcode] using ha
  | release lk k hcode =>
    refine h.setCode (s.release () lk) ((thread_release lk).trans h.thread) h.runnable
      (fun _ => rfl) fun a ha => h.code a ?_
    simpa [hcode] using ha
  | act a k s1 push hi hcode hact => exact h.act hcode (hsel.resolve_left (by simp [hi])) hact

theorem ScanPast.selects (h : ScanPast proc q s) {b : ℕ} (hb : s.selecting = some b) :
    Good proc q (some b) := by
  rw [State.selecting, h.thread] at hb
  split at hb <;> simp_all
  rename_i hsched
  exact h.code (.schedSwtch b) (by simp [hsched])

theorem ScanPast.selections (h : ScanPast proc q s) {ls : List (Label Unit)} {b : ℕ}
    (hb : (selections s ls).head? = some b) : Good proc q (some b) := by
  induction ls generalizing s with
  | nil => simp [Sched.selections] at hb
  | cons l ls ih =>
    simp only [Sched.selections] at hb
    cases hs : Sched.step s l with
    | none => simp [hs] at hb
    | some t =>
      simp only [hs] at hb
      split_ifs at hb with hi
      · exact ih (h.step hs (.inl hi)) hb
      · cases hsel : s.selecting with
        | none =>
          rw [hsel] at hb
          exact ih (h.step hs (.inr hsel)) hb
        | some b' =>
          rw [hsel] at hb
          obtain rfl : b' = b := by simpa using hb
          exact h.selects hsel

/-! ## Giving the CPU up -/

theorem selecting_of_thread (h : s.thread () = some p) : s.selecting = none := by
  simp [State.selecting, h]

section

variable {k : Code} {ch : Choice}

theorem command_acquire {lk : Lock} (ht : s.thread () = some p)
    (hc : s.code p = .acquire lk :: k) (hs : s.command () ch = some t) :
    t = (s.acquire () lk).setCode () k (some p) := by
  simp only [State.command, ht, State.codeOf, hc, Option.ite_none_right_eq_some,
    Option.some.injEq] at hs
  exact hs.2.symm

theorem command_release {lk : Lock} (ht : s.thread () = some p)
    (hc : s.code p = .release lk :: k) (hs : s.command () ch = some t) :
    t = (s.release () lk).setCode () k (some p) := by
  simp only [State.command, ht, State.codeOf, hc, Option.ite_none_right_eq_some,
    Option.some.injEq] at hs
  exact hs.2.symm

theorem command_act {a : Act} (ht : s.thread () = some p)
    (hc : s.code p = .act a :: k) (hs : s.command () ch = some t) :
    ∃ s1 push, s.act () ch a = some (s1, push) ∧ t = s1.setCode () (push ++ k) (some p) := by
  simp only [State.command, ht, State.codeOf, hc, Option.map_eq_some_iff] at hs
  obtain ⟨⟨s1, push⟩, hact, rfl⟩ := hs
  exact ⟨s1, push, hact, rfl⟩

end

theorem Running.setCode (h : Running s p) (s1 : State Unit) (k : Code)
    (hproc : (s1.cpu ()).proc = (s.cpu ()).proc) (hon : (s1.cpu ()).onProc = (s.cpu ()).onProc)
    (hsched : (s1.cpu ()).sched = (s.cpu ()).sched) : Running (s1.setCode () k (some p)) p where
  thread := by
    have := h.thread
    simpa [State.thread, State.setCode, hproc, hon] using this
  sched := by
    obtain ⟨k', hk', hs⟩ := h.sched
    exact ⟨k', hk', hsched.trans hs⟩

/-- The switch of a process that gives the CPU up while `q` is runnable. -/
theorem Running.swtch {k : Code} {ch : Choice} (h : Running s p) (hq : q < nproc)
    (hr : (s.proc q).state = .runnable)
    (hprio : ∀ i, (s.proc i).priority = (proc i).priority)
    (hcode : s.code p = .act (.swtch p) :: k) (hs : s.command () ch = some t) :
    ScanPast proc q t ∧ t.code = Function.update s.code p k ∧
      (t.cpu ()).sched = (s.cpu ()).sched := by
  obtain ⟨s1, push, hact, rfl⟩ := command_act h.thread hcode hs
  simp only [State.act] at hact
  split_ifs at hact
  cases hact
  refine ⟨⟨by simp [State.thread, State.setCode, State.setCpu], hq, hr, hprio, ?_⟩, rfl,
    by simp [State.setCode, State.setCpu]⟩
  obtain ⟨k', hk', hsched⟩ := h.sched
  intro a ha
  simp only [State.setCode, State.setCpu, Function.update_self, hsched, scheduler] at ha
  simp only [List.mem_append, List.mem_cons, Cmd.act.injEq, reduceCtorEq, List.not_mem_nil,
    or_false, hk' a] at ha
  rcases ha with rfl | rfl <;> simp [Act.ScanOk]

/-- The process `p` is in `yield`, possibly interrupted, and `q` stays runnable. -/
structure Leaving (proc : ℕ → Proc) (p q : ℕ) (s : State Unit) : Prop where
  running : Running s p
  bound : q < nproc
  ne : q ≠ p
  runnable : (s.proc q).state = .runnable
  priority : ∀ i, (s.proc i).priority = (proc i).priority
  code : (∃ pre k, s.code p = pre ++ yield p ++ k ∧ ∀ a, .act a ∈ pre → a.wakes) ∨
    0 < (s.cpu ()).noff ∧ ∃ k, s.code p = .act (.setState p .runnable) :: .act (.swtch p) :: k ∨
      s.code p = .act (.swtch p) :: k

theorem Leaving.setCode (h : Leaving proc p q s) (s1 : State Unit) {k : Code}
    (hproc : (s1.cpu ()).proc = (s.cpu ()).proc) (hon : (s1.cpu ()).onProc = (s.cpu ()).onProc)
    (hsched : (s1.cpu ()).sched = (s.cpu ()).sched) (hrun : (s1.proc q).state = .runnable)
    (hprio : ∀ i, (s1.proc i).priority = (s.proc i).priority)
    (hcode : (∃ pre k', k = pre ++ yield p ++ k' ∧ ∀ a, .act a ∈ pre → a.wakes) ∨
      0 < (s1.cpu ()).noff ∧ ∃ k', k = .act (.setState p .runnable) :: .act (.swtch p) :: k' ∨
        k = .act (.swtch p) :: k') : Leaving proc p q (s1.setCode () k (some p)) where
  running := h.running.setCode s1 k hproc hon hsched
  bound := h.bound
  ne := h.ne
  runnable := hrun
  priority i := (hprio i).trans (h.priority i)
  code := by simpa [State.setCode] using hcode

theorem Leaving.interrupted (h : Leaving proc p q s) (hn : (s.cpu ()).noff = 0) :
    ∃ pre k, s.code p = pre ++ yield p ++ k ∧ ∀ a, .act a ∈ pre → a.wakes := by
  rcases h.code with hc | ⟨hpos, -⟩
  · exact hc
  · omega

theorem Leaving.command {ch : Choice} (h : Leaving proc p q s) (hs : s.command () ch = some t) :
    Leaving proc p q t ∨ ScanPast proc q t := by
  have ht := h.running.thread
  rcases h.code with ⟨pre, k, hc, hpre⟩ | ⟨hn, k, hc | hc⟩
  · cases pre with
    | nil =>
      obtain rfl := command_acquire ht hc hs
      refine .inl (h.setCode (s.acquire () (.proc p)) ?_ ?_ ?_ h.runnable (fun _ => rfl)
        (.inr ⟨?_, _, .inl rfl⟩)) <;> simp [State.acquire, State.setCpu]
    | cons x pre =>
      have hpre' : ∀ a, .act a ∈ pre → a.wakes := fun a ha => hpre a (List.mem_cons_of_mem _ ha)
      cases x with
      | acquire lk =>
        obtain rfl := command_acquire ht hc hs
        refine .inl (h.setCode (s.acquire () lk) ?_ ?_ ?_ h.runnable (fun _ => rfl)
          (.inl ⟨pre, k, rfl, hpre'⟩)) <;> simp [State.acquire, State.setCpu]
      | release lk =>
        obtain rfl := command_release ht hc hs
        refine .inl (h.setCode (s.release () lk) ?_ ?_ ?_ h.runnable (fun _ => rfl)
          (.inl ⟨pre, k, rfl, hpre'⟩)) <;> simp [State.release, State.setCpu]
      | act a =>
        obtain ⟨s1, push, hact, rfl⟩ := command_act ht hc hs
        obtain ⟨hcpu, -, hpri, hrun, hps⟩ := wakes_act (hpre a (by simp)) hact
        refine .inl (h.setCode s1 (by rw [hcpu]) (by rw [hcpu]) (by rw [hcpu])
          (hrun q h.runnable) hpri (.inl ⟨push ++ pre, k, by simp, fun b hb => ?_⟩))
        exact (List.mem_append.mp hb).elim (hps b) (hpre' b)
  · obtain ⟨s1, push, hact, rfl⟩ := command_act ht hc hs
    cases hact
    refine .inl (h.setCode (s.setProc p fun q => { q with state := .runnable }) rfl rfl rfl ?_ ?_
      (.inr ⟨hn, k, .inr rfl⟩))
    · simpa [State.setProc, h.ne] using h.runnable
    · intro i
      by_cases hi : i = p <;> simp [State.setProc, hi]
  · exact .inr (h.running.swtch h.bound h.runnable h.priority hc hs).1

theorem Leaving.step (h : Leaving proc p q s) (hs : step s l = some t) :
    Leaving proc p q t ∨ ScanPast proc q t := by
  have ht := h.running.thread
  by_cases hi : l.choice.isInterrupt = true
  · unfold Sched.step at hs
    cases hch : l.choice <;> simp only [hch, Choice.isInterrupt, reduceCtorEq] at hi hs
    · simp only [ht, Option.ite_none_right_eq_some, Option.some.injEq] at hs
      obtain ⟨-, rfl⟩ := hs
      exact .inl (h.setCode s rfl rfl rfl h.runnable (fun _ => rfl)
        (.inl ⟨[], s.code p, rfl, by simp⟩))
    · rename_i n chan
      simp only [ht, State.codeOf, Option.ite_none_right_eq_some, Option.some.injEq] at hs
      obtain ⟨hn, rfl⟩ := hs
      obtain ⟨pre, k, hc, hpre⟩ := h.interrupted hn
      refine .inl (h.setCode s rfl rfl rfl h.runnable (fun _ => rfl)
        (.inl ⟨interrupt n chan ++ pre, k, by rw [hc]; simp, fun a ha => ?_⟩))
      exact (List.mem_append.mp ha).elim (interrupt_wakes n chan a) (hpre a)
  · rw [step_command (by simpa using hi)] at hs
    exact h.command hs

theorem Leaving.selections (h : Leaving proc p q s) {ls : List (Label Unit)} {b : ℕ}
    (hb : (selections s ls).head? = some b) : Good proc q (some b) := by
  induction ls generalizing s with
  | nil => simp [Sched.selections] at hb
  | cons l ls ih =>
    simp only [Sched.selections] at hb
    cases hs : Sched.step s l with
    | none => simp [hs] at hb
    | some t =>
      simp only [hs, selecting_of_thread h.running.thread, Option.toList_none, ite_self,
        List.nil_append] at hb
      rcases h.step hs with ht | ht
      · exact ih ht hb
      · exact ht.selections hb

theorem Good.ne (h : Preferred proc q p) {b : ℕ} (hb : Good proc q (some b)) : b ≠ p := by
  rintro rfl
  rcases hb with rfl | hb
  · unfold Preferred at h
    omega
  · unfold Preferred at h hb
    omega

/-! ## Runs in which processes only yield -/

/-- Code of a process that makes no other call than `yield`, between interrupts. -/
inductive Calm (p : ℕ) : Code → Prop
  | user : Calm p [.act (.user p)]
  | yield {k : Code} : Calm p k → Calm p (yield p ++ k)
  | acquire {lk : Lock} {k : Code} : Calm p k → Calm p (.acquire lk :: k)
  | release {lk : Lock} {k : Code} : Calm p k → Calm p (.release lk :: k)
  | wakes {a : Act} {k : Code} : a.wakes → Calm p k → Calm p (.act a :: k)

theorem Calm.append {k pre : Code} (h : Calm p k) (hpre : ∀ a, .act a ∈ pre → a.wakes) :
    Calm p (pre ++ k) := by
  induction pre with
  | nil => exact h
  | cons x pre ih =>
    have hk := ih fun a ha => hpre a (List.mem_cons_of_mem _ ha)
    cases x with
    | acquire lk => exact hk.acquire
    | release lk => exact hk.release
    | act a => exact hk.wakes (hpre a (by simp))

/-- The code of the running process: calm, or in the part of `yield` that runs
under its lock. -/
inductive Part (s : State Unit) (p : ℕ) : Prop
  | calm : Calm p (s.code p) → Part s p
  | setState (k : Code) : 0 < (s.cpu ()).noff → Calm p k →
      s.code p = .act (.setState p .runnable) :: .act (.swtch p) :: .release (.proc p) :: k →
      Part s p
  | swtch (k : Code) : 0 < (s.cpu ()).noff → Calm p k → Behind s p →
      s.code p = .act (.swtch p) :: .release (.proc p) :: k → Part s p

/-- The code of a scheduler. -/
def Act.scans : Act → Prop
  | .wakeup _ _ | .wakeupLook _ _ | .schedBack _ | .schedScan _ _ | .schedLook _ _
  | .schedSwtch _ => True
  | _ => False

/-- Nothing follows the scan in the code of a scheduler. -/
def Ends : Code → Prop
  | [] => True
  | .act (.schedScan _ _) :: k | .act (.schedLook _ _) :: k | .act (.schedSwtch _) :: k =>
    ∀ a, .act a ∉ k
  | _ :: k => Ends k

/-- The scheduler runs, and all processes are calm. -/
structure Idle (s : State Unit) : Prop where
  thread : s.thread () = none
  scans : ∀ a, .act a ∈ (s.cpu ()).sched → a.scans
  ends : Ends (s.cpu ()).sched
  calm : ∀ i, Calm i (s.code i)

/-- Where a run in which processes only yield stands after `last` was selected. -/
inductive Turn (last : Option ℕ) (s : State Unit) : Prop
  | running (p : ℕ) : last = some p → Running s p → Part s p →
      (∀ i ≠ p, Calm i (s.code i)) → Turn last s
  | start : last = none → Idle s → Turn last s
  | scanning (p q : ℕ) (proc : ℕ → Proc) : last = some p → Preferred proc q p →
      ScanPast proc q s → Idle s → Turn last s

/-- A process gives the CPU up only when some runnable process is ahead of it. -/
def YieldsBehind (s : State Unit) (l : Label Unit) : Prop :=
  l.choice.isInterrupt = false → ∀ p, s.thread () = some p →
    (s.code p).head? = some (.act (.setState p .runnable)) → Behind s p

theorem ends_append {pre k : Code} (hpre : ∀ a, .act a ∈ pre → a.wakes) (hk : Ends k) :
    Ends (pre ++ k) := by
  induction pre with
  | nil => exact hk
  | cons x pre ih =>
    have hrest := ih fun a ha => hpre a (List.mem_cons_of_mem _ ha)
    cases x with
    | acquire lk => exact hrest
    | release lk => exact hrest
    | act a =>
      have ha := hpre a (by simp)
      cases a <;> first | exact hrest | exact ha.elim

theorem Idle.setCode (h : Idle s) (s1 : State Unit) {k : Code} (hthread : s1.thread () = none)
    (hcode : s1.code = s.code) (hk : ∀ a, .act a ∈ k → a.scans) (he : Ends k) :
    Idle (s1.setCode () k none) where
  thread := by simpa [State.thread, State.setCode, State.setCpu] using hthread
  scans := by simpa [State.setCode, State.setCpu] using hk
  ends := by simpa [State.setCode, State.setCpu] using he
  calm i := by simpa [State.setCode, State.setCpu, hcode] using h.calm i

theorem Act.wakes.scans {a : Act} (h : a.wakes) : a.scans := by
  cases a <;> trivial

theorem Idle.act {a : Act} {ch : Choice} {k push : Code} {s1 : State Unit} (h : Idle s)
    (hcode : (s.cpu ()).sched = .act a :: k) (hact : s.act () ch a = some (s1, push))
    (hsel : s.selecting = none) : Idle (s1.setCode () (push ++ k) none) := by
  have ha : a.scans := h.scans a (by simp [hcode])
  have he := h.ends
  have hk : ∀ b, .act b ∈ k → b.scans := fun b hb => h.scans b (by simp [hcode, hb])
  have hpush : ∀ {pre : Code}, (∀ b, .act b ∈ pre → b.scans) →
      ∀ b, .act b ∈ pre ++ k → b.scans := fun hp b hb =>
    (List.mem_append.mp hb).elim (hp b) (hk b)
  have hstay : ∀ {pre : Code}, (∀ b, .act b ∈ pre → b.scans) → Ends (pre ++ k) →
      Idle (s.setCode () (pre ++ k) none) := fun hp he' =>
    h.setCode s h.thread rfl (hpush hp) he'
  have hwakes : a.wakes → Ends k → Idle (s1.setCode () (push ++ k) none) := by
    intro hw hek
    obtain ⟨hcpu, hcodes, -, -, hps⟩ := wakes_act hw hact
    refine h.setCode s1 ?_ hcodes (hpush fun b hb => Act.wakes.scans (hps b hb))
      (ends_append hps hek)
    rw [State.thread, hcpu]
    exact h.thread
  rw [hcode] at he
  cases a with
  | schedSwtch b => simp [State.selecting, h.thread, hcode] at hsel
  | schedScan i best =>
    have hnone : ∀ a, .act a ∉ k := he
    simp only [State.act] at hact
    split_ifs at hact
    · cases hact
      exact hstay (by simp [Act.scans]) hnone
    · cases best <;> cases hact <;>
        exact hstay (by simp [scheduler, Act.scans]) hnone
  | schedLook i best =>
    have hnone : ∀ a, .act a ∉ k := he
    simp only [State.act] at hact
    split_ifs at hact
    · cases best with
      | none =>
        cases hact
        exact hstay (by simp [Act.scans]) hnone
      | some b =>
        simp only at hact
        split_ifs at hact <;> cases hact <;>
          exact hstay (by simp [Act.scans]) hnone
    · cases hact
      exact hstay (by simp [Act.scans]) hnone
  | schedBack b =>
    cases hact
    refine h.setCode (s.setCpu () fun u => { u with proc := none }) ?_ rfl hk he
    simp [State.thread, State.setCpu]
  | wakeup chan i => exact hwakes trivial he
  | wakeupLook chan i => exact hwakes trivial he
  | _ => exact ha.elim

theorem Idle.step (h : Idle s) (hs : step s l = some t)
    (hsel : l.choice.isInterrupt = true ∨ s.selecting = none) : Idle t := by
  have hk : ∀ {x k}, (s.cpu ()).sched = x :: k → ∀ a, .act a ∈ k → a.scans :=
    fun hc a ha => h.scans a (by simp [hc, ha])
  cases schedStep_of_step h.thread hs with
  | device n chan =>
    refine h.setCode s h.thread rfl (fun a ha => ?_) (ends_append (interrupt_wakes n chan) h.ends)
    exact (List.mem_append.mp ha).elim (fun hm => (interrupt_wakes n chan a hm).scans) (h.scans a)
  | acquire lk k hc =>
    exact h.setCode (s.acquire () lk) ((thread_acquire lk).trans h.thread) rfl (hk hc)
      (by simpa [hc, Ends] using h.ends)
  | release lk k hc =>
    exact h.setCode (s.release () lk) ((thread_release lk).trans h.thread) rfl (hk hc)
      (by simpa [hc, Ends] using h.ends)
  | act a k s1 push hi hc hact => exact h.act hc hact (hsel.resolve_left (by simp [hi]))

theorem Idle.select (h : Idle s) {b : ℕ} (hb : s.selecting = some b)
    (hi : l.choice.isInterrupt = false) (hs : Sched.step s l = some t) :
    Running t b ∧ t.code = s.code := by
  obtain ⟨k, hcode⟩ : ∃ k, (s.cpu ()).sched = .act (.schedSwtch b) :: k := by
    rw [State.selecting, h.thread] at hb
    split at hb <;> simp_all
  have hnone : ∀ a, .act a ∉ k := by simpa [hcode, Ends] using h.ends
  rw [step_command hi, State.command, h.thread] at hs
  simp only [State.codeOf, hcode, State.act, Option.map_some, Option.some.injEq] at hs
  subst hs
  refine ⟨⟨?_, k, hnone, ?_⟩, rfl⟩
  · simp [State.thread, State.setCode, State.setCpu]
  · simp [State.setCode, State.setCpu]

theorem Turn.keep (h : Running s p) (hother : ∀ i ≠ p, Calm i (s.code i)) (s1 : State Unit)
    {k : Code} (hproc : (s1.cpu ()).proc = (s.cpu ()).proc)
    (hon : (s1.cpu ()).onProc = (s.cpu ()).onProc)
    (hsched : (s1.cpu ()).sched = (s.cpu ()).sched) (hcode : s1.code = s.code)
    (hpart : Part (s1.setCode () k (some p)) p) : Turn (some p) (s1.setCode () k (some p)) := by
  refine .running p rfl (h.setCode s1 k hproc hon hsched) hpart fun i hi => ?_
  simpa [State.setCode, hi, hcode] using hother i hi

theorem Turn.calm (h : Running s p) (hother : ∀ i ≠ p, Calm i (s.code i)) (s1 : State Unit)
    {k : Code} (hproc : (s1.cpu ()).proc = (s.cpu ()).proc)
    (hon : (s1.cpu ()).onProc = (s.cpu ()).onProc)
    (hsched : (s1.cpu ()).sched = (s.cpu ()).sched) (hcode : s1.code = s.code)
    (hk : Calm p k) : Turn (some p) (s1.setCode () k (some p)) :=
  Turn.keep h hother s1 hproc hon hsched hcode (.calm (by simpa [State.setCode] using hk))

theorem turn_of_calm {ch : Choice} (h : Running s p) (hother : ∀ i ≠ p, Calm i (s.code i))
    (hcalm : Calm p (s.code p)) (hcall : ∀ c, ch = .call c → c = .yield)
    (hs : s.command () ch = some t) : Turn (some p) t := by
  have hcpu : ∀ lk, ((s.acquire () lk).cpu ()).proc = (s.cpu ()).proc ∧
      ((s.acquire () lk).cpu ()).onProc = (s.cpu ()).onProc ∧
      ((s.acquire () lk).cpu ()).sched = (s.cpu ()).sched := by
    simp [State.acquire, State.setCpu]
  generalize hc : s.code p = k at hcalm
  cases hcalm with
  | user =>
    obtain ⟨s1, push, hact, rfl⟩ := command_act h.thread hc hs
    cases ch <;> simp only [State.act, Option.map_eq_some_iff, reduceCtorEq] at hact
    rename_i c
    obtain rfl := hcall c rfl
    obtain ⟨code, hcode, he⟩ := hact
    cases he
    cases hcode
    refine Turn.calm h hother s rfl rfl rfl rfl ?_
    simpa using Calm.yield Calm.user
  | yield hk =>
    rename_i k
    obtain rfl := command_acquire h.thread hc hs
    refine Turn.keep h hother (s.acquire () (.proc p)) (hcpu _).1 (hcpu _).2.1 (hcpu _).2.2 rfl
      (.setState k ?_ hk ?_)
    · simp [State.setCode, State.acquire, State.setCpu]
    · simp [State.setCode]
  | acquire hk =>
    obtain rfl := command_acquire h.thread hc hs
    exact Turn.calm h hother (s.acquire () _) (hcpu _).1 (hcpu _).2.1 (hcpu _).2.2 rfl hk
  | release hk =>
    obtain rfl := command_release h.thread hc hs
    refine Turn.calm h hother (s.release () _) ?_ ?_ ?_ rfl hk <;>
      simp [State.release, State.setCpu]
  | wakes ha hk =>
    obtain ⟨s1, push, hact, rfl⟩ := command_act h.thread hc hs
    obtain ⟨hcpu', hcodes, -, -, hps⟩ := wakes_act ha hact
    exact Turn.calm h hother s1 (by rw [hcpu']) (by rw [hcpu']) (by rw [hcpu']) hcodes
      (hk.append hps)

theorem turn_of_running (h : Running s p) (hpart : Part s p)
    (hother : ∀ i ≠ p, Calm i (s.code i)) (hs : step s l = some t)
    (hcall : ∀ c, l.choice = .call c → c = .yield) (hb : YieldsBehind s l) : Turn (some p) t := by
  have ht := h.thread
  have hzero : (s.cpu ()).noff = 0 → Calm p (s.code p) := by
    intro hn
    cases hpart with
    | calm hc => exact hc
    | setState k hpos => omega
    | swtch k hpos => omega
  by_cases hi : l.choice.isInterrupt = true
  · unfold step at hs
    cases hch : l.choice <;> simp only [hch, Choice.isInterrupt, reduceCtorEq] at hi hs
    · simp only [ht, Option.ite_none_right_eq_some, Option.some.injEq] at hs
      obtain ⟨hn, rfl⟩ := hs
      exact Turn.calm h hother s rfl rfl rfl rfl (.yield (hzero hn))
    · rename_i n chan
      simp only [ht, State.codeOf, Option.ite_none_right_eq_some, Option.some.injEq] at hs
      obtain ⟨hn, rfl⟩ := hs
      exact Turn.calm h hother s rfl rfl rfl rfl ((hzero hn).append (interrupt_wakes n chan))
  · have hi' : l.choice.isInterrupt = false := by simpa using hi
    rw [step_command hi'] at hs
    cases hpart with
    | calm hc => exact turn_of_calm h hother hc hcall hs
    | setState k hpos hk hc =>
      obtain ⟨q, hq, hr, hpre⟩ := hb hi' p ht (by simp [hc])
      have hne : q ≠ p := by
        rintro rfl
        unfold Preferred at hpre
        omega
      obtain ⟨s1, push, hact, rfl⟩ := command_act ht hc hs
      cases hact
      refine Turn.keep h hother (s.setProc p fun q => { q with state := .runnable }) rfl rfl rfl rfl
        (.swtch k hpos hk ⟨q, hq, ?_, ?_⟩ (by simp [State.setCode]))
      · simpa [State.setCode, State.setProc, hne] using hr
      · simpa [State.setCode, State.setProc, hne, Preferred] using hpre
    | swtch k hpos hk hbehind hc =>
      obtain ⟨q, hq, hr, hpre⟩ := hbehind
      obtain ⟨hscan, hcode, hsame⟩ := h.swtch hq hr (fun _ => rfl) hc hs
      obtain ⟨k', hk', hsched⟩ := h.sched
      refine .scanning p q s.proc rfl hpre hscan ⟨hscan.thread, ?_, ?_, fun i => ?_⟩
      · rw [hsame, hsched]
        simp [scheduler, Act.scans, hk']
      · rw [hsame, hsched]
        exact hk'
      · rw [hcode]
        by_cases hip : i = p
        · subst hip
          simpa using hk.release
        · simpa [hip] using hother i hip

theorem Turn.step {last : Option ℕ} (h : Turn last s) (hs : step s l = some t)
    (hcall : ∀ c, l.choice = .call c → c = .yield) (hb : YieldsBehind s l) :
    if l.choice.isInterrupt = true ∨ s.selecting = none then Turn last t
    else ∃ b, s.selecting = some b ∧ last ≠ some b ∧ Turn (some b) t := by
  have hselect : ∀ {b}, Idle s → s.selecting = some b → l.choice.isInterrupt = false →
      Turn (some b) t := by
    intro b hidle hsel hi
    obtain ⟨hrun, hcode⟩ := hidle.select hsel hi hs
    exact .running b rfl hrun (.calm (hcode ▸ hidle.calm b)) fun i _ => hcode ▸ hidle.calm i
  split_ifs with hc
  · cases h with
    | running p hlast hrun hpart hother =>
      exact hlast ▸ turn_of_running hrun hpart hother hs hcall hb
    | start hlast hidle => exact .start hlast (hidle.step hs hc)
    | scanning p q proc hlast hpre hscan hidle =>
      exact .scanning p q proc hlast hpre (hscan.step hs hc) (hidle.step hs hc)
  · rw [not_or, Bool.not_eq_true] at hc
    obtain ⟨b, hsel⟩ := Option.ne_none_iff_exists'.mp hc.2
    refine ⟨b, hsel, ?_⟩
    cases h with
    | running p hlast hrun => simp [selecting_of_thread hrun.thread] at hsel
    | start hlast hidle => exact ⟨by simp [hlast], hselect hidle hsel hc.1⟩
    | scanning p q proc hlast hpre hscan hidle =>
      refine ⟨?_, hselect hidle hsel hc.1⟩
      rw [hlast]
      exact fun he => Good.ne hpre (hscan.selects hsel) (Option.some.inj he).symm

theorem Alone.isInterrupt (h : Alone () l) : l.choice.isInterrupt = false := by
  obtain ⟨-, ht, hd⟩ := h
  cases hch : l.choice <;> simp_all [Choice.isInterrupt]

end Xv6.Sched
