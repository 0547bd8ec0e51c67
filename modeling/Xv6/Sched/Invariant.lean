import Xv6.Sched.Discipline

/-!
# The invariant of the scheduler

In every reachable state each CPU holds exactly the locks its code accounts for,
`c->proc` names the process that the CPU runs or has just stopped, and what a
thread relies on about a slot is true and relied on by no other thread. A step
is compared with the state before it through `Local`: whatever does not belong
to the stepping CPU stays as it is.
-/

namespace Xv6.Sched

open LockCode

/-- A process that has left its CPU or is about to. -/
def ProcState.Off (st : ProcState) : Prop := st = .runnable ∨ st = .sleeping ∨ st = .zombie

theorem ProcState.Off.not_running {st : ProcState} (h : st.Off) : st ≠ .running := by
  rcases h with rfl | rfl | rfl <;> simp

theorem ProcState.Off.not_unused {st : ProcState} (h : st.Off) : st ≠ .unused := by
  rcases h with rfl | rfl | rfl <;> simp

variable {C : Type}

/-- The code of every thread: of the process in a slot, or of a scheduler. -/
def State.codeAt (s : State C) : ℕ ⊕ C → Code
  | .inl p => s.code p
  | .inr c => (s.cpu c).sched

def tid (c : C) : Option ℕ → ℕ ⊕ C
  | some p => .inl p
  | none => .inr c

/-- The thread that CPU `c` executes. -/
def State.cur (s : State C) (c : C) : ℕ ⊕ C := tid c (s.thread c)

/-- A process that a CPU has as `c->proc` is running, or off the CPU once it
only has to switch. -/
def OnCpu (st : ProcState) (left : Bool) : Prop := if left then st.Off else st = .running

/-- Schedulers, and the threads of slots in use. -/
def State.Live (s : State C) (t : ℕ ⊕ C) : Prop := ∀ p, t = .inl p → (s.proc p).state ≠ .unused

structure Inv (s : State C) : Prop where
  typed : ∀ c, ∃ R, Holds s.holder c R ∧ (s.cpu c).noff = R.card ∧
    Typed (disc (s.thread c)) R (s.codeAt (s.cur c))
  parked : ∀ p, (s.proc p).state ≠ .unused → (∀ c, s.thread c ≠ some p) →
    Typed (disc (some p)) {.proc p} (s.code p) ∧ leaving (s.code p) = false ∧
      SleepOk p (s.code p)
  back : ∀ c p, (s.cpu c).proc = some p → (∃ k, (s.cpu c).sched = .act (.schedBack p) :: k) ∧
    Typed (disc none) {.proc p} (s.cpu c).sched
  onProc : ∀ c, (s.cpu c).onProc = true → ∃ p, (s.cpu c).proc = some p
  unique : ∀ c c' p, (s.cpu c).proc = some p → (s.cpu c').proc = some p → c = c'
  state : ∀ c p, (s.cpu c).proc = some p →
    OnCpu (s.proc p).state (!(s.cpu c).onProc || leaving (s.code p))
  running : ∀ p, (s.proc p).state = .running → ∃ c, (s.cpu c).proc = some p
  kept : ∀ t i st, s.Live t → (i, st) ∈ promises (s.codeAt t) → (s.proc i).state = st
  once : ∀ t t' i st st', s.Live t → s.Live t' → (i, st) ∈ promises (s.codeAt t) →
    (i, st') ∈ promises (s.codeAt t') → t = t'
  nodup : ∀ t, s.Live t → ((promises (s.codeAt t)).map Prod.fst).Nodup

/-- What a step of CPU `c` that does not switch leaves alone. -/
structure Local (c : C) (s s' : State C) : Prop where
  cpu : ∀ c', c' ≠ c → s'.cpu c' = s.cpu c'
  proc : (s'.cpu c).proc = (s.cpu c).proc
  onProc : (s'.cpu c).onProc = (s.cpu c).onProc
  code : ∀ t, t ≠ s.cur c → s'.codeAt t = s.codeAt t
  holds : ∀ c', c' ≠ c → ∀ R, Holds s.holder c' R → Holds s'.holder c' R

variable {s s' : State C} {c : C}

theorem Local.cpu_proc (h : Local c s s') (c' : C) : (s'.cpu c').proc = (s.cpu c').proc := by
  by_cases hc : c' = c
  · exact hc ▸ h.proc
  · rw [h.cpu c' hc]

theorem Local.thread (h : Local c s s') (c' : C) : s'.thread c' = s.thread c' := by
  by_cases hc : c' = c
  · subst hc; simp [State.thread, h.proc, h.onProc]
  · simp [State.thread, h.cpu c' hc]

theorem Local.cur (h : Local c s s') (c' : C) : s'.cur c' = s.cur c' := by
  simp [State.cur, h.thread c']

theorem thread_eq_some {p : ℕ} (h : s.thread c = some p) :
    (s.cpu c).onProc = true ∧ (s.cpu c).proc = some p := by
  by_cases ho : (s.cpu c).onProc = true <;> simp_all [State.thread]

theorem cur_of_thread {p : ℕ} (h : s.thread c = some p) : s.cur c = .inl p := by
  simp [State.cur, tid, h]

theorem Inv.cur_ne (h : Inv s) {c' : C} (hc : c' ≠ c) : s.cur c' ≠ s.cur c := by
  intro he
  rcases h1 : s.thread c' with _ | p <;> rcases h2 : s.thread c with _ | q <;>
    simp only [State.cur, tid, h1, h2, reduceCtorEq, Sum.inr.injEq, Sum.inl.injEq] at he
  · exact hc he
  · subst he
    exact hc (h.unique c' c p (thread_eq_some h1).2 (thread_eq_some h2).2)

theorem Inv.live_cur (h : Inv s) (c : C) : s.Live (s.cur c) := by
  intro p hp
  rcases ht : s.thread c with _ | q <;> simp [State.cur, tid, ht] at hp
  subst hp
  have hs := h.state c q (thread_eq_some ht).2
  unfold OnCpu at hs
  split at hs
  · exact hs.not_unused
  · simp [hs]

variable [DecidableEq C]

/-! ## The code of the stepping thread -/

section

variable (s : State C) (c : C) (k : Code) (t : Option ℕ)

@[simp] theorem setCode_proc : (s.setCode c k t).proc = s.proc := by cases t <;> rfl

@[simp] theorem setCode_holder : (s.setCode c k t).holder = s.holder := by cases t <;> rfl

@[simp] theorem setCode_hist : (s.setCode c k t).hist = s.hist := by cases t <;> rfl

theorem setCode_cpu_of_ne {c' : C} (h : c' ≠ c) : (s.setCode c k t).cpu c' = s.cpu c' := by
  cases t with
  | none => exact Function.update_of_ne h _ _
  | some p => rfl

@[simp] theorem setCode_cpu_proc : ((s.setCode c k t).cpu c).proc = (s.cpu c).proc := by
  cases t <;> simp [State.setCode, State.setCpu]

@[simp] theorem setCode_cpu_onProc : ((s.setCode c k t).cpu c).onProc = (s.cpu c).onProc := by
  cases t <;> simp [State.setCode, State.setCpu]

@[simp] theorem setCode_cpu_noff : ((s.setCode c k t).cpu c).noff = (s.cpu c).noff := by
  cases t <;> simp [State.setCode, State.setCpu]

@[simp] theorem setCode_codeAt : (s.setCode c k t).codeAt (tid c t) = k := by
  cases t <;> simp [State.setCode, State.setCpu, State.codeAt, tid]

theorem setCode_codeAt_of_ne {x : ℕ ⊕ C} (h : x ≠ tid c t) :
    (s.setCode c k t).codeAt x = s.codeAt x := by
  cases t with
  | none =>
    cases x with
    | inl p => rfl
    | inr c' =>
      have hc : c' ≠ c := fun he => h (by rw [he]; rfl)
      exact congrArg Cpu.sched (setCode_cpu_of_ne s c k none hc)
  | some p =>
    cases x with
    | inl q => exact Function.update_of_ne (fun he => h (by rw [he]; rfl)) _ _
    | inr c' => rfl

omit [DecidableEq C] in
theorem codeOf_eq_codeAt : s.codeOf c t = s.codeAt (tid c t) := by cases t <;> rfl

end

/-- Interrupts do not execute the next command. -/
def Choice.isInterrupt : Choice → Bool
  | .timer | .device _ _ => true
  | _ => false

theorem step_command {l : Label C} (hl : l.choice.isInterrupt = false) :
    step s l = s.command l.cpu l.choice := by
  obtain ⟨c, ch⟩ := l
  cases ch <;> first | rfl | cases hl

/-- The five kinds of step. -/
inductive Stepped (s : State C) (c : C) (ch : Choice) : State C → Prop
  | timer (p : ℕ) : ch = .timer → s.thread c = some p → (s.cpu c).noff = 0 →
      Stepped s c ch (s.setCode c (yield p ++ s.codeAt (s.cur c)) (s.thread c))
  | device (n chan : ℕ) : ch = .device n chan → (s.cpu c).noff = 0 →
      Stepped s c ch (s.setCode c (interrupt n chan ++ s.codeAt (s.cur c)) (s.thread c))
  | acquire (lk : Lock) (k : Code) : s.codeAt (s.cur c) = .acquire lk :: k → s.holder lk = none →
      Stepped s c ch ((s.acquire c lk).setCode c k (s.thread c))
  | release (lk : Lock) (k : Code) : s.codeAt (s.cur c) = .release lk :: k →
      s.holder lk = some c → Stepped s c ch ((s.release c lk).setCode c k (s.thread c))
  | act (a : Act) (k : Code) (s1 : State C) (push : Code) : ch.isInterrupt = false →
      s.codeAt (s.cur c) = .act a :: k → s.act c ch a = some (s1, push) →
      Stepped s c ch (s1.setCode c (push ++ k) (s.thread c))

theorem command_inv {ch : Choice} (hch : ch.isInterrupt = false)
    (h : s.command c ch = some s') : Stepped s c ch s' := by
  rw [State.command, codeOf_eq_codeAt] at h
  split at h
  · simp at h
  · rename_i lk k hcode
    split_ifs at h with hfree
    cases h
    exact .acquire lk k hcode hfree
  · rename_i lk k hcode
    split_ifs at h with hown
    cases h
    exact .release lk k hcode hown
  · rename_i a k hcode
    obtain ⟨⟨s1, push⟩, hact, rfl⟩ := Option.map_eq_some_iff.mp h
    exact .act a k s1 push hch hcode hact

theorem step_inv {l : Label C} (h : step s l = some s') : Stepped s l.cpu l.choice s' := by
  unfold step at h
  simp only at h
  split at h
  · rename_i hch
    split at h
    · rename_i p hp
      split_ifs at h with hn
      cases h
      have hs : Stepped s l.cpu l.choice _ := .timer p hch hp hn
      rw [cur_of_thread hp] at hs
      exact hs
    · simp at h
  · rename_i n chan hch
    split_ifs at h with hn
    cases h
    rw [codeOf_eq_codeAt]
    exact .device _ _ hch hn
  · rename_i ht hd
    refine command_inv ?_ h
    cases hch : l.choice <;> first | rfl | simp_all

/-! ## What a step has to guarantee -/

/-- What `c` does to the state before its own code changes. -/
structure Quiet (c : C) (s s1 : State C) : Prop where
  cpu : ∀ c', c' ≠ c → s1.cpu c' = s.cpu c'
  proc : (s1.cpu c).proc = (s.cpu c).proc
  onProc : (s1.cpu c).onProc = (s.cpu c).onProc
  code : s1.codeAt = s.codeAt
  holds : ∀ c', c' ≠ c → ∀ R, Holds s.holder c' R → Holds s1.holder c' R

omit [DecidableEq C] in
theorem Quiet.refl (c : C) (s : State C) : Quiet c s s :=
  ⟨fun _ _ => rfl, rfl, rfl, rfl, fun _ _ _ h => h⟩

theorem Quiet.setCode {s1 : State C} (h : Quiet c s s1) (k : Code) :
    Local c s (s1.setCode c k (s.thread c)) where
  cpu c' hc := by rw [setCode_cpu_of_ne _ _ _ _ hc, h.cpu c' hc]
  proc := by rw [setCode_cpu_proc, h.proc]
  onProc := by rw [setCode_cpu_onProc, h.onProc]
  code t ht := by rw [setCode_codeAt_of_ne _ _ _ _ ht, h.code]
  holds := by simpa using h.holds

/-- Slot states after a step of `c` that goes on with the code `k`. -/
structure StateOk (c : C) (s s1 : State C) (k : Code) : Prop where
  mine : ∀ p, s.thread c = some p → OnCpu (s1.proc p).state (leaving k)
  others : ∀ c', c' ≠ c → ∀ p left, (s.cpu c').proc = some p → OnCpu (s.proc p).state left →
    OnCpu (s1.proc p).state left
  running : ∀ p, (s1.proc p).state = .running → (s.proc p).state = .running
  parked : ∀ p, (s1.proc p).state ≠ .unused → (s.proc p).state = .unused →
    s.code p = forkret p

/-- What threads rely on after a step of `c` that goes on with the code `k`. -/
structure PromisesOk (c : C) (s s1 : State C) (k : Code) : Prop where
  kept : ∀ t, t ≠ s.cur c → s.Live t → ∀ i st, (i, st) ∈ promises (s.codeAt t) →
    (s1.proc i).state = st
  mine : ∀ i st, (i, st) ∈ promises k → (s1.proc i).state = st
  fresh : ∀ i st, (i, st) ∈ promises k → ∀ t, t ≠ s.cur c → s.Live t → ∀ st',
    (i, st') ∉ promises (s.codeAt t)
  nodup : ((promises k).map Prod.fst).Nodup

theorem Inv.next (h : Inv s) {s1 : State C} {k : Code} (hq : Quiet c s s1)
    (hmine : ∃ R, Holds s1.holder c R ∧ (s1.cpu c).noff = R.card ∧
      Typed (disc (s.thread c)) R k)
    (hback : (s.cpu c).onProc = false → (s.cpu c).proc = none)
    (hst : StateOk c s s1 k) (hpr : PromisesOk c s s1 k) :
    Inv (s1.setCode c k (s.thread c)) := by
  have hl := hq.setCode k
  have hcur : (s1.setCode c k (s.thread c)).codeAt (s.cur c) = k := setCode_codeAt _ _ _ _
  have hproc : (s1.setCode c k (s.thread c)).proc = s1.proc := setCode_proc _ _ _ _
  have hon : ∀ p, (s.cpu c).proc = some p → (s.cpu c).onProc = true := by
    intro p hp
    by_contra hf
    simp [hback (by simpa using hf)] at hp
  have hfork : ∀ p, (s1.proc p).state ≠ .unused → (s.proc p).state = .unused →
      (s1.setCode c k (s.thread c)).code p = forkret p := by
    intro p hp hu
    have hne : (.inl p : ℕ ⊕ C) ≠ s.cur c := fun he => h.live_cur c p he.symm hu
    exact (hl.code (.inl p) hne).trans (hst.parked p hp hu)
  -- a thread that a step wakes to life has only `forkret` before it
  have hlive : ∀ t, t ≠ s.cur c → (s1.setCode c k (s.thread c)).Live t →
      ∀ i st, (i, st) ∈ promises ((s1.setCode c k (s.thread c)).codeAt t) →
        s.Live t ∧ (i, st) ∈ promises (s.codeAt t) := by
    intro t ht hlv i st hm
    refine ⟨?_, hl.code t ht ▸ hm⟩
    rintro p rfl hu
    have hfk := hfork p (hproc ▸ hlv p rfl) hu
    rw [show (s1.setCode c k (s.thread c)).codeAt (.inl p) = forkret p from hfk] at hm
    simp [forkret, Act.promise] at hm
  constructor
  case typed =>
    intro c'
    rw [hl.thread, hl.cur]
    by_cases hc : c' = c
    · subst hc
      obtain ⟨R, hR, hn, ht⟩ := hmine
      exact ⟨R, by simpa using hR, by simpa using hn, by rw [hcur]; exact ht⟩
    · obtain ⟨R, hR, hn, ht⟩ := h.typed c'
      exact ⟨R, hl.holds c' hc R hR, by rw [hl.cpu c' hc, hn],
        by rw [hl.code _ (h.cur_ne hc)]; exact ht⟩
  case parked =>
    intro p hp hoff
    simp only [hl.thread, hproc] at hoff hp
    by_cases hu : (s.proc p).state = .unused
    · rw [hfork p hp hu]
      exact ⟨forkret_typed, rfl, forkret_sleepOk⟩
    · have hcode : (s1.setCode c k (s.thread c)).code p = s.code p :=
        hl.code (.inl p) fun he => by
          rcases ht : s.thread c with _ | q <;> simp [State.cur, tid, ht] at he
          exact hoff c (he ▸ ht)
      exact hcode ▸ h.parked p hu hoff
  case back =>
    intro c' p hp
    rw [hl.cpu_proc] at hp
    have hsched : ((s1.setCode c k (s.thread c)).cpu c').sched = (s.cpu c').sched := by
      by_cases hc : c' = c
      · subst hc
        exact hl.code (.inr c') (by simp [State.cur, tid, State.thread, hon p hp, hp])
      · rw [hl.cpu c' hc]
    rw [hsched]
    exact h.back c' p hp
  case onProc =>
    intro c' ho
    rw [hl.cpu_proc]
    refine h.onProc c' ?_
    by_cases hc : c' = c
    · subst hc; rw [← hl.onProc]; exact ho
    · rw [← hl.cpu c' hc]; exact ho
  case unique =>
    intro c1 c2 p h1 h2
    rw [hl.cpu_proc] at h1 h2
    exact h.unique c1 c2 p h1 h2
  case state =>
    intro c' p hp
    rw [hl.cpu_proc] at hp
    rw [hproc]
    by_cases hc : c' = c
    · subst hc
      have ht : s.thread c' = some p := by simp [State.thread, hon p hp, hp]
      have hm := hst.mine p ht
      rw [cur_of_thread ht] at hcur
      rw [show (s1.setCode c' k (s.thread c')).code p = k from hcur, hl.onProc, hon p hp]
      simpa using hm
    · have hleft : (!((s1.setCode c k (s.thread c)).cpu c').onProc ||
          leaving ((s1.setCode c k (s.thread c)).code p)) =
          (!(s.cpu c').onProc || leaving (s.code p)) := by
        rw [hl.cpu c' hc]
        by_cases hon' : (s.cpu c').onProc = true
        · have ht : s.thread c' = some p := by simp [State.thread, hon', hp]
          rw [show (s1.setCode c k (s.thread c)).code p = s.code p from
            hl.code (.inl p) (cur_of_thread ht ▸ h.cur_ne hc)]
        · simp [hon']
      rw [hleft]
      exact hst.others c' hc p _ hp (h.state c' p hp)
  case running =>
    intro p hp
    obtain ⟨c', hc'⟩ := h.running p (hst.running p (hproc ▸ hp))
    exact ⟨c', by rw [hl.cpu_proc]; exact hc'⟩
  case kept =>
    intro t i st hlv hm
    rw [hproc]
    by_cases ht : t = s.cur c
    · subst ht
      exact hpr.mine i st (hcur ▸ hm)
    · obtain ⟨hlv', hm'⟩ := hlive t ht hlv i st hm
      exact hpr.kept t ht hlv' i st hm'
  case once =>
    intro t t' i st st' hlv hlv' hm hm'
    by_cases ht : t = s.cur c <;> by_cases ht' : t' = s.cur c
    · rw [ht, ht']
    · obtain ⟨hl', hm''⟩ := hlive t' ht' hlv' i st' hm'
      subst ht
      exact absurd hm'' (hpr.fresh i st (hcur ▸ hm) t' ht' hl' st')
    · obtain ⟨hl', hm''⟩ := hlive t ht hlv i st hm
      subst ht'
      exact absurd hm'' (hpr.fresh i st' (hcur ▸ hm') t ht hl' st)
    · obtain ⟨hl1, hm1⟩ := hlive t ht hlv i st hm
      obtain ⟨hl2, hm2⟩ := hlive t' ht' hlv' i st' hm'
      exact h.once t t' i st st' hl1 hl2 hm1 hm2
  case nodup =>
    intro t hlv
    by_cases ht : t = s.cur c
    · subst ht
      rw [hcur]
      exact hpr.nodup
    · rcases hm : promises ((s1.setCode c k (s.thread c)).codeAt t) with _ | ⟨⟨i, st⟩, l⟩
      · simp
      · have hlv' := (hlive t ht hlv i st (by simp [hm])).1
        rw [← hm, hl.code t ht]
        exact h.nodup t hlv'

end Xv6.Sched
