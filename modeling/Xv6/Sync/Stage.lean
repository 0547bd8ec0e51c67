import Xv6.Sched.Family
import Xv6.Sync.Model

/-!
# Where a call stands

Outside the critical sections of the calls the code of a process is plain: it
touches no spinlock or channel of an object. Inside, the code is that of one of
finitely many stages, and the phase of the call tells which. Interrupts come only
with all spinlocks released, so they find plain code or a call about to enter.
-/

namespace Xv6.Sync

open LockCode Sched

/-! ## Plain code -/

def tameLock : Lock → Bool
  | .cond n => foreign n
  | _ => true

def tameChan : Option Chan → Bool
  | some (.addr a) => foreign a
  | _ => true

/-- Commands that touch no spinlock or channel of an object. -/
def tame : Cmd Lock Act → Bool
  | .acquire l | .release l => tameLock l
  | .act (.critical _ n) | .act (.killed _ n) => foreign n
  | .act (.setChan _ chan) | .act (.wakeup chan _) | .act (.wakeupLook chan _) => tameChan chan
  | .act _ => true

def Plain (k : Code) : Prop := k.all tame = true

@[simp] theorem plain_nil : Plain [] := rfl

@[simp] theorem plain_cons {x : Cmd Lock Act} {k : Code} :
    Plain (x :: k) ↔ tame x = true ∧ Plain k := by simp [Plain]

@[simp] theorem plain_append {k k' : Code} : Plain (k ++ k') ↔ Plain k ∧ Plain k' := by
  simp [Plain]

/-- Commands of the interrupt handlers. -/
def handler : Cmd Lock Act → Bool
  | .acquire l | .release l => tameLock l
  | .act (.setState _ st) => st == .runnable
  | .act (.swtch _) => true
  | .act (.wakeup chan _) | .act (.wakeupLook chan _) => tameChan chan
  | .act _ => false

theorem tame_of_handler {x : Cmd Lock Act} (h : handler x = true) : tame x = true := by
  cases x with
  | act a => cases a <;> first | rfl | exact h | simp [handler] at h
  | _ => exact h

theorem foreign_num (o : Obj) : foreign o.num = false := by
  cases o <;> simp [Obj.num, foreign]

theorem num_injective {o o' : Obj} (h : o.num = o'.num) : o = o' := by
  cases o <;> cases o' <;> simp only [Obj.num] at h <;> congr 1 <;> omega

/-- The choices at which a process outside the calls stays outside. -/
def allowed (ch : Sched.Choice) : Act → Bool
  | .user _ => match ch with
    | .call (.critical n) => foreign n
    | _ => true
  | .critical _ _ => match ch with
    | .sleep chan | .wakeup chan => foreign chan
    | _ => true
  | _ => true

variable {C : Type} [DecidableEq C]

section

variable {s s1 s' : Sched.State C} {c : C} {ch : Sched.Choice} {a : Act} {push k : Code}

theorem plain_code {p : ℕ} {call : Sched.Call} (hcode : call.code p = some push)
    (hch : ∀ n, call = .critical n → foreign n = true) : Plain push := by
  cases call with
  | critical n =>
    cases hcode
    simp [Sched.critical, tame, tameLock, hch n rfl]
  | _ =>
    simp only [Call.code] at hcode
    try split_ifs at hcode
    all_goals
      cases hcode
      rfl

theorem act_plain (hact : s.act c ch a = some (s1, push)) (ha : tame (.act a) = true)
    (hch : allowed ch a = true) : Plain push := by
  cases a with
  | user p =>
    cases ch <;> simp only [State.act, Option.map_eq_some_iff, reduceCtorEq] at hact
    rename_i call
    obtain ⟨code, hcode, he⟩ := hact
    obtain rfl : code = push := by split at he <;> exact (Prod.mk.inj he).2
    refine plain_code hcode fun n hn => ?_
    subst hn
    exact hch
  | critical p n =>
    replace ha : foreign n = true := ha
    cases ch <;> simp only [State.act, reduceCtorEq] at hact <;>
      cases hact <;>
      simp_all [Sched.sleep, Sched.wakeup, tame, tameLock, tameChan, allowed]
  | wakeup chan i =>
    replace ha : tameChan chan = true := ha
    simp only [State.act] at hact
    split_ifs at hact <;> cases hact <;>
      simp [tame, tameLock, ha]
  | wakeupLook chan i =>
    replace ha : tameChan chan = true := ha
    cases hact
    simp [tame, tameLock, ha]
  | wakeupParent p =>
    cases hact
    cases (s.proc p).parent <;> simp [Sched.wakeup, tame, tameChan]
  | killed p n =>
    replace ha : foreign n = true := ha
    cases hact
    simp [tame, tameLock, ha]
  | zombieExit p => simp [State.act] at hact
  | allocprocFound p kind i =>
    cases ch <;> simp only [State.act, reduceCtorEq] at hact <;>
      cases hact <;> rfl
  | schedScan i best | schedLook i best =>
    cases best <;> simp only [State.act] at hact <;> split_ifs at hact <;>
      cases hact <;> rfl
  | ret | setState | setZombie | setChan | allocpid | setParent | setRunnable | schedSwtch
  | schedBack =>
    cases hact
    rfl
  | _ =>
    simp only [State.act] at hact
    split_ifs at hact <;> cases hact <;> rfl

theorem act_handler (hact : s.act c ch a = some (s1, push)) (ha : handler (.act a) = true) :
    push.all handler = true := by
  cases a <;> simp only [handler, Bool.false_eq_true] at ha
  case wakeup chan i =>
    simp only [State.act] at hact
    split_ifs at hact <;> cases hact <;>
      simp [handler, tameLock, ha]
  case wakeupLook chan i =>
    cases hact
    simp [handler, tameLock, ha]
  case setState p st =>
    cases hact
    rfl
  case swtch p =>
    simp only [State.act] at hact
    split_ifs at hact
    cases hact
    rfl

end

/-! ## Stages -/

/-- The critical section, at a decision of the body. -/
def body (p n : ℕ) : Code := [.act (.critical p n), .act (.user p)]

/-- Where a call stands between `acquire` and `release` of its spinlock: in its
body, in `killed`, in `sleep` or in `wakeup`. -/
inductive Stage where
  | body
  | ask | look | answer
  | drowsy | release | setChan | setState | swtch | clear | unlock
  | wake (i : ℕ) | wakeAcquire (i : ℕ) | wakeLook (i : ℕ) | wakeRelease (i : ℕ)
  deriving DecidableEq

def Stage.code (p n : ℕ) : Stage → Code
  | .body => Sync.body p n
  | .ask => [.acquire (.proc p), .act (.killed p n), .act (.user p)]
  | .look => [.act (.killed p n), .act (.user p)]
  | .answer => .release (.proc p) :: Sync.body p n
  | .drowsy => sleep p (.addr n) (.cond n) ++ Sync.body p n
  | .release => (sleep p (.addr n) (.cond n)).drop 1 ++ Sync.body p n
  | .setChan => (sleep p (.addr n) (.cond n)).drop 2 ++ Sync.body p n
  | .setState => (sleep p (.addr n) (.cond n)).drop 3 ++ Sync.body p n
  | .swtch => (sleep p (.addr n) (.cond n)).drop 4 ++ Sync.body p n
  | .clear => (sleep p (.addr n) (.cond n)).drop 5 ++ Sync.body p n
  | .unlock => (sleep p (.addr n) (.cond n)).drop 6 ++ Sync.body p n
  | .wake i => .act (.wakeup (some (.addr n)) i) :: Sync.body p n
  | .wakeAcquire i =>
    .acquire (.proc i) :: .act (.wakeupLook (some (.addr n)) i) :: Sync.body p n
  | .wakeLook i => .act (.wakeupLook (some (.addr n)) i) :: Sync.body p n
  | .wakeRelease i =>
    .release (.proc i) :: .act (.wakeup (some (.addr n)) (i + 1)) :: Sync.body p n

/-- The stages in which the spinlock is held. -/
def Stage.inside : Stage → Bool
  | .setChan | .setState | .swtch | .clear | .unlock => false
  | _ => true

def Stage.fits : Stage → Phase → Bool
  | _, .initlock => false
  | .body, _ => true
  | .answer, .checked _ => true
  | .wake _, .woken | .wakeAcquire _, .woken | .wakeLook _, .woken | .wakeRelease _, .woken => true
  | .ask, .loop | .look, .loop | .drowsy, .loop | .release, .loop | .setChan, .loop => true
  | .setState, .loop | .swtch, .loop | .clear, .loop | .unlock, .loop => true
  | _, _ => false

/-- The steps that no decision of the body is needed for. -/
inductive Stage.Next (p : ℕ) : Stage → Stage → Prop
  | ask : Next p .ask .look
  | answer : Next p .answer .body
  | drowsy : Next p .drowsy .release
  | release : Next p .release .setChan
  | setChan : Next p .setChan .setState
  | setState : Next p .setState .swtch
  | swtch : Next p .swtch .clear
  | clear : Next p .clear .unlock
  | wake (i : ℕ) : i < nproc → Next p (.wake i) (.wakeAcquire i)
  | wakeSelf : Next p (.wake p) (.wake (p + 1))
  | wakeDone (i : ℕ) : nproc ≤ i → Next p (.wake i) .body
  | wakeAcquire (i : ℕ) : Next p (.wakeAcquire i) (.wakeLook i)
  | wakeLook (i : ℕ) : Next p (.wakeLook i) (.wakeRelease i)
  | wakeRelease (i : ℕ) : Next p (.wakeRelease i) (.wake (i + 1))

theorem Stage.Next.fits {p : ℕ} {st st' : Stage} (h : Next p st st') {ph : Phase}
    (hf : st.fits ph = true) : st'.fits ph = true := by
  cases h <;> cases ph <;> simp_all [Stage.fits]

section

variable {p n : ℕ} {R : Finset Lock} {st : Stage}

theorem Stage.owes_cond (h : st.inside = true) :
    Owes (disc (some p)) (.cond n) (st.code p n) := by
  cases st <;> simp_all [Stage.inside, Stage.code, Sync.body, sleep, Owes, disc, Act.Side]

theorem Stage.owes_proc (h : st.inside = false) :
    Owes (disc (some p)) (.proc p) (st.code p n) := by
  cases st <;> simp_all [Stage.inside, Stage.code, Sync.body, sleep, Owes, disc, Act.Side]

theorem Stage.locks_ne (h : Typed (disc (some p)) R (st.code p n)) : R ≠ ∅ := by
  rintro rfl
  cases hi : st.inside with
  | true => simpa using h.mem_of_owes (owes_cond hi)
  | false => simpa using h.mem_of_owes (owes_proc hi)

end

/-- How the code of the process in slot `p` relates to its call. -/
inductive Shape (p : ℕ) : Option (Op × Phase) → Code → Prop
  | plain {k : Code} : Plain k → Shape p none k
  | leave (o : Obj) : Shape p none [.release (.cond o.num), .act (.user p)]
  | initlock {o : Op} {pre : Code} : pre.all handler = true →
      Shape p (some (o, .initlock)) (pre ++ [.act (.user p)])
  | enter {o : Op} {pre : Code} : pre.all handler = true →
      Shape p (some (o, .loop)) (pre ++ .acquire (.cond o.obj.num) :: body p o.obj.num)
  | stage {o : Op} {ph : Phase} (st : Stage) : st.fits ph = true →
      Shape p (some (o, ph)) (st.code p o.obj.num)

section

variable {s s1 s' : Sched.State C} {c : C} {ch : Sched.Choice} {p n : ℕ} {st : Stage}

omit [DecidableEq C] in
theorem typed_of_noff (hinv : Inv s) (ht : s.thread c = some p) (hn : (s.cpu c).noff = 0) :
    Typed (disc (some p)) ∅ (s.code p) := by
  obtain ⟨-, hty⟩ := hinv.typed_empty hn
  rwa [ht, cur_of_thread ht] at hty

theorem stage_next (hinv : Inv s) (ht : s.thread c = some p) (hcode : s.code p = st.code p n)
    (hbody : st ≠ .body) (hlook : st ≠ .look) (hstep : Sched.step s ⟨c, ch⟩ = some s') :
    st = .unlock ∧ s'.code p = .acquire (.cond n) :: body p n ∨
      ∃ st', st.Next p st' ∧ s'.code p = st'.code p n := by
  have hcur : s.codeAt (s.cur c) = st.code p n := by rw [cur_of_thread ht]; exact hcode
  have hbusy : (s.cpu c).noff ≠ 0 := fun hn =>
    Stage.locks_ne (hcode ▸ typed_of_noff hinv ht hn) rfl
  have hnew : ∀ (s1 : Sched.State C) k, (s1.setCode c k (s.thread c)).code p = k :=
    fun s1 k => by rw [setCode_code, if_pos ht]
  cases (step_inv hstep : Stepped s c ch s') with
  | timer q hch hq hn => exact absurd hn hbusy
  | device m chan hch hn => exact absurd hn hbusy
  | acquire lk k hk hfree =>
    rw [hcur] at hk
    rw [hnew]
    cases st <;> simp only [Stage.code, body, sleep, List.drop, List.cons_append, List.nil_append,
      List.cons.injEq, reduceCtorEq, false_and] at hk <;> obtain ⟨-, rfl⟩ := hk
    · exact .inr ⟨_, .ask, rfl⟩
    · exact .inr ⟨_, .drowsy, rfl⟩
    · exact .inr ⟨_, .wakeAcquire _, rfl⟩
  | release lk k hk hown =>
    rw [hcur] at hk
    rw [hnew]
    cases st <;> simp only [Stage.code, body, sleep, List.drop, List.cons_append, List.nil_append,
      List.cons.injEq, reduceCtorEq, false_and] at hk <;> obtain ⟨-, rfl⟩ := hk
    · exact .inr ⟨_, .answer, rfl⟩
    · exact .inr ⟨_, .release, rfl⟩
    · exact .inl ⟨rfl, rfl⟩
    · exact .inr ⟨_, .wakeRelease _, rfl⟩
  | act a k s1 push hch hk hact =>
    rw [hcur] at hk
    rw [hnew]
    cases st <;> simp only [Stage.code, body, sleep, List.drop, List.cons_append, List.nil_append,
      List.cons.injEq, reduceCtorEq, false_and, Cmd.act.injEq] at hk <;> obtain ⟨rfl, rfl⟩ := hk
    case body => exact absurd rfl hbody
    case look => exact absurd rfl hlook
    case setChan =>
      cases hact
      exact .inr ⟨_, .setChan, rfl⟩
    case setState =>
      cases hact
      exact .inr ⟨_, .setState, rfl⟩
    case swtch =>
      simp only [State.act] at hact
      split_ifs at hact
      cases hact
      exact .inr ⟨_, .swtch, rfl⟩
    case clear =>
      cases hact
      exact .inr ⟨_, .clear, rfl⟩
    case wake i =>
      simp only [State.act] at hact
      split_ifs at hact with hi hme <;> cases hact
      · obtain rfl : p = i := Option.some.inj ((thread_eq_some ht).2.symm.trans hme)
        exact .inr ⟨_, .wakeSelf, rfl⟩
      · exact .inr ⟨_, .wake i hi, rfl⟩
      · exact .inr ⟨_, .wakeDone i (by omega), rfl⟩
    case wakeLook i =>
      cases hact
      exact .inr ⟨_, .wakeLook i, rfl⟩

/-- The actions at which a call, or the process outside its calls, decides. -/
def decides : Act → Bool
  | .user _ | .critical _ _ | .killed _ _ => true
  | _ => false

/-- What the guard of scheduler steps gives for a process with the call `op`. -/
structure Guard (ch : Sched.Choice) (op : Option (Op × Phase)) (k : Code) : Prop where
  allowed : ∀ a k', k = .act a :: k' → ch.isInterrupt = false → allowed ch a = true
  decides : ∀ a k', k = .act a :: k' → ch.isInterrupt = false → decides a = true → op = none
  device : ∀ n chan, ch = .device n chan → foreign n = true ∧ foreign chan = true

theorem interrupt_front (hch : ch.isInterrupt = true) {op : Option (Op × Phase)}
    (hg : Guard ch op (s.code p)) (ht : s.thread c = some p)
    (hstep : Sched.step s ⟨c, ch⟩ = some s') :
    ∃ pre : Code, pre.all handler = true ∧ s'.code p = pre ++ s.code p ∧ (s.cpu c).noff = 0 := by
  have hnew : ∀ (s1 : Sched.State C) k, (s1.setCode c k (s.thread c)).code p = k :=
    fun s1 k => by rw [setCode_code, if_pos ht]
  unfold Sched.step at hstep
  cases ch <;> simp only [Choice.isInterrupt, reduceCtorEq] at hch
  case timer =>
    simp only [ht] at hstep
    split_ifs at hstep with hn
    cases hstep
    exact ⟨yield p, rfl, by rw [← ht, hnew], hn⟩
  case device n chan =>
    obtain ⟨h1, h2⟩ := hg.device n chan rfl
    simp only at hstep
    split_ifs at hstep with hn
    cases hstep
    refine ⟨interrupt n chan, ?_, ?_, hn⟩
    · simp [interrupt, handler, tameLock, tameChan, h1, h2]
    · rw [hnew, ht]; rfl

/-- The front of the code keeps a property that handlers have and actions keep. -/
theorem front_next {op : Option (Op × Phase)} (hg : Guard ch op (s.code p))
    (ht : s.thread c = some p) {good : Cmd Lock Act → Bool} {pre rest : Code}
    (hcode : s.code p = pre ++ rest) (hpre : pre.all good = true)
    (hhandler : ∀ x, handler x = true → good x = true)
    (hact : ∀ a k s1 push, s.code p = .act a :: k → ch.isInterrupt = false →
      good (.act a) = true → s.act c ch a = some (s1, push) → push.all good = true)
    (hne : pre = [] → ch.isInterrupt = true) (hstep : Sched.step s ⟨c, ch⟩ = some s') :
    ∃ pre' : Code, pre'.all good = true ∧ s'.code p = pre' ++ rest := by
  by_cases hi : ch.isInterrupt = true
  · obtain ⟨pre', hpre', hnew, -⟩ := interrupt_front hi hg ht hstep
    refine ⟨pre' ++ pre, ?_, by rw [hnew, hcode, List.append_assoc]⟩
    rw [List.all_append, hpre, Bool.and_true, List.all_eq_true]
    exact fun x hx => hhandler x (List.all_eq_true.mp hpre' x hx)
  · simp only [Bool.not_eq_true] at hi
    cases pre with
    | nil => simp [hi] at hne
    | cons x pre =>
      obtain ⟨hx, htail⟩ := Bool.and_eq_true_iff.mp hpre
      have hnew : ∀ (s1 : Sched.State C) k, (s1.setCode c k (s.thread c)).code p = k :=
        fun s1 k => by rw [setCode_code, if_pos ht]
      have hcur : s.codeAt (s.cur c) = x :: (pre ++ rest) := by
        rw [cur_of_thread ht]; exact hcode
      cases (step_inv hstep : Stepped s c ch s') with
      | timer q he hq hn => subst he; cases hi
      | device m chan he hn => subst he; cases hi
      | acquire lk k hk _ | release lk k hk _ =>
        obtain ⟨-, rfl⟩ := List.cons.inj (hcur.symm.trans hk)
        exact ⟨pre, htail, hnew _ _⟩
      | act a k s1 push _ hk ha =>
        obtain ⟨rfl, rfl⟩ := List.cons.inj (hcur.symm.trans hk)
        refine ⟨push ++ pre, ?_, by rw [hnew, List.append_assoc]⟩
        rw [List.all_append, htail, Bool.and_true]
        exact hact a _ s1 push hcode hi hx ha

theorem lock_code (hch : ch.isInterrupt = false) (ht : s.thread c = some p) {x : Cmd Lock Act}
    {k : Code} (hcode : s.code p = x :: k) (hx : ∀ a, x ≠ .act a)
    (hstep : Sched.step s ⟨c, ch⟩ = some s') : s'.code p = k := by
  have hcur : s.codeAt (s.cur c) = x :: k := by rw [cur_of_thread ht]; exact hcode
  cases (step_inv hstep : Stepped s c ch s') with
  | timer q he hq hn => subst he; cases hch
  | device m chan he hn => subst he; cases hch
  | acquire lk k hk _ | release lk k hk _ =>
    rw [setCode_code, if_pos ht]
    exact (List.cons.inj (hk.symm.trans hcur)).2
  | act a k s1 push _ hk hact => exact absurd (List.cons.inj (hcur.symm.trans hk)).1 (hx a)

theorem act_of_step (hch : ch.isInterrupt = false) (ht : s.thread c = some p) {a : Act} {k : Code}
    (hcode : s.code p = .act a :: k) (hstep : Sched.step s ⟨c, ch⟩ = some s') :
    ∃ s1 push, s.act c ch a = some (s1, push) ∧
      s' = s1.setCode c (push ++ k) (s.thread c) ∧ s'.code p = push ++ k := by
  have hcur : s.codeAt (s.cur c) = .act a :: k := by rw [cur_of_thread ht]; exact hcode
  cases (step_inv hstep : Stepped s c ch s') with
  | timer q he hq hn => subst he; cases hch
  | device m chan he hn => subst he; cases hch
  | acquire lk k hk _ | release lk k hk _ => simp [hcur] at hk
  | act a k s1 push _ hk hact =>
    obtain ⟨ha, rfl⟩ := List.cons.inj (hcur.symm.trans hk)
    cases ha
    exact ⟨s1, push, hact, rfl, by rw [setCode_code, if_pos ht]⟩

/-- How a step of the scheduler model changes the code of the stepping process. -/
inductive Own (p : ℕ) : Option (Op × Phase) → Code → Code → Prop
  | plain {k k' : Code} : Plain k' → Own p none k k'
  | initlock {o : Op} {k pre : Code} : pre.all handler = true →
      Own p (some (o, .initlock)) k (pre ++ [.act (.user p)])
  | enter {o : Op} {k pre : Code} : pre.all handler = true →
      Own p (some (o, .loop)) k (pre ++ .acquire (.cond o.obj.num) :: body p o.obj.num)
  | acquire {o : Op} : Own p (some (o, .loop))
      (.acquire (.cond o.obj.num) :: body p o.obj.num) (body p o.obj.num)
  | next {o : Op} {ph : Phase} {st st' : Stage} : st.fits ph = true → st.Next p st' →
      Own p (some (o, ph)) (st.code p o.obj.num) (st'.code p o.obj.num)

theorem Own.shape {op : Option (Op × Phase)} {k k' : Code} (h : Own p op k k') :
    Shape p op k' := by
  cases h with
  | plain hpl => exact .plain hpl
  | initlock hpre => exact .initlock hpre
  | enter hpre => exact .enter hpre
  | acquire => exact .stage .body rfl
  | next hfit hnext => exact .stage _ (hnext.fits hfit)

theorem Shape.own {op : Option (Op × Phase)} (hinv : Inv s) (ht : s.thread c = some p)
    (h : Shape p op (s.code p)) (hg : Guard ch op (s.code p))
    (hstep : Sched.step s ⟨c, ch⟩ = some s') : Own p op (s.code p) (s'.code p) := by
  have hbusy : ∀ {l}, Owes (disc (some p)) l (s.code p) → ch.isInterrupt = false := by
    intro l hl
    by_contra hi
    obtain ⟨-, -, -, hn⟩ := interrupt_front (by simpa using hi) hg ht hstep
    simpa using (typed_of_noff hinv ht hn).mem_of_owes hl
  have hempty : s.code p = [] → ch.isInterrupt = true := by
    intro hk
    by_contra hi
    simp only [Bool.not_eq_true] at hi
    cases (step_inv hstep : Stepped s c ch s') with
    | timer q he hq hn => subst he; cases hi
    | device m chan he hn => subst he; cases hi
    | acquire lk k hk' _ | release lk k hk' _ | act a k s1 push _ hk' hact =>
      rw [cur_of_thread ht] at hk'
      simp [State.codeAt, hk] at hk'
  have hfront : ∀ {pre rest : Code}, s.code p = pre ++ rest → pre.all handler = true →
      (pre = [] → ch.isInterrupt = true) →
      ∃ pre' : Code, pre'.all handler = true ∧ s'.code p = pre' ++ rest :=
    fun hcode hpre hne => front_next hg ht hcode hpre (fun _ hx => hx)
      (fun a k s1 push _ _ ha hact => act_handler hact ha) hne hstep
  generalize hk : s.code p = k at h ⊢
  cases h with
  | plain hpl =>
    obtain ⟨pre', hpre', hnew⟩ := front_next hg ht (hk.trans (List.append_nil k).symm) hpl
      (fun _ hx => tame_of_handler hx)
      (fun a k' s1 push hc hi ha hact => act_plain hact ha (hg.allowed a k' hc hi))
      (fun he => hempty (hk.trans he)) hstep
    rw [hnew, List.append_nil]
    exact .plain hpre'
  | @initlock o pre hpre =>
    obtain ⟨pre', hpre', hnew⟩ := hfront hk hpre fun he => by
      by_contra hi
      subst he
      simpa using hg.decides (.user p) [] hk (by simpa using hi) rfl
    rw [hnew]
    exact .initlock hpre'
  | leave o =>
    have hi := hbusy (l := .cond o.num) (by simp [hk, Owes])
    rw [lock_code hi ht hk (by simp) hstep]
    exact .plain rfl
  | @enter o pre hpre =>
    by_cases hne : pre = [] ∧ ch.isInterrupt = false
    · obtain ⟨rfl, hi⟩ := hne
      rw [lock_code hi ht hk (by simp) hstep]
      exact .acquire
    · obtain ⟨pre', hpre', hnew⟩ := hfront hk hpre fun he => by simpa [he] using hne
      rw [hnew]
      exact .enter hpre'
  | @stage o ph st hfit =>
    have hdec : ∀ {a k'}, st.code p o.obj.num = .act a :: k' → decides a = false := by
      intro a k' hc
      by_contra hd
      have hi : ch.isInterrupt = false := by
        cases hin : st.inside with
        | true => exact hbusy (hk ▸ Stage.owes_cond hin)
        | false => exact hbusy (hk ▸ Stage.owes_proc hin)
      simpa using hg.decides a k' (hk.trans hc) hi (by simpa using hd)
    have hbody : st ≠ .body := by
      rintro rfl
      simpa [decides] using hdec (a := .critical p o.obj.num) rfl
    have hlook : st ≠ .look := by
      rintro rfl
      simpa [decides] using hdec (a := .killed p o.obj.num) rfl
    rcases stage_next hinv ht hk hbody hlook hstep with ⟨rfl, hnew⟩ | ⟨st', hnext, hnew⟩
    · rw [hnew]
      cases ph <;> simp only [Stage.fits, reduceCtorEq] at hfit
      exact @Own.enter p o _ [] rfl
    · rw [hnew]
      exact .next hfit hnext

theorem Shape.last {x : Op × Phase} {k : Code} (h : Shape p (some x) k) :
    k.getLast? = some (.act (.user p)) := by
  cases h with
  | initlock hpre => simp
  | enter hpre => simp [body]
  | stage st hfit => cases st <;> simp [Stage.code, body, sleep]

theorem other_code (hinv : Inv s) (hstep : Sched.step s ⟨c, ch⟩ = some s') {q : ℕ}
    (hq : s.thread c ≠ some q) (hlive : (s'.proc q).state ≠ .unused) :
    (s.proc q).state ≠ .unused ∧ s'.code q = s.code q ∨
      (s.proc q).state = .unused ∧ s'.code q = forkret q := by
  have hset : ∀ (s1 : Sched.State C) k, (s1.setCode c k (s.thread c)).code q = s1.code q :=
    fun s1 k => by rw [setCode_code, if_neg hq]
  have hquiet : ∀ (s1 : Sched.State C) k, s' = s1.setCode c k (s.thread c) → s1.code = s.code →
      s1.proc = s.proc → (s.proc q).state ≠ .unused ∧ s'.code q = s.code q := by
    rintro s1 k rfl hcode hproc
    rw [setCode_proc, hproc] at hlive
    exact ⟨hlive, by rw [hset, hcode]⟩
  cases (step_inv hstep : Stepped s c ch s') with
  | timer p he hp hn => exact .inl (hquiet s _ rfl rfl rfl)
  | device m chan he hn => exact .inl (hquiet s _ rfl rfl rfl)
  | acquire lk k hk hfree => exact .inl (hquiet _ _ rfl rfl rfl)
  | release lk k hk hown => exact .inl (hquiet _ _ rfl rfl rfl)
  | act a k s1 push _ hk hact =>
    rw [setCode_proc] at hlive
    rw [hset]
    by_cases hu : (s.proc q).state = .unused
    · rcases (hu ▸ hinv.act_change hk hact q).of_unused with he | ⟨r, kind, rfl, he⟩
      · exact absurd he hlive
      · exact .inr ⟨hu, alloc_code hact hu he⟩
    · rcases act_code hact q with hc | ⟨⟨r, kind, rfl⟩, -⟩
      · exact .inl ⟨hu, hc⟩
      · have hm := hinv.kept _ q .unused (hinv.live_cur c) (by rw [hk]; simp [Act.promise])
        exact absurd hm hu

theorem ended_of_step (hinv : Inv s) (hstep : Sched.step s ⟨c, ch⟩ = some s') {q : ℕ}
    (hq : (s'.proc q).state = .unused ∨ (s'.proc q).state = .zombie) :
    ((s.proc q).state = .unused ∨ (s.proc q).state = .zombie) ∨
      (s.proc q).state ≠ .unused ∧ ∃ k, s.code q = k ∧ k.getLast? = some (.act (.zombieExit q)) := by
  rcases step_act_or (step_inv hstep : Stepped s c ch s') with
    ⟨a, k, s1, push, hk, hact, rfl⟩ | ⟨hp, -, -⟩
  · rw [setCode_proc] at hq
    have hchange := hinv.act_change hk hact q
    rcases hq with hq | hq
    · rcases (hq ▸ hchange).to_unused with hu | ⟨r, w, -, hz⟩
      · exact .inl (.inl hu)
      · exact .inl (.inr hz)
    · rcases (hq ▸ hchange).to_zombie with hz | ⟨status, rfl, hrun⟩
      · exact .inl (.inr hz)
      · obtain ⟨R, -, hside, -⟩ := hinv.side hk
        obtain ⟨S, -, -, hty⟩ := hinv.typed c
        rw [hk] at hty
        obtain rfl : k = _ := hty.1.2.2
        rw [cur_of_thread hside.1] at hk
        exact .inr ⟨by simp [hrun], _, hk, rfl⟩
  · rw [hp] at hq
    exact .inl hq

theorem act_sched {a : Act} {push : Code} (hact : s.act c ch a = some (s1, push)) (c' : C) :
    (s1.cpu c').sched = (s.cpu c').sched := by
  have hset : ∀ (s0 : Sched.State C) f, s0.cpu = s.cpu → (∀ u : Cpu, (f u).sched = u.sched) →
      ((s0.setCpu c f).cpu c').sched = (s.cpu c').sched := by
    intro s0 f h0 hf
    by_cases hc : c' = c
    · subst hc; simp [State.setCpu, hf, h0]
    · simp [State.setCpu, hc, h0]
  by_cases hloc : a.local = true
  · rw [(act_local hloc hact).1]
  · cases a <;> simp only [Act.local, not_true_eq_false] at hloc
    case swtch q =>
      simp only [State.act] at hact
      split_ifs at hact
      cases hact
      exact hset s _ rfl fun _ => rfl
    case schedSwtch | schedBack =>
      cases hact
      exact hset _ _ rfl fun _ => rfl
    case allocprocFound q kind i =>
      cases ch <;> simp only [State.act, reduceCtorEq] at hact <;>
        cases hact <;> rfl

theorem setCode_sched (s : Sched.State C) (c c' : C) (k : Code) (t : Option ℕ) :
    ((s.setCode c k t).cpu c').sched = if t = none ∧ c' = c then k else (s.cpu c').sched := by
  cases t with
  | some q => simp [State.setCode]
  | none =>
    by_cases hc : c' = c
    · subst hc; simp [State.setCode, State.setCpu]
    · simp [State.setCode, State.setCpu, hc]

theorem sched_plain (hinv : Inv s) (hpl : ∀ c, Plain (s.cpu c).sched)
    (hdev : ∀ n chan, ch = .device n chan → foreign n = true ∧ foreign chan = true)
    (hstep : Sched.step s ⟨c, ch⟩ = some s') (c' : C) : Plain (s'.cpu c').sched := by
  have hset : ∀ (s1 : Sched.State C) k, (∀ c', (s1.cpu c').sched = (s.cpu c').sched) →
      (s.thread c = none → Plain k) → Plain ((s1.setCode c k (s.thread c)).cpu c').sched := by
    intro s1 k hsame hk
    rw [setCode_sched]
    split_ifs with hc
    · exact hk hc.1
    · rw [hsame]; exact hpl c'
  have hcur : s.thread c = none → s.codeAt (s.cur c) = (s.cpu c).sched := fun ht => by
    simp [State.cur, ht, tid, State.codeAt]
  cases (step_inv hstep : Stepped s c ch s') with
  | timer p he hp hn => exact hset s _ (fun _ => rfl) fun ht => by simp [ht] at hp
  | device m chan he hn =>
    obtain ⟨h1, h2⟩ := hdev m chan he
    refine hset s _ (fun _ => rfl) fun ht => ?_
    rw [hcur ht]
    simp [interrupt, tame, tameLock, tameChan, h1, h2, hpl c]
  | acquire lk k hk hfree | release lk k hk hown =>
    refine hset _ k (fun c' => ?_) fun ht => ?_
    · by_cases hc : c' = c
      · subst hc; simp [State.acquire, State.release, State.setCpu]
      · simp [State.acquire, State.release, State.setCpu, hc]
    · have hall := hpl c
      rw [← hcur ht, hk] at hall
      exact (plain_cons.mp hall).2
  | act a k s1 push _ hk hact =>
    refine hset s1 _ (act_sched hact) fun ht => ?_
    obtain ⟨R, -, hside, -⟩ := hinv.side hk
    have hall := hpl c
    rw [← hcur ht, hk] at hall
    obtain ⟨ha, hrest⟩ := plain_cons.mp hall
    -- a scheduler makes no system call and is in no critical section
    have hch : allowed ch a = true := by
      rw [ht] at hside
      cases a <;> first | rfl | simp [Act.Side] at hside
    exact plain_append.mpr ⟨act_plain hact ha hch, hrest⟩

end

end Xv6.Sync
