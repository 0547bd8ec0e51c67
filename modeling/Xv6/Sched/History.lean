import Xv6.Sched.Family

/-!
# The history of exits and wait calls

A zombie keeps the status of its last exit until it is reaped, and the code of a
process in a wait call agrees with the last event the process has recorded: while
the call searches this is its beginning, and when it returns for a child it is the
reaping of that child. Every recorded event therefore continues its history.
-/

namespace Xv6.Sched

open LockCode

/-! ## Events -/

/-- The process that makes the call an event belongs to. -/
def Event.caller : Event → Option ℕ
  | .begin p _ | .reap p _ _ _ _ | .ret p _ _ _ => some p
  | .exit _ _ => none

/-- The child whose life an event belongs to. -/
def Event.child : Event → Option ℕ
  | .exit p _ => some p
  | .reap _ q _ _ _ => some q
  | _ => none

/-- The last event of the calls of `p`. -/
def lastCall (p : ℕ) (hist : List Event) : Option Event :=
  (hist.filter fun e => e.caller = some p).getLast?

/-- The last event in the life of `q` as a child. -/
def lastLife (q : ℕ) (hist : List Event) : Option Event :=
  (hist.filter fun e => e.child = some q).getLast?

theorem lastCall_log (p : ℕ) (hist : List Event) (e : Event) :
    lastCall p (hist ++ [e]) = if e.caller = some p then some e else lastCall p hist := by
  by_cases h : e.caller = some p <;> simp [lastCall, List.filter_append, h]

theorem lastLife_log (q : ℕ) (hist : List Event) (e : Event) :
    lastLife q (hist ++ [e]) = if e.child = some q then some e else lastLife q hist := by
  by_cases h : e.child = some q <;> simp [lastLife, List.filter_append, h]

/-- The pids that a call may reap. -/
def WaitCall.wants (w : WaitCall) (pid : ℤ) : Prop :=
  match w with
  | .kwait _ => True
  | .kwaitpid pid' _ => pid = pid'
  | .kthreadJoin tid => pid = tid

theorem wants_of_accepts {w : WaitCall} {p : ℕ} {q : Proc} (h : w.accepts p q = true) :
    w.wants q.pid := by
  cases w <;> simp_all [WaitCall.accepts, WaitCall.wants]

/-- A call of `p` that returns `value` for the reason `why`, after its last event:
for a child it reaped it returns what the call returns for it, and otherwise it
returns -1 and has reaped nothing. -/
def Returns (p : ℕ) (w : WaitCall) (value : ℤ) (why : Outcome) (last : Option Event) : Prop :=
  match why with
  | .reaped q => ∃ pid status, last = some (.reap p q w pid status) ∧ value = w.result pid status
  | .noChild | .killed | .copyout => value = -1 ∧ last = some (.begin p w)

/-- How an event continues the history before it. A call reaps a child whose last
event is its exit, with the status of that exit, and at most one child. -/
def EventOk (before : List Event) : Event → Prop
  | .reap p q w pid status => lastLife q before = some (.exit q status) ∧ w.wants pid ∧
      lastCall p before = some (.begin p w)
  | .ret p w value why => Returns p w value why (lastCall p before)
  | .exit _ _ | .begin _ _ => True

def HistoryOk (hist : List Event) : Prop :=
  ∀ before e after, hist = before ++ e :: after → EventOk before e

theorem historyOk_nil : HistoryOk [] := by
  intro before e after h
  simp at h

theorem historyOk_log {hist : List Event} {e : Event} (h : HistoryOk hist)
    (he : EventOk hist e) : HistoryOk (hist ++ [e]) := by
  intro before e' after heq
  rcases List.eq_nil_or_concat after with rfl | ⟨after', x, rfl⟩
  · obtain ⟨rfl, he'⟩ := List.append_inj' heq rfl
    obtain rfl : e = e' := by simpa using he'
    exact he
  · rw [List.concat_eq_append, ← List.cons_append, ← List.append_assoc] at heq
    exact h before e' after' (List.append_inj' heq rfl).1

/-! ## The calls in the code -/

/-- What the pending action says about the call a process is in. -/
def Act.CallOk (p : ℕ) (last : Option Event) : Act → Prop
  | .scan q w _ _ | .look q w _ | .readKilled q w => q = p → last = some (.begin p w)
  | .ret q w value why => q = p → Returns p w value why last
  | _ => True

/-- The actions of the wait calls. -/
def Act.isCall : Act → Bool
  | .scan _ _ _ _ | .look _ _ _ | .readKilled _ _ | .ret _ _ _ _ => true
  | _ => false

def noCalls (k : Code) : Bool := k.all fun x => match x with
  | .act b => !b.isCall
  | _ => true

theorem callOk_of_not {p : ℕ} {last : Option Event} {b : Act} (h : b.isCall = false) :
    b.CallOk p last := by
  cases b <;> trivial

theorem callOk_of_noCalls {p : ℕ} {last : Option Event} {k : Code} (h : noCalls k = true)
    {b : Act} (hb : .act b ∈ k) : b.CallOk p last := by
  have hx := List.all_eq_true.mp h _ hb
  exact callOk_of_not (by simpa using hx)

variable {C : Type} [DecidableEq C] {s s1 s' : State C} {c : C} {ch : Choice} {a : Act}
  {push k : Code}

structure History (s : State C) : Prop where
  zombie : ∀ q, (s.proc q).state = .zombie →
    lastLife q s.hist = some (.exit q (s.proc q).xstate)
  call : ∀ p, (s.proc p).state ≠ .unused → ∀ b, .act b ∈ s.code p →
    b.CallOk p (lastCall p s.hist)
  events : HistoryOk s.hist

/-! ## What actions record -/

inductive Logged (s s1 : State C) : Act → Event → Prop
  | begin (p : ℕ) (w : WaitCall) : Logged s s1 (.user p) (.begin p w)
  | ret (p : ℕ) (w : WaitCall) (value : ℤ) (why : Outcome) :
      Logged s s1 (.ret p w value why) (.ret p w value why)
  | exit (p : ℕ) (status : ℤ) : Logged s s1 (.setZombie p status) (.exit p status)
  | reap (p : ℕ) (w : WaitCall) (i : ℕ) : (s.proc i).state = .zombie →
      (s1.proc i).state = .unused →
      Logged s s1 (.look p w i) (.reap p i w (s.proc i).pid (s.proc i).xstate)

theorem act_hist (hact : s.act c ch a = some (s1, push)) :
    s1.hist = s.hist ∨ ∃ e, s1.hist = s.hist ++ [e] ∧ Logged s s1 a e := by
  cases a with
  | user p =>
    obtain ⟨call, -, ⟨w, -, rfl⟩ | ⟨-, rfl⟩⟩ := user_push hact
    · exact .inr ⟨_, rfl, .begin p w⟩
    · exact .inl rfl
  | ret p w value why =>
    cases hact
    exact .inr ⟨_, rfl, .ret p w value why⟩
  | setZombie p status =>
    cases hact
    exact .inr ⟨_, rfl, .exit p status⟩
  | look p w i =>
    simp only [State.act] at hact
    split_ifs at hact with hz <;> cases hact
    · exact .inl rfl
    · exact .inl rfl
    · exact .inr ⟨_, rfl, .reap p w i hz (by simp [freeproc])⟩
    · exact .inl rfl
  | critical p n =>
    cases ch <;> simp only [State.act, reduceCtorEq] at hact <;>
      cases hact <;> exact .inl rfl
  | allocprocFound p kind i =>
    cases ch <;> simp only [State.act, reduceCtorEq] at hact <;>
      cases hact <;> exact .inl rfl
  | schedScan i best | schedLook i best =>
    cases best <;> simp only [State.act] at hact <;> split_ifs at hact <;>
      cases hact <;> exact .inl rfl
  | zombieExit p => simp [State.act] at hact
  | wakeupLook chan i =>
    simp only [State.act] at hact
    cases hact
    split_ifs <;> exact .inl rfl
  | setState | setChan | killed | wakeupParent | allocpid | setParent | setRunnable |
    schedSwtch | schedBack =>
    cases hact
    exact .inl rfl
  | _ =>
    simp only [State.act] at hact
    split_ifs at hact <;> cases hact <;>
      exact .inl rfl

theorem act_xstate (hact : s.act c ch a = some (s1, push)) {q : ℕ}
    (hne : ∀ status, a ≠ .setZombie q status) (hz : (s1.proc q).state = .zombie) :
    (s1.proc q).xstate = (s.proc q).xstate := by
  by_cases hq : a.slot = some q
  case neg => rw [act_slot hact hq]
  cases a <;> simp only [Act.slot, Option.some.injEq, reduceCtorEq] at hq <;> subst hq
  case setZombie p status => exact absurd rfl (hne status)
  case wakeupLook chan i =>
    simp only [State.act] at hact
    cases hact
    split_ifs <;> simp
  case allocprocFound p kind i =>
    cases ch <;> simp only [State.act, reduceCtorEq] at hact <;>
      cases hact
    · simp
    · simp [freeproc] at hz
    · rfl
  case look p w i =>
    simp only [State.act] at hact
    split_ifs at hact <;> cases hact
    · rfl
    · rfl
    · simp [freeproc] at hz
    · rfl
  case kkillLook | setpriorityLook | reparent =>
    simp only [State.act] at hact
    split_ifs at hact <;> cases hact <;> simp
  case schedSwtch b =>
    cases hact
    simp [State.setCpu, State.setProc]
  all_goals
    cases hact
    simp

/-- What a process puts in front of its code agrees with what it has recorded. -/
theorem push_callOk {p : ℕ} {R : Finset Lock} (hact : s.act c ch a = some (s1, push))
    (hside : a.Side (some p) R) (hcall : a.CallOk p (lastCall p s.hist)) {b : Act}
    (hb : .act b ∈ push) : b.CallOk p (lastCall p s1.hist) := by
  by_cases hplain : a.plain = true
  · refine callOk_of_not ?_
    have hp := push_plain hplain hact hb
    cases b <;> first | rfl | simp [Act.protocol] at hp
  cases a <;> simp only [Act.plain, not_true_eq_false] at hplain
  case user q =>
    obtain rfl : p = q := Option.some.inj hside.1
    obtain ⟨call, hcode, hlog⟩ := user_push hact
    cases call with
    | wait w =>
      cases hcode
      obtain ⟨w', hw, rfl⟩ | ⟨hne, -⟩ := hlog
      · obtain rfl := Call.wait.inj hw
        simp only [waitCall, List.cons_append, List.nil_append, List.mem_cons, Cmd.act.injEq,
          reduceCtorEq, List.not_mem_nil, or_false, false_or] at hb
        rcases hb with rfl | rfl
        · intro _
          simp [State.log, lastCall_log, Event.caller]
        · trivial
      · exact absurd rfl (hne w)
    | _ =>
      simp only [Call.code] at hcode
      try split_ifs at hcode
      all_goals
        cases hcode
        exact callOk_of_noCalls rfl hb
  case scan q w i havekids =>
    obtain rfl : p = q := Option.some.inj hside.1
    have hlast : lastCall p s.hist = some (.begin p w) := hcall rfl
    simp only [State.act] at hact
    split_ifs at hact <;> cases hact <;>
      simp only [List.mem_cons, Cmd.act.injEq, reduceCtorEq, List.not_mem_nil, or_false,
        false_or] at hb <;> subst hb
    · exact fun _ => hlast
    · exact fun _ => hlast
    · exact fun _ => hlast
    · exact fun _ => ⟨rfl, hlast⟩
  case look q w i =>
    obtain rfl : p = q := Option.some.inj hside.1
    have hlast : lastCall p s.hist = some (.begin p w) := hcall rfl
    simp only [State.act] at hact
    split_ifs at hact <;> cases hact <;>
      simp only [shmSection, List.cons_append, List.nil_append, List.mem_cons, Cmd.act.injEq,
        reduceCtorEq, List.not_mem_nil, or_false, false_or] at hb <;> subst hb
    · exact fun _ => ⟨rfl, hlast⟩
    · exact fun _ => hlast
    · refine fun _ => ⟨(s.proc i).pid, (s.proc i).xstate, ?_, rfl⟩
      simp [State.log, lastCall_log, Event.caller]
    · exact fun _ => hlast
  case readKilled q w =>
    obtain rfl : p = q := Option.some.inj hside.1
    have hlast : lastCall p s.hist = some (.begin p w) := hcall rfl
    simp only [State.act] at hact
    split_ifs at hact <;> cases hact
    · simp only [List.mem_cons, Cmd.act.injEq, reduceCtorEq, List.not_mem_nil, or_false,
        false_or] at hb
      subst hb
      exact fun _ => ⟨rfl, hlast⟩
    · simp only [sleep, List.cons_append, List.nil_append, List.mem_cons, Cmd.act.injEq,
        reduceCtorEq, List.not_mem_nil, or_false, false_or] at hb
      rcases hb with rfl | rfl | rfl | rfl | rfl
      · trivial
      · trivial
      · trivial
      · trivial
      · exact fun _ => hlast
  case critical q n =>
    cases ch <;> simp only [State.act, reduceCtorEq] at hact <;>
      cases hact <;> exact callOk_of_noCalls rfl hb
  case wakeupLook | wakeupParent =>
    cases hact
    exact callOk_of_noCalls rfl hb
  all_goals
    simp only [State.act] at hact
    split_ifs at hact <;> cases hact <;>
      exact callOk_of_noCalls rfl hb

/-! ## The invariant along runs -/

theorem lastCall_other {p : ℕ} {R : Finset Lock} {t : Option ℕ}
    (hact : s.act c ch a = some (s1, push)) (hside : a.Side t R) (hp : t ≠ some p) :
    lastCall p s1.hist = lastCall p s.hist := by
  rcases act_hist hact with he | ⟨e, he, hlog⟩
  · rw [he]
  · rw [he, lastCall_log, if_neg]
    intro hc
    cases hlog <;> simp only [Event.caller, reduceCtorEq] at hc <;>
      exact hp (hside.1.trans hc)

theorem History.act (h : History s) (hinv : Inv s) (hfam : Family s)
    (hcode : s.codeAt (s.cur c) = .act a :: k) (hact : s.act c ch a = some (s1, push)) :
    History (s1.setCode c (push ++ k) (s.thread c)) := by
  obtain ⟨R, hR, hn, hty⟩ := hinv.typed c
  rw [hcode] at hty
  have hside := hty.1.1
  have hafter : a.After k := hty.1.2.2
  have hproc : (s1.setCode c (push ++ k) (s.thread c)).proc = s1.proc := setCode_proc _ _ _ _
  have hhist : (s1.setCode c (push ++ k) (s.thread c)).hist = s1.hist := setCode_hist _ _ _ _
  -- the action itself agrees with the history
  have hmine : ∀ p, s.thread c = some p → ∀ b, b = a ∨ .act b ∈ k →
      b.CallOk p (lastCall p s.hist) := by
    intro p ht b hb
    have hold : s.code p = .act a :: k := by rw [← hcode, cur_of_thread ht]; rfl
    refine h.call p (hinv.live_cur c p (cur_of_thread ht)) b ?_
    rcases hb with rfl | hb
    · simp [hold]
    · simp [hold, hb]
  constructor
  case zombie =>
    intro q hz
    rw [hproc] at hz ⊢
    rw [hhist]
    rcases (hz ▸ hinv.act_change hcode hact q).to_zombie with hz0 | ⟨status, rfl, -⟩
    · have hne : ∀ status, a ≠ .setZombie q status := by
        rintro status rfl
        have hrun := hinv.running_of_act hside.1 hcode (by simp)
        simp [hz0] at hrun
      rw [act_xstate hact hne hz]
      rcases act_hist hact with he | ⟨e, he, hlog⟩
      · rw [he]; exact h.zombie q hz0
      · rw [he, lastLife_log, if_neg]
        · exact h.zombie q hz0
        · intro hc
          cases hlog with
          | begin p w => simp [Event.child] at hc
          | ret p w value why => simp [Event.child] at hc
          | exit p status =>
            obtain rfl : p = q := Option.some.inj hc
            exact hne status rfl
          | reap p w i _ hu =>
            obtain rfl : i = q := Option.some.inj hc
            simp [hz] at hu
    · cases hact
      simp [State.log, lastLife_log, Event.child]
  case call =>
    intro p hp b hb
    rw [hproc] at hp
    rw [setCode_code] at hb
    rw [hhist]
    by_cases ht : s.thread c = some p
    · rw [if_pos ht, List.mem_append] at hb
      rw [ht] at hside
      rcases hb with hb | hb
      · exact push_callOk hact hside (hmine p ht a (.inl rfl)) hb
      · rcases act_hist hact with he | ⟨e, he, hlog⟩
        · rw [he]
          exact hmine p ht b (.inr hb)
        · cases hlog with
          | begin q w =>
            simp [show k = [] from hafter] at hb
          | exit q status =>
            rw [he, lastCall_log, if_neg (by simp [Event.caller])]
            exact hmine p ht b (.inr hb)
          | ret q w | reap q w =>
            rw [show k = [.act (.user q)] from hafter] at hb
            exact callOk_of_noCalls rfl hb
    · rw [if_neg ht] at hb
      rw [lastCall_other hact hside ht]
      rcases hinv.other_code hcode hact hp with ⟨hlive, hc⟩ | hc
      · exact h.call p hlive b (hc ▸ hb)
      · rw [hc] at hb
        exact callOk_of_noCalls rfl hb
  case events =>
    rw [hhist]
    rcases act_hist hact with he | ⟨e, he, hlog⟩
    · rw [he]; exact h.events
    · rw [he]
      refine historyOk_log h.events ?_
      cases hlog with
      | begin p w => trivial
      | exit p status => trivial
      | ret p w value why => exact hmine p hside.1 _ (.inl rfl) rfl
      | reap p w i hz hu =>
        have hlive := hinv.live_cur c p (cur_of_thread hside.1)
        have hold : s.code p = .act (.look p w i) :: k := by
          rw [← hcode, cur_of_thread hside.1]; rfl
        refine ⟨h.zombie i hz, wants_of_accepts (hfam.accepted p w i hlive ?_),
          hmine p hside.1 _ (.inl rfl) rfl⟩
        simp [hold]

theorem History.step (h : History s) (hinv : Inv s) (hfam : Family s) {l : Label C}
    (hstep : Sched.step s l = some s') : History s' := by
  rcases step_act_or (step_inv hstep) with ⟨a, k, s1, push, hcode, hact, rfl⟩ | ⟨hp, hh, hc⟩
  · exact h.act hinv hfam hcode hact
  · constructor
    case zombie => rw [hp, hh]; exact h.zombie
    case call =>
      intro p hu b hb
      rw [hp] at hu
      rw [hh]
      rcases hc p _ hb with hb | hb
      · exact h.call p hu b hb
      · cases b <;> trivial
    case events => rw [hh]; exact h.events

omit [DecidableEq C] in
theorem history_boot : History (boot : State C) where
  zombie q hq := by
    by_cases h : q = initproc <;> simp [boot, h, unusedProc, freeproc] at hq
  call p _ b hb := by
    by_cases h : p = initproc
    · subst h
      simp only [boot, Function.update_self] at hb
      exact callOk_of_noCalls rfl hb
    · simp [boot, h] at hb
  events := historyOk_nil

end Xv6.Sched
