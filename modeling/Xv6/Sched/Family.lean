import Xv6.Sched.Effects

/-!
# Parents and children

Slots not in use have no parent, and the child that a wait call is about to look
at is one the call accepts: `wait_lock`, which the caller holds, keeps its parent,
and only slots not in use get a new pid or thread flag.
-/

namespace Xv6.Sched

open LockCode

variable {C : Type} [DecidableEq C] {s s1 s' : State C} {c : C} {ch : Choice} {a : Act}
  {push k : Code}

/-! ## The code of processes after a step -/

theorem setCode_code (s : State C) (c : C) (k : Code) (t : Option ℕ) (p : ℕ) :
    (s.setCode c k t).code p = if t = some p then k else s.code p := by
  cases t with
  | none => rfl
  | some q =>
    by_cases hq : p = q
    · subst hq; simp [State.setCode]
    · simp [State.setCode, hq, Ne.symm hq]

theorem act_code (hact : s.act c ch a = some (s1, push)) (p : ℕ) :
    s1.code p = s.code p ∨ (∃ q kind, a = .allocprocFound q kind p) ∧ s1.code p = forkret p := by
  by_cases hloc : a.local = true
  · exact .inl (congrFun (act_local hloc hact).2.1 p)
  · cases a <;> simp only [Act.local, not_true_eq_false] at hloc
    case swtch q =>
      simp only [State.act] at hact
      split_ifs at hact
      cases hact
      exact .inl rfl
    case schedSwtch | schedBack =>
      cases hact
      exact .inl rfl
    case allocprocFound q kind i =>
      cases ch <;> simp only [State.act, reduceCtorEq] at hact <;>
        cases hact
      · by_cases hp : p = i
        · subst hp
          exact .inr ⟨⟨q, kind, rfl⟩, by simp⟩
        · exact .inl (by simp [State.setProc, hp])
      all_goals exact .inl rfl

theorem alloc_code {q p : ℕ} {kind : Spawn}
    (hact : s.act c ch (.allocprocFound q kind p) = some (s1, push))
    (hu : (s.proc p).state = .unused) (hst : (s1.proc p).state = .used) :
    s1.code p = forkret p := by
  cases ch <;> simp only [State.act, reduceCtorEq] at hact <;>
    cases hact
  · simp
  · simp [freeproc] at hst
  · simp [hu] at hst

/-- Commands of the interrupt handlers, which play no part in the wait calls. -/
def Handler : Cmd Lock Act → Prop
  | .acquire (.proc _) | .acquire (.cond _) | .release (.proc _) | .release (.cond _) => True
  | .act (.setState _ .runnable) | .act (.swtch _) | .act (.wakeup (some (.addr _)) _) => True
  | _ => False

/-- A step is an action, or leaves the process table and the history alone and
adds only commands of interrupt handlers to any code. -/
theorem step_act_or {ch : Choice} (h : Stepped s c ch s') :
    (∃ a k s1 push, s.codeAt (s.cur c) = .act a :: k ∧ s.act c ch a = some (s1, push) ∧
      s' = s1.setCode c (push ++ k) (s.thread c)) ∨
    (s'.proc = s.proc ∧ s'.hist = s.hist ∧
      ∀ p x, x ∈ s'.code p → x ∈ s.code p ∨ Handler x) := by
  have hset : ∀ (s1 : State C) k, s1.proc = s.proc → s1.hist = s.hist → s1.code = s.code →
      (∀ x ∈ k, x ∈ s.codeAt (s.cur c) ∨ Handler x) →
      (s1.setCode c k (s.thread c)).proc = s.proc ∧ (s1.setCode c k (s.thread c)).hist = s.hist ∧
        ∀ p x, x ∈ (s1.setCode c k (s.thread c)).code p → x ∈ s.code p ∨ Handler x := by
    intro s1 k hp hh hc hk
    refine ⟨by rw [setCode_proc, hp], by rw [setCode_hist, hh], fun p x hx => ?_⟩
    rw [setCode_code, hc] at hx
    split_ifs at hx with ht
    · rw [cur_of_thread ht] at hk
      exact hk x hx
    · exact .inl hx
  cases h with
  | timer p hch ht hn =>
    refine .inr (hset s _ rfl rfl rfl fun x hx => ?_)
    simp only [yield, List.cons_append, List.nil_append, List.mem_cons] at hx
    rcases hx with rfl | rfl | rfl | rfl | hx
    · exact .inr trivial
    · exact .inr trivial
    · exact .inr trivial
    · exact .inr trivial
    · exact .inl hx
  | device n chan hch hn =>
    refine .inr (hset s _ rfl rfl rfl fun x hx => ?_)
    simp only [interrupt, List.cons_append, List.nil_append, List.mem_cons] at hx
    rcases hx with rfl | rfl | rfl | hx
    · exact .inr trivial
    · exact .inr trivial
    · exact .inr trivial
    · exact .inl hx
  | acquire lk k hcode hfree =>
    refine .inr (hset _ _ rfl rfl rfl fun x hx => ?_)
    rw [hcode]
    exact .inl (List.mem_cons_of_mem _ hx)
  | release lk k hcode hown =>
    refine .inr (hset _ _ rfl rfl rfl fun x hx => ?_)
    rw [hcode]
    exact .inl (List.mem_cons_of_mem _ hx)
  | act a k s1 push hch hcode hact => exact .inl ⟨a, k, s1, push, hcode, hact, rfl⟩

omit [DecidableEq C] in
/-- A process in use that does not hold `wait_lock` is outside every section under it. -/
theorem Inv.outside (h : Inv s) {p : ℕ} (hp : (s.proc p).state ≠ .unused)
    (hno : ∀ c, s.thread c = some p → s.holder .wait ≠ some c) : Outside (s.code p) := by
  by_cases hon : ∃ c, s.thread c = some p
  · obtain ⟨c, hc⟩ := hon
    obtain ⟨R, hR, -, hty⟩ := h.typed c
    rw [cur_of_thread hc] at hty
    exact outside_of_typed hty fun hm => hno c hc ((hR _).mpr hm)
  · have hty := (h.parked p hp fun c hc => hon ⟨c, hc⟩).1
    exact outside_of_typed hty (by simp)

omit [DecidableEq C] in
theorem Inv.holder_of_mid (h : Inv s) {p : ℕ} (hp : (s.proc p).state ≠ .unused) {b : Act}
    (hb : .act b ∈ s.code p) (hmid : b.midWait = true) :
    ∃ c, s.thread c = some p ∧ s.holder .wait = some c := by
  by_contra hno
  push Not at hno
  have ho := (h.outside hp hno).mid b hb
  simp [hmid] at ho

omit [DecidableEq C] in
theorem Inv.holder_of_side (h : Inv s) (hcode : s.codeAt (s.cur c) = .act a :: k)
    (ha : ∀ R, a.Side (s.thread c) R → .wait ∈ R) : s.holder .wait = some c := by
  obtain ⟨R, hR, hside, -⟩ := h.side hcode
  exact (hR _).mpr (ha R hside)

/-- A process in use after a step was in use before it, with the same code, or has
just been set up. -/
theorem Inv.other_code (h : Inv s) (hcode : s.codeAt (s.cur c) = .act a :: k)
    (hact : s.act c ch a = some (s1, push)) {p : ℕ} (hp : (s1.proc p).state ≠ .unused) :
    (s.proc p).state ≠ .unused ∧ s1.code p = s.code p ∨ s1.code p = forkret p := by
  by_cases hu : (s.proc p).state = .unused
  · rcases (hu ▸ h.act_change hcode hact p).of_unused with he | ⟨q, kind, rfl, he⟩
    · exact absurd he hp
    · exact .inr (alloc_code hact hu he)
  · rcases act_code hact p with hc | ⟨-, hc⟩
    · exact .inl ⟨hu, hc⟩
    · exact .inr hc

/-! ## What actions put in front of the code -/

/-- The actions of the wait and exit protocols. -/
def Act.protocol : Act → Bool
  | .scan _ _ _ _ | .look _ _ _ | .readKilled _ _ | .ret _ _ _ _ => true
  | .setZombie _ _ | .wakeupParent _ | .reparent _ _ => true
  | .setState _ st => st == .sleeping
  | .setChan _ chan => chan.isSome
  | .wakeup chan _ | .wakeupLook chan _ => wakesProc chan
  | _ => false

/-- The actions that put no action of the protocols in front. -/
def Act.plain : Act → Bool
  | .user _ | .scan _ _ _ _ | .look _ _ _ | .readKilled _ _ | .critical _ _ => false
  | .reparent _ _ | .wakeupParent _ | .wakeup _ _ | .wakeupLook _ _ => false
  | _ => true

theorem push_plain (ha : a.plain = true) (hact : s.act c ch a = some (s1, push)) {b : Act}
    (hb : .act b ∈ push) : b.protocol = false := by
  cases a <;> simp only [Act.plain, Bool.false_eq_true] at ha
  case swtch p =>
    simp only [State.act] at hact
    split_ifs at hact
    cases hact
    simp at hb
  case zombieExit p => simp [State.act] at hact
  case ret | setState | setZombie | setChan | allocpid | setParent | setRunnable | schedBack =>
    cases hact
    simp at hb
  case schedSwtch i =>
    cases hact
    simp only [scheduler, List.cons_append, List.nil_append, List.mem_cons, Cmd.act.injEq,
      reduceCtorEq, List.not_mem_nil, or_false, false_or] at hb
    rcases hb with rfl | rfl <;> rfl
  case allocprocFound p kind i =>
    cases ch <;> simp only [State.act, reduceCtorEq] at hact <;>
      cases hact
    · simp only [publish, List.mem_cons, Cmd.act.injEq, reduceCtorEq, List.not_mem_nil, or_false,
        false_or] at hb
      rcases hb with rfl | rfl <;> rfl
    · simp at hb
    · simp [shmSection] at hb
      subst hb
      rfl
  case schedScan i best =>
    cases best <;> simp only [State.act] at hact <;> split_ifs at hact <;>
      cases hact <;>
      simp [scheduler] at hb <;> subst hb <;> rfl
  case schedLook i best =>
    cases best <;> simp only [State.act] at hact <;> split_ifs at hact <;>
      cases hact <;> simp at hb <;> subst hb <;> rfl
  case allocprocLook p kind i =>
    simp only [State.act] at hact
    split_ifs at hact <;> cases hact <;>
      simp at hb
    · rcases hb with rfl | rfl <;> rfl
    · subst hb; rfl
  case killed p n =>
    cases hact
    simp at hb
    subst hb
    rfl
  all_goals
    simp only [State.act] at hact
    split_ifs at hact <;> cases hact <;>
      simp at hb
    all_goals
      subst hb
      rfl

/-- What a process does in user space is the code of some system call; the wait
calls are recorded. -/
theorem user_push {p : ℕ} (hact : s.act c ch (.user p) = some (s1, push)) :
    ∃ call : Call, call.code p = some push ∧
      ((∃ w, call = .wait w ∧ s1 = s.log (.begin p w)) ∨ (∀ w, call ≠ .wait w) ∧ s1 = s) := by
  cases ch <;> simp only [State.act, Option.map_eq_some_iff, reduceCtorEq] at hact
  rename_i call
  obtain ⟨code, hcode, he⟩ := hact
  refine ⟨call, ?_⟩
  cases call <;> cases he <;> simp [hcode]

/-! ## The invariant -/

structure Family (s : State C) : Prop where
  bound : ∀ i, (s.proc i).state ≠ .unused → i < nproc
  orphan : ∀ i, (s.proc i).state = .unused → (s.proc i).parent = none
  accepted : ∀ p w i, (s.proc p).state ≠ .unused → .act (.look p w i) ∈ s.code p →
    w.accepts p (s.proc i) = true

theorem accepts_sameKin {w : WaitCall} {p : ℕ} {q q' : Proc} (h : q.SameKin q') :
    w.accepts p q' = w.accepts p q := by
  obtain ⟨h1, h2, h3⟩ := h
  cases w <;> simp [WaitCall.accepts, h1, h2, h3]

theorem parent_of_accepts {w : WaitCall} {p : ℕ} {q : Proc} (h : w.accepts p q = true) :
    q.parent = some p := by
  simp only [WaitCall.accepts, Bool.and_eq_true, decide_eq_true_eq] at h
  exact h.1

/-- A call that looks at a slot has accepted it in its scan of the table, or was
looking at it already. -/
theorem look_mem_push (hact : s.act c ch a = some (s1, push)) {p : ℕ} {w : WaitCall} {i : ℕ}
    (hm : .act (.look p w i) ∈ push) :
    s1 = s ∧ (w.accepts p (s.proc i) = true ∨ a = .look p w i) := by
  by_cases hplain : a.plain = true
  · simpa [Act.protocol] using push_plain hplain hact hm
  cases a <;> simp only [Act.plain, not_true_eq_false] at hplain
  case scan q w' j havekids =>
    simp only [State.act] at hact
    split_ifs at hact with h1 h2 <;> cases hact
    · simp only [List.mem_cons, reduceCtorEq, Cmd.act.injEq, Act.look.injEq, List.not_mem_nil,
        or_false, false_or] at hm
      obtain ⟨rfl, rfl, rfl⟩ := hm
      exact ⟨rfl, .inl h2⟩
    all_goals simp at hm
  case look q w' j =>
    simp only [State.act] at hact
    split_ifs at hact <;> cases hact
    · simp at hm
    · simp [shmSection] at hm
      obtain ⟨rfl, rfl, rfl⟩ := hm
      exact ⟨rfl, .inr rfl⟩
    all_goals simp at hm
  case user q =>
    obtain ⟨call, hcode, -⟩ := user_push hact
    cases call <;> simp only [Call.code] at hcode <;> try split_ifs at hcode
    all_goals
      cases hcode
      simp [yield, kexit, kthreadExit, waitCall, critical, shmSection] at hm
  case critical q n =>
    cases ch <;> simp only [State.act, reduceCtorEq] at hact <;>
      cases hact <;> simp [sleep, wakeup] at hm
  case wakeupLook chan i =>
    cases hact
    simp at hm
  case wakeupParent q =>
    cases hact
    simp [wakeup] at hm
  all_goals
    simp only [State.act] at hact
    split_ifs at hact <;> cases hact <;>
      simp [sleep, wakeup] at hm

omit [DecidableEq C] in
theorem Family.quiet (h : Family s) (hp : s'.proc = s.proc)
    (hc : ∀ p x, x ∈ s'.code p → x ∈ s.code p ∨ Handler x) : Family s' where
  bound i := by rw [hp]; exact h.bound i
  orphan i := by rw [hp]; exact h.orphan i
  accepted p w i hu hm := by
    rw [hp] at hu ⊢
    rcases hc p _ hm with hm | hm
    · exact h.accepted p w i hu hm
    · simp [Handler] at hm

theorem Family.act (h : Family s) (hinv : Inv s) (hcode : s.codeAt (s.cur c) = .act a :: k)
    (hact : s.act c ch a = some (s1, push)) : Family (s1.setCode c (push ++ k) (s.thread c)) := by
  have hkin := fun j => hinv.act_kin hcode hact j
  have hchange := fun j => hinv.act_change hcode hact j
  obtain ⟨R, hR, hn, hty⟩ := hinv.typed c
  rw [hcode] at hty
  have hside := hty.1.1
  have hafter : a.After k := hty.1.2.2
  have hproc : (s1.setCode c (push ++ k) (s.thread c)).proc = s1.proc := setCode_proc _ _ _ _
  constructor
  case bound =>
    intro i hi
    rw [hproc] at hi
    by_cases hu : (s.proc i).state = .unused
    · rcases (hu ▸ hchange i).of_unused with he | ⟨p, kind, rfl, -⟩
      · exact absurd he hi
      · exact hside.2.2
    · exact h.bound i hu
  case orphan =>
    intro i hi
    rw [hproc] at hi ⊢
    have hold := (hi ▸ hchange i).to_unused
    rcases hkin i with ⟨hk, hu⟩ | ⟨hu, hp⟩ | ⟨hp, -, -, -⟩ | ⟨hu, -⟩ | ⟨-, -, hp⟩
    · rw [hk.1]; exact h.orphan i (hu hi)
    · rcases hp with hp | hp
      · rw [hp]; exact h.orphan i hu
      · exact hp
    · rcases hold with hu | ⟨p, w, he, -⟩
      · simp [h.orphan i hu] at hp
      · simp at he
    · rcases hold with hu' | ⟨p, w, he, -⟩
      · simp [hu] at hu'
      · simp at he
    · exact hp
  case accepted =>
    intro p w i hp hm
    rw [hproc] at hp ⊢
    rw [setCode_code] at hm
    -- an accepted slot keeps its kin unless the stepping thread holds `wait_lock`
    have hkeep : w.accepts p (s.proc i) = true →
        (∀ q, a ≠ .reparent q i) → (∀ q, a ≠ .setParent q i) → (∀ q w', a ≠ .look q w' i) →
        w.accepts p (s1.proc i) = true := by
      intro hacc h1 h2 h3
      rcases hkin i with ⟨hk, -⟩ | ⟨hu, -⟩ | ⟨-, -, -, -⟩ | ⟨-, -⟩ | ⟨-, -, -⟩
      · rw [accepts_sameKin hk]; exact hacc
      · have hpar := parent_of_accepts hacc
        simp [h.orphan i hu] at hpar
      · exact absurd rfl (h1 _)
      · exact absurd rfl (h2 _)
      · exact absurd rfl (h3 _ _)
    by_cases ht : s.thread c = some p
    · have hold : s.code p = .act a :: k := by rw [← hcode, cur_of_thread ht]; rfl
      have hlive : (s.proc p).state ≠ .unused := hinv.live_cur c p (cur_of_thread ht)
      rw [if_pos ht, List.mem_append] at hm
      rcases hm with hm | hm
      · obtain ⟨rfl, hacc | rfl⟩ := look_mem_push hact hm
        · exact hacc
        · exact h.accepted p w i hlive (by simp [hold])
      · refine hkeep (h.accepted p w i hlive (by simp [hold, hm])) ?_ ?_ ?_
        · rintro q rfl
          obtain ⟨status, rfl⟩ := hafter
          simp [exitTail] at hm
        · rintro q rfl
          simp [show k = _ from hafter] at hm
        · rintro q w' rfl
          simp [show k = [.act (.user q)] from hafter] at hm
    · rw [if_neg ht] at hm
      rcases hinv.other_code hcode hact hp with ⟨hlive, hc⟩ | hc
      · rw [hc] at hm
        obtain ⟨c', hc', hw⟩ := hinv.holder_of_mid hlive hm rfl
        -- the call holds `wait_lock`, so the stepping thread does not
        have hother : ∀ b : Act, a = b → (∀ R, b.Side (s.thread c) R → .wait ∈ R) → False := by
          rintro b rfl hb
          obtain rfl : c' = c := Option.some.inj (hw.symm.trans (hinv.holder_of_side hcode hb))
          exact ht hc'
        refine hkeep (h.accepted p w i hlive hm) ?_ ?_ ?_
        · exact fun q he => hother _ he fun R hR => by simp [hR.2]
        · exact fun q he => hother _ he fun R hR => by simp [hR.2]
        · exact fun q w' he => hother _ he fun R hR => by simp [hR.2]
      · simp [hc, forkret] at hm

theorem Family.step (h : Family s) (hinv : Inv s) {l : Label C}
    (hstep : Sched.step s l = some s') : Family s' := by
  rcases step_act_or (step_inv hstep) with ⟨a, k, s1, push, hcode, hact, rfl⟩ | ⟨hp, -, hc⟩
  · exact h.act hinv hcode hact
  · exact h.quiet hp hc

omit [DecidableEq C] in
theorem family_boot : Family (boot : State C) where
  bound i hi := by
    by_cases h : i = initproc
    · subst h; decide
    · simp [boot, h, unusedProc, freeproc] at hi
  orphan i _ := by
    by_cases h : i = initproc <;> simp [boot, h, unusedProc, freeproc]
  accepted p w i _ hm := by
    by_cases h : p = initproc <;> simp [boot, h, forkret] at hm

end Xv6.Sched
