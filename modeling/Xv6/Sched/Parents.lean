import Xv6.Sched.Wakeup

/-!
# The process tree

A parent pointer always leads to a slot whose process is neither being set up nor gone:
a process gives its children away before it becomes a zombie, and from then on gets no
new ones. So the pointers form a tree with the first process as its root.
-/

namespace Xv6.Sched

open LockCode Runs

variable {C : Type} [DecidableEq C] {s s1 s' : State C} {c : C} {ch : Choice} {a b : Act}
  {push k : Code}

/-! ## Where slots begin and end -/

/-- The actions that set a slot up, and those of an exit. -/
def Act.lifecycle : Act → Bool
  | .allocpid _ | .allocprocFound _ _ _ | .setParent _ _ | .setRunnable _ => true
  | .reparent _ _ | .setZombie _ _ => true
  | _ => false

/-- How such actions come into the code of a thread. -/
inductive Begets : Act → Code → Prop
  | exit (p : ℕ) (status : ℤ) : p ≠ initproc → Begets (.user p) (kexit p status)
  | reparent (p i : ℕ) : i < nproc → Begets (.reparent p i) [.act (.reparent p (i + 1))]
  | reparented (p i : ℕ) : i < nproc → Begets (.reparent p i)
      (wakeup (some (.proc initproc)) ++ [.act (.reparent p (i + 1))])
  | alloc (p i : ℕ) (kind : Spawn) : Begets (.allocprocLook p kind i)
      [.acquire .pid, .act (.allocpid i), .release .pid, .act (.allocprocFound p kind i)]
  | shm (p i key : ℕ) (kind : Spawn) : Begets (.allocprocFound p kind i)
      (shmSection key ++ [.act (.allocprocFound p kind i)])
  | publish (p i : ℕ) (kind : Spawn) : Begets (.allocprocFound p kind i) (publish p i)

/-- No slot begins or ends in the code. -/
def Code.steady (k : Code) : Bool := k.all fun x => match x with
  | .act a => !a.lifecycle
  | _ => true

theorem lifecycle_of_steady (h : Code.steady k = true) (hb : .act b ∈ k) : b.lifecycle = false := by
  have hall := List.all_eq_true.mp h _ hb
  simpa using hall

theorem begets_or_steady (hact : s.act c ch a = some (s1, push)) :
    Begets a push ∨ Code.steady push = true := by
  cases a with
  | user p =>
    obtain ⟨call, hcode, -⟩ := user_push hact
    cases call with
    | kexit status | kthreadExit status =>
      simp only [Call.code] at hcode
      split_ifs at hcode with hp
      cases hcode
      exact .inl (.exit p status hp)
    | setpriority pid priority =>
      simp only [Call.code] at hcode
      split_ifs at hcode <;> cases hcode <;> exact .inr rfl
    | _ =>
      cases hcode
      exact .inr rfl
  | reparent p i =>
    simp only [State.act] at hact
    split_ifs at hact with hi hp <;> cases hact
    · exact .inl (.reparented p i hi)
    · exact .inl (.reparent p i hi)
    · exact .inr rfl
  | allocprocLook p kind i =>
    simp only [State.act] at hact
    split_ifs at hact <;> cases hact
    · exact .inl (.alloc p i kind)
    · exact .inr rfl
  | allocprocFound p kind i =>
    cases ch <;> simp only [State.act, reduceCtorEq] at hact <;>
      cases hact
    · exact .inl (.publish p i kind)
    · exact .inr rfl
    · exact .inl (.shm p i _ kind)
  | critical p n =>
    cases ch <;> simp only [State.act, reduceCtorEq] at hact <;>
      cases hact <;> exact .inr rfl
  | schedScan i best | schedLook i best =>
    cases best <;> simp only [State.act] at hact <;> split_ifs at hact <;>
      cases hact <;> exact .inr rfl
  | zombieExit p => simp [State.act] at hact
  | ret | killed | wakeupParent | schedBack | setState | setZombie | setChan | allocpid
  | setRunnable | schedSwtch | setParent | wakeupLook =>
    cases hact
    exact .inr rfl
  | _ =>
    simp only [State.act] at hact
    split_ifs at hact <;> cases hact <;> exact .inr rfl

theorem begets_of_push (hact : s.act c ch a = some (s1, push)) (hb : .act b ∈ push)
    (hl : b.lifecycle = true) : Begets a push := by
  rcases begets_or_steady hact with h | h
  · exact h
  · rw [lifecycle_of_steady h hb] at hl
    cases hl

/-- The actions of interrupt handlers. -/
def Act.handler : Act → Bool
  | .setState _ _ | .swtch _ | .wakeup _ _ => true
  | _ => false

theorem mem_handler_append (h : push.all (fun x => match x with
    | .act a => a.handler
    | _ => true) = true) (hb : b.handler = false) : .act b ∈ push ++ k ↔ .act b ∈ k := by
  rw [List.mem_append]
  refine ⟨fun hm => hm.resolve_left fun hm => ?_, .inr⟩
  have hall := List.all_eq_true.mp h _ hm
  simp [hb] at hall

/-- A step is an action, or leaves the process table alone and the actions of every thread
but those of interrupt handlers. -/
theorem step_life {l : Label C} (h : step s l = some s') :
    (∃ a k s1 push, s.codeAt (s.cur l.cpu) = .act a :: k ∧
      s.act l.cpu l.choice a = some (s1, push) ∧
      s' = s1.setCode l.cpu (push ++ k) (s.thread l.cpu)) ∨
    (s'.proc = s.proc ∧ s'.nextpid = s.nextpid ∧ ∀ t (b : Act), b.handler = false →
      (.act b ∈ s'.codeAt t ↔ .act b ∈ s.codeAt t)) := by
  have hset : ∀ (s1 : State C) k, s1.proc = s.proc → s1.nextpid = s.nextpid →
      s1.codeAt = s.codeAt → (∀ b : Act, b.handler = false →
        (.act b ∈ k ↔ .act b ∈ s.codeAt (s.cur l.cpu))) →
      (s1.setCode l.cpu k (s.thread l.cpu)).proc = s.proc ∧
        (s1.setCode l.cpu k (s.thread l.cpu)).nextpid = s.nextpid ∧
        ∀ t (b : Act), b.handler = false →
          (.act b ∈ (s1.setCode l.cpu k (s.thread l.cpu)).codeAt t ↔ .act b ∈ s.codeAt t) := by
    intro s1 k hp hn hc hk
    refine ⟨by rw [setCode_proc, hp], ?_, fun t b hb => ?_⟩
    · rw [← hn]
      cases s.thread l.cpu <;> rfl
    · by_cases ht : t = s.cur l.cpu
      · subst ht
        rw [show (s1.setCode l.cpu k (s.thread l.cpu)).codeAt (s.cur l.cpu) = k from
          setCode_codeAt ..]
        exact hk b hb
      · rw [setCode_codeAt_of_ne _ _ _ _ ht, hc]
  cases step_inv h with
  | timer p hch ht hn =>
    exact .inr (hset s _ rfl rfl rfl fun b hb => mem_handler_append rfl hb)
  | device n chan hch hn =>
    exact .inr (hset s _ rfl rfl rfl fun b hb => mem_handler_append rfl hb)
  | acquire lk k hcode hfree =>
    refine .inr (hset _ _ rfl rfl ?_ fun b hb => ?_)
    · exact (Quiet.acquire hfree).code
    · rw [hcode]
      simp
  | release lk k hcode hown =>
    refine .inr (hset _ _ rfl rfl ?_ fun b hb => ?_)
    · exact (Quiet.release hown).code
    · rw [hcode]
      simp
  | act a k s1 push hch hcode hact => exact .inl ⟨a, k, s1, push, hcode, hact, rfl⟩

/-- The actions of a process after a step: it makes the step, or has them still. -/
theorem Inv.life_code (h : Inv s) (hcode : s.codeAt (s.cur c) = .act a :: k)
    (hact : s.act c ch a = some (s1, push)) {p : ℕ} (hp : (s1.proc p).state ≠ .unused)
    (hl : b.lifecycle = true)
    (hb : .act b ∈ (s1.setCode c (push ++ k) (s.thread c)).code p) :
    s.thread c = some p ∧ s.code p = .act a :: k ∧ (.act b ∈ push ∨ .act b ∈ k) ∨
      s.thread c ≠ some p ∧ (s.proc p).state ≠ .unused ∧ .act b ∈ s.code p ∧
        (s1.setCode c (push ++ k) (s.thread c)).code p = s.code p := by
  rw [setCode_code] at hb ⊢
  by_cases ht : s.thread c = some p
  · rw [if_pos ht] at hb
    refine .inl ⟨ht, ?_, List.mem_append.mp hb⟩
    rw [cur_of_thread ht] at hcode
    exact hcode
  · rw [if_neg ht] at hb ⊢
    rcases h.other_code hcode hact hp with ⟨hlive, hc⟩ | hc
    · exact .inr ⟨ht, hlive, hc ▸ hb, hc⟩
    · rw [hc] at hb
      simp only [forkret, List.mem_cons, reduceCtorEq, Cmd.act.injEq, List.not_mem_nil, or_false,
        false_or] at hb
      subst hb
      cases hl

/-! ## The tree -/

/-- A process that has been set up and has not exited. -/
def ProcState.active : ProcState → Bool
  | .sleeping | .runnable | .running => true
  | _ => false

def State.parent (s : State C) : ℕ → Option ℕ := fun i => (s.proc i).parent

/-- Following the pointers leads to the first process. -/
inductive Descends (parent : ℕ → Option ℕ) : ℕ → Prop
  | root : Descends parent initproc
  | child {i q : ℕ} : parent i = some q → Descends parent q → Descends parent i

structure Tree (s : State C) : Prop where
  root : (s.proc initproc).state.active = true ∧ s.parent initproc = none
  alive : ∀ i q, s.parent i = some q → (s.proc q).state.active = true
  kept : ∀ i, i ≠ initproc → (s.proc i).state.active = true ∨ (s.proc i).state = .zombie →
    s.parent i ≠ none
  /-- A slot has its parent before it becomes runnable. -/
  adopted : ∀ p i, (s.proc p).state ≠ .unused → .act (.setRunnable i) ∈ s.code p →
    (∀ q, .act (.setParent q i) ∉ s.code p) → s.parent i ≠ none
  /-- `reparent` leaves no children behind. -/
  reparent : ∀ p i, (s.proc p).state ≠ .unused → .act (.reparent p i) ∈ s.code p →
    p ≠ initproc ∧ ∀ j < i, s.parent j ≠ some p
  /-- After it the process has none when it becomes a zombie. -/
  exits : ∀ p status, (s.proc p).state ≠ .unused → .act (.setZombie p status) ∈ s.code p →
    p ≠ initproc ∧ ((∀ i, .act (.reparent p i) ∉ s.code p) → ∀ j, s.parent j ≠ some p)
  descends : ∀ i, (s.proc i).state.active = true → Descends s.parent i

section

variable {st st' : ProcState} {j : ℕ}

theorem Change.to_active (h : Change j a st st') (hst : st'.active = true) :
    st.active = true ∨ st = .used ∧ a = .setRunnable j := by
  cases h with
  | same => exact .inl hst
  | wake => exact .inl rfl
  | leave => exact .inl rfl
  | publish => exact .inr ⟨rfl, rfl⟩
  | run => exact .inl rfl
  | exit | alloc | reap => cases hst

theorem Change.of_active (h : Change j a st st') (hst : st.active = true) :
    st'.active = true ∨ ∃ status, a = .setZombie j status := by
  cases h with
  | same => exact .inl hst
  | wake => exact .inl rfl
  | leave _ hst => rcases hst with rfl | rfl <;> exact .inl rfl
  | exit status => exact .inr ⟨status, rfl⟩
  | run => exact .inl rfl
  | alloc | publish | reap => cases hst

end

theorem Inv.act_parent (h : Inv s) (hfam : Family s) (hcode : s.codeAt (s.cur c) = .act a :: k)
    (hact : s.act c ch a = some (s1, push)) (j : ℕ) :
    s1.parent j = s.parent j ∨
      (s1.parent j = some initproc ∧ ∃ p, a = .reparent p j ∧ s.parent j = some p) ∨
      (∃ p, a = .setParent p j ∧ s1.parent j = some p ∧ (s.proc j).state = .used) ∨
      (s1.parent j = none ∧ (s.proc j).state.active = false ∧ (s.proc j).state ≠ .used ∧
        (s1.proc j).state = .unused) := by
  have hkin := h.act_kin hcode hact j
  generalize hq : s1.proc j = q' at hkin
  generalize hq0 : s.proc j = q at hkin
  cases hkin with
  | same hk _ => exact .inl (by rw [State.parent, State.parent, hq, hq0]; exact hk.1)
  | unused hu hp =>
    refine .inl ?_
    rw [State.parent, State.parent, hq, hq0]
    have horphan := hfam.orphan j (by rw [hq0]; exact hu)
    rw [hq0] at horphan
    rcases hp with hp | hp
    · exact hp
    · rw [hp, horphan]
  | reparent hp hp' =>
    exact .inr (.inl ⟨by rw [State.parent, hq]; exact hp', _, rfl,
      by rw [State.parent, hq0]; exact hp⟩)
  | setParent hu hp =>
    exact .inr (.inr (.inl ⟨_, rfl, by rw [State.parent, hq]; exact hp, hu⟩))
  | reap hz hu hp =>
    refine .inr (.inr (.inr ⟨by rw [State.parent, hq]; exact hp, ?_, ?_, hu⟩))
    · rw [hz]; rfl
    · rw [hz]; nofun

theorem after_of_mem {who : Option ℕ} {R : Finset Lock} (h : Typed (disc who) R k)
    (ha : .act a ∈ k) : ∃ k1 k2, k = k1 ++ .act a :: k2 ∧ a.After k2 := by
  induction k generalizing R with
  | nil => cases ha
  | cons x k ih =>
    rcases List.mem_cons.mp ha with rfl | ha
    · exact ⟨[], k, rfl, h.1.2.2⟩
    · have hk : ∃ R', Typed (disc who) R' k := by
        cases x with
        | acquire l => exact ⟨_, h.2⟩
        | release l => exact ⟨_, h.2.2⟩
        | act b => exact ⟨_, h.2⟩
      obtain ⟨R', hk⟩ := hk
      obtain ⟨k1, k2, rfl, hafter⟩ := ih hk ha
      exact ⟨x :: k1, k2, rfl, hafter⟩

omit [DecidableEq C] in
theorem Inv.parent_set (h : Inv s) {i : ℕ}
    (hcode : s.codeAt (s.cur c) = .act (.setRunnable i) :: k) (q : ℕ) :
    .act (.setParent q i) ∉ k := by
  intro hm
  obtain ⟨R, -, -, hty⟩ := h.typed c
  rw [hcode] at hty
  obtain ⟨k1, k2, rfl, rfl⟩ := after_of_mem hty.2 hm
  have hnodup := h.nodup _ (h.live_cur c)
  rw [hcode] at hnodup
  simp [promises_append, Act.promise] at hnodup

theorem reparent_done {p i : ℕ} (hact : s.act c ch (.reparent p i) = some (s1, push))
    (hi : i < nproc) (hp : p ≠ initproc) : s1.parent i ≠ some p := by
  simp only [State.act, if_pos hi] at hact
  split_ifs at hact with hpar <;> cases hact
  · simp [State.parent, hp.symm]
  · exact hpar

section

variable (h : Tree s) (hinv : Inv s) (hfam : Family s)
  (hcode : s.codeAt (s.cur c) = .act a :: k) (hact : s.act c ch a = some (s1, push))

omit [DecidableEq C] in
include h hinv hcode in
theorem Tree.childless {p : ℕ} {status : ℤ} (ha : a = .setZombie p status) :
    p ≠ initproc ∧ ∀ j, s.parent j ≠ some p := by
  subst ha
  obtain ⟨R, -, -, hty⟩ := hinv.typed c
  rw [hcode] at hty
  obtain ⟨⟨⟨ht, -⟩, -, rfl⟩, -⟩ := hty
  rw [cur_of_thread ht] at hcode
  have hc : s.code p = _ := hcode
  obtain ⟨hp, hnone⟩ := h.exits p status (hinv.live_thread ht) (by simp [hc])
  exact ⟨hp, hnone (by simp [hc])⟩

include h hinv hcode hact in
theorem Tree.stays {q i : ℕ} (hq : (s.proc q).state.active = true)
    (hi : s.parent i = some q ∨ q = initproc) : (s1.proc q).state.active = true := by
  rcases (hinv.act_change hcode hact q).of_active hq with hs | ⟨status, ha⟩
  · exact hs
  · obtain ⟨hp, hnone⟩ := h.childless hinv hcode ha
    rcases hi with hi | hi
    · exact absurd hi (hnone i)
    · exact absurd hi hp

include h hinv hfam hcode hact in
theorem Tree.act_alive {i q : ℕ} (hq : s1.parent i = some q) :
    (s1.proc q).state.active = true := by
  rcases hinv.act_parent hfam hcode hact i with he | ⟨he, -⟩ | ⟨p, rfl, he, -⟩ | ⟨he, -⟩
  · rw [he] at hq
    exact h.stays hinv hcode hact (h.alive i q hq) (.inl hq)
  · cases he.symm.trans hq
    exact h.stays (i := i) hinv hcode hact h.root.1 (.inr rfl)
  · cases he.symm.trans hq
    obtain ⟨R, -, ⟨ht, -⟩, -⟩ := hinv.side hcode
    have hrun := hinv.running_of_act ht hcode nofun
    rcases (hinv.act_change hcode hact q).of_active (by rw [hrun]; rfl) with hs | ⟨status, ha⟩
    · exact hs
    · cases ha
  · cases he.symm.trans hq

include hinv hfam hcode hact in
theorem Inv.act_keeps {i : ℕ} (hi : s.parent i ≠ none) (hs1 : (s1.proc i).state ≠ .unused) :
    s1.parent i ≠ none := by
  rcases hinv.act_parent hfam hcode hact i with he | ⟨he, -⟩ | ⟨p, -, he, -⟩ | ⟨-, -, -, he⟩
  · rw [he]; exact hi
  · rw [he]; nofun
  · rw [he]; nofun
  · exact absurd he hs1

omit [DecidableEq C] in
include h hinv hcode in
theorem Tree.runnable_parent {i : ℕ} (ha : a = .setRunnable i) : s.parent i ≠ none := by
  subst ha
  obtain ⟨R, -, ⟨hwho, -⟩, -⟩ := hinv.side hcode
  cases ht : s.thread c with
  | none => exact absurd ht hwho
  | some p =>
    have hno := hinv.parent_set hcode
    rw [cur_of_thread ht] at hcode
    have hc : s.code p = _ := hcode
    refine h.adopted p i (hinv.live_thread ht) (by simp [hc]) fun q hm => ?_
    rw [hc] at hm
    simp only [List.mem_cons, Cmd.act.injEq, reduceCtorEq, false_or] at hm
    exact hno q hm

include hinv hfam hcode hact in
theorem Inv.act_childless {p j : ℕ} (hp : p ≠ initproc) (hj : s.parent j ≠ some p)
    (ha : a ≠ .setParent p j) : s1.parent j ≠ some p := by
  rcases hinv.act_parent hfam hcode hact j with he | ⟨he, -⟩ | ⟨q, rfl, he, -⟩ | ⟨he, -⟩
  · rw [he]; exact hj
  · rw [he]
    exact fun hpi => hp (Option.some.inj hpi).symm
  · rw [he]
    rintro ⟨rfl⟩
    exact ha rfl
  · rw [he]; nofun

include h hinv hfam hcode hact in
theorem Tree.act_descends {i : ℕ} (hd : Descends s.parent i)
    (hi : (s.proc i).state.active = true) : Descends s1.parent i := by
  induction hd with
  | root => exact .root
  | @child i q hpar _ ih =>
    have hq := ih (h.alive i q hpar)
    rcases hinv.act_parent hfam hcode hact i with he | ⟨he, -⟩ | ⟨p, -, -, hu⟩ | ⟨-, hz, -⟩
    · exact .child (he.trans hpar) hq
    · exact .child he .root
    · rw [hu] at hi; cases hi
    · rw [hz] at hi; cases hi

omit [DecidableEq C] in
include hinv hcode in
theorem Inv.exit_alone {p : ℕ} (hexit : (∃ i, .act (.reparent p i) ∈ s.code p) ∨
    ∃ status, .act (.setZombie p status) ∈ s.code p) (j : ℕ) : a ≠ .setParent p j := by
  rintro rfl
  obtain ⟨R, -, -, hty⟩ := hinv.typed c
  rw [hcode] at hty
  obtain ⟨⟨⟨ht, -⟩, -, rfl⟩, -⟩ := hty
  rw [cur_of_thread ht] at hcode
  rw [show s.code p = _ from hcode] at hexit
  simp at hexit

include h hinv hfam hcode hact in
theorem Tree.act_adopted {p i : ℕ} (hlive : (s1.proc p).state ≠ .unused)
    (hm : .act (.setRunnable i) ∈ (s1.setCode c (push ++ k) (s.thread c)).code p)
    (hno : ∀ q, .act (.setParent q i) ∉ (s1.setCode c (push ++ k) (s.thread c)).code p) :
    s1.parent i ≠ none := by
  -- the slot is relied on, so nobody frees it
  have hkeep : (s.proc p).state ≠ .unused → .act (.setRunnable i) ∈ s.code p →
      s.parent i ≠ none → s1.parent i ≠ none := by
    intro hlive hm hpar
    have hused : (s.proc i).state = .used := by
      refine hinv.kept (.inl p) i .used (fun q hq => by cases hq; exact hlive) ?_
      exact List.mem_filterMap.mpr ⟨_, hm, rfl⟩
    rcases hinv.act_parent hfam hcode hact i with he | ⟨he, -⟩ | ⟨q, -, he, -⟩ | ⟨-, -, hnu, -⟩
    · rw [he]; exact hpar
    · rw [he]; nofun
    · rw [he]; nofun
    · exact absurd hused hnu
  rcases hinv.life_code hcode hact hlive rfl hm with ⟨ht, hc, hm⟩ | ⟨-, hlive, hm, hc⟩
  · rw [setCode_code, if_pos ht] at hno
    rcases hm with hm | hm
    · cases begets_of_push hact hm rfl with
      | publish q i' kind =>
        simp only [publish, List.mem_cons, reduceCtorEq, Cmd.act.injEq, Act.setRunnable.injEq,
          List.not_mem_nil, or_false, false_or] at hm
        subst hm
        exact absurd (by simp [publish]) (hno q)
      | _ => simp [kexit, wakeup, shmSection] at hm
    · have hmem : .act (.setRunnable i) ∈ s.code p := by rw [hc]; exact List.mem_cons_of_mem _ hm
      by_cases ha : ∃ q, a = .setParent q i
      · obtain ⟨q, rfl⟩ := ha
        cases hact
        simp [State.parent]
      · refine hkeep (hinv.live_thread ht) hmem (h.adopted p i (hinv.live_thread ht) hmem ?_)
        intro q hq
        rw [hc] at hq
        rcases List.mem_cons.mp hq with he | hq
        · exact ha ⟨q, (Cmd.act.inj he).symm⟩
        · exact hno q (List.mem_append_right _ hq)
  · rw [hc] at hno
    exact hkeep hlive hm (h.adopted p i hlive hm hno)

include h hinv hfam hcode hact in
theorem Tree.act_reparent {p i : ℕ} (hlive : (s1.proc p).state ≠ .unused)
    (hm : .act (.reparent p i) ∈ (s1.setCode c (push ++ k) (s.thread c)).code p) :
    p ≠ initproc ∧ ∀ j < i, s1.parent j ≠ some p := by
  have hkeep : (s.proc p).state ≠ .unused → .act (.reparent p i) ∈ s.code p →
      p ≠ initproc ∧ ∀ j < i, s1.parent j ≠ some p := by
    intro hlive hm
    obtain ⟨hp, hnone⟩ := h.reparent p i hlive hm
    refine ⟨hp, fun j hj => hinv.act_childless hfam hcode hact hp (hnone j hj) ?_⟩
    exact hinv.exit_alone hcode (.inl ⟨i, hm⟩) j
  rcases hinv.life_code hcode hact hlive rfl hm with ⟨ht, hc, hm | hm⟩ | ⟨-, hlive, hm, -⟩
  · -- the loop goes on with the next slot
    have hnext : ∀ p' i', a = .reparent p' i' → i' < nproc → p = p' → i = i' + 1 →
        p ≠ initproc ∧ ∀ j < i, s1.parent j ≠ some p := by
      rintro p' i' rfl hi' rfl rfl
      have hmem : .act (.reparent p i') ∈ s.code p := by rw [hc]; exact List.mem_cons_self ..
      obtain ⟨hp, hnone⟩ := h.reparent p i' (hinv.live_thread ht) hmem
      refine ⟨hp, fun j hj => ?_⟩
      by_cases hji : j = i'
      · rw [hji]
        exact reparent_done hact hi' hp
      · exact hinv.act_childless hfam hcode hact hp (hnone j (by omega)) (by simp)
    cases begets_of_push hact hm rfl with
    | exit q status hq =>
      simp only [kexit, List.mem_cons, reduceCtorEq, Cmd.act.injEq, Act.reparent.injEq,
        List.not_mem_nil, or_false, false_or] at hm
      obtain ⟨rfl, rfl⟩ := hm
      exact ⟨hq, by simp⟩
    | reparent q i' hi' =>
      simp only [List.mem_cons, Cmd.act.injEq, Act.reparent.injEq, List.not_mem_nil,
        or_false] at hm
      exact hnext q i' rfl hi' hm.1 hm.2
    | reparented q i' hi' =>
      simp only [wakeup, List.cons_append, List.nil_append, List.mem_cons, reduceCtorEq,
        Cmd.act.injEq, Act.reparent.injEq, List.not_mem_nil, or_false, false_or] at hm
      exact hnext q i' rfl hi' hm.1 hm.2
    | _ => simp [shmSection, publish] at hm
  · exact hkeep (hinv.live_thread ht) (by rw [hc]; exact List.mem_cons_of_mem _ hm)
  · exact hkeep hlive hm

theorem reparent_end {p i : ℕ} (hact : s.act c ch (.reparent p i) = some (s1, push))
    (hno : ∀ j, .act (.reparent p j) ∉ push) : nproc ≤ i ∧ s1 = s := by
  simp only [State.act] at hact
  split_ifs at hact with hi hp <;> cases hact
  · exact absurd (by simp) (hno (i + 1))
  · exact absurd (by simp) (hno (i + 1))
  · exact ⟨Nat.not_lt.mp hi, rfl⟩

include h hinv hfam hcode hact in
theorem Tree.act_exits {p : ℕ} {status : ℤ} (hlive : (s1.proc p).state ≠ .unused)
    (hm : .act (.setZombie p status) ∈ (s1.setCode c (push ++ k) (s.thread c)).code p) :
    p ≠ initproc ∧
      ((∀ i, .act (.reparent p i) ∉ (s1.setCode c (push ++ k) (s.thread c)).code p) →
        ∀ j, s1.parent j ≠ some p) := by
  have hkeep : (s.proc p).state ≠ .unused → .act (.setZombie p status) ∈ s.code p →
      p ≠ initproc ∧ ((∀ i, .act (.reparent p i) ∉ s.code p) → ∀ j, s1.parent j ≠ some p) := by
    intro hlive hm
    obtain ⟨hp, hnone⟩ := h.exits p status hlive hm
    refine ⟨hp, fun hno j => hinv.act_childless hfam hcode hact hp (hnone hno j) ?_⟩
    exact hinv.exit_alone hcode (.inr ⟨status, hm⟩) j
  rcases hinv.life_code hcode hact hlive rfl hm with ⟨ht, hc, hm | hm⟩ | ⟨-, hlive, hm, hc⟩
  · cases begets_of_push hact hm rfl with
    | exit q status' hq =>
      simp only [kexit, List.mem_cons, reduceCtorEq, Cmd.act.injEq, Act.setZombie.injEq,
        List.not_mem_nil, or_false, false_or] at hm
      obtain ⟨rfl, rfl⟩ := hm
      refine ⟨hq, fun hno => absurd ?_ (hno 0)⟩
      rw [setCode_code, if_pos ht]
      simp [kexit]
    | _ => simp [wakeup, shmSection, publish] at hm
  · have hmem : .act (.setZombie p status) ∈ s.code p := by
      rw [hc]; exact List.mem_cons_of_mem _ hm
    obtain ⟨hp, hold⟩ := hkeep (hinv.live_thread ht) hmem
    refine ⟨hp, fun hno j => ?_⟩
    rw [setCode_code, if_pos ht] at hno
    by_cases ha : ∃ i, a = .reparent p i
    · obtain ⟨i, rfl⟩ := ha
      obtain ⟨hi, rfl⟩ := reparent_end hact fun j hj => hno j (List.mem_append_left _ hj)
      by_cases hj : j < i
      · have hmem : .act (.reparent p i) ∈ s1.code p := by rw [hc]; exact List.mem_cons_self ..
        exact (h.reparent p i (hinv.live_thread ht) hmem).2 j hj
      · have hunused : (s1.proc j).state = .unused := by
          by_contra hne
          have := hfam.bound j hne
          omega
        simp [State.parent, hfam.orphan j hunused]
    · refine hold (fun i hi => ?_) j
      rw [hc] at hi
      rcases List.mem_cons.mp hi with he | hi
      · exact ha ⟨i, (Cmd.act.inj he).symm⟩
      · exact hno i (List.mem_append_right _ hi)
  · rw [hc]
    exact hkeep hlive hm

include h hinv hfam hcode hact in
theorem Tree.act : Tree (s1.setCode c (push ++ k) (s.thread c)) := by
  have hproc : (s1.setCode c (push ++ k) (s.thread c)).proc = s1.proc := setCode_proc _ _ _ _
  have hparent : (s1.setCode c (push ++ k) (s.thread c)).parent = s1.parent := by
    funext i
    rw [State.parent, hproc, State.parent]
  constructor
  case root =>
    rw [hproc, hparent]
    refine ⟨h.stays (i := 0) hinv hcode hact h.root.1 (.inr rfl), ?_⟩
    rcases hinv.act_parent hfam hcode hact initproc with
      he | ⟨-, p, -, he⟩ | ⟨p, -, -, hu⟩ | ⟨he, -⟩
    · rw [he]; exact h.root.2
    · rw [h.root.2] at he; cases he
    · have hroot := h.root.1
      rw [hu] at hroot
      cases hroot
    · exact he
  case alive =>
    rw [hproc, hparent]
    exact fun i q hq => h.act_alive hinv hfam hcode hact hq
  case kept =>
    rw [hproc, hparent]
    intro i hi hst
    have hlive : (s1.proc i).state ≠ .unused := by
      intro hu
      rw [hu] at hst
      rcases hst with hst | hst <;> cases hst
    refine hinv.act_keeps hfam hcode hact ?_ hlive
    rcases hst with hst | hst
    · rcases (hinv.act_change hcode hact i).to_active hst with hs | ⟨-, ha⟩
      · exact h.kept i hi (.inl hs)
      · exact h.runnable_parent hinv hcode ha
    · rcases (hst ▸ hinv.act_change hcode hact i).to_zombie with hs | ⟨status, -, hs⟩
      · exact h.kept i hi (.inr hs)
      · exact h.kept i hi (.inl (by rw [hs]; rfl))
  case adopted =>
    intro p i hlive hm hno
    rw [hproc] at hlive
    rw [hparent]
    exact h.act_adopted hinv hfam hcode hact hlive hm hno
  case reparent =>
    intro p i hlive hm
    rw [hproc] at hlive
    rw [hparent]
    exact h.act_reparent hinv hfam hcode hact hlive hm
  case exits =>
    intro p status hlive hm
    rw [hproc] at hlive
    rw [hparent]
    exact h.act_exits hinv hfam hcode hact hlive hm
  case descends =>
    rw [hproc, hparent]
    intro i hi
    rcases (hinv.act_change hcode hact i).to_active hi with hs | ⟨hu, ha⟩
    · exact h.act_descends hinv hfam hcode hact (h.descends i hs) hs
    · have hpar := h.runnable_parent hinv hcode ha
      obtain ⟨q, hq⟩ := Option.ne_none_iff_exists'.mp hpar
      have hactive := h.alive i q hq
      have hd := h.act_descends hinv hfam hcode hact (h.descends q hactive) hactive
      rcases hinv.act_parent hfam hcode hact i with he | ⟨he, -⟩ | ⟨p, rfl, -, -⟩ | ⟨-, -, hnu, -⟩
      · exact .child (he.trans hq) hd
      · exact .child he .root
      · cases ha
      · exact absurd hu hnu

end

omit [DecidableEq C] in
theorem Tree.quiet (h : Tree s) (hp : s'.proc = s.proc)
    (hc : ∀ t (b : Act), b.handler = false → (.act b ∈ s'.codeAt t ↔ .act b ∈ s.codeAt t)) :
    Tree s' := by
  have hparent : s'.parent = s.parent := by
    funext i
    rw [State.parent, hp, State.parent]
  have hmem : ∀ p (b : Act), b.handler = false → (.act b ∈ s'.code p ↔ .act b ∈ s.code p) :=
    fun p => hc (.inl p)
  constructor
  · rw [hp, hparent]; exact h.root
  · rw [hp, hparent]; exact h.alive
  · rw [hp, hparent]; exact h.kept
  · intro p i hlive hm hno
    rw [hp] at hlive
    rw [hparent]
    refine h.adopted p i hlive ((hmem p _ rfl).mp hm) fun q hq => hno q ?_
    exact (hmem p _ rfl).mpr hq
  · intro p i hlive hm
    rw [hp] at hlive
    rw [hparent]
    exact h.reparent p i hlive ((hmem p _ rfl).mp hm)
  · intro p status hlive hm
    rw [hp] at hlive
    rw [hparent]
    obtain ⟨hpi, hnone⟩ := h.exits p status hlive ((hmem p _ rfl).mp hm)
    exact ⟨hpi, fun hno => hnone fun i hi => hno i ((hmem p _ rfl).mpr hi)⟩
  · rw [hp, hparent]; exact h.descends

theorem Tree.step (h : Tree s) (hinv : Inv s) (hfam : Family s) {l : Label C}
    (hstep : Sched.step s l = some s') : Tree s' := by
  rcases step_life hstep with ⟨a, k, s1, push, hcode, hact, rfl⟩ | ⟨hp, -, hc⟩
  · exact h.act hinv hfam hcode hact
  · exact h.quiet hp hc

omit [DecidableEq C] in
theorem tree_boot : Tree (boot : State C) := by
  have hproc : ∀ i, i ≠ initproc → (boot : State C).proc i = unusedProc := by
    intro i hi
    simp [boot, hi]
  have hparent : ∀ i, (boot : State C).parent i = none := by
    intro i
    by_cases hi : i = initproc
    · subst hi; rfl
    · rw [State.parent, hproc i hi]; rfl
  have hcode : ∀ p (b : Act), b.lifecycle = true → .act b ∉ (boot : State C).code p := by
    intro p b hb hm
    by_cases hp : p = initproc
    · subst hp
      have hfalse := lifecycle_of_steady (k := forkret initproc) rfl hm
      rw [hb] at hfalse
      cases hfalse
    · simp [boot, hp] at hm
  constructor
  · exact ⟨rfl, rfl⟩
  · intro i q hq
    rw [hparent i] at hq
    cases hq
  · intro i hi hst
    rw [hproc i hi] at hst
    rcases hst with hst | hst <;> cases hst
  · exact fun p i _ hm => absurd hm (hcode p _ rfl)
  · exact fun p i _ hm => absurd hm (hcode p _ rfl)
  · exact fun p status _ hm => absurd hm (hcode p _ rfl)
  · intro i hi
    by_cases hi0 : i = initproc
    · subst hi0; exact .root
    · rw [hproc i hi0] at hi
      cases hi

/-- The invariants that results about the process table use. -/
structure Grown (s : State C) : Prop where
  inv : Inv s
  family : Family s
  tree : Tree s

theorem grown_run {ls : List (Label C)} (h : exec step boot ls = some s) : Grown s :=
  exec_invariant
    (fun _ _ _ hg hs => ⟨hg.inv.step hs, hg.family.step hg.inv hs,
      hg.tree.step hg.inv hg.family hs⟩)
    ⟨inv_boot, family_boot, tree_boot⟩ h

/-- A parent keeps its slot, and the slot its process, while a pointer leads to it. -/
theorem Grown.parent_stays (h : Grown s) {l : Label C} (hstep : Sched.step s l = some s')
    {i q : ℕ} (hi : (s.proc i).parent = some q) (hi' : (s'.proc i).parent = some q) :
    (s'.proc q).state ≠ .unused ∧ (s'.proc q).pid = (s.proc q).pid := by
  have hactive := h.tree.alive i q hi
  have hactive' := (h.tree.step h.inv h.family hstep).alive i q hi'
  have hused : (s'.proc q).state ≠ .unused := by
    intro hu
    rw [hu] at hactive'
    cases hactive'
  refine ⟨hused, ?_⟩
  rcases step_life hstep with ⟨a, k, s1, push, hcode, hact, rfl⟩ | ⟨hp, -⟩
  · rw [setCode_proc] at hactive' ⊢
    generalize hq' : s1.proc q = x at *
    have hkin := h.inv.act_kin hcode hact q
    rw [hq'] at hkin
    generalize hq : s.proc q = y at *
    cases hkin with
    | same hk _ => exact hk.2.1
    | unused hu _ => rw [hu] at hactive; cases hactive
    | reparent _ _ hpid _ => exact hpid
    | setParent hu _ => rw [hu] at hactive; cases hactive
    | reap hz _ _ => rw [hz] at hactive; cases hactive
  · rw [hp]

/-- In every state that any number of CPUs reaches, whether or not `wait_lock` is free: a
process other than the first one that has been set up, and a zombie, has a parent that is
neither unused nor a zombie; unused slots have none; the pointers lead to the first
process; and while a pointer leads to a slot, the slot is not given to another process. -/
theorem process_tree (ls : List (Label C)) (s : State C) (hrun : exec step boot ls = some s) :
    (∀ i, i ≠ initproc → (s.proc i).state.active = true ∨ (s.proc i).state = .zombie →
      ∃ q, (s.proc i).parent = some q ∧ (s.proc q).state ≠ .unused ∧
        (s.proc q).state ≠ .zombie) ∧
    (∀ i, (s.proc i).state = .unused → (s.proc i).parent = none) ∧
    (∀ i, (s.proc i).state.active = true ∨ (s.proc i).state = .zombie → Descends s.parent i) ∧
    ∀ l s' i q, step s l = some s' → (s.proc i).parent = some q → (s'.proc i).parent = some q →
      (s'.proc q).state ≠ .unused ∧ (s'.proc q).pid = (s.proc q).pid := by
  have h := grown_run hrun
  have hpar : ∀ i, i ≠ initproc →
      (s.proc i).state.active = true ∨ (s.proc i).state = .zombie →
      ∃ q, (s.proc i).parent = some q ∧ (s.proc q).state.active = true := by
    intro i hi hst
    obtain ⟨q, hq⟩ := Option.ne_none_iff_exists'.mp (h.tree.kept i hi hst)
    exact ⟨q, hq, h.tree.alive i q hq⟩
  refine ⟨fun i hi hst => ?_, h.family.orphan, fun i hst => ?_,
    fun l s' i q hstep hi hi' => h.parent_stays hstep hi hi'⟩
  · obtain ⟨q, hq, hactive⟩ := hpar i hi hst
    refine ⟨q, hq, fun hu => ?_, fun hz => ?_⟩
    · rw [hu] at hactive; cases hactive
    · rw [hz] at hactive; cases hactive
  · by_cases hi : i = initproc
    · rw [hi]; exact .root
    · obtain ⟨q, hq, hactive⟩ := hpar i hi hst
      exact .child hq (h.tree.descends q hactive)

/-- The run in which the first process forks a child. -/
def forkRun {C : Type} (c : C) : List (Label C) :=
  List.replicate 258 ⟨c, .go⟩ ++ [⟨c, .call (.spawn .kfork)⟩] ++ List.replicate 18 ⟨c, .go⟩

theorem forkRun_ends : ∃ s, exec step boot (forkRun (0 : Fin 1)) = some s ∧ (s.proc 1).state = .runnable ∧
    (s.proc 1).pid = 2 ∧ (s.cpu 0).noff = 0 := by
  have hrun : (exec step boot (forkRun (0 : Fin 1))).map
      (fun s => ((s.proc 1).state, (s.proc 1).pid, (s.cpu 0).noff)) = some (.runnable, 2, 0) := by
    decide +kernel
  obtain ⟨s, hs, hview⟩ := Option.map_eq_some_iff.mp hrun
  simp only [Prod.mk.injEq] at hview
  exact ⟨s, hs, hview⟩

/-- The first process forks a child that has not run yet. -/
theorem process_tree_fork : ∃ s : State (Fin 1),
    exec step boot (List.replicate 258 ⟨0, .go⟩ ++ [⟨0, .call (.spawn .kfork)⟩] ++
      List.replicate 18 ⟨0, .go⟩) = some s ∧
    (s.proc 1).state = .runnable ∧ Descends s.parent 1 := by
  obtain ⟨s, hs, hst, -⟩ := forkRun_ends
  exact ⟨s, hs, hst, (process_tree _ s hs).2.2.1 1 (.inl (by rw [hst]; rfl))⟩

end Xv6.Sched
